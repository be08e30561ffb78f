import StopGap.Gaps
import Mathlib.Data.List.Rotate

/-!
# The files

`winx_ftw_dump_file` reads where a file lies off its retrieval pointers. `FileEnumeration` keeps
the movable files by their size in `buckets_` and, once `findAt` has been asked, by the start of
each of their blocks in `lcns_`. A block map is a circular list: here the list of its blocks from
its head on, empty for the null pointer.
-/

namespace StopGap

/-- `winx_file_disposition`. -/
structure Disposition where
  clusters : ℕ
  fragments : ℕ
  blockmap : List Block
deriving DecidableEq, Repr

namespace Disposition

def zero : Disposition := ⟨0, 0, []⟩

/-- One allocated pair of the retrieval pointers: a block at the end of the map, a fragment more
unless it goes on where the last block ends. -/
def addBlock (disp : Disposition) (b : Block) : Disposition where
  clusters := disp.clusters + b.length
  fragments :=
    match disp.blockmap.getLast? with
    | none => disp.fragments + 1
    | some prev => if b.lcn = prev.lcn + prev.length then disp.fragments else disp.fragments + 1
  blockmap := disp.blockmap ++ [b]

end Disposition

/-- A pair of `FSCTL_GET_RETRIEVAL_POINTERS`: the virtual cluster the next one starts at, and the
cluster this one starts at, none for `LLINVALID`. -/
structure RetrievalPair where
  vcn : ℕ
  lcn : Option ℕ
deriving DecidableEq, Repr

/-- The pairs that report the extents, from virtual cluster `startVcn` on. -/
def retrievalPairs : (startVcn : ℕ) → List Extent → List RetrievalPair
  | _, [] => []
  | startVcn, e :: es => ⟨startVcn + e.length, e.lcn⟩ :: retrievalPairs (startVcn + e.length) es

/-- The loop of `winx_ftw_dump_file` over the pairs; none for `dump_failed`. -/
def dumpPairs : (startVcn : ℕ) → List RetrievalPair → Disposition → Option Disposition
  | _, [], disp => some disp
  | startVcn, p :: ps, disp =>
    match p.lcn with
    | none => dumpPairs p.vcn ps disp
    | some lcn =>
      if p.vcn = 0 then none
      else dumpPairs p.vcn ps (disp.addBlock ⟨startVcn, lcn, p.vcn - startVcn⟩)

/-- `validate_blockmap`: a map whose first two blocks start at one virtual cluster is destroyed. -/
def validateBlockmap (disp : Disposition) : Disposition :=
  match disp.blockmap with
  | b₁ :: b₂ :: _ => if b₁.vcn = b₂.vcn then { disp with blockmap := [] } else disp
  | _ => disp

/-- `winx_ftw_dump_file`: the disposition it leaves, where `report` is what the driver reports, none
if the file cannot be opened or the driver fails. -/
def winxFtwDumpFile (report : Option (List Extent)) : Disposition :=
  match report with
  | none => .zero
  | some m =>
    match dumpPairs 0 (retrievalPairs 0 m) .zero with
    | none => .zero
    | some disp => validateBlockmap disp

/-- Where `std::min_element` finds the block with the lowest start. -/
def minElement (bm : List Block) : ℕ := bm.findIdx fun b => bm.all fun b' => b.lcn ≤ b'.lcn

/-- `FileEnumeration::order`: the head of the map is its lowest block. -/
def order (disp : Disposition) : Disposition :=
  { disp with blockmap := disp.blockmap.rotate (minElement disp.blockmap) }

structure FileEnumeration where
  disp : FileId → Disposition
  buckets : List (ℕ × FileId)
  lcns : List (ℕ × FileId)
  unmovable : List FileId
  fragmented : ℕ
  unprocessable : ℕ

namespace FileEnumeration

/-- What `scan` does with a file of the list `winx_scan_disk` returns. -/
def scanFile (excluded : FileId → Bool) (fe : FileEnumeration) (f : FileId) : FileEnumeration :=
  let fe :=
    if 1 < (fe.disp f).fragments then { fe with fragmented := fe.fragmented + 1 } else fe
  if (fe.disp f).blockmap = [] ∨ excluded f then
    { fe with unmovable := fe.unmovable ++ [f], unprocessable := fe.unprocessable + 1 }
  else
    { fe with
      disp := Function.update fe.disp f (order (fe.disp f))
      buckets := OrdMap.insertMulti ((fe.disp f).clusters, f) fe.buckets }

/-- `scan`, where `disk` is the list `winx_scan_disk` returns, `disp` the dispositions in it and
`excluded` the search for the regular expression of that name in a path. -/
def scan (disk : List FileId) (disp : FileId → Disposition) (excluded : FileId → Bool) :
    FileEnumeration :=
  disk.foldl (scanFile excluded) ⟨disp, [], [], [], 0, 0⟩

/-- The starts of a file's blocks, each with the file. -/
def starts (fe : FileEnumeration) (f : FileId) : List (ℕ × FileId) :=
  (fe.disp f).blockmap.map fun b => (b.lcn, f)

def buildLcns (fe : FileEnumeration) : List (ℕ × FileId) :=
  (fe.buckets.flatMap fun e => fe.starts e.2).foldl (fun m e => OrdMap.insert e m) []

/-- `findAt`: the enumeration with the index built, and the file. -/
def findAt (fe : FileEnumeration) (lcn : ℕ) : FileEnumeration × Option FileId :=
  let fe := if fe.lcns = [] then { fe with lcns := fe.buildLcns } else fe
  (fe, (OrdMap.find lcn fe.lcns).map Prod.snd)

/-- `f` is in `buckets_` under its current cluster count. -/
def Present (fe : FileEnumeration) (f : FileId) : Prop := ((fe.disp f).clusters, f) ∈ fe.buckets

instance (fe : FileEnumeration) (f : FileId) : Decidable (fe.Present f) :=
  inferInstanceAs (Decidable (_ ∈ _))

/-- `pop`. The assertion at its end is compiled out of a release build, which goes on. -/
def pop (fe : FileEnumeration) (f : FileId) : FileEnumeration :=
  { fe with
    lcns :=
      if fe.lcns = [] then []
      else (fe.disp f).blockmap.foldl (fun m b => OrdMap.erase b.lcn m) fe.lcns
    buckets := fe.buckets.erase ((fe.disp f).clusters, f) }

def push (fe : FileEnumeration) (f : FileId) : FileEnumeration :=
  { fe with
    lcns :=
      if fe.lcns = [] then []
      else (fe.starts f).foldl (fun m e => OrdMap.insert e m) fe.lcns
    disp := Function.update fe.disp f (order (fe.disp f))
    buckets := OrdMap.insertMulti ((fe.disp f).clusters, f) fe.buckets }

end FileEnumeration

end StopGap
