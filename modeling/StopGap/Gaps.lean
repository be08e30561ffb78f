import StopGap.Volume
import StopGap.Lib.OrdMap

/-!
# The gap model

`GapEnumeration` keeps the free regions in two ordered containers over the nodes of one linked
list: `regions_` by start, `sizes_` by length. The nodes are changed in place, so they live in a
heap here and the containers hold their addresses. The heap is the one of the current list:
`scan()` frees every node of the one before, which `scans` counts.

`std::prev(begin())` is read as "no predecessor", as the comparison with `end()` intends.
-/

namespace StopGap

open Runs

/-- What ends the process. -/
inductive Fault where
  -- `::DebugBreak()`, a breakpoint exception nobody handles
  | debugBreak
  -- `std::prev` of the end of an empty map
  | noPredecessor
  -- `disp.blockmap->lcn` of a file without a map
  | nullBlockmap
  -- a region read after `scan()` freed it
  | danglingRegion
deriving DecidableEq, Repr

/-- A `const winx_volume_region *`: a node of the list, or a copy outside it. -/
inductive RegionPtr where
  | node (n : ℕ)
  | copy (r : Region)
deriving DecidableEq, Repr

structure GapEnumeration where
  -- the nodes of the `info_` list from its head on; none for the null pointer
  info : List ℕ
  node : ℕ → Region
  -- the next address `winx_list_insert` allocates
  fresh : ℕ
  regions : List (ℕ × ℕ)
  sizes : List (ℕ × ℕ)
  scans : ℕ
  -- the regions `pop(r)` took out since the last `scan()`; the program does not keep them
  dropped : List Region

namespace GapEnumeration

/-- The regions in the order of `regions_`. -/
def gaps (ge : GapEnumeration) : List Run := ge.regions.map fun e => (ge.node e.2).run

/-- The regions in the order of `sizes_`. -/
def sizeGaps (ge : GapEnumeration) : List Run := ge.sizes.map fun e => (ge.node e.2).run

def empty : GapEnumeration := ⟨[], fun _ => ⟨0, 0⟩, 0, [], [], 0, []⟩

def filterNode (ge : GapEnumeration) (n : ℕ) : GapEnumeration :=
  { ge with
    regions := OrdMap.insert ((ge.node n).lcn, n) ge.regions
    sizes := OrdMap.insertMulti ((ge.node n).length, n) ge.sizes }

def filter (ge : GapEnumeration) : GapEnumeration :=
  ge.info.foldl filterNode { ge with regions := [], sizes := [] }

/-- `scan`, where `free` is what `winx_get_free_volume_regions` returns. -/
def scan (free : List Region) (ge : GapEnumeration) : GapEnumeration :=
  filter
    { info := List.range free.length
      node := fun n => free.getD n ⟨0, 0⟩
      fresh := free.length
      regions := []
      sizes := []
      scans := ge.scans + 1
      dropped := [] }

def next (ge : GapEnumeration) : Option ℕ := ge.regions.head?.map Prod.snd

def deref (ge : GapEnumeration) : RegionPtr → Region
  | .node n => ge.node n
  | .copy r => r

/-- What the three loops of `best` return an entry for. -/
def eligible (ge : GapEnumeration) (not : Option RegionPtr) (behindOnly : Bool) (e : ℕ × ℕ) :
    Bool :=
  match not with
  | none => true
  | some p =>
    !(behindOnly && decide ((ge.node e.2).lcn ≤ (ge.deref p).lcn)) && decide (p ≠ .node e.2)

/-- `max(clusters * 3 / 2, clusters + 512)` in 64-bit arithmetic. -/
def muchLarger (clusters : ℕ) : ℕ := max (clusters * 3 % 2 ^ 64 / 2) ((clusters + 512) % 2 ^ 64)

def best (ge : GapEnumeration) (clusters : ℕ) (not : Option RegionPtr) (behindOnly : Bool) :
    Option ℕ :=
  let eligible := ge.eligible not behindOnly
  -- a matching region, else the first that is much larger, else the largest one
  let found := (OrdMap.equalRange clusters ge.sizes).find? eligible
    <|> (ge.sizes.dropWhile fun e => e.1 ≤ muchLarger clusters).find? eligible
    <|> (ge.sizes.reverse.takeWhile fun e => clusters ≤ e.1).find? eligible
  found.map Prod.snd

/-- `pop(lcn, length)`, where `free` is what a rescan would read. The breakpoint before the rescan
is for debug builds only. -/
def pop (free : List Region) (lcn length : ℕ) (ge : GapEnumeration) :
    Except Fault GapEnumeration :=
  match OrdMap.find lcn ge.regions with
  | none => .ok (ge.scan free)
  | some (_, n) =>
    let g := ge.node n
    let sizes := ge.sizes.erase (g.length, n)
    if length < g.length then
      let rest : Region := ⟨g.lcn + length, g.length - length⟩
      .ok { ge with
        node := Function.update ge.node n rest
        regions := OrdMap.insert (rest.lcn, n) (OrdMap.erase lcn ge.regions)
        sizes := OrdMap.insertMulti (rest.length, n) sizes }
    else if g.length < length then .error .debugBreak
    else .ok { ge with regions := OrdMap.erase lcn ge.regions, sizes := sizes }

/-- `pop(r)`: only `close_gaps` calls it, to drop a gap. -/
def popRegion (free : List Region) (n : ℕ) (ge : GapEnumeration) : Except Fault GapEnumeration :=
  let r := ge.node n
  if (OrdMap.find r.lcn ge.regions).isSome then
    (ge.pop free r.lcn r.length).map fun ge' => { ge' with dropped := ge'.dropped ++ [r] }
  else ge.pop free r.lcn r.length

/-- `pop(f)` for a file with the given map. -/
def popBlocks (free : List Region) (bm : List Block) (ge : GapEnumeration) :
    Except Fault GapEnumeration :=
  bm.foldlM (fun ge b => ge.pop free b.lcn b.length) ge

/-- `winx_list_insert` after `item`. -/
def insertAfter (item new : ℕ) : List ℕ → List ℕ
  | [] => [new]
  | n :: ns => if n = item then n :: new :: ns else n :: insertAfter item new ns

/-- The predecessor's region ends where the block starts. -/
def mergesPrev (ge : GapEnumeration) (b : Block) (prev : ℕ × ℕ) : Bool :=
  decide ((ge.node prev.2).lcn + (ge.node prev.2).length = b.lcn)

def pushBlock (ge : GapEnumeration) (b : Block) : Except Fault GapEnumeration :=
  if b.length = 0 then .ok ge else
  let prev := OrdMap.before b.lcn ge.regions
  let next := OrdMap.find (b.lcn + b.length) ge.regions
  match prev.filter (ge.mergesPrev b), next with
  | some (_, p), some (k, n) =>
    let sizes := (ge.sizes.erase ((ge.node p).length, p)).erase ((ge.node n).length, n)
    let merged : Region :=
      ⟨(ge.node p).lcn, (ge.node p).length + (b.length + (ge.node n).length)⟩
    .ok { ge with
      node := Function.update ge.node p merged
      regions := OrdMap.erase k ge.regions
      sizes := OrdMap.insertMulti (merged.length, p) sizes }
  | some (_, p), none =>
    let merged : Region := ⟨(ge.node p).lcn, (ge.node p).length + b.length⟩
    .ok { ge with
      node := Function.update ge.node p merged
      sizes := OrdMap.insertMulti (merged.length, p) (ge.sizes.erase ((ge.node p).length, p)) }
  | none, some (k, n) =>
    let merged : Region := ⟨b.lcn, (ge.node n).length + b.length⟩
    .ok { ge with
      node := Function.update ge.node n merged
      regions := OrdMap.insert (merged.lcn, n) (OrdMap.erase k ge.regions)
      sizes := OrdMap.insertMulti (merged.length, n) (ge.sizes.erase ((ge.node n).length, n)) }
  | none, none =>
    if ge.info = [] then .error .debugBreak
    else match prev.or ge.regions.getLast? with
      | none => .error .noPredecessor
      | some (_, item) =>
        .ok { ge with
          info := insertAfter item ge.fresh ge.info
          node := Function.update ge.node ge.fresh ⟨b.lcn, b.length⟩
          fresh := ge.fresh + 1
          regions := OrdMap.insert (b.lcn, ge.fresh) ge.regions
          sizes := OrdMap.insertMulti (b.length, ge.fresh) ge.sizes }

def push (ge : GapEnumeration) (bm : List Block) : Except Fault GapEnumeration :=
  bm.foldlM pushBlock ge

end GapEnumeration

end StopGap
