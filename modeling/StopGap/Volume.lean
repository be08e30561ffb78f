import StopGap.Lib.Runs
import Mathlib.Algebra.GroupWithZero.Nat
import Mathlib.Logic.Function.Basic

/-!
# The volume

A volume is its cluster bitmap and, for each file, where its virtual clusters lie. The driver
changes it in one way only: a granted `FSCTL_MOVE_FILE` puts the allocated clusters of a range of
virtual clusters on consecutive clusters from the target on, and leaves virtual clusters that have
none as they are.
-/

namespace StopGap

open Runs

structure Region where
  lcn : ℕ
  length : ℕ
deriving DecidableEq, Repr

def Region.run (r : Region) : Run := ⟨r.lcn, r.length⟩

structure Block where
  vcn : ℕ
  lcn : ℕ
  length : ℕ
deriving DecidableEq, Repr

def Block.run (b : Block) : Run := ⟨b.lcn, b.length⟩

abbrev FileId := ℕ

/-- `NTSTATUS`, a `LONG`. -/
abbrev NtStatus := BitVec 32

def ntSuccess (status : NtStatus) : Bool := decide (0 ≤ status.toInt)

/-- `STATUS_ALREADY_COMMITTED`: the target clusters are already in use. -/
def statusAlreadyCommitted : NtStatus := 0xC0000021#32

/-- Virtual clusters of a file, `length` of them: on consecutive clusters from `lcn` on, or without
clusters. -/
structure Extent where
  lcn : Option ℕ
  length : ℕ
deriving DecidableEq, Repr

namespace Extent

def lcns (e : Extent) : List ℕ :=
  match e.lcn with
  | none => []
  | some l => List.range' l e.length

def expand (e : Extent) : List (Option ℕ) :=
  match e.lcn with
  | none => List.replicate e.length none
  | some l => (List.range' l e.length).map some

def allocated (e : Extent) : ℕ :=
  match e.lcn with
  | none => 0
  | some _ => e.length

def has (e : Extent) (c : ℕ) : Bool :=
  match e.lcn with
  | none => false
  | some l => decide (l ≤ c ∧ c < l + e.length)

end Extent

/-- The clusters of a file, in the order of its virtual clusters. -/
def lcns (m : List Extent) : List ℕ := m.flatMap Extent.lcns

/-- The cluster of each virtual cluster. -/
def expand (m : List Extent) : List (Option ℕ) := m.flatMap Extent.expand

def allocated (m : List Extent) : ℕ := (m.map Extent.allocated).sum

/-- The first `n` virtual clusters. -/
def takeVcn : ℕ → List Extent → List Extent
  | _, [] => []
  | n, e :: es =>
    if e.length ≤ n then e :: takeVcn (n - e.length) es
    else if n = 0 then [] else [⟨e.lcn, n⟩]

/-- The virtual clusters from the `n`-th on. -/
def dropVcn : ℕ → List Extent → List Extent
  | _, [] => []
  | n, e :: es =>
    if e.length ≤ n then dropVcn (n - e.length) es
    else ⟨e.lcn.map (· + n), e.length - n⟩ :: es

/-- The same virtual clusters with their clusters moved to `t`, `t + 1` and so on. -/
def place : ℕ → List Extent → List Extent
  | _, [] => []
  | t, e :: es =>
    match e.lcn with
    | none => e :: place t es
    | some _ => ⟨some t, e.length⟩ :: place (t + e.length) es

/-- `MOVEFILE_DESCRIPTOR`, the file for its handle. -/
structure MoveFileDescriptor where
  file : FileId
  startVcn : ℕ
  targetLcn : ℕ
  numVcns : ℕ
deriving DecidableEq, Repr

structure Volume where
  -- `total_clusters`
  total : ℕ
  -- the bitmap `FSCTL_GET_VOLUME_BITMAP` reports
  used : ℕ → Bool
  map : FileId → List Extent

namespace Volume

def requested (v : Volume) (d : MoveFileDescriptor) : List Extent :=
  takeVcn d.numVcns (dropVcn d.startVcn (v.map d.file))

/-- What a granted `FSCTL_MOVE_FILE` does. -/
def fsctlMoveFile (v : Volume) (d : MoveFileDescriptor) : Volume :=
  let moved := v.requested d
  { v with
    used := fun c =>
      if d.targetLcn ≤ c ∧ c < d.targetLcn + allocated moved then true
      else if moved.any (·.has c) then false
      else v.used c
    map := Function.update v.map d.file
      (takeVcn d.startVcn (v.map d.file) ++ place d.targetLcn moved
        ++ dropVcn (d.startVcn + d.numVcns) (v.map d.file)) }

/-- The loop of `winx_get_free_volume_regions` over the bitmap, from cluster `i` on, with
`free_rgn_start` where a free region is open. The portions the bitmap is read in do not matter: the
open region is carried over from one to the next. -/
def freeRegionsFrom (used : ℕ → Bool) : (n i : ℕ) → (freeRgnStart : Option ℕ) → List Region
  | 0, _, none => []
  | 0, i, some s => [⟨s, i - s⟩]
  | n + 1, i, start =>
    if used i then
      match start with
      | none => freeRegionsFrom used n (i + 1) none
      | some s => ⟨s, i - s⟩ :: freeRegionsFrom used n (i + 1) none
    else freeRegionsFrom used n (i + 1) (some (start.getD i))

/-- `winx_get_free_volume_regions` without flags and callback. -/
def winxGetFreeVolumeRegions (v : Volume) : List Region := freeRegionsFrom v.used v.total 0 none

def Free (v : Volume) (c : ℕ) : Prop := c < v.total ∧ v.used c = false

instance (v : Volume) (c : ℕ) : Decidable (v.Free c) := inferInstanceAs (Decidable (_ ∧ _))

end Volume

end StopGap
