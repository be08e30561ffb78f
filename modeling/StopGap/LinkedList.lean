import StopGap.Lib.Ring
import StopGap.ScanDisk

/-!
# The lists in memory

The lists of the library are circular, linked in both directions through the entries themselves
(list.c): the block maps, the free regions and the file list. The models of the scan and of the
operation have the list of the entries from the head on instead. Here are the functions on the
pointers, for entries at any addresses; none is an access to an entry that is not allocated.
-/

namespace StopGap

namespace LinkedList

open Ring

variable {α : Type} [DecidableEq α]

/-- `winx_list_insert`, where `new` is what `winx_malloc` returns: the pointers, and `*phead`. -/
def winxListInsert (m : Heap α) (phead prev : Option α) (new : α) :
    Option (Heap α × Option α) :=
  match phead with
  | none => some (Function.update m new (some ⟨new, new⟩), some new)
  | some head =>
    match prev with
    | none => do
      let l ← m head
      let m ← insertAfter m l.prev new
      pure (m, some new)
    | some prev => do
      let m ← insertAfter m prev new
      pure (m, some head)

/-- `winx_list_remove`. -/
def winxListRemove (m : Heap α) (phead : Option α) (item : α) : Option (Heap α × Option α) :=
  match phead with
  | none => some (m, none)
  | some head => do
    let l ← m item
    if item = head ∧ l.next = head then
      let m ← free m item
      pure (m, none)
    else
      let phead ← if item = head then (m head).map Links.next else some head
      let m ← unlink m item
      let m ← free m item
      pure (m, some phead)

/-- The loop of `winx_list_destroy`; none also if it is not over yet. -/
def destroyLoop (head : α) : (fuel : ℕ) → Heap α → (item : α) → Option (Heap α)
  | 0, _, _ => none
  | fuel + 1, m, item => do
    let l ← m item
    let m ← free m item
    if l.next = head then pure m else destroyLoop head fuel m l.next

def winxListDestroy (fuel : ℕ) (m : Heap α) (phead : Option α) : Option (Heap α × Option α) :=
  match phead with
  | none => some (m, none)
  | some head => do
    let m ← destroyLoop head fuel m head
    pure (m, none)

/-- The loop of `ftw_remove_resident_streams` and `ftw_remove_invalid_streams` from `f` on, where
`drop` says which entries are removed. -/
def removeLoop (drop : α → Bool) :
    (fuel : ℕ) → Heap α → (filelist : Option α) → (f : α) → Option (Heap α × Option α)
  | 0, _, _, _ => none
  | fuel + 1, m, filelist, f => do
    let l ← m f
    let (m, filelist') ← if drop f then winxListRemove m filelist f else some (m, filelist)
    if filelist' = none ∨ some l.next = filelist then pure (m, filelist')
    else removeLoop drop fuel m filelist' l.next

def removeStreams (drop : α → Bool) (fuel : ℕ) (m : Heap α) (filelist : Option α) :
    Option (Heap α × Option α) :=
  match filelist with
  | none => some (m, none)
  | some f => removeLoop drop fuel m filelist f

section Files

variable (info : α → Mft.FileInfo)

def ftwRemoveResidentStreams : (fuel : ℕ) → Heap α → Option α → Option (Heap α × Option α) :=
  removeStreams fun a => (info a).disp.fragments = 0

def ftwRemoveInvalidStreams : (fuel : ℕ) → Heap α → Option α → Option (Heap α × Option α) :=
  removeStreams fun a => (info a).path.getD [] = []

end Files

/-- The entries an iterator of `List` (zen.hpp) comes to from `p` on. -/
def iterate (head : α) : (fuel : ℕ) → Heap α → (p : α) → Option (List α)
  | 0, _, _ => none
  | fuel + 1, m, p => do
    let l ← m p
    if l.next = head then pure [p] else
      let rest ← iterate head fuel m l.next
      pure (p :: rest)

/-- The entries between `begin` and `end` of a `List`. -/
def entries (fuel : ℕ) (m : Heap α) (head : Option α) : Option (List α) :=
  match head with
  | none => some []
  | some head => iterate head fuel m head

end LinkedList

end StopGap
