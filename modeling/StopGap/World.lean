import StopGap.Operation

/-!
# The closed world

What is assumed of the volume and of the environment: files do not share clusters, the bitmap marks
what they have as used, dumps tell the truth, and the driver grants a move to free clusters only.
Nothing but the program's own requests changes the volume.
-/

namespace StopGap

/-- The files lie on used clusters of the volume, each cluster in one place of one file. -/
structure Volume.Sound (v : Volume) : Prop where
  nodup : ∀ f, (lcns (v.map f)).Nodup
  disjoint : ∀ f g, f ≠ g → ∀ c ∈ lcns (v.map f), c ∉ lcns (v.map g)
  used : ∀ f, ∀ c ∈ lcns (v.map f), c < v.total ∧ v.used c = true

def NoHoles (m : List Extent) : Prop := ∀ e ∈ m, e.lcn.isSome

instance (m : List Extent) : Decidable (NoHoles m) :=
  inferInstanceAs (Decidable (∀ e ∈ m, e.lcn.isSome))

/-- `m'` tells where the virtual clusters of a file on `m` lie, in extents of its own choice. -/
structure Tells (m m' : List Extent) : Prop where
  expand_eq : expand m' = expand m
  pos : ∀ e ∈ m', 0 < e.length

/-- `disp` is what a dump of a file on `m` leaves, its map turned round by some steps. -/
def Reports (m : List Extent) (disp : Disposition) : Prop :=
  ∃ m' n, Tells m m' ∧ disp = { winxFtwDumpFile (some m') with
    blockmap := (winxFtwDumpFile (some m')).blockmap.rotate n }

namespace Env

def Truthful (env : Env) : Prop := ∀ k m, ∃ m', env.report k m = some m' ∧ Tells m m'

def Guarded (env : Env) : Prop :=
  ∀ k v d, ntSuccess (env.status k v d) →
    ∀ c, d.targetLcn ≤ c → c < d.targetLcn + allocated (v.requested d) → v.Free c

end Env

/-- A volume with the files `disk` on it, and an environment, neither of which deceives. -/
structure ClosedWorld (env : Env) (v : Volume) (disk : List FileId) (disp : FileId → Disposition) :
    Prop where
  sound : v.Sound
  disk : disk.Nodup
  dumps : ∀ f, Reports (v.map f) (disp f)
  truthful : env.Truthful

/-- The volume on which file `f` lies on `maps[f]`, and `fixed` are the other clusters in use. -/
def Volume.laid (total : ℕ) (fixed : List ℕ) (maps : List (List Extent)) : Volume where
  total := total
  used := fun c => decide (c ∈ fixed ++ maps.flatMap lcns)
  map := fun f => maps.getD f []

/-- What the dumps of all files on a volume leave. -/
def Volume.dumps (v : Volume) (f : FileId) : Disposition := winxFtwDumpFile (some (v.map f))

/-- Gaps of up to ten clusters are closed. -/
def gapsOnly : Options := ⟨10, false, true, false, false⟩

def defragAndGaps : Options := { gapsOnly with defrag := true }

def gapsWidened : Options := { gapsOnly with widen := true }

/-- Every file opens, every request gets the same answer, and the user never stops the run. -/
def Env.answering (status : NtStatus) : Env where
  opens := fun _ => true
  status := fun _ _ _ => status
  report := fun _ m => some (m.filter fun e => 0 < e.length)
  terminated := fun _ => false

/-- Every file opens, and a request is granted exactly if its target is free. -/
def Env.granting : Env where
  opens := fun _ => true
  status := fun _ v d =>
    if (List.range' d.targetLcn (allocated (v.requested d))).all
      fun c => decide (c < v.total) && !v.used c then 0 else statusAlreadyCommitted
  report := fun _ m => some (m.filter fun e => 0 < e.length)
  terminated := fun _ => false

end StopGap
