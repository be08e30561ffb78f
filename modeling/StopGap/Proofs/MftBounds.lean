import StopGap.Proofs.MftSteps
import StopGap.Proofs.RunList

/-!
# Scans of any bytes

What a scan does whatever the records hold. The attributes it hands on lie in the part of their
record that is in use (`scan_attributes_inside`), the blocks it lists begin on the volume and its
counts are those of the blocks in 64 bits (`scan_describes_blocks`), and it comes to the last record
(`scan_reaches_last_record`). Three conditions are needed. The end of an attribute is computed in
32 bits and that of a run in 64, so that the largest lengths pass the checks, and an attribute list
may lead to itself.
-/

namespace StopGap

/-- The end of a block in 64 bits. -/
def Block.stop64 (b : Block) : ℕ := (b.lcn + b.length) % 2 ^ 64

/-- The counts of a disposition are those of its map in 64 bits. The blocks begin on the volume, and
end on it unless their end wraps. -/
structure Described (total : ℕ) (d : Disposition) : Prop where
  clusters : d.clusters = (d.blockmap.map Block.length).sum % 2 ^ 64
  fragments : d.fragments = piecesBy Block.stop64 d.blockmap % 2 ^ 64
  inside : ∀ b ∈ d.blockmap, b.lcn < total ∧ (b.lcn + b.length ≤ total ∨ 2 ^ 64 ≤ b.lcn + b.length)

namespace Described

variable {total : ℕ} {d : Disposition}

theorem zero : Described total .zero := ⟨rfl, rfl, by simp [Disposition.zero]⟩

theorem processRun {lcn length : BitVec 64} (h : Described total d)
    (hcheck : checkRun total lcn length = true) (vcn : BitVec 64) :
    Described total (processRun d vcn lcn length) where
  clusters := by
    simp only [StopGap.processRun, h.clusters, List.map_append, List.map_cons, List.map_nil,
      List.sum_append, List.sum_cons, List.sum_nil]
    omega
  fragments := by
    simp only [StopGap.processRun, piecesBy_concat, h.fragments]
    rcases d.blockmap.getLast? with _ | prev
    · exact Nat.mod_add_mod _ _ _
    · have hstop : (prev.lcn + prev.length) % 2 ^ 64 = prev.stop64 := rfl
      by_cases hnext : lcn.toNat = prev.stop64
      · simp only [hstop, if_pos hnext]
      · simp only [hstop, if_neg hnext, Nat.mod_add_mod]
  inside := by
    intro b hb
    rcases List.mem_append.1 hb with hb | hb
    · exact h.inside b hb
    · obtain rfl := List.mem_singleton.1 hb
      simp only [checkRun, Bool.and_eq_true, decide_eq_true_eq, BitVec.toNat_add] at hcheck
      exact ⟨hcheck.1, by simp only; omega⟩

theorem processRuns : ∀ {fuel : ℕ} {run : List UInt8} {vcn lcn : BitVec 64} {d d' : Disposition},
    Described total d → processRuns total fuel run vcn lcn d = some d' → Described total d'
  | 0, _, _, _, _, _, _, h => by simp [StopGap.processRuns] at h
  | fuel + 1, run, vcn, lcn, d, d', hd, h => by
    simp only [StopGap.processRuns, Option.bind_eq_bind] at h
    obtain ⟨b, -, h⟩ := Option.bind_eq_some_iff.1 h
    split_ifs at h with h0
    · exact Option.some.inj h ▸ hd
    obtain ⟨distance, -, h⟩ := Option.bind_eq_some_iff.1 h
    obtain ⟨length, -, h⟩ := Option.bind_eq_some_iff.1 h
    split_ifs at h with hvirtual hcheck
    · exact processRuns hd h
    · exact processRuns (hd.processRun hcheck vcn) h
    · exact Option.some.inj h ▸ hd

end Described

/-- What is left of a map is described: `validate_blockmap` clears a map and not its counts. -/
def Left (total : ℕ) (d : Disposition) : Prop := d.blockmap = [] ∨ Described total d

theorem Left.validateBlockmap {total : ℕ} {d : Disposition} (h : Left total d) :
    Left total (validateBlockmap d) := by
  unfold StopGap.validateBlockmap
  split
  · split_ifs
    · exact .inl rfl
    · exact h
  · exact h

namespace Mft

open Exec Exec.Prog Bytes

/-! ### Blocks -/

theorem forall_modify {P : FileInfo → Prop} {files : List FileInfo} {i : ℕ}
    {g : FileInfo → FileInfo} (h : ∀ f ∈ files, P f)
    (hg : ∀ f, files[i]? = some f → P f → P (g f)) : ∀ f ∈ files.modify i g, P f := by
  intro f hf
  rcases mem_modify hf with hf | ⟨f', hf', rfl⟩
  · exact h f hf
  · exact hg f' hf' (h f' (List.mem_of_getElem? hf'))

theorem forall_nameStreams {P : FileInfo → Prop} {mfi : FileInformation}
    (hP : ∀ f, P f → P (nameStream mfi f)) : ∀ {files : List FileInfo},
    (∀ f ∈ files, P f) → ∀ f ∈ nameStreams mfi files, P f
  | [], h => h
  | f :: fs, h => by
    rw [List.forall_mem_cons] at h
    rw [nameStreams]
    split_ifs with hlt heq
    · exact List.forall_mem_cons.2 h
    · exact List.forall_mem_cons.2 ⟨hP f h.1, forall_nameStreams hP h.2⟩
    · exact List.forall_mem_cons.2 ⟨h.1, forall_nameStreams hP h.2⟩

theorem stable_described (env : Env) :
    Stable env fun s => ∀ f ∈ s.filelist, Described env.ml.totalClusters f.disp where
  asked := fun _ hs => hs
  informed := fun _ _ _ hs => hs
  added := fun _ _ _ hs => List.forall_mem_cons.2 ⟨.zero, hs⟩
  flagged := fun _ _ _ hs => forall_modify hs fun _ _ h => h
  dumped := by
    intro s i r pnr f disp hf hdisp hs
    refine forall_modify hs fun f' hf' h => ?_
    obtain rfl : f = f' := Option.some.inj (hf.symm.trans hf')
    simp only [readRunList, Option.bind_eq_bind] at hdisp
    obtain ⟨lowVcn, -, hdisp⟩ := Option.bind_eq_some_iff.1 hdisp
    obtain ⟨offset, -, hdisp⟩ := Option.bind_eq_some_iff.1 hdisp
    exact h.processRuns hdisp

theorem left_settles (env : Env) :
    Settles env fun s => ∀ f ∈ s.filelist, Left env.ml.totalClusters f.disp where
  asked := fun _ hs => hs
  failed := fun _ hs => hs
  pathed := fun _ _ _ _ _ _ hs => forall_modify hs fun _ _ h => h
  validated := fun _ _ hs => forall_modify hs fun _ _ h => h.validateBlockmap

/-- Whatever the records hold, the blocks of every stream begin on the volume, and the counts of
the stream are those of its blocks unless its map was cleared. -/
theorem scan_describes_blocks (env : Env) (depth pathFuel : ℕ) :
    Meets (fun _ _ => True) (fun _ _ => True) (ntfsScanDisk env depth pathFuel) .init
      ⟨fun r _ => ∀ files, r = some files → ∀ f ∈ files, Left env.ml.totalClusters f.disp,
        fun _ => False, fun _ _ => True, fun _ => True⟩ := by
  refine (ntfsScanDisk_keeps (stable_described env) (.of_forall fun _ _ h => h) (fun _ _ h => h)
    (fun _ _ _ h => h) (fun _ _ hs => hs) (fun _ hs => forall_nameStreams (fun _ h => h) hs)
    (fun _ _ hs => hs) (fun _ hs f hf => .inr (hs f hf)) (left_settles env)
    (by simp [State.init])).mono fun r s ⟨hs, hfiles⟩ files hr => ?_
  rw [← hfiles files hr]
  exact hs

/-! ### Attributes -/

/-- The length of an attribute does not wrap its end. -/
def Unwrapped : Mark → Prop
  | .attribute _ _ length => length < 2 ^ 32 - 2 ^ 16
  | _ => True

instance (m : Mark) : Decidable (Unwrapped m) := by
  refine m.casesOn ?_ ?_ ?_ <;> intros <;> unfold Unwrapped <;> infer_instance

/-- The attribute lies in the part of its record that is in use. -/
def Inside (ml : Layout) : Mark → Prop
  | .attribute r pattr length =>
    pattr + length ≤ ml.fileRecordSize ∧ ∃ used, field r 24 4 = some used ∧ pattr + length ≤ used
  | _ => True

theorem field_lt {buf : List UInt8} {off n x : ℕ} (h : field buf off n = some x) : x < 256 ^ n := by
  obtain ⟨bs, hbs, rfl⟩ := Option.map_eq_some_iff.1 h
  have := value_lt bs
  rwa [(slice_eq_some hbs).1] at this

theorem passes_inside {ml : Layout} (hsize : ml.fileRecordSize < 2 ^ 16) :
    Passes ml (fun m _ => Unwrapped m) (fun m _ => Inside ml m) fun _ pattr => pattr < 2 ^ 16 where
  first := fun _ _ hoff => field_lt hoff
  next := by
    intro r pattr length s hlt hat hA
    obtain ⟨used, hused, -, -, h1, h2⟩ := attributeAt_some hat
    have hlength : length < 2 ^ 32 - 2 ^ 16 := hA
    rw [BitVec.toNat_ofNat, Nat.mod_eq_of_lt hlt, Nat.mod_eq_of_lt (by omega)] at h1 h2
    exact ⟨⟨h2, used, hused, h1⟩, by omega⟩

theorem stable_true (env : Env) : Stable env fun _ => True := by
  constructor <;> intros <;> first | trivial | exact fun _ _ => trivial

theorem scan_attributes_inside (env : Env) (hsize : env.ml.fileRecordSize < 2 ^ 16)
    (depth pathFuel : ℕ) (s : State) :
    Meets (fun m _ => Unwrapped m) (fun m _ => Inside env.ml m) (ntfsScanDisk env depth pathFuel) s
      ⟨fun _ _ => True, fun _ => False, fun _ _ => True, fun _ => True⟩ :=
  (ntfsScanDisk_keeps (Q := fun _ => True) (stable_true env) (passes_inside hsize)
    (fun _ _ _ => trivial) (fun _ _ _ _ => trivial) (fun _ _ h => h) (fun _ h => h) (fun _ _ h => h)
    (fun _ h => h) ⟨fun _ h => h, fun _ h => h, fun _ _ _ _ _ _ h => h, fun _ _ h => h⟩
    trivial).mono fun _ _ _ => trivial

/-! ### The end -/

/-- No entry of an attribute list names an attribute list. -/
def Flat : Mark → Prop
  | .entry type => type ≠ 0x20
  | _ => True

instance (m : Mark) : Decidable (Flat m) := by
  refine m.casesOn ?_ ?_ ?_ <;> intros <;> unfold Flat <;> infer_instance

theorem scan_reaches_last_record (env : Env) (depth n : ℕ) (s : State) :
    Meets (fun m _ => Flat m) (fun _ _ => True) (scanRecords env (depth + 1) (n + 1) n) s
      ⟨fun _ _ => True, fun _ => False, fun _ _ => True, fun _ => False⟩ := by
  have hp : Passes env.ml (fun m _ => Flat m) (fun _ _ => True) _ := .of_forall fun _ _ _ => trivial
  refine scanRecords_rule (J := fun _ _ => True) (Q := fun _ => True) (fun _ _ h => h)
    (fun _ _ h => h) (fun _ _ h => h) (fun _ _ _ _ => trivial) (fun n s record _ _ => ?_)
    (n + 1) n s (Nat.lt_succ_self n) trivial
  exact ((stable_true env).analyzeFileRecord (J := fun _ => True) (K := fun _ => False)
    hp ((stable_true env).analyzeEntry_flat hp (fun _ _ _ => trivial) (fun _ h => h rfl) depth)
    trivial (fun _ _ => trivial) fun _ _ => trivial).mono
    fun _ _ _ => ⟨trivial, fun _ _ _ => trivial⟩

end Mft

end StopGap
