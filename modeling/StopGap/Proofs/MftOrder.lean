import StopGap.Proofs.MftSteps

/-!
# The order of the file list

The records are scanned from the last one down and their streams go to the head of the list, so the
list ascends, and a stream is on it once (`Ordered`). This is what two short cuts of the scanner
count on: `find_filelist_entry` gives up at the first later record, and directories are looked up by
bisection. Both find what a search through the whole list finds (`searchFilelist_eq`,
`bisect_eq_findLinear`).
-/

namespace StopGap

namespace Mft

open Exec Exec.Prog

/-- What identifies a stream while its record is analyzed. -/
def FileInfo.key (f : FileInfo) : ℕ × WString := (f.baseMftId, f.name)

/-- Ascending, from record `id` on, each stream once. -/
structure Ordered (id : ℕ) (keys : List (ℕ × WString)) : Prop where
  sorted : keys.Pairwise fun k k' => k.1 ≤ k'.1
  above : ∀ k ∈ keys, id ≤ k.1
  once : keys.Nodup

namespace Ordered

variable {id : ℕ} {keys : List (ℕ × WString)}

theorem nil : Ordered id [] := ⟨.nil, by simp, List.nodup_nil⟩

theorem weaken {id' : ℕ} (h : Ordered id keys) (hle : id' ≤ id) : Ordered id' keys :=
  { h with above := fun k hk => hle.trans (h.above k hk) }

theorem cons (h : Ordered id keys) {name : WString} (hnew : (id, name) ∉ keys) :
    Ordered id ((id, name) :: keys) where
  sorted := List.pairwise_cons.2 ⟨h.above, h.sorted⟩
  above := by
    intro k hk
    rcases List.mem_cons.1 hk with rfl | hk
    · exact le_rfl
    · exact h.above k hk
  once := List.nodup_cons.2 ⟨hnew, h.once⟩

theorem map (h : Ordered id keys) {g : ℕ × WString → ℕ × WString} (hg : ∀ k, (g k).1 = k.1)
    (hinj : Function.Injective g) : Ordered id (keys.map g) where
  sorted := List.pairwise_map.2 (h.sorted.imp fun {a b} hab => by rwa [hg, hg])
  above := by
    intro k hk
    obtain ⟨k', hk', rfl⟩ := List.mem_map.1 hk
    rw [hg]
    exact h.above k' hk'
  once := h.once.map hinj

end Ordered

theorem map_modify_of_eq {α β : Type*} {g : α → α} {h : α → β} (heq : ∀ a, h (g a) = h a) :
    ∀ (l : List α) (i : ℕ), (l.modify i g).map h = l.map h
  | [], i => by cases i <;> rfl
  | a :: l, 0 => by simp [heq]
  | a :: l, i + 1 => by simp [map_modify_of_eq heq l i]

/-- Giving up at the first later record misses nothing. -/
theorem searchFilelist_eq {id : ℕ} {name : WString} : ∀ {files : List FileInfo},
    (files.map FileInfo.key).Pairwise (fun k k' => k.1 ≤ k'.1) →
    searchFilelist id name files = files.findIdx? fun f => decide (f.key = (id, name))
  | [], _ => rfl
  | f :: fs, h => by
    rw [List.map_cons, List.pairwise_cons] at h
    rw [searchFilelist, List.findIdx?_cons, searchFilelist_eq h.2]
    by_cases hlt : id < f.baseMftId
    · -- the records of the rest are later ones too
      have hrest : fs.findIdx? (fun f => decide (f.key = (id, name))) = none := by
        rw [List.findIdx?_eq_none_iff]
        intro g hg
        have hfg : f.baseMftId ≤ g.baseMftId := h.1 g.key (List.mem_map_of_mem hg)
        simp only [FileInfo.key, Prod.mk.injEq, decide_eq_false_iff_not]
        omega
      have hf : f.key ≠ (id, name) := fun hf => hlt.ne' (congrArg Prod.fst hf)
      simp [hlt, hrest, hf]
    · simp only [if_neg hlt, FileInfo.key, Prod.mk.injEq, decide_eq_true_eq, and_comm]

theorem mem_keys_of_searchFilelist_none {id : ℕ} {name : WString} {files : List FileInfo}
    (h : Ordered id (files.map FileInfo.key)) (hnone : searchFilelist id name files = none) :
    (id, name) ∉ files.map FileInfo.key := by
  rw [searchFilelist_eq h.sorted, List.findIdx?_eq_none_iff] at hnone
  intro hmem
  obtain ⟨f, hf, hkey⟩ := List.mem_map.1 hmem
  simpa [hkey] using hnone f hf

theorem bisect_eq_findLinear {id : ℕ} {files : List FileInfo}
    (h : (files.map FileInfo.key).Pairwise fun k k' => k.1 ≤ k'.1) :
    bisect files id = findLinear files id := by
  rw [List.pairwise_map] at h
  exact Bisect.find_eq h

theorem streamName_injective (mfi : FileInformation) : Function.Injective (streamName mfi) := by
  intro a b h
  unfold streamName at h
  split_ifs at h with ha hb hb
  · rw [ha, hb]
  · simp [wide] at h
  · simp [wide] at h
  · exact List.append_cancel_left h

/-- What the last loop of `analyze_file_record` makes of a key. -/
def nameKey (mfi : FileInformation) (k : ℕ × WString) : ℕ × WString :=
  if k.1 = mfi.baseMftId then (k.1, streamName mfi k.2) else k

theorem nameKey_injective (mfi : FileInformation) : Function.Injective (nameKey mfi) := by
  rintro ⟨a, n⟩ ⟨b, m⟩ h
  unfold nameKey at h
  simp only at h
  split_ifs at h with ha hb hb <;> simp only [Prod.mk.injEq] at h ⊢
  · exact ⟨h.1, streamName_injective mfi h.2⟩
  · exact absurd (h.1 ▸ ha) hb
  · exact absurd (h.1 ▸ hb) ha
  · exact h

theorem nameStreams_eq_map {mfi : FileInformation} : ∀ {files : List FileInfo},
    (files.map FileInfo.key).Pairwise (fun k k' => k.1 ≤ k'.1) →
    nameStreams mfi files
      = files.map fun f => if f.baseMftId = mfi.baseMftId then nameStream mfi f else f
  | [], _ => rfl
  | f :: fs, h => by
    rw [List.map_cons, List.pairwise_cons] at h
    rw [nameStreams, List.map_cons]
    split_ifs with hlt heq heq
    · omega
    · have hrest : ∀ g ∈ fs, g.baseMftId ≠ mfi.baseMftId := fun g hg =>
        (hlt.trans_le (h.1 g.key (List.mem_map_of_mem hg))).ne'
      have hid : fs.map (fun g => if g.baseMftId = mfi.baseMftId then nameStream mfi g else g)
          = fs.map id := List.map_congr_left fun g hg => if_neg (hrest g hg)
      rw [hid, List.map_id]
    · rw [nameStreams_eq_map h.2]
    · rw [nameStreams_eq_map h.2]

theorem keys_nameStreams {mfi : FileInformation} {files : List FileInfo}
    (h : (files.map FileInfo.key).Pairwise fun k k' => k.1 ≤ k'.1) :
    (nameStreams mfi files).map FileInfo.key = (files.map FileInfo.key).map (nameKey mfi) := by
  rw [nameStreams_eq_map h, List.map_map, List.map_map]
  refine List.map_congr_left fun f _ => ?_
  by_cases hf : f.baseMftId = mfi.baseMftId
  · simp [nameKey, FileInfo.key, nameStream, hf]
  · simp [nameKey, FileInfo.key, hf]

theorem Ordered.modify {files : List FileInfo} {id i : ℕ} {g : FileInfo → FileInfo}
    (h : Ordered id (files.map FileInfo.key)) (hg : ∀ f, (g f).key = f.key) :
    Ordered id ((files.modify i g).map FileInfo.key) := by
  rwa [map_modify_of_eq hg]

theorem Ordered.nameStreams {mfi : FileInformation} {files : List FileInfo} {id : ℕ}
    (h : Ordered id (files.map FileInfo.key)) :
    Ordered id ((Mft.nameStreams mfi files).map FileInfo.key) := by
  rw [keys_nameStreams h.sorted]
  refine h.map (fun k => ?_) (nameKey_injective mfi)
  unfold nameKey
  split_ifs <;> rfl

/-- The analysis of record `id` keeps the order. -/
theorem stable_ordered (env : Env) (id : ℕ) :
    Stable env fun s => s.mfi.baseMftId = id ∧ Ordered id (s.filelist.map FileInfo.key) where
  asked := fun _ hs => hs
  informed := fun s mfi heq hs => ⟨heq.trans hs.1, hs.2⟩
  added := by
    rintro s name hnone ⟨rfl, hs⟩
    exact ⟨rfl, hs.cons (mem_keys_of_searchFilelist_none hs hnone)⟩
  flagged := fun _ _ _ hs => ⟨hs.1, hs.2.modify fun _ => rfl⟩
  dumped := fun _ _ _ _ _ _ _ _ hs => ⟨hs.1, hs.2.modify fun _ => rfl⟩

/-- The driver does not return a record behind the one it is asked for. -/
def NotBehind : Mark → Prop
  | .record mftId id => id ≤ mftId
  | _ => True

instance (m : Mark) : Decidable (NotBehind m) := by
  refine m.casesOn ?_ ?_ ?_ <;> intros <;> unfold NotBehind <;> infer_instance

theorem ordered_settles (env : Env) :
    Settles env fun s => Ordered 0 (s.filelist.map FileInfo.key) where
  asked := fun _ hs => hs
  failed := fun _ hs => hs
  pathed := fun _ _ _ _ _ _ hs => hs.modify fun _ => rfl
  validated := fun _ _ hs => hs.modify fun _ => rfl

/-- Whatever the records hold, the list of a scan ascends and has each stream once, and on such a
list the short cuts of the scanner agree with a search through all of it. -/
theorem scan_lists_streams_once (env : Env) (depth pathFuel : ℕ) :
    Meets (fun m _ => NotBehind m) (fun _ _ => True) (ntfsScanDisk env depth pathFuel) .init
      ⟨fun r _ => ∀ files, r = some files →
          files.Pairwise (fun f g => f.baseMftId ≤ g.baseMftId)
            ∧ files.Pairwise (fun f g => ¬ (f.baseMftId = g.baseMftId ∧ f.name = g.name))
            ∧ (∀ id name, searchFilelist id name files
                = files.findIdx? fun f => decide (f.key = (id, name)))
            ∧ ∀ id, bisect files id = findLinear files id,
        fun _ => False, fun _ _ => True, fun _ => True⟩ := by
  have hp : Passes env.ml (fun m _ => NotBehind m) (fun _ _ => True) _ :=
    .of_forall fun _ _ _ => trivial
  refine (ntfsScanDisk_rule (A := fun m _ => NotBehind m) (Φ := fun _ _ => True)
    (J := fun n s => Ordered (n + 1) (s.filelist.map FileInfo.key)) (fun _ _ hs => hs)
    (fun _ _ hs => hs.weaken (by omega)) (fun _ _ hs => hs.weaken (Nat.zero_le _))
    (fun _ _ hs => hs) hp (fun _ _ _ _ => trivial) (fun n s record hs hA => ?_)
    (ordered_settles env) fun _ => .nil).mono fun r s' ⟨hs', hfiles⟩ files hr => ?_
  · have hle : mftIdOf record.fileReferenceNumber ≤ n := hA
    refine ((stable_ordered env _).analyzeFileRecord
      (J := fun s' => Ordered (mftIdOf record.fileReferenceNumber) (s'.filelist.map FileInfo.key))
      hp ((stable_ordered env _).analyzeEntry hp (fun _ _ _ => trivial) (fun _ _ => trivial) depth)
      (hs.weaken (by omega))
      (fun mfi hmfi => ⟨hmfi, hs.weaken (by omega)⟩) fun s' hs' => hs'.2.nameStreams).mono
      fun _ s' hs' => ⟨hs'.weaken (Nat.zero_le _), fun m _ hm => hs'.weaken (by omega)⟩
  · rw [← hfiles files hr]
    have hs := hs'.sorted
    rw [List.pairwise_map] at hs
    refine ⟨hs, ?_, fun _ _ => searchFilelist_eq hs'.sorted,
      fun _ => bisect_eq_findLinear hs'.sorted⟩
    have hn := hs'.once
    rw [List.Nodup, List.pairwise_map] at hn
    exact hn.imp fun {f g} hne heq => hne (Prod.ext heq.1 heq.2)

end Mft

end StopGap
