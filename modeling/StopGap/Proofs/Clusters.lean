import StopGap.World

/-!
# Clusters of files and of the volume

The virtual clusters of a file can be cut anywhere and put elsewhere without losing a cluster
(`lcns_takeVcn_append`, `lcns_place`); so a granted move keeps the volume sound and exchanges the
clusters it empties for the target (`Moved`). `winx_get_free_volume_regions` lists the maximal runs
of free clusters.
-/

namespace StopGap

open Runs

@[simp] theorem lcns_nil : lcns [] = [] := rfl

@[simp] theorem lcns_cons (e : Extent) (m : List Extent) : lcns (e :: m) = e.lcns ++ lcns m := rfl

@[simp] theorem lcns_append (m m' : List Extent) : lcns (m ++ m') = lcns m ++ lcns m' :=
  List.flatMap_append

theorem Extent.mem_lcns {e : Extent} {c : ℕ} : c ∈ e.lcns ↔ e.has c = true := by
  rcases e with ⟨_ | l, n⟩ <;> simp [Extent.lcns, Extent.has, List.mem_range'_1]

theorem mem_lcns {m : List Extent} {c : ℕ} : c ∈ lcns m ↔ (m.any fun e => e.has c) = true := by
  simp [lcns, Extent.mem_lcns]

theorem Extent.length_lcns (e : Extent) : e.lcns.length = e.allocated := by
  rcases e with ⟨_ | l, n⟩ <;> simp [Extent.lcns, Extent.allocated]

theorem length_lcns (m : List Extent) : (lcns m).length = allocated m := by
  induction m with
  | nil => rfl
  | cons e m ih =>
    simp only [lcns_cons, List.length_append, ih, Extent.length_lcns, allocated, List.map_cons,
      List.sum_cons]

theorem lcns_eq_reduceOption (m : List Extent) : lcns m = (expand m).filterMap id := by
  induction m with
  | nil => rfl
  | cons e m ih =>
    have he : e.expand.filterMap id = e.lcns := by
      rcases e with ⟨_ | l, n⟩ <;> simp [Extent.expand, Extent.lcns]
    have hexpand : expand (e :: m) = e.expand ++ expand m := rfl
    rw [lcns_cons, ih, hexpand, List.filterMap_append, he]

theorem Tells.lcns_eq {m m' : List Extent} (h : Tells m m') : lcns m' = lcns m := by
  rw [lcns_eq_reduceOption, lcns_eq_reduceOption, h.expand_eq]

theorem lcns_takeVcn_append : ∀ (n : ℕ) (m : List Extent),
    lcns (takeVcn n m) ++ lcns (dropVcn n m) = lcns m
  | _, [] => rfl
  | n, e :: m => by
    unfold takeVcn dropVcn
    split_ifs with hle hn
    · rw [lcns_cons, List.append_assoc, lcns_takeVcn_append, lcns_cons]
    · subst hn
      rcases e with ⟨_ | l, k⟩ <;> simp [Extent.lcns]
    · rcases e with ⟨_ | l, k⟩
      · simp [Extent.lcns]
      · simp only [lcns_cons, lcns_nil, List.append_nil, Extent.lcns, Option.map_some,
          ← List.append_assoc]
        rw [List.range'_append_1]
        congr 2
        simp only at hle
        omega

theorem dropVcn_add : ∀ (s n : ℕ) (m : List Extent),
    dropVcn (s + n) m = dropVcn n (dropVcn s m)
  | _, _, [] => rfl
  | s, n, e :: m => by
    conv_lhs => unfold dropVcn
    conv_rhs => rw [dropVcn]
    by_cases hs : e.length ≤ s
    · rw [if_pos (by omega), if_pos hs, ← dropVcn_add]
      congr 1
      omega
    · rw [if_neg hs, dropVcn]
      simp only
      by_cases hsn : e.length ≤ s + n
      · rw [if_pos hsn, if_pos (by omega)]
        congr 1
        omega
      · rw [if_neg hsn, if_neg (by omega)]
        congr 2
        · rcases e.lcn with _ | l
          · rfl
          · simp only [Option.map_some]
            congr 1
            omega
        · omega

theorem lcns_place : ∀ (t : ℕ) (m : List Extent),
    lcns (place t m) = List.range' t (lcns m).length
  | _, [] => rfl
  | t, ⟨none, n⟩ :: m => by simpa [place, Extent.lcns] using lcns_place t m
  | t, ⟨some l, n⟩ :: m => by
    simp only [place, lcns_cons, Extent.lcns, lcns_place, List.length_append, List.length_range']
    rw [List.range'_append_1]

theorem lcns_takeVcn_zero (m : List Extent) : lcns (takeVcn 0 m) = [] := by
  induction m with
  | nil => rfl
  | cons e m ih =>
    rw [takeVcn]
    by_cases hle : e.length ≤ 0
    · rw [if_pos hle]
      rcases e with ⟨_ | l, n⟩
      · simp [Extent.lcns, ih]
      · simp only at hle
        simp [Extent.lcns, ih, Nat.le_zero.1 hle]
    · rw [if_neg hle, if_pos rfl]
      rfl

theorem Extent.allocated_le (e : Extent) : e.allocated ≤ e.length := by
  unfold Extent.allocated
  split <;> omega

theorem length_lcns_takeVcn_le : ∀ (n : ℕ) (m : List Extent), (lcns (takeVcn n m)).length ≤ n
  | n, [] => by simp [takeVcn]
  | n, e :: m => by
    have he := e.allocated_le
    unfold takeVcn
    split_ifs with h1 h2
    · have ih := length_lcns_takeVcn_le (n - e.length) m
      rw [lcns_cons, List.length_append, Extent.length_lcns]
      omega
    · simp
    · rw [lcns_cons, List.length_append, Extent.length_lcns, lcns_nil]
      exact Extent.allocated_le ⟨e.lcn, n⟩

theorem lcns_dropVcn_zero (m : List Extent) : lcns (dropVcn 0 m) = lcns m := by
  simpa [lcns_takeVcn_zero] using lcns_takeVcn_append 0 m

theorem Extent.length_expand (e : Extent) : e.expand.length = e.length := by
  rcases e with ⟨_ | l, n⟩ <;> simp [Extent.expand]

theorem expand_dropVcn : ∀ (n : ℕ) (m : List Extent), expand (dropVcn n m) = (expand m).drop n
  | n, [] => by simp [dropVcn, expand]
  | n, e :: m => by
    have hcons : ∀ (e : Extent) (m : List Extent), expand (e :: m) = e.expand ++ expand m :=
      fun _ _ => rfl
    rw [dropVcn, hcons, List.drop_append, e.length_expand]
    split_ifs with hle
    · rw [expand_dropVcn, List.drop_eq_nil_of_le (e.length_expand.trans_le hle), List.nil_append]
    · have hzero : n - e.length = 0 := by omega
      rw [hcons, hzero, List.drop_zero]
      congr 1
      rcases e with ⟨_ | l, k⟩
      · simp [Extent.expand, List.drop_replicate]
      · simp [Extent.expand, ← List.map_drop, List.drop_range']

/-- No cluster comes at the `n`-th virtual cluster or later. -/
theorem lcns_dropVcn_eq_nil_iff {n : ℕ} {m : List Extent} : lcns (dropVcn n m) = []
    ↔ ∀ vcn c, (expand m)[vcn]? = some (some c) → vcn < n := by
  rw [lcns_eq_reduceOption, expand_dropVcn, List.filterMap_eq_nil_iff]
  constructor
  · intro h vcn c hvcn
    by_contra hle
    have hmem : some c ∈ (expand m).drop n := by
      rw [List.mem_iff_getElem?]
      refine ⟨vcn - n, ?_⟩
      rw [List.getElem?_drop, Nat.add_sub_cancel' (not_lt.1 hle), hvcn]
    simpa using h _ hmem
  · intro h x hx
    obtain ⟨i, hi⟩ := List.mem_iff_getElem?.1 hx
    rw [List.getElem?_drop] at hi
    rcases x with _ | c
    · rfl
    · exact absurd (h _ c hi) (by omega)

section NoHoles

variable {m : List Extent}

theorem NoHoles.dropVcn : ∀ {n : ℕ} {m : List Extent}, NoHoles m → NoHoles (dropVcn n m)
  | _, [], h => h
  | n, e :: m, h => by
    unfold StopGap.dropVcn
    split_ifs
    · exact NoHoles.dropVcn fun x hx => h x (by simp [hx])
    · intro x hx
      rcases List.mem_cons.1 hx with rfl | hx
      · simpa using h e (by simp)
      · exact h x (by simp [hx])

theorem NoHoles.takeVcn : ∀ {n : ℕ} {m : List Extent}, NoHoles m → NoHoles (takeVcn n m)
  | _, [], h => h
  | n, e :: m, h => by
    unfold StopGap.takeVcn
    split_ifs
    · intro x hx
      rcases List.mem_cons.1 hx with rfl | hx
      · exact h x (by simp)
      · exact NoHoles.takeVcn (fun y hy => h y (by simp [hy])) x hx
    · exact fun x hx => absurd hx (by simp)
    · intro x hx
      rw [List.mem_singleton.1 hx]
      exact h e (by simp)

theorem NoHoles.place : ∀ {t : ℕ} {m : List Extent}, NoHoles m → NoHoles (place t m)
  | _, [], h => h
  | t, ⟨none, n⟩ :: m, h => by simpa using h ⟨none, n⟩ (by simp)
  | t, ⟨some l, n⟩ :: m, h => by
    intro x hx
    rcases List.mem_cons.1 hx with rfl | hx
    · rfl
    · exact NoHoles.place (fun y hy => h y (by simp [hy])) x hx

theorem NoHoles.append {m' : List Extent} (h : NoHoles m) (h' : NoHoles m') :
    NoHoles (m ++ m') := fun e he => (List.mem_append.1 he).elim (h e) (h' e)

theorem NoHoles.lcns_dropVcn : ∀ {n : ℕ} {m : List Extent}, NoHoles m → (lcns m).length ≤ n →
    lcns (StopGap.dropVcn n m) = []
  | _, [], _, _ => rfl
  | n, ⟨none, k⟩ :: m, h, _ => by simpa using h ⟨none, k⟩ (by simp)
  | n, ⟨some l, k⟩ :: m, h, hle => by
    simp only [lcns_cons, Extent.lcns, List.length_append, List.length_range'] at hle
    rw [StopGap.dropVcn, if_pos (by simp only; omega)]
    exact NoHoles.lcns_dropVcn (fun y hy => h y (by simp [hy])) (by simp only; omega)

end NoHoles

namespace Volume

variable {v v' : Volume} {d : MoveFileDescriptor} {f : FileId}

/-- What a granted move from the first virtual cluster on does: the clusters `B` become free for
those from `t` on, and the file keeps the rest, `C`. -/
structure Moved (v v' : Volume) (f : FileId) (t : ℕ) (B C : List ℕ) : Prop where
  total : v'.total = v.total
  before : lcns (v.map f) = B ++ C
  after : lcns (v'.map f) = List.range' t B.length ++ C
  others : ∀ g, g ≠ f → v'.map g = v.map g
  used : ∀ c, v'.used c = true ↔ (t ≤ c ∧ c < t + B.length) ∨ (v.used c = true ∧ c ∉ B)
  noHoles : NoHoles (v.map f) → NoHoles (v'.map f)

theorem moved_fsctlMoveFile (v : Volume) (f : FileId) (t n : ℕ) :
    ∃ C, Moved v (v.fsctlMoveFile ⟨f, 0, t, n⟩) f t (lcns (v.requested ⟨f, 0, t, n⟩)) C
      ∧ (NoHoles (v.map f) → (lcns (v.map f)).length ≤ n → C = []) := by
  have hreq : v.requested ⟨f, 0, t, n⟩ = takeVcn n (dropVcn 0 (v.map f)) := rfl
  refine ⟨lcns (dropVcn (0 + n) (v.map f)), ⟨rfl, ?_, ?_, fun g hg => ?_, fun c => ?_, fun h => ?_⟩,
    fun h hle => ?_⟩
  · rw [dropVcn_add, hreq, lcns_takeVcn_append, lcns_dropVcn_zero]
  · simp only [fsctlMoveFile, Function.update_self, lcns_append, lcns_takeVcn_zero, lcns_place,
      List.nil_append]
  · simp only [fsctlMoveFile, Function.update_of_ne hg]
  · simp only [fsctlMoveFile, ← length_lcns, ← mem_lcns]
    split_ifs with h1 h2
    · simp [h1]
    · simp [h1, h2]
    · simp [h1, h2]
  · simp only [fsctlMoveFile, Function.update_self, hreq]
    exact (h.takeVcn.append h.dropVcn.takeVcn.place).append h.dropVcn
  · exact h.lcns_dropVcn (by simpa using hle)

variable {t : ℕ} {B C : List ℕ}

theorem Moved.free (hm : Moved v v' f t B C) (h : v.Sound) (c : ℕ) :
    v'.Free c ↔ (v.Free c ∨ c ∈ B) ∧ ¬ (t ≤ c ∧ c < t + B.length) := by
  have hB : c ∈ B → c < v.total := fun hc => (h.used f c (by simp [hm.before, hc])).1
  have hu := hm.used c
  simp only [Free, hm.total, ← Bool.not_eq_true, hu]
  grind

theorem Sound.not_free (h : v.Sound) {c : ℕ} (hc : c ∈ lcns (v.map f)) : ¬ v.Free c := fun hf => by
  have := (h.used f c hc).2
  rw [hf.2] at this
  simp at this

theorem Sound.length_le (h : v.Sound) (f : FileId) : (lcns (v.map f)).length ≤ v.total := by
  have hsub : lcns (v.map f) ⊆ List.range v.total := fun c hc =>
    List.mem_range.2 (h.used f c hc).1
  simpa using (List.subperm_of_subset (h.nodup f) hsub).length_le

theorem laid_forall {total : ℕ} {fixed : List ℕ} {maps : List (List Extent)}
    {p : List Extent → Prop} (hnil : p []) (h : ∀ m ∈ maps, p m) (f : FileId) :
    p ((laid total fixed maps).map f) := by
  by_cases hf : f < maps.length
  · simpa [laid, hf] using h _ (List.getElem_mem hf)
  · simpa [laid, Nat.le_of_not_lt hf] using hnil

theorem laid_sound {total : ℕ} {fixed : List ℕ} {maps : List (List Extent)}
    (hnd : (maps.flatMap lcns).Nodup) (hlt : ∀ c ∈ maps.flatMap lcns, c < total) :
    (laid total fixed maps).Sound := by
  obtain ⟨hone, hapart⟩ := List.nodup_flatMap.1 hnd
  -- a file that is not on the list lies nowhere
  have hmap : ∀ f, (laid total fixed maps).map f = []
      ∨ ∃ h : f < maps.length, (laid total fixed maps).map f = maps[f] := fun f => by
    by_cases hf : f < maps.length
    · exact Or.inr ⟨hf, by simp [laid, hf]⟩
    · exact Or.inl (by simp [laid, Nat.le_of_not_lt hf])
  refine ⟨fun f => ?_, fun f g hne c hc hc' => ?_, fun f c hc => ?_⟩
  · rcases hmap f with h | ⟨hf, h⟩ <;> rw [h]
    · simp
    · exact hone _ (List.getElem_mem hf)
  · rcases hmap f with h | ⟨hf, h⟩ <;> rw [h] at hc
    · simp at hc
    rcases hmap g with h' | ⟨hg, h'⟩ <;> rw [h'] at hc'
    · simp at hc'
    rcases Nat.lt_or_gt_of_ne hne with hlt | hlt
    · exact List.pairwise_iff_getElem.1 hapart f g hf hg hlt hc hc'
    · exact List.pairwise_iff_getElem.1 hapart g f hg hf hlt hc' hc
  · rcases hmap f with h | ⟨hf, h⟩ <;> rw [h] at hc
    · simp at hc
    have hmem := List.mem_flatMap.2 ⟨_, List.getElem_mem hf, hc⟩
    exact ⟨hlt c hmem, decide_eq_true (List.mem_append_right _ hmem)⟩

/-- A file that is in one piece after a move to free clusters was moved as a whole. -/
theorem Moved.whole {n : ℕ} (hm : Moved v v' f t B C) (h : v.Sound)
    (hfree : ∀ c, t ≤ c → c < t + (lcns (v.map f)).length → v.Free c)
    (hpiece : lcns (v'.map f) = List.range' t n) : C = [] := by
  rcases C with _ | ⟨c, C⟩
  · rfl
  have hlen := congrArg List.length hpiece
  rw [hm.after] at hpiece hlen
  simp only [List.length_append, List.length_range', List.length_cons] at hlen
  have hc : c ∈ List.range' t n := by simp [← hpiece]
  have hold : c ∈ lcns (v.map f) := by simp [hm.before]
  refine absurd (hfree c ?_ ?_) (h.not_free hold)
  · exact (List.mem_range'_1.1 hc).1
  · have := (List.mem_range'_1.1 hc).2
    simp only [hm.before, List.length_append, List.length_cons]
    omega

theorem Moved.sound (hm : Moved v v' f t B C) (h : v.Sound)
    (hfree : ∀ c, t ≤ c → c < t + B.length → v.Free c) : v'.Sound := by
  have hnew : ∀ c ∈ List.range' t B.length, v.Free c := fun c hc =>
    hfree c (List.mem_range'_1.1 hc).1 (List.mem_range'_1.1 hc).2
  have hfreed : ∀ c, v.Free c → ∀ g, c ∉ lcns (v.map g) := fun c hc g hcg => h.not_free hcg hc
  have hsplit := h.nodup f
  rw [hm.before, List.nodup_append] at hsplit
  obtain ⟨-, hC, hBC⟩ := hsplit
  refine ⟨fun g => ?_, fun g g' hne c hc hc' => ?_, fun g c hc => ?_⟩
  · by_cases hg : g = f
    · subst hg
      rw [hm.after, List.nodup_append]
      refine ⟨List.nodup_range', hC, fun a ha b hb hab => ?_⟩
      exact hfreed a (hnew a ha) g (by simp [hm.before, hab, hb])
    · rw [hm.others g hg]
      exact h.nodup g
  · by_cases hg : g = f <;> by_cases hg' : g' = f
    · exact hne (hg.trans hg'.symm)
    · subst hg
      rw [hm.others g' hg'] at hc'
      rw [hm.after, List.mem_append] at hc
      rcases hc with hc | hc
      · exact hfreed c (hnew c hc) g' hc'
      · exact h.disjoint g g' hne c (by simp [hm.before, hc]) hc'
    · subst hg'
      rw [hm.others g hg] at hc
      rw [hm.after, List.mem_append] at hc'
      rcases hc' with hc' | hc'
      · exact hfreed c (hnew c hc') g hc
      · exact h.disjoint g g' hne c hc (by simp [hm.before, hc'])
    · rw [hm.others g hg] at hc
      rw [hm.others g' hg'] at hc'
      exact h.disjoint g g' hne c hc hc'
  · rw [hm.total, hm.used]
    by_cases hg : g = f
    · subst hg
      rw [hm.after, List.mem_append] at hc
      rcases hc with hc | hc
      · exact ⟨(hnew c hc).1, Or.inl (List.mem_range'_1.1 hc)⟩
      · have := h.used g c (by simp [hm.before, hc])
        exact ⟨this.1, Or.inr ⟨this.2, fun hB => hBC c hB c hc rfl⟩⟩
    · rw [hm.others g hg] at hc
      have := h.used g c hc
      exact ⟨this.1, Or.inr ⟨this.2, fun hB =>
        h.disjoint g f hg c hc (by simp [hm.before, hB])⟩⟩

/-- `rs` lists the runs of free clusters from `lo` up to `hi`. -/
structure Lists (used : ℕ → Bool) (lo hi : ℕ) (rs : List Run) : Prop where
  spaced : Spaced 1 rs
  low : ∀ r ∈ rs, lo ≤ r.start
  covers : ∀ c, c ∈ cover rs ↔ lo ≤ c ∧ c < hi ∧ used c = false

section Lists

variable {used : ℕ → Bool} {i hi s : ℕ} {rs : List Run}

theorem Lists.nil (used : ℕ → Bool) (i : ℕ) : Lists used i i [] :=
  ⟨Spaced.nil, by simp, fun c => by
    simp only [not_mem_cover_nil, false_iff]
    omega⟩

theorem Lists.single (hs : s < i) (hfree : ∀ c, s ≤ c → c < i → used c = false) :
    Lists used s i [⟨s, i - s⟩] := by
  refine ⟨⟨by simpa using Nat.sub_pos_of_lt hs, by simp⟩, by simp, fun c => ?_⟩
  simp only [mem_cover_cons, not_mem_cover_nil, or_false, Run.mem_iff]
  constructor
  · exact fun hc => ⟨hc.1, by omega, hfree c hc.1 (by omega)⟩
  · omega

theorem Lists.skip (h : Lists used (i + 1) hi rs) (hu : used i = true) : Lists used i hi rs := by
  refine ⟨h.spaced, fun r hr => (Nat.le_succ i).trans (h.low r hr), fun c => ?_⟩
  rw [h.covers]
  constructor
  · exact fun hc => ⟨by omega, hc.2⟩
  · rintro ⟨h1, h2, h3⟩
    rcases h1.eq_or_lt with rfl | h1
    · simp [hu] at h3
    · exact ⟨h1, h2, h3⟩

/-- The open region ends at a used cluster. -/
theorem Lists.close (h : Lists used (i + 1) hi rs) (hu : used i = true) (hs : s < i) (hi' : i < hi)
    (hfree : ∀ c, s ≤ c → c < i → used c = false) :
    Lists used s hi (⟨s, i - s⟩ :: rs) := by
  refine ⟨Spaced.cons_iff.2 ⟨Nat.sub_pos_of_lt hs, fun r hr => ?_, h.spaced⟩, fun r hr => ?_,
    fun c => ?_⟩
  · have := h.low r hr
    simp only
    omega
  · rcases List.mem_cons.1 hr with rfl | hr
    · exact le_rfl
    · have := h.low r hr
      omega
  · rw [mem_cover_cons, (h.skip hu).covers, Run.mem_iff]
    simp only
    constructor
    · rintro (hc | hc)
      · exact ⟨hc.1, by omega, hfree c hc.1 (by omega)⟩
      · exact ⟨by omega, hc.2⟩
    · rintro ⟨h1, h2, h3⟩
      by_cases hci : c < i
      · exact Or.inl ⟨h1, by omega⟩
      · exact Or.inr ⟨by omega, h2, h3⟩

end Lists

/-- The loop over the bitmap from cluster `i` on lists the runs of free clusters from where the open
region starts. -/
theorem freeRegionsFrom_lists (used : ℕ → Bool) : ∀ (n i : ℕ) (start : Option ℕ),
    (∀ s, start = some s → s < i ∧ ∀ c, s ≤ c → c < i → used c = false) →
    Lists used (start.getD i) (i + n) ((freeRegionsFrom used n i start).map Region.run)
  | 0, i, none, _ => Lists.nil used i
  | 0, i, some s, h => Lists.single (h s rfl).1 (h s rfl).2
  | n + 1, i, start, h => by
    rw [show i + (n + 1) = i + 1 + n by omega]
    unfold freeRegionsFrom
    by_cases hu : used i = true
    · have ih := freeRegionsFrom_lists used n (i + 1) none (by simp)
      rw [if_pos hu]
      rcases start with _ | s
      · exact ih.skip hu
      · exact ih.close hu (h s rfl).1 (by omega) (h s rfl).2
    · rw [if_neg hu]
      refine freeRegionsFrom_lists used n (i + 1) (some (start.getD i)) fun s hs => ?_
      obtain rfl := Option.some.inj hs
      have hi : used i = false := by simpa using hu
      rcases start with _ | s
      · simp only [Option.getD_none]
        exact ⟨by omega, fun c h1 h2 => by rwa [show c = i by omega]⟩
      · simp only [Option.getD_some]
        obtain ⟨hs, hfree⟩ := h s rfl
        refine ⟨by omega, fun c h1 h2 => ?_⟩
        by_cases hci : c < i
        · exact hfree c h1 hci
        · rwa [show c = i by omega]

theorem freeRegions_lists (v : Volume) :
    Lists v.used 0 v.total (v.winxGetFreeVolumeRegions.map Region.run) := by
  have := freeRegionsFrom_lists v.used v.total 0 none (by simp)
  rwa [Nat.zero_add] at this

theorem freeRegions_spaced (v : Volume) : Spaced 1 (v.winxGetFreeVolumeRegions.map Region.run) :=
  v.freeRegions_lists.spaced

theorem mem_cover_freeRegions (v : Volume) (c : ℕ) :
    c ∈ cover (v.winxGetFreeVolumeRegions.map Region.run) ↔ v.Free c := by
  rw [v.freeRegions_lists.covers]
  simp [Free]

end Volume

end StopGap
