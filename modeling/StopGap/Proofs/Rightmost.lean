import StopGap.Proofs.Candidates

/-!
# The candidates that are kept

The candidate loop is to keep the four rightmost files of each size. It does as long as every file
that comes up finds three of its size, or all there were, at or behind its own start: then at most
one of those kept starts before it, and that is the one it replaces. Otherwise it is put in twice
while fewer than four are kept, and then replaces the first of those kept that start before it,
which is the one of them furthest to the right.
-/

namespace StopGap

namespace FileEnumeration

variable {fe : FileEnumeration} {lcn size length : ℕ} {f : FileId}
  {met cands es : List (ℕ × FileId)} {known : Known}

/-- The files of at most `length` clusters behind `lcn`, in the order in which they come up. -/
def behind (fe : FileEnumeration) (lcn length : ℕ) : List (ℕ × FileId) :=
  fe.buckets.reverse.filter fun e => e.1 ≤ length ∧ lcn < fe.start e.2

/-- At least three of the files of its size in `met` start at or behind `e`, or all of them. -/
def InTurn (fe : FileEnumeration) (met : List (ℕ × FileId)) (e : ℕ × FileId) : Prop :=
  min 3 (met.filter fun x => x.1 = e.1).length
    ≤ (met.filter fun x => x.1 = e.1 ∧ fe.start e.2 ≤ fe.start x.2).length

instance {e : ℕ × FileId} : Decidable (fe.InTurn met e) := inferInstanceAs (Decidable (_ ≤ _))

/-- Each file comes up in turn. -/
def Receding (fe : FileEnumeration) (cands : List (ℕ × FileId)) : Prop :=
  ∀ pre e post, cands = pre ++ e :: post → fe.InTurn pre e

theorem receding_nil : fe.Receding [] := by
  intro pre e post h
  simp at h

theorem receding_concat {e : ℕ × FileId} :
    fe.Receding (met ++ [e]) ↔ fe.Receding met ∧ fe.InTurn met e :=
  forall_split_concat

/-- Up to the first file that is not in turn they are. -/
theorem exists_not_inTurn (h : ¬ fe.Receding cands) :
    ∃ pre e post, cands = pre ++ e :: post ∧ fe.Receding pre ∧ ¬ fe.InTurn pre e := by
  induction cands using List.reverseRecOn with
  | nil => exact absurd receding_nil h
  | append_singleton met e ih =>
    by_cases hmet : fe.Receding met
    · exact ⟨met, e, [], rfl, hmet, fun hturn => h (receding_concat.2 ⟨hmet, hturn⟩)⟩
    · obtain ⟨pre, x, post, rfl, hpre, hx⟩ := ih hmet
      exact ⟨pre, x, post ++ [e], by simp, hpre, hx⟩

/-- `known_` holds, of each size, four of the files or all, and none that was left out starts
further right than one of its size that was kept. -/
structure Rightmost (fe : FileEnumeration) (cands : List (ℕ × FileId)) (known : Known) : Prop
    extends Sampled cands known where
  left : ∀ x ∈ cands, (OrderDual.toDual x.1, x.2) ∉ known →
    ∀ y ∈ known, y.1 = OrderDual.toDual x.1 → fe.start x.2 ≤ fe.start y.2

/-- Those of a size are in `known_` by descending position. -/
structure Ranked (fe : FileEnumeration) (met : List (ℕ × FileId)) (known : Known) : Prop
    extends Rightmost fe met known where
  sorted : OrdMap.Sorted known
  order : known.Pairwise fun a b => a.1 = b.1 → fe.start b.2 ≤ fe.start a.2

theorem ranked_nil : fe.Ranked [] [] where
  toSampled := sampled_nil
  left := by simp
  sorted := List.Pairwise.nil
  order := List.Pairwise.nil

/-! ## The loop as a fold -/

def keepAll (fe : FileEnumeration) (cands : List (ℕ × FileId)) (known : Known) :
    Except Fault Known :=
  cands.foldlM (fun known e => fe.keepKnown e.1 e.2 (fe.start e.2) known) known

theorem findCands_eq_keepAll (hlen : length ≤ maxlen) : ∀ {es : List (ℕ × FileId)} {known : Known},
    (∀ e ∈ es, e.1 ≤ length) → (∀ e ∈ es, (fe.disp e.2).blockmap ≠ []) →
    (length = 0 → ∀ e ∈ es, fe.start e.2 ≤ lcn) →
    fe.findCands lcn es ⟨[], length, known⟩ =
      (fe.keepAll (es.filter fun e => lcn < fe.start e.2) known).map (⟨[], length, ·⟩)
  | [], _, _, _, _ => rfl
  | (size, f) :: es, known, hfit, hmap, hzero => by
    have ih : ∀ known, fe.findCands lcn es ⟨[], length, known⟩ =
        (fe.keepAll (es.filter fun e => lcn < fe.start e.2) known).map (⟨[], length, ·⟩) :=
      fun known => findCands_eq_keepAll hlen (fun e he => hfit e (by simp [he]))
        (fun e he => hmap e (by simp [he])) fun h0 e he => hzero h0 e (by simp [he])
    by_cases h0 : length = 0
    · have hnone : ((size, f) :: es).filter (fun e => lcn < fe.start e.2) = [] :=
        List.filter_eq_nil_iff.2 fun e he => by simpa using hzero h0 e he
      rw [hnone, findCands, if_pos h0]
      rfl
    have hsize := hfit (size, f) (by simp)
    rw [findCands, if_neg h0, if_neg (not_lt.2 hsize), headLcn_eq_start (hmap (size, f) (by simp))]
    simp only [Bind.bind, Except.bind]
    by_cases hl : fe.start f ≤ lcn
    · rw [if_pos hl, ih, List.filter_cons_of_neg (by simpa using hl)]
    · rw [if_neg hl, if_neg (not_lt.2 hlen), List.filter_cons_of_pos (by simpa using hl)]
      simp only [keepAll, List.foldlM_cons, Bind.bind, Except.bind]
      rcases fe.keepKnown size f (fe.start f) known with err | known'
      · rfl
      · exact ih known'

/-- What is known in the end was known before or came up. -/
theorem keepAll_mem : ∀ {cands : List (ℕ × FileId)} {known : Known},
    (∀ e ∈ cands, (fe.disp e.2).blockmap ≠ []) → (∀ x ∈ known, (fe.disp x.2).blockmap ≠ []) →
    ∃ known', fe.keepAll cands known = .ok known'
      ∧ ∀ x ∈ known', (OrderDual.ofDual x.1, x.2) ∈ cands ∨ x ∈ known
  | [], known, _, _ => ⟨known, rfl, fun _ hx => .inr hx⟩
  | (size, f) :: cands, known, hmap, hknown => by
    have hf := hmap (size, f) (by simp)
    obtain ⟨known₁, hkeep, -, hmem⟩ := keepKnown_spec size (fe.start f) hf hknown
    have hknown₁ : ∀ x ∈ known₁, (fe.disp x.2).blockmap ≠ [] := fun x hx => by
      rcases hmem x hx with rfl | hx
      · exact hf
      · exact hknown x hx
    obtain ⟨known', hall, hmem'⟩ := keepAll_mem (fun e he => hmap e (List.mem_cons_of_mem _ he))
      hknown₁
    refine ⟨known', ?_, fun x hx => ?_⟩
    · simp only [keepAll, List.foldlM_cons, hkeep, Bind.bind, Except.bind]
      exact hall
    · rcases hmem' x hx with hx | hx
      · exact .inl (by simp [hx])
      · rcases hmem x hx with rfl | hx
        · exact .inl (by simp)
        · exact .inr hx

/-! ## One file comes up -/

section Count

variable {l : ℕ}

/-- Of the files met at or behind a cluster there are as many as of those kept, or more. -/
theorem Sampled.length_kept_le (fe : FileEnumeration) (h : Sampled met known) (size l : ℕ) :
    ((OrdMap.equalRange (OrderDual.toDual size) known).filter fun y => l ≤ fe.start y.2).length
      ≤ (met.filter fun x => x.1 = size ∧ l ≤ fe.start x.2).length := by
  set R := OrdMap.equalRange (OrderDual.toDual size) known
  have hnd : ((R.filter fun y => l ≤ fe.start y.2).map Prod.snd).Nodup :=
    h.nodup.sublist ((List.filter_sublist.trans List.filter_sublist).map _)
  have hsub : (R.filter fun y => l ≤ fe.start y.2).map Prod.snd
      ⊆ (met.filter fun x => x.1 = size ∧ l ≤ fe.start x.2).map Prod.snd := by
    intro g hg
    obtain ⟨y, hy, rfl⟩ := List.mem_map.1 hg
    obtain ⟨hy, hstart⟩ := List.mem_filter.1 hy
    obtain ⟨hy, hkey⟩ := List.mem_filter.1 hy
    refine List.mem_map.2 ⟨_, List.mem_filter.2 ⟨h.mem y hy, ?_⟩, rfl⟩
    have hkey : y.1 = OrderDual.toDual size := by simpa using hkey
    simpa [hkey] using hstart
  simpa using (List.subperm_of_subset hnd hsub).length_le

/-- If they are all kept, there are no more of them. -/
theorem length_met_le (hnd : (met.map Prod.snd).Nodup) (hkept : ∀ x ∈ met, x.1 = size →
    l ≤ fe.start x.2 → (OrderDual.toDual size, x.2) ∈ known) :
    (met.filter fun x => x.1 = size ∧ l ≤ fe.start x.2).length ≤
      ((OrdMap.equalRange (OrderDual.toDual size) known).filter
        fun y => l ≤ fe.start y.2).length := by
  have hnd' : ((met.filter fun x => x.1 = size ∧ l ≤ fe.start x.2).map Prod.snd).Nodup :=
    hnd.sublist (List.filter_sublist.map _)
  have hsub : (met.filter fun x => x.1 = size ∧ l ≤ fe.start x.2).map Prod.snd
      ⊆ ((OrdMap.equalRange (OrderDual.toDual size) known).filter
        fun y => l ≤ fe.start y.2).map Prod.snd := by
    intro g hg
    obtain ⟨x, hx, rfl⟩ := List.mem_map.1 hg
    obtain ⟨hx, hcond⟩ := List.mem_filter.1 hx
    obtain ⟨hsize, hstart⟩ : x.1 = size ∧ l ≤ fe.start x.2 := by simpa using hcond
    exact List.mem_map.2 ⟨_, List.mem_filter.2 ⟨List.mem_filter.2
      ⟨hkept x hx hsize hstart, by simp⟩, by simpa using hstart⟩, rfl⟩
  simpa using (List.subperm_of_subset hnd' hsub).length_le

end Count

/-- With fewer than four met, a file in turn starts behind none of them. -/
theorem InTurn.le_of_few (hturn : fe.InTurn met (size, f))
    (hfew : (met.filter fun x => x.1 = size).length < 4) :
    ∀ x ∈ met, x.1 = size → fe.start f ≤ fe.start x.2 := by
  intro x hx hsize
  have hall : ((met.filter fun x => x.1 = size).filter fun x => fe.start f ≤ fe.start x.2).length
      = (met.filter fun x => x.1 = size).length := by
    refine le_antisymm (List.length_filter_le _ _) ?_
    have hcond := hturn
    simp only [InTurn] at hcond
    rw [List.filter_filter]
    simp only [Bool.decide_and, Bool.and_comm] at hcond ⊢
    omega
  simpa using List.length_filter_eq_length_iff.1 hall x
    (List.mem_filter.2 ⟨hx, by simpa using hsize⟩)

theorem exists_before_of_not_inTurn (hturn : ¬ fe.InTurn met (size, f)) :
    ∃ x ∈ met, x.1 = size ∧ fe.start x.2 < fe.start f := by
  by_contra hall
  push Not at hall
  have hsame : (met.filter fun x => x.1 = size ∧ fe.start f ≤ fe.start x.2)
      = met.filter fun x => x.1 = size :=
    List.filter_congr fun x hx => by simpa using hall x hx
  refine hturn ?_
  simp only [InTurn, hsame]
  exact min_le_right _ _

section Step

variable (h : fe.Ranked met known) (hnd : (met.map Prod.snd).Nodup)
  (hmap : ∀ x ∈ met, (fe.disp x.2).blockmap ≠ []) (hf : (fe.disp f).blockmap ≠ [])
  (hfresh : f ∉ met.map Prod.snd)

include h hnd in
/-- With four met, at most one of those kept starts before a file in turn. -/
theorem Ranked.eq_of_before (hturn : fe.InTurn met (size, f))
    (hfull : ¬ (met.filter fun x => x.1 = size).length < 4) {ri y : ℕᵒᵈ × FileId}
    (hri : ri ∈ known) (hkey : ri.1 = OrderDual.toDual size) (hlt : fe.start ri.2 < fe.start f)
    (hy : y ∈ known) (hykey : y.1 = OrderDual.toDual size) (hylt : fe.start y.2 < fe.start f) :
    y = ri := by
  have hkept : ∀ x ∈ met, x.1 = size → fe.start f ≤ fe.start x.2 →
      (OrderDual.toDual size, x.2) ∈ known := by
    rintro x hx rfl hstart
    by_contra hnot
    have := h.left x hx hnot ri hri hkey
    omega
  have hcount := h.count size
  have hle := length_met_le hnd hkept
  have hcond := hturn
  simp only [InTurn] at hcond
  set R := OrdMap.equalRange (OrderDual.toDual size) known
  have hparts := List.length_eq_length_filter_add (l := R)
    fun y => decide (fe.start f ≤ fe.start y.2)
  have hmem : ∀ z ∈ known, z.1 = OrderDual.toDual size → fe.start z.2 < fe.start f →
      z ∈ R.filter fun y => !decide (fe.start f ≤ fe.start y.2) := fun z hz hzkey hzlt =>
    List.mem_filter.2 ⟨List.mem_filter.2 ⟨hz, by simpa using hzkey⟩, by simpa using hzlt⟩
  have hone : (R.filter fun y => !decide (fe.start f ≤ fe.start y.2)).length ≤ 1 := by omega
  have h₁ := hmem y hy hykey hylt
  have h₂ := hmem ri hri hkey hlt
  rcases hrest : R.filter fun y => !decide (fe.start f ≤ fe.start y.2) with _ | ⟨z, _ | ⟨z', zs⟩⟩
  · rw [hrest] at h₁
    cases h₁
  · rw [hrest, List.mem_singleton] at h₁ h₂
    rw [h₁, h₂]
  · rw [hrest] at hone
    simp at hone

include h in
/-- The new file is put in behind those known, which are all there are. -/
theorem Ranked.insert (hfresh : f ∉ met.map Prod.snd)
    (hfew : (met.filter fun x => x.1 = size).length < 4)
    (hle : ∀ x ∈ met, x.1 = size → fe.start f ≤ fe.start x.2) :
    fe.Ranked (met ++ [(size, f)]) (OrdMap.insertMulti (OrderDual.toDual size, f) known) where
  toSampled := h.toSampled.insert hfresh hfew
  left := by
    intro x hx hnot y hy hkey
    rw [OrdMap.mem_insertMulti, not_or] at hnot
    rcases List.mem_append.1 hx with hx | hx
    · rcases OrdMap.mem_insertMulti.1 hy with rfl | hy
      · have hsize : x.1 = size := (OrderDual.toDual_inj.1 hkey).symm
        exact absurd (hsize ▸ h.mem_of_few hfew.le hx hsize) hnot.2
      · exact h.left x hx hnot.2 y hy hkey
    · rw [List.mem_singleton] at hx
      exact absurd (by rw [hx]) hnot.1
  sorted := h.sorted.insertMulti _
  order := by
    refine h.sorted.pairwise_insertMulti h.order (fun y hy _ heq => ?_) fun y _ hlt heq => ?_
    · exact hle _ (h.mem y hy) (congrArg OrderDual.ofDual heq)
    · exact absurd heq hlt.ne

include h in
/-- The new file replaces the only one of those kept that starts before it. -/
theorem Ranked.replace (hfresh : f ∉ met.map Prod.snd)
    (hfull : ¬ (met.filter fun x => x.1 = size).length < 4) {ri : ℕᵒᵈ × FileId} (hri : ri ∈ known)
    (hkey : ri.1 = OrderDual.toDual size) (hlt : fe.start ri.2 < fe.start f)
    (hothers : ∀ y ∈ known.erase ri, y.1 = OrderDual.toDual size →
      fe.start f ≤ fe.start y.2) :
    fe.Ranked (met ++ [(size, f)])
      (OrdMap.insertMulti (OrderDual.toDual size, f) (known.erase ri)) := by
  have hsorted : OrdMap.Sorted (known.erase ri) := h.sorted.sublist List.erase_sublist
  refine ⟨⟨h.toSampled.replace hfresh hfull hri hkey, fun x hx hnot y hy hykey => ?_⟩,
    hsorted.insertMulti _, hsorted.pairwise_insertMulti (h.order.sublist List.erase_sublist)
      (fun y hy _ heq => hothers y hy heq) fun y _ hlt heq => absurd heq hlt.ne⟩
  rw [OrdMap.mem_insertMulti, not_or] at hnot
  rcases List.mem_append.1 hx with hx | hx
  · by_cases hin : (OrderDual.toDual x.1, x.2) ∈ known
    · -- the file that was replaced
      obtain rfl : (OrderDual.toDual x.1, x.2) = ri := by
        by_contra hne
        exact hnot.2 ((List.mem_erase_of_ne hne).2 hin)
      rcases OrdMap.mem_insertMulti.1 hy with rfl | hy
      · exact hlt.le
      · exact hlt.le.trans (hothers y hy (hykey.trans hkey))
    · rcases OrdMap.mem_insertMulti.1 hy with rfl | hy
      · exact (h.left x hx hin ri hri (hkey.trans hykey)).trans hlt.le
      · exact h.left x hx hin y (List.mem_of_mem_erase hy) hykey
  · rw [List.mem_singleton] at hx
    exact absurd (by rw [hx]) hnot.1

include h hnd hmap hf hfresh

/-- A file in turn leaves the rightmost files kept. -/
theorem Ranked.keepKnown (hturn : fe.InTurn met (size, f)) :
    ∃ known', fe.keepKnown size f (fe.start f) known = .ok known'
      ∧ fe.Ranked (met ++ [(size, f)]) known' := by
  obtain ⟨known', hkeep, hS⟩ := keepKnown_sampled h.toSampled hmap hf hfresh hturn.le_of_few
  obtain ⟨known'', hkeep', hcases⟩ :=
    keepKnown_cases size hf fun x hx => hmap _ (h.mem x hx)
  obtain rfl := Except.ok.inj (hkeep.symm.trans hkeep')
  refine ⟨known', hkeep, ?_⟩
  have hcount := h.count size
  by_cases hfew : (met.filter fun x => x.1 = size).length < 4
  · have hle := hturn.le_of_few hfew
    rw [if_pos (by omega)] at hcases
    rcases hcases with ⟨rfl, -⟩ | ⟨ri, hri, hkey, hlt, -⟩
    · exact h.insert hfresh hfew hle
    · rcases OrdMap.mem_insertMulti.1 hri with rfl | hri
      · exact absurd hlt (lt_irrefl _)
      · exact absurd (hle _ (h.mem ri hri) (congrArg OrderDual.ofDual hkey)) (not_le.2 hlt)
  · rw [if_neg (by omega)] at hcases
    rcases hcases with ⟨rfl, hnone⟩ | ⟨ri, hri, hkey, hlt, -, rfl⟩
    · -- it is left out, and none of those kept starts before it
      refine ⟨⟨hS, fun x hx hnot y hy hykey => ?_⟩, h.sorted, h.order⟩
      rcases List.mem_append.1 hx with hx | hx
      · exact h.left x hx hnot y hy hykey
      · rw [List.mem_singleton] at hx
        subst hx
        exact hnone y hy hykey
    · refine h.replace hfresh hfew hri hkey hlt fun y hy hykey => ?_
      by_contra hylt
      have hyri := h.eq_of_before hnd hturn hfew hri hkey hlt (List.mem_of_mem_erase hy) hykey
        (not_le.1 hylt)
      exact (h.nodup.of_map).not_mem_erase (hyri ▸ hy)

omit hnd in
/-- With fewer than four met, a file that is not in turn drives one of them out. -/
theorem Ranked.lost_of_few (hturn : ¬ fe.InTurn met (size, f))
    (hfew : (met.filter fun x => x.1 = size).length < 4) :
    ∃ known', fe.keepKnown size f (fe.start f) known = .ok known'
      ∧ ∃ x ∈ met, x.1 = size ∧ (OrderDual.toDual size, x.2) ∉ known' := by
  obtain ⟨known', hkeep, hcases⟩ :=
    keepKnown_cases size hf fun x hx => hmap _ (h.mem x hx)
  refine ⟨known', hkeep, ?_⟩
  have hcount := h.count size
  rw [if_pos (by omega)] at hcases
  rcases hcases with ⟨-, hnone⟩ | ⟨ri, hri, hkey, hlt, -, rfl⟩
  · obtain ⟨x, hx, hsize, hbefore⟩ := exists_before_of_not_inTurn hturn
    have hknown := h.mem_of_few hfew.le hx hsize
    exact absurd (hnone _ (OrdMap.mem_insertMulti.2 (.inr hknown)) rfl) (not_le.2 hbefore)
  · obtain ⟨g, rfl⟩ : ∃ g, ri = (OrderDual.toDual size, g) := ⟨ri.2, Prod.ext hkey rfl⟩
    have hne : (OrderDual.toDual size, g) ≠ (OrderDual.toDual size, f) := by
      rintro ⟨⟩
      exact lt_irrefl _ hlt
    refine ⟨_, h.mem _ ((OrdMap.mem_insertMulti.1 hri).resolve_left hne), rfl, ?_⟩
    rw [OrdMap.mem_insertMulti, not_or]
    exact ⟨hne, ((h.toSampled.insert hfresh hfew).nodup.of_map).not_mem_erase⟩

omit hnd hmap hf hfresh in
/-- With four met, two of those kept start before a file that is not in turn. -/
theorem Ranked.exists_before_ne (hturn : ¬ fe.InTurn met (size, f))
    (hfull : ¬ (met.filter fun x => x.1 = size).length < 4) (z : ℕᵒᵈ × FileId) :
    ∃ y ∈ OrdMap.equalRange (OrderDual.toDual size) known, fe.start y.2 < fe.start f ∧ y ≠ z := by
  have hcount := h.count size
  have hle := h.toSampled.length_kept_le fe size (fe.start f)
  have hcond := hturn
  simp only [InTurn] at hcond
  set R := OrdMap.equalRange (OrderDual.toDual size) known
  have hparts := List.length_eq_length_filter_add (l := R)
    fun y => decide (fe.start f ≤ fe.start y.2)
  by_contra hall
  push Not at hall
  have hnd : (R.filter fun y => !decide (fe.start f ≤ fe.start y.2)).Nodup :=
    h.nodup.of_map.sublist (List.filter_sublist.trans List.filter_sublist)
  have hsub : (R.filter fun y => !decide (fe.start f ≤ fe.start y.2)) ⊆ [z] := fun y hy => by
    obtain ⟨hy, hlt⟩ := List.mem_filter.1 hy
    exact List.mem_singleton.2 (hall y hy (by simpa using hlt))
  have hone := (List.subperm_of_subset hnd hsub).length_le
  rw [List.length_singleton] at hone
  omega

omit hnd in
/-- A file that is not in turn does not leave the rightmost files kept, if those met start at
different clusters. -/
theorem Ranked.not_rightmost (hdiff : (met.map fun x => fe.start x.2).Nodup)
    (hturn : ¬ fe.InTurn met (size, f)) :
    ∃ known', fe.keepKnown size f (fe.start f) known = .ok known'
      ∧ ¬ fe.Rightmost (met ++ [(size, f)]) known' := by
  by_cases hfew : (met.filter fun x => x.1 = size).length < 4
  · obtain ⟨known', hkeep, x, hx, hsize, hlost⟩ := h.lost_of_few hmap hf hfresh hturn hfew
    refine ⟨known', hkeep, fun hR => hlost (hR.mem_of_few ?_ (List.mem_append_left _ hx) hsize)⟩
    rw [length_filter_concat, if_pos rfl]
    omega
  obtain ⟨known', hkeep, hcases⟩ :=
    keepKnown_cases size hf fun x hx => hmap _ (h.mem x hx)
  refine ⟨known', hkeep, fun hR => ?_⟩
  have hcount := h.count size
  rw [if_neg (by omega)] at hcases
  rcases hcases with ⟨-, hnone⟩ | ⟨ri, hri, hkey, hlt, hfind, rfl⟩
  · obtain ⟨y, hy, hylt, -⟩ := h.exists_before_ne hturn hfew (OrderDual.toDual size, f)
    obtain ⟨hy, hykey⟩ := List.mem_filter.1 hy
    exact absurd (hnone y hy (by simpa using hykey)) (not_le.2 hylt)
  · -- the first of those that start before the file is replaced, and another one stays
    obtain ⟨g, rfl⟩ : ∃ g, ri = (OrderDual.toDual size, g) := ⟨ri.2, Prod.ext hkey rfl⟩
    obtain ⟨y, hy, hylt, hyne⟩ := h.exists_before_ne hturn hfew (OrderDual.toDual size, g)
    have horder := (OrdMap.find?_first (h.order.sublist List.filter_sublist) hfind hy
      (by simpa using hylt)).resolve_left hyne
    obtain ⟨hy, hykey⟩ := List.mem_filter.1 hy
    have hykey : y.1 = OrderDual.toDual size := by simpa using hykey
    have hstart : fe.start y.2 ≠ fe.start g := fun heq => by
      have := List.inj_on_of_nodup_map hdiff (h.mem y hy) (h.mem _ hri) heq
      exact hyne (Prod.ext hykey (congrArg Prod.snd this))
    have hleft : fe.start g ≤ fe.start y.2 := by
      refine hR.left (size, g) (List.mem_append_left _ (h.mem _ hri)) ?_ y
        (OrdMap.mem_insertMulti.2 (.inr ((List.mem_erase_of_ne hyne).2 hy))) hykey
      rw [OrdMap.mem_insertMulti, not_or]
      refine ⟨?_, h.nodup.of_map.not_mem_erase⟩
      rintro ⟨⟩
      exact lt_irrefl _ hlt
    exact hstart (le_antisymm (horder hykey.symm) hleft)

end Step

/-! ## The whole loop -/

theorem keepAll_append {rest : List (ℕ × FileId)} :
    fe.keepAll (cands ++ rest) known = fe.keepAll cands known >>= fe.keepAll rest :=
  List.foldlM_append

theorem keepAll_concat {e : ℕ × FileId} {known known' : Known}
    (h : fe.keepAll cands known = .ok known') :
    fe.keepAll (cands ++ [e]) known = fe.keepKnown e.1 e.2 (fe.start e.2) known' := by
  rw [keepAll_append, h]
  exact bind_pure (fe.keepKnown e.1 e.2 (fe.start e.2) known')

theorem fresh_of_nodup {e : ℕ × FileId} {post : List (ℕ × FileId)}
    (hnd : ((met ++ e :: post).map Prod.snd).Nodup) : e.2 ∉ met.map Prod.snd := by
  rw [List.map_append, List.nodup_append] at hnd
  exact fun hin => hnd.2.2 e.2 hin e.2 (by simp) rfl

theorem keepAll_ranked (hmap : ∀ e ∈ cands, (fe.disp e.2).blockmap ≠ [])
    (hnd : (cands.map Prod.snd).Nodup) (hrec : fe.Receding cands) :
    ∃ known, fe.keepAll cands [] = .ok known ∧ fe.Ranked cands known := by
  induction cands using List.reverseRecOn with
  | nil => exact ⟨[], rfl, ranked_nil⟩
  | append_singleton met e ih =>
    obtain ⟨hmet, hturn⟩ := receding_concat.1 hrec
    have hmapmet : ∀ x ∈ met, (fe.disp x.2).blockmap ≠ [] := fun x hx => hmap x (by simp [hx])
    have hndmet : (met.map Prod.snd).Nodup :=
      hnd.sublist ((List.sublist_append_left met [e]).map Prod.snd)
    obtain ⟨known, hkeep, hR⟩ := ih hmapmet hndmet hmet
    obtain ⟨known', hkeep', hR'⟩ :=
      hR.keepKnown hndmet hmapmet (hmap e (by simp)) (fresh_of_nodup hnd) hturn
    exact ⟨known', (keepAll_concat hkeep).trans hkeep', hR'⟩

/-- The loop up to the first file that comes up out of turn. -/
theorem exists_ranked_not_inTurn (hmap : ∀ e ∈ cands, (fe.disp e.2).blockmap ≠ [])
    (hnd : (cands.map Prod.snd).Nodup) (hrec : ¬ fe.Receding cands) :
    ∃ met e post known, cands = met ++ e :: post ∧ fe.keepAll met [] = .ok known
      ∧ fe.Ranked met known ∧ ¬ fe.InTurn met e := by
  obtain ⟨met, e, post, rfl, hmet, hturn⟩ := exists_not_inTurn hrec
  obtain ⟨known, hkeep, hR⟩ := keepAll_ranked (fun x hx => hmap x (by simp [hx]))
    (hnd.sublist ((List.sublist_append_left met (e :: post)).map Prod.snd)) hmet
  exact ⟨met, e, post, known, rfl, hkeep, hR, hturn⟩

/-- Where a file comes up out of turn, the rightmost files are not kept at that point. -/
theorem keepAll_not_rightmost (hmap : ∀ e ∈ cands, (fe.disp e.2).blockmap ≠ [])
    (hnd : (cands.map Prod.snd).Nodup) (hdiff : (cands.map fun e => fe.start e.2).Nodup)
    (hrec : ¬ fe.Receding cands) :
    ∃ pre known, pre <+: cands ∧ fe.keepAll pre [] = .ok known ∧ ¬ fe.Rightmost pre known := by
  obtain ⟨met, e, post, known, rfl, hkeep, hR, hturn⟩ := exists_ranked_not_inTurn hmap hnd hrec
  obtain ⟨known', hkeep', hnot⟩ := hR.not_rightmost (fun x hx => hmap x (by simp [hx]))
    (hmap e (by simp)) (fresh_of_nodup hnd)
    (hdiff.sublist ((List.sublist_append_left met (e :: post)).map _)) hturn
  exact ⟨met ++ [e], known', ⟨post, by simp⟩, (keepAll_concat hkeep).trans hkeep', hnot⟩

/-- A file that was driven out while there were few does not come back. -/
theorem receding_of_few (hmap : ∀ e ∈ cands, (fe.disp e.2).blockmap ≠ [])
    (hnd : (cands.map Prod.snd).Nodup)
    (hfew : ∀ s, (cands.filter fun e => e.1 = s).length ≤ 4)
    (hkeep : fe.keepAll cands [] = .ok known) (hS : Sampled cands known) : fe.Receding cands := by
  by_contra hrec
  obtain ⟨met, e, post, known₁, rfl, hkeep₁, hR, hturn⟩ := exists_ranked_not_inTurn hmap hnd hrec
  have hmapmet : ∀ x ∈ met, (fe.disp x.2).blockmap ≠ [] := fun x hx => hmap x (by simp [hx])
  have hmappost : ∀ x ∈ post, (fe.disp x.2).blockmap ≠ [] := fun x hx => hmap x (by simp [hx])
  have hmape : (fe.disp e.2).blockmap ≠ [] := hmap e (by simp)
  have hlt : (met.filter fun x => x.1 = e.1).length < 4 := by
    have := hfew e.1
    simp only [List.filter_append, List.length_append, List.filter_cons, decide_true, if_true,
      List.length_cons] at this
    omega
  obtain ⟨known₂, hkeep₂, x, hx, hsize, hlost⟩ :=
    hR.lost_of_few hmapmet hmape (fresh_of_nodup hnd) hturn hlt
  have hmap₂ : ∀ y ∈ known₂, (fe.disp y.2).blockmap ≠ [] := by
    obtain ⟨known₂', hkeep₂', -, hmem⟩ := keepKnown_spec e.1 (fe.start e.2) hmape
      fun y hy => hmapmet _ (hR.mem y hy)
    obtain rfl := Except.ok.inj (hkeep₂.symm.trans hkeep₂')
    intro y hy
    rcases hmem y hy with rfl | hy
    · exact hmape
    · exact hmapmet _ (hR.mem y hy)
  obtain ⟨known₃, hkeep₃, hmem⟩ := keepAll_mem hmappost hmap₂
  have hall : fe.keepAll (met ++ e :: post) [] = .ok known₃ := by
    rw [List.append_cons, keepAll_append, keepAll_concat hkeep₁, hkeep₂]
    exact hkeep₃
  obtain rfl := Except.ok.inj (hkeep.symm.trans hall)
  -- the file driven out is not among those that come up later
  rcases hmem _ (hS.mem_of_few (hfew e.1) (List.mem_append_left _ hx) hsize) with hin | hin
  · rw [List.map_append, List.nodup_append] at hnd
    refine hnd.2.2 x.2 (List.mem_map_of_mem hx) x.2 ?_ rfl
    exact List.mem_map.2 ⟨_, List.mem_cons_of_mem _ hin, rfl⟩
  · exact hlost hin

theorem exists_filter_eq {α : Type*} {p : α → Bool} {es pre : List α} (h : pre <+: es.filter p) :
    ∃ es', es' <+: es ∧ es'.filter p = pre := by
  obtain ⟨rest, hrest⟩ := h
  obtain ⟨l₁, l₂, rfl, hl₁, -⟩ := List.filter_eq_append_iff.1 hrest.symm
  exact ⟨l₁, List.prefix_append _ _, hl₁⟩

theorem behind_eq (hsorted : OrdMap.Sorted fe.buckets) (lcn length : ℕ) : fe.behind lcn length =
    (fe.buckets.takeWhile fun e => e.1 ≤ length).reverse.filter fun e => lcn < fe.start e.2 := by
  rw [hsorted.takeWhile_eq_filter, behind, List.filter_reverse, List.filter_reverse,
    List.filter_filter]
  simp only [Bool.decide_and, Bool.and_comm]

/-- The candidate loop keeps the rightmost files of each size if each comes up after three of its
size that start at or behind it, or only after such. If one does not, they are not kept where there
are at most four of each size, and not at some point of the loop where all start at different
clusters. -/
theorem known_rightmost_if_receding (h : Shelved fe) (hsorted : OrdMap.Sorted fe.buckets)
    (hnd : (fe.buckets.map Prod.snd).Nodup) (lcn length : ℕ) (hlen : length ≤ maxlen)
    (hno : ∀ e ∈ fe.buckets, e.1 = length → fe.start e.2 ≤ lcn) :
    ∃ known, fe.findCands lcn (fe.buckets.takeWhile fun e => e.1 ≤ length).reverse
        ⟨[], length, []⟩ = .ok ⟨[], length, known⟩
      ∧ (fe.Receding (fe.behind lcn length) → fe.Rightmost (fe.behind lcn length) known)
      ∧ ((∀ s, ((fe.behind lcn length).filter fun e => e.1 = s).length ≤ 4) →
        fe.Rightmost (fe.behind lcn length) known → fe.Receding (fe.behind lcn length))
      ∧ (((fe.behind lcn length).map fun e => fe.start e.2).Nodup →
        ¬ fe.Receding (fe.behind lcn length) → ∃ es known',
          es <+: (fe.buckets.takeWhile fun e => e.1 ≤ length).reverse
            ∧ fe.findCands lcn es ⟨[], length, []⟩ = .ok ⟨[], length, known'⟩
            ∧ ¬ fe.Rightmost (es.filter fun e => lcn < fe.start e.2) known') := by
  have hbehind := behind_eq hsorted lcn length
  have hmap : ∀ e ∈ fe.behind lcn length, (fe.disp e.2).blockmap ≠ [] := fun e he =>
    h.map e (List.mem_reverse.1 (List.mem_of_mem_filter he))
  have hndcands : ((fe.behind lcn length).map Prod.snd).Nodup := by
    refine List.Nodup.sublist (List.filter_sublist.map Prod.snd) ?_
    rwa [List.map_reverse, List.nodup_reverse]
  -- the loop over any first part of the files
  have hloop : ∀ es, es <+: (fe.buckets.takeWhile fun e => e.1 ≤ length).reverse →
      fe.findCands lcn es ⟨[], length, []⟩ =
        (fe.keepAll (es.filter fun e => lcn < fe.start e.2) []).map (⟨[], length, ·⟩) := by
    intro es hes
    have hmem : ∀ e ∈ es, e ∈ fe.buckets ∧ e.1 ≤ length := fun e he => by
      have := List.mem_reverse.1 (hes.subset he)
      rw [hsorted.takeWhile_eq_filter] at this
      simpa using this
    refine findCands_eq_keepAll hlen (fun e he => (hmem e he).2)
      (fun e he => h.map e (hmem e he).1) fun h0 e he => hno e (hmem e he).1 ?_
    have := (hmem e he).2
    omega
  obtain ⟨known, hkeep, -⟩ := keepAll_mem hmap (fun x hx => absurd hx (List.not_mem_nil (a := x)))
  refine ⟨known, ?_, fun hrec => ?_, fun hfew hR => ?_, fun hdiff hrec => ?_⟩
  · rw [hloop _ List.prefix_rfl, ← hbehind, hkeep]
    rfl
  · obtain ⟨known', hkeep', hR⟩ := keepAll_ranked hmap hndcands hrec
    obtain rfl := Except.ok.inj (hkeep.symm.trans hkeep')
    exact hR.toRightmost
  · exact receding_of_few hmap hndcands hfew hkeep hR.toSampled
  · obtain ⟨pre, known', hpre, hkeep', hnot⟩ := keepAll_not_rightmost hmap hndcands hdiff hrec
    rw [hbehind] at hpre
    obtain ⟨es, hes, rfl⟩ := exists_filter_eq hpre
    refine ⟨es, known', hes, ?_, hnot⟩
    rw [hloop es hes, hkeep']
    rfl

/-- Five files of one cluster come up, at 50, 40, 30, 10 and 20: the last replaces the fourth. -/
theorem known_rightmost_if_receding_five : ∃ known,
    (ofSize 1 [2, 1, 3, 4, 5]).findCands 5
        ((ofSize 1 [2, 1, 3, 4, 5]).buckets.takeWhile fun e => e.1 ≤ 2).reverse ⟨[], 2, []⟩
      = .ok ⟨[], 2, known⟩
    ∧ (ofSize 1 [2, 1, 3, 4, 5]).Rightmost ((ofSize 1 [2, 1, 3, 4, 5]).behind 5 2) known := by
  have hrec : (ofSize 1 [2, 1, 3, 4, 5]).Receding [(1, 5), (1, 4), (1, 3), (1, 1), (1, 2)] := by
    refine receding_concat.2 ⟨receding_concat.2 ⟨receding_concat.2 ⟨receding_concat.2
      ⟨receding_concat.2 ⟨receding_nil, ?_⟩, ?_⟩, ?_⟩, ?_⟩, ?_⟩ <;> decide
  have hstock := ofSize_stocked Nat.one_pos [2, 1, 3, 4, 5]
  obtain ⟨known, hfind, hkept, -⟩ := known_rightmost_if_receding hstock.shelved hstock.sorted
    (by decide) 5 2 (by decide) (by decide)
  exact ⟨known, hfind, hkept hrec⟩

/-- If the last comes up at 40, after 50, 30, 20 and 10, it replaces the one at 30, and the one at
10 stays. -/
theorem known_not_rightmost : ((ofSize 1 [4, 1, 2, 3, 5]).buckets.map Prod.snd).Nodup
    ∧ (∀ e ∈ (ofSize 1 [4, 1, 2, 3, 5]).buckets, e.1 = 2 →
      (ofSize 1 [4, 1, 2, 3, 5]).start e.2 ≤ 5)
    ∧ ∃ known, (ofSize 1 [4, 1, 2, 3, 5]).findCands 5
        ((ofSize 1 [4, 1, 2, 3, 5]).buckets.takeWhile fun e => e.1 ≤ 2).reverse ⟨[], 2, []⟩
      = .ok ⟨[], 2, known⟩
    ∧ ¬ (ofSize 1 [4, 1, 2, 3, 5]).Rightmost ((ofSize 1 [4, 1, 2, 3, 5]).behind 5 2) known := by
  refine ⟨by decide, by decide, [(OrderDual.toDual 1, 5), (OrderDual.toDual 1, 2),
    (OrderDual.toDual 1, 1), (OrderDual.toDual 1, 4)], rfl, fun hR => ?_⟩
  have hle := hR.left (1, 3) (by decide) (by decide) (OrderDual.toDual 1, 1) (by decide) rfl
  exact absurd hle (by decide)

end FileEnumeration

end StopGap
