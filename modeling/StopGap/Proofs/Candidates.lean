import StopGap.Proofs.Chooser

/-!
# Files picked twice

The candidate loop keeps up to four files of each size. While there are fewer it puts a new one in,
and then looks through the files of that size for one that starts before it, which it replaces by
the new one once more. So a file is among the candidates twice if it comes up among the first four
of its size behind one that starts before it, and the knapsack may pick it twice. If the first four
of each size come up by descending position, the files picked are all different.
-/

namespace StopGap

namespace FileEnumeration

variable {fe : FileEnumeration} {lcn size : ℕ} {f : FileId} {met : List (ℕ × FileId)}
  {known : Known}

/-- The cluster the head of a file's map starts at. -/
def start (fe : FileEnumeration) (f : FileId) : ℕ :=
  match (fe.disp f).blockmap with
  | [] => 0
  | b :: _ => b.lcn

theorem headLcn_eq_start (h : (fe.disp f).blockmap ≠ []) : fe.headLcn f = .ok (fe.start f) := by
  unfold headLcn start
  rcases hbm : (fe.disp f).blockmap with _ | ⟨b, bm⟩
  · exact absurd hbm h
  · rfl

/-- The files that come up as candidates for a gap at `lcn`, `length` clusters of which are left:
those behind the gap that fit, once no more than `maxlen` clusters are left. -/
def offered (fe : FileEnumeration) (lcn : ℕ) :
    List (ℕ × FileId) → (length : ℕ) → List (ℕ × FileId)
  | [], _ => []
  | (size, f) :: es, length =>
    if length = 0 then []
    else if length < size ∨ fe.start f ≤ lcn then fe.offered lcn es length
    else if maxlen < length then fe.offered lcn es (length - size)
    else (size, f) :: fe.offered lcn es length

/-- Among the first four files of each size, none comes up behind one that starts before it. -/
def Orderly (fe : FileEnumeration) (cands : List (ℕ × FileId)) : Prop :=
  ∀ pre e post, cands = pre ++ e :: post → (pre.filter fun x => x.1 = e.1).length < 4 →
    ∀ x ∈ pre, x.1 = e.1 → fe.start e.2 ≤ fe.start x.2

theorem orderly_nil : fe.Orderly [] := by
  intro pre e post h
  simp at h

theorem Orderly.of_append {cands rest : List (ℕ × FileId)} (h : fe.Orderly (cands ++ rest)) :
    fe.Orderly cands := by
  rintro pre e post rfl
  exact h pre e (post ++ rest) (by simp)

/-- What holds of each element with those before it, of a list with one more element. -/
theorem forall_split_concat {α : Type*} {Q : List α → α → Prop} {l : List α} {a : α} :
    (∀ pre x post, l ++ [a] = pre ++ x :: post → Q pre x) ↔
      (∀ pre x post, l = pre ++ x :: post → Q pre x) ∧ Q l a := by
  refine ⟨fun h => ⟨fun pre x post hl => h pre x (post ++ [a]) (by simp [hl]), h l a [] rfl⟩, ?_⟩
  rintro ⟨hl, hlast⟩ pre x post hsplit
  rcases List.eq_nil_or_concat post with rfl | ⟨post, y, rfl⟩
  · obtain ⟨rfl, hxa⟩ := List.append_inj' hsplit rfl
    obtain rfl : a = x := by simpa using hxa
    exact hlast
  · rw [List.concat_eq_append, ← List.cons_append, ← List.append_assoc] at hsplit
    exact hl pre x post (List.append_inj' hsplit rfl).1

theorem orderly_concat {e : ℕ × FileId} : fe.Orderly (met ++ [e]) ↔ fe.Orderly met
    ∧ ((met.filter fun x => x.1 = e.1).length < 4 →
      ∀ x ∈ met, x.1 = e.1 → fe.start e.2 ≤ fe.start x.2) :=
  forall_split_concat

/-- `known_` holds different files out of those `met`, of each size four or all. -/
structure Sampled (met : List (ℕ × FileId)) (known : Known) : Prop where
  mem : ∀ x ∈ known, (OrderDual.ofDual x.1, x.2) ∈ met
  count : ∀ s, (OrdMap.equalRange (OrderDual.toDual s) known).length
    = min 4 (met.filter fun x => x.1 = s).length
  nodup : (known.map Prod.snd).Nodup

theorem sampled_nil : Sampled [] [] := ⟨by simp, by simp [OrdMap.equalRange], List.nodup_nil⟩

theorem findSmaller_eq (fe : FileEnumeration) (l : ℕ) : ∀ (known : Known),
    (∀ x ∈ known, (fe.disp x.2).blockmap ≠ []) →
    fe.findSmaller l known = .ok (known.find? fun x => fe.start x.2 < l)
  | [], _ => rfl
  | x :: known, hmap => by
    have ih := findSmaller_eq fe l known fun y hy => hmap y (by simp [hy])
    simp only [findSmaller, headLcn_eq_start (hmap x (by simp)), Bind.bind, Except.bind]
    by_cases hx : l ≤ fe.start x.2
    · rw [if_pos hx, List.find?_cons_of_neg (by simpa using hx), ih]
    · rw [if_neg hx, List.find?_cons_of_pos (by simpa using hx)]

/-- `known_` after a file came up: it is put in below the cap, and then in place of one of its size
that starts before it, the first of these. -/
theorem keepKnown_cases (size : ℕ) (hf : (fe.disp f).blockmap ≠ [])
    (hmap : ∀ x ∈ known, (fe.disp x.2).blockmap ≠ []) :
    let e : ℕᵒᵈ × FileId := (OrderDual.toDual size, f)
    let known₁ := if (OrdMap.equalRange (OrderDual.toDual size) known).length < 4 then
      OrdMap.insertMulti e known else known
    ∃ known', fe.keepKnown size f (fe.start f) known = .ok known'
      ∧ ((known' = known₁
          ∧ ∀ x ∈ known₁, x.1 = OrderDual.toDual size → fe.start f ≤ fe.start x.2)
        ∨ ∃ ri ∈ known₁, ri.1 = OrderDual.toDual size ∧ fe.start ri.2 < fe.start f
          ∧ ((OrdMap.equalRange (OrderDual.toDual size) known₁).find?
            fun x => fe.start x.2 < fe.start f) = some ri
          ∧ known' = OrdMap.insertMulti e (known₁.erase ri)) := by
  intro e known₁
  set R := OrdMap.equalRange (OrderDual.toDual size) known₁ with hR
  have hmem : ∀ {x}, x ∈ R ↔ x ∈ known₁ ∧ x.1 = OrderDual.toDual size := by
    simp [hR, OrdMap.equalRange]
  have hmap₁ : ∀ x ∈ R, (fe.disp x.2).blockmap ≠ [] := fun x hx => by
    have hx := (hmem.1 hx).1
    simp only [known₁] at hx
    split_ifs at hx
    · rcases OrdMap.mem_insertMulti.1 hx with rfl | hx
      · exact hf
      · exact hmap x hx
    · exact hmap x hx
  have hkeep := keepKnown_eq rfl (findSmaller_eq fe (fe.start f) R hmap₁)
  rcases hfind : R.find? fun x => fe.start x.2 < fe.start f with _ | ri <;> rw [hfind] at hkeep
  · refine ⟨known₁, hkeep, Or.inl ⟨rfl, fun x hx hkey => ?_⟩⟩
    simpa using List.find?_eq_none.1 hfind x (hmem.2 ⟨hx, hkey⟩)
  · obtain ⟨hri, hkey⟩ := hmem.1 (List.mem_of_find?_eq_some hfind)
    exact ⟨_, hkeep, Or.inr ⟨ri, hri, hkey, by simpa using List.find?_some hfind, hfind, rfl⟩⟩

section Step

variable (h : Sampled met known) (hmap : ∀ x ∈ met, (fe.disp x.2).blockmap ≠ [])
  (hf : (fe.disp f).blockmap ≠ [])

theorem Sampled.not_mem (h : Sampled met known) (hfresh : f ∉ met.map Prod.snd) :
    f ∉ known.map Prod.snd := fun hmem => by
  obtain ⟨x, hx, rfl⟩ := List.mem_map.1 hmem
  exact hfresh (List.mem_map.2 ⟨_, h.mem x hx, rfl⟩)

theorem length_filter_concat (met : List (ℕ × FileId)) (size : ℕ) (f : FileId) (s : ℕ) :
    ((met ++ [(size, f)]).filter fun x => x.1 = s).length
      = (met.filter fun x => x.1 = s).length + if size = s then 1 else 0 := by
  rw [List.filter_append, List.length_append, List.filter_singleton]
  split_ifs <;> simp_all

theorem Sampled.insert (h : Sampled met known) (hfresh : f ∉ met.map Prod.snd)
    (hfew : (met.filter fun x => x.1 = size).length < 4) :
    Sampled (met ++ [(size, f)]) (OrdMap.insertMulti (OrderDual.toDual size, f) known) := by
  refine ⟨fun x hx => ?_, fun s => ?_, ?_⟩
  · rcases OrdMap.mem_insertMulti.1 hx with rfl | hx
    · simp
    · exact List.mem_append_left _ (h.mem x hx)
  · rw [OrdMap.length_equalRange_insertMulti, length_filter_concat, h.count]
    simp only [OrderDual.toDual_inj]
    split_ifs with hs
    · subst hs
      omega
    · omega
  · rw [((OrdMap.insertMulti_perm _ known).map Prod.snd).nodup_iff, List.map_cons, List.nodup_cons]
    exact ⟨h.not_mem hfresh, h.nodup⟩

/-- The new file takes the place of one of its size. -/
theorem Sampled.replace (h : Sampled met known) (hfresh : f ∉ met.map Prod.snd)
    (hfull : ¬ (met.filter fun x => x.1 = size).length < 4) {ri : ℕᵒᵈ × FileId} (hri : ri ∈ known)
    (hkey : ri.1 = OrderDual.toDual size) :
    Sampled (met ++ [(size, f)])
      (OrdMap.insertMulti (OrderDual.toDual size, f) (known.erase ri)) := by
  have hperm := List.perm_cons_erase hri
  refine ⟨fun x hx => ?_, fun s => ?_, ?_⟩
  · rcases OrdMap.mem_insertMulti.1 hx with rfl | hx
    · simp
    · exact List.mem_append_left _ (h.mem x (List.mem_of_mem_erase hx))
  · have hcount := h.count s
    have hrest : (OrdMap.equalRange (OrderDual.toDual s) known).length
        = (OrdMap.equalRange (OrderDual.toDual s) (known.erase ri)).length
          + if size = s then 1 else 0 := by
      unfold OrdMap.equalRange
      rw [(hperm.filter _).length_eq, List.filter_cons, hkey]
      split_ifs <;> simp_all
    rw [OrdMap.length_equalRange_insertMulti, length_filter_concat]
    simp only [OrderDual.toDual_inj]
    split_ifs at hrest ⊢ with hs
    · subst hs
      omega
    · omega
  · have hnd := h.nodup
    rw [(hperm.map Prod.snd).nodup_iff, List.map_cons, List.nodup_cons] at hnd
    rw [((OrdMap.insertMulti_perm _ _).map Prod.snd).nodup_iff, List.map_cons, List.nodup_cons]
    exact ⟨fun hmem => h.not_mem hfresh ((List.erase_sublist.map Prod.snd).subset hmem), hnd.2⟩

/-- Up to the cap all files of a size are known. -/
theorem Sampled.mem_of_few (h : Sampled met known)
    (hfew : (met.filter fun x => x.1 = size).length ≤ 4) {x : ℕ × FileId} (hx : x ∈ met)
    (hsize : x.1 = size) : (OrderDual.toDual size, x.2) ∈ known := by
  have hcount := h.count size
  set R := OrdMap.equalRange (OrderDual.toDual size) known
  have hR : ∀ y ∈ R, y ∈ known ∧ y.1 = OrderDual.toDual size := fun y hy => by
    simpa [R, OrdMap.equalRange] using hy
  have hnd : (R.map Prod.snd).Nodup := (h.nodup).sublist (List.filter_sublist.map _)
  have hsub : R.map Prod.snd ⊆ (met.filter fun x => x.1 = size).map Prod.snd := fun g hg => by
    obtain ⟨y, hy, rfl⟩ := List.mem_map.1 hg
    obtain ⟨hy, hkey⟩ := hR y hy
    refine List.mem_map.2 ⟨_, List.mem_filter.2 ⟨h.mem y hy, ?_⟩, rfl⟩
    simpa using congrArg OrderDual.ofDual hkey
  have hperm := (List.subperm_of_subset hnd hsub).perm_of_length_le (by simp; omega)
  obtain ⟨y, hy, hyx⟩ := List.mem_map.1 (hperm.mem_iff.2
    (List.mem_map.2 ⟨x, List.mem_filter.2 ⟨hx, by simpa using hsize⟩, rfl⟩))
  obtain ⟨hy, hkey⟩ := hR y hy
  rw [← hyx, ← hkey]
  exact hy

include h hmap hf

/-- A file that comes up in order is put in, or takes the place of another, or is passed over. -/
theorem keepKnown_sampled (hfresh : f ∉ met.map Prod.snd)
    (hstep : (met.filter fun x => x.1 = size).length < 4 →
      ∀ x ∈ met, x.1 = size → fe.start f ≤ fe.start x.2) :
    ∃ known', fe.keepKnown size f (fe.start f) known = .ok known'
      ∧ Sampled (met ++ [(size, f)]) known' := by
  obtain ⟨known', hkeep, hcases⟩ :=
    keepKnown_cases size hf fun x hx => hmap _ (h.mem x hx)
  refine ⟨known', hkeep, ?_⟩
  have hcount := h.count size
  by_cases hfew : (met.filter fun x => x.1 = size).length < 4
  · rw [if_pos (by omega)] at hcases
    rcases hcases with ⟨rfl, -⟩ | ⟨ri, hri, hkey, hbefore, -⟩
    · exact h.insert hfresh hfew
    · -- nothing of its size starts before it, nor does the file itself
      exfalso
      rcases OrdMap.mem_insertMulti.1 hri with rfl | hri
      · exact lt_irrefl _ hbefore
      · exact absurd (hstep hfew _ (h.mem ri hri) (congrArg OrderDual.ofDual hkey))
          (not_le.2 hbefore)
  · rw [if_neg (by omega)] at hcases
    rcases hcases with ⟨rfl, -⟩ | ⟨ri, hri, hkey, -, -, rfl⟩
    · refine ⟨fun x hx => List.mem_append_left _ (h.mem x hx), fun s => ?_, h.nodup⟩
      rw [h.count, length_filter_concat]
      split_ifs with hs
      · subst hs
        omega
      · omega
    · exact h.replace hfresh hfew hri hkey

/-- A file that comes up out of order is put in twice. -/
theorem keepKnown_twice (hfew : (met.filter fun x => x.1 = size).length < 4) {x : ℕ × FileId}
    (hx : x ∈ met) (hsize : x.1 = size) (hbefore : fe.start x.2 < fe.start f) :
    ∃ known', fe.keepKnown size f (fe.start f) known = .ok known'
      ∧ ¬ (known'.map Prod.snd).Nodup := by
  obtain ⟨known', hkeep, hcases⟩ :=
    keepKnown_cases size hf fun x hx => hmap _ (h.mem x hx)
  refine ⟨known', hkeep, ?_⟩
  have hcount := h.count size
  rw [if_pos (by omega)] at hcases
  rcases hcases with ⟨-, hnone⟩ | ⟨ri, -, -, hlt, -, rfl⟩
  · have hknown := h.mem_of_few hfew.le hx hsize
    have hle := hnone (OrderDual.toDual size, x.2) (OrdMap.mem_insertMulti.2 (Or.inr hknown)) rfl
    exact absurd hbefore (not_lt.2 hle)
  · -- what goes is not the file itself
    have hmem : (OrderDual.toDual size, f)
        ∈ (OrdMap.insertMulti (OrderDual.toDual size, f) known).erase ri := by
      refine (List.mem_erase_of_ne ?_).2 (OrdMap.mem_insertMulti.2 (Or.inl rfl))
      rintro rfl
      exact lt_irrefl _ hlt
    rw [((OrdMap.insertMulti_perm _ _).map Prod.snd).nodup_iff, List.map_cons, List.nodup_cons]
    exact fun hnd => hnd.1 (List.mem_map.2 ⟨_, hmem, rfl⟩)

end Step

/-- What the candidate loop does: the candidates come up in order, and then `known_` holds different
files, none of them taken before; or it puts a file in twice on the way. -/
inductive Collected (fe : FileEnumeration) (lcn : ℕ) (es : List (ℕ × FileId)) (st : Cands)
    (met : List (ℕ × FileId)) : Prop
  | distinct (orderly : fe.Orderly (met ++ fe.offered lcn es st.length)) {st' : Cands}
      {met' : List (ℕ × FileId)} (done : fe.findCands lcn es st = .ok st')
      (sampled : Sampled met' st'.known) (nodup : (st'.rvs ++ met'.map Prod.snd).Nodup)
  | twice (unordered : ¬ fe.Orderly (met ++ fe.offered lcn es st.length))
      {es' : List (ℕ × FileId)} {st' : Cands} (pre : es' <+: es)
      (done : fe.findCands lcn es' st = .ok st') (twice : ¬ (st'.known.map Prod.snd).Nodup)

theorem findCands_collected (h : Shelved fe) : ∀ (es : List (ℕ × FileId)) (st : Cands)
    (met : List (ℕ × FileId)), (∀ e ∈ es, e ∈ fe.buckets) → Sampled met st.known →
    (∀ x ∈ met, (fe.disp x.2).blockmap ≠ []) →
    (st.rvs ++ (met.map Prod.snd ++ es.map Prod.snd)).Nodup → fe.Orderly met →
    Collected fe lcn es st met
  | [], st, met, _, hS, _, hnd, hO => by
    exact .distinct (by simpa [offered] using hO) rfl hS (by simpa using hnd)
  | (size, f) :: es, st, met, hes, hS, hmap, hnd, hO => by
    have hmem := hes (size, f) (by simp)
    have hkey : size = (fe.disp f).clusters := h.key _ hmem
    have hmapf : (fe.disp f).blockmap ≠ [] := h.map _ hmem
    have hes' : ∀ e ∈ es, e ∈ fe.buckets := fun e he => hes e (by simp [he])
    -- what the loop does with the rest it does with the whole
    have hgo : ∀ (st₁ : Cands) (new : List (ℕ × FileId)),
        (∀ es, fe.findCands lcn ((size, f) :: es) st = fe.findCands lcn es st₁) →
        fe.offered lcn ((size, f) :: es) st.length = new ++ fe.offered lcn es st₁.length →
        Sampled (met ++ new) st₁.known → (∀ x ∈ new, (fe.disp x.2).blockmap ≠ []) →
        (st₁.rvs ++ ((met ++ new).map Prod.snd ++ es.map Prod.snd)).Nodup →
        fe.Orderly (met ++ new) → Collected fe lcn ((size, f) :: es) st met :=
      fun st₁ new hfind hoff hS₁ hmap₁ hnd₁ hO₁ => by
        cases findCands_collected h es st₁ (met ++ new) hes' hS₁
          (fun x hx => (List.mem_append.1 hx).elim (hmap x) (hmap₁ x)) hnd₁ hO₁ with
        | distinct orderly done sampled nodup =>
          refine .distinct ?_ ((hfind es).trans done) sampled nodup
          rwa [hoff, ← List.append_assoc]
        | twice unordered pre done twice =>
          refine .twice ?_ (List.cons_prefix_cons.2 ⟨rfl, pre⟩) ((hfind _).trans done) twice
          rwa [hoff, ← List.append_assoc]
    by_cases h0 : st.length = 0
    · refine .distinct (by simpa [offered, h0] using hO) (by rw [findCands, if_pos h0]) hS ?_
      exact hnd.sublist (List.Sublist.append_left (by simp) _)
    have hl := headLcn_eq_start hmapf
    by_cases hskip : st.length < size ∨ fe.start f ≤ lcn
    · refine hgo st [] (fun es => ?_) (by simp [offered, h0, hskip]) (by simpa using hS) (by simp)
        ?_ (by simpa using hO)
      · rcases hskip with hlt | hle
        · simp [findCands, h0, hlt]
        · simp [findCands, h0, hl, Bind.bind, Except.bind, hle]
      · refine hnd.sublist (List.Sublist.append_left ?_ _)
        simp
    obtain ⟨hfit, hbehind⟩ := not_or.1 hskip
    by_cases hbig : maxlen < st.length
    · refine hgo { st with rvs := st.rvs ++ [f], length := st.length - (fe.disp f).clusters } []
        (fun es => ?_) ?_ (by simpa using hS) (by simp) ?_ (by simpa using hO)
      · simp [findCands, h0, hfit, hl, Bind.bind, Except.bind, hbehind, hbig,
          show (fe.disp f).clusters ≤ st.length by omega]
      · simp only [offered, if_neg h0, if_neg hskip, if_pos hbig, ← hkey, List.nil_append]
      · refine (List.Perm.nodup_iff ?_).1 hnd
        simp only [List.append_nil, List.append_assoc, List.map_cons]
        exact (List.perm_middle.trans (by simp)).append_left st.rvs
    have hoff : fe.offered lcn ((size, f) :: es) st.length
        = [(size, f)] ++ fe.offered lcn es st.length := by
      simp [offered, h0, hskip, hbig]
    have hfresh : f ∉ met.map Prod.snd := fun hf => by
      rw [List.nodup_append] at hnd
      exact (List.nodup_append.1 hnd.2.1).2.2 f hf f (by simp) rfl
    by_cases hstep : (met.filter fun x => x.1 = size).length < 4 →
        ∀ x ∈ met, x.1 = size → fe.start f ≤ fe.start x.2
    · obtain ⟨known', hkeep, hS'⟩ := keepKnown_sampled hS hmap hmapf hfresh hstep
      refine hgo { st with known := known' } [(size, f)] (fun es => ?_) hoff hS'
        (by simpa using hmapf) ?_ (orderly_concat.2 ⟨hO, hstep⟩)
      · simp [findCands, h0, hfit, hl, Bind.bind, Except.bind, hbehind, hbig, hkeep]
      · simpa using hnd
    · have hunordered : ¬ fe.Orderly (met ++ fe.offered lcn ((size, f) :: es) st.length) := by
        intro hO'
        rw [hoff, ← List.append_assoc] at hO'
        exact hstep (orderly_concat.1 hO'.of_append).2
      push Not at hstep
      obtain ⟨hfew, x, hx, hsize, hbefore⟩ := hstep
      obtain ⟨known', hkeep, htwice⟩ := keepKnown_twice hS hmap hmapf hfew hx hsize hbefore
      have hfind : fe.findCands lcn [(size, f)] st = .ok { st with known := known' } := by
        simp [findCands, h0, hfit, hl, Bind.bind, Except.bind, hbehind, hbig, hkeep]
      exact .twice hunordered (by simp) hfind htwice

/-- The picks from different candidates are different. -/
theorem pickCands_nodup {rvs cands : List FileId} (h : (rvs ++ cands).Nodup) (length : ℕ)
    (partialOK : Bool) : (fe.pickCands rvs cands length partialOK).Nodup := by
  have hrvs : rvs.Nodup := h.sublist (List.sublist_append_left _ _)
  rcases cands with _ | ⟨c, _ | ⟨c', cs⟩⟩
  · unfold pickCands
    split_ifs
    · exact hrvs
    · exact List.nodup_nil
  · unfold pickCands
    simp only
    split_ifs
    · exact h
    · exact h
    · exact hrvs
    · exact List.nodup_nil
  · have hsol := solution_for ((c :: c' :: cs).map fun c => (fe.disp c).clusters) length
    have hlt : ∀ i ∈ (solution ((c :: c' :: cs).map fun c => (fe.disp c).clusters)
        length).positions, i < (c :: c' :: cs).length := fun i hi => by
      simpa using (Sol.mem_positions hi).trans_le hsol.short
    obtain ⟨-, hcands, hdisj⟩ := List.nodup_append.1 h
    simp only [pickCands]
    split_ifs
    · exact List.nodup_nil
    · refine List.nodup_append.2 ⟨hrvs, ?_, fun a ha b hb => ?_⟩
      · refine (Sol.positions_nodup _).map_on fun i hi j hj hij => ?_
        simp only [List.getD_eq_getElem?_getD, List.getElem?_eq_getElem (hlt i hi),
          List.getElem?_eq_getElem (hlt j hj), Option.getD_some] at hij
        exact (hcands.getElem_inj_iff).1 hij
      · exact hdisj a ha b ((clustersOf_positions hsol).2 b hb)

/-- The files come up in order for the gap, if there is none that fills it alone. -/
def OrderlyFor (fe : FileEnumeration) (lcn length : ℕ) : Prop :=
  (∀ e ∈ fe.buckets, e.1 = length → fe.start e.2 ≤ lcn) →
    fe.Orderly (fe.offered lcn (fe.buckets.takeWhile fun e => e.1 ≤ length).reverse length)

/-- `findBest` picks no file twice where the candidates come up in order. Where they do not, a file
is put into `known_` twice. -/
theorem findBest_distinct_if_orderly (h : Shelved fe) (hnd : (fe.buckets.map Prod.snd).Nodup)
    (lcn length : ℕ) (partialOK : Bool) :
    (fe.OrderlyFor lcn length → ∃ files, fe.findBest lcn length partialOK = .ok files
      ∧ files.Nodup ∧ (partialOK = false → files ≠ [] → fe.clustersOf files = length))
    ∧ (¬ fe.OrderlyFor lcn length → ∃ es st,
      es <+: (fe.buckets.takeWhile fun e => e.1 ≤ length).reverse
        ∧ fe.findCands lcn es ⟨[], length, []⟩ = .ok st ∧ ¬ (st.known.map Prod.snd).Nodup) := by
  set es := (fe.buckets.takeWhile fun e => e.1 ≤ length).reverse with hes
  have hmem : ∀ e ∈ es, e ∈ fe.buckets := fun e he =>
    (List.takeWhile_sublist _).subset (List.mem_reverse.1 he)
  have hndes : (es.map Prod.snd).Nodup := by
    rw [hes, List.map_reverse, List.nodup_reverse]
    exact hnd.sublist ((List.takeWhile_sublist _).map Prod.snd)
  have hloop : Collected fe lcn es ⟨[], length, []⟩ [] :=
    findCands_collected h es _ [] hmem sampled_nil (by simp) (by simpa using hndes) orderly_nil
  constructor
  · intro hfor
    obtain ⟨files, hfiles, -, -, hall, -⟩ := findBest_fits h lcn length partialOK
    refine ⟨files, hfiles, ?_, fun hp hne => (hall hp).resolve_left hne⟩
    unfold findBest at hfiles
    obtain ⟨r, hr, -, hnone⟩ := findPerfect_spec lcn (OrdMap.equalRange length fe.buckets) none
      (fun e he => h.map e (List.mem_of_mem_filter he)) (by simp)
    rw [hr] at hfiles
    simp only [Bind.bind, Except.bind] at hfiles
    rcases r with _ | p
    · -- no file fills the gap alone, so the candidates come up in order
      have hno : ∀ e ∈ fe.buckets, e.1 = length → fe.start e.2 ≤ lcn := fun e he hlen => by
        have hnot := (hnone rfl).2 e (List.mem_filter.2 ⟨he, by simpa using hlen⟩)
        rw [behind_iff (headLcn_eq_start (h.map e he))] at hnot
        exact not_lt.1 hnot
      cases hloop with
      | twice unordered => exact absurd (hfor hno) unordered
      | distinct _ done sampled nodup =>
        simp only [← hes, done] at hfiles
        split_ifs at hfiles
        · obtain rfl := Except.ok.inj hfiles
          exact nodup.sublist (List.sublist_append_left _ _)
        · obtain rfl := Except.ok.inj hfiles
          refine pickCands_nodup ?_ _ _
          obtain ⟨hrvs, -, hdisj⟩ := List.nodup_append.1 nodup
          refine List.nodup_append.2 ⟨hrvs, sampled.nodup, fun a ha b hb => hdisj a ha b ?_⟩
          obtain ⟨x, hx, rfl⟩ := List.mem_map.1 hb
          exact List.mem_map.2 ⟨_, sampled.mem x hx, rfl⟩
    · obtain rfl := Except.ok.inj hfiles
      exact List.nodup_singleton p
  · intro hfor
    cases hloop with
    | distinct orderly => exact absurd (fun _ => orderly) hfor
    | twice _ pre done twice => exact ⟨_, _, pre, done, twice⟩

/-- Files 1 and 2, of one cluster each, come up by descending position. -/
theorem findBest_distinct_if_orderly_two : ∃ files,
    (ofSize 1 [1, 2]).findBest 5 2 false = .ok files ∧ files.Nodup := by
  have horderly : (ofSize 1 [1, 2]).Orderly [(1, 2), (1, 1)] :=
    orderly_concat.2 ⟨orderly_concat.2 ⟨orderly_nil, by decide⟩, by decide⟩
  obtain ⟨files, hfiles, hnd, -⟩ :=
    (findBest_distinct_if_orderly (ofSize_stocked Nat.one_pos [1, 2]).shelved (by decide) 5 2
      false).1 fun _ => horderly
  exact ⟨files, hfiles, hnd⟩

/-- The same files, met the other way round: file 2 is picked twice. -/
theorem findBest_picks_twice : ((ofSize 1 [2, 1]).buckets.map Prod.snd).Nodup
    ∧ (ofSize 1 [2, 1]).findBest 5 2 false = .ok [2, 2] := by decide

end FileEnumeration

end StopGap
