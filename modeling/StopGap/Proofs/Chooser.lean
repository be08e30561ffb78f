import StopGap.Proofs.Knapsack
import Mathlib.Algebra.Order.BigOperators.Group.List

/-!
# What the chooser picks

The knapsack never overfills and does at least as well as any candidate alone (`solution_for`); so
`findBest` picks files of `buckets_` behind the gap that fit into it together. If no file is empty,
it picks none in partial mode only if none fits.
-/

namespace StopGap

namespace FileEnumeration

/-- `buckets_` is sorted, each file under its cluster count, and each file has clusters and a map
whose head is its lowest block. -/
structure Stocked (fe : FileEnumeration) : Prop where
  sorted : OrdMap.Sorted fe.buckets
  key : ∀ e ∈ fe.buckets, e.1 = (fe.disp e.2).clusters
  pos : ∀ e ∈ fe.buckets, 0 < (fe.disp e.2).clusters
  map : ∀ e ∈ fe.buckets, (fe.disp e.2).blockmap ≠ []
  lowest : ∀ e ∈ fe.buckets, ∀ b bm, (fe.disp e.2).blockmap = b :: bm → ∀ b' ∈ bm, b.lcn ≤ b'.lcn

/-- Each file is in `buckets_` under its cluster count and has a map. -/
structure Shelved (fe : FileEnumeration) : Prop where
  key : ∀ e ∈ fe.buckets, e.1 = (fe.disp e.2).clusters
  map : ∀ e ∈ fe.buckets, (fe.disp e.2).blockmap ≠ []

theorem Stocked.shelved {fe : FileEnumeration} (h : Stocked fe) : Shelved fe := ⟨h.key, h.map⟩

def Behind (fe : FileEnumeration) (lcn : ℕ) (f : FileId) : Prop :=
  ∃ l, fe.headLcn f = .ok l ∧ lcn < l

/-- A file the chooser may pick for a gap at `lcn`. -/
def Choice (fe : FileEnumeration) (lcn : ℕ) (f : FileId) : Prop :=
  (∃ e ∈ fe.buckets, e.2 = f) ∧ fe.Behind lcn f

def clustersOf (fe : FileEnumeration) (files : List FileId) : ℕ :=
  (files.map fun f => (fe.disp f).clusters).sum

variable {fe : FileEnumeration} {lcn length : ℕ} {f : FileId}

theorem clustersOf_append (files files' : List FileId) :
    fe.clustersOf (files ++ files') = fe.clustersOf files + fe.clustersOf files' := by
  simp [clustersOf]

theorem headLcn_ok (h : (fe.disp f).blockmap ≠ []) : ∃ l, fe.headLcn f = .ok l := by
  unfold headLcn
  rcases hbm : (fe.disp f).blockmap with _ | ⟨b, bm⟩
  · exact absurd hbm h
  · exact ⟨b.lcn, rfl⟩

theorem behind_iff {l : ℕ} (h : fe.headLcn f = .ok l) : fe.Behind lcn f ↔ lcn < l := by
  constructor
  · rintro ⟨l', hl', hlt⟩
    rw [h] at hl'
    exact Except.ok.inj hl' ▸ hlt
  · exact fun hlt => ⟨l, h, hlt⟩

theorem findPerfect_spec (lcn : ℕ) : ∀ (es : List (ℕ × FileId)) (perfect : Option FileId),
    (∀ e ∈ es, (fe.disp e.2).blockmap ≠ []) → (∀ p, perfect = some p → fe.Behind lcn p) →
    ∃ r, fe.findPerfect lcn es perfect = .ok r
      ∧ (∀ p, r = some p → perfect = some p ∨ ((∃ e ∈ es, e.2 = p) ∧ fe.Behind lcn p))
      ∧ (r = none → perfect = none ∧ ∀ e ∈ es, ¬ fe.Behind lcn e.2)
  | [], perfect, _, _ => ⟨perfect, rfl, fun _ hp => Or.inl hp, fun hr => ⟨hr, by simp⟩⟩
  | (k, f) :: es, perfect, hmap, hperf => by
    obtain ⟨l, hl⟩ := headLcn_ok (hmap (k, f) (by simp))
    have hmap' : ∀ e ∈ es, (fe.disp e.2).blockmap ≠ [] := fun e he => hmap e (by simp [he])
    -- what the rest finds when it starts from `f` or from what was found before
    have hgo : ∀ perfect', (∀ p, perfect' = some p → fe.Behind lcn p) →
        (∀ p, perfect' = some p → perfect = some p ∨ (p = f ∧ fe.Behind lcn f)) →
        (perfect' = none → perfect = none ∧ ¬ fe.Behind lcn f) →
        ∃ r, fe.findPerfect lcn es perfect' = .ok r
          ∧ (∀ p, r = some p → perfect = some p
            ∨ ((∃ e ∈ (k, f) :: es, e.2 = p) ∧ fe.Behind lcn p))
          ∧ (r = none → perfect = none ∧ ∀ e ∈ (k, f) :: es, ¬ fe.Behind lcn e.2) := by
      intro perfect' hperf' hsome hnone
      obtain ⟨r, hr, h1, h2⟩ := findPerfect_spec lcn es perfect' hmap' hperf'
      refine ⟨r, hr, fun p hp => ?_, fun hr0 => ?_⟩
      · rcases h1 p hp with hp | ⟨⟨e, he, hep⟩, hb⟩
        · rcases hsome p hp with hp | ⟨rfl, hb⟩
          · exact Or.inl hp
          · exact Or.inr ⟨⟨(k, p), by simp, rfl⟩, hb⟩
        · exact Or.inr ⟨⟨e, by simp [he], hep⟩, hb⟩
      · obtain ⟨h0, hall⟩ := h2 hr0
        refine ⟨(hnone h0).1, fun e he => ?_⟩
        rcases List.mem_cons.1 he with rfl | he
        · exact (hnone h0).2
        · exact hall e he
    have hb : fe.Behind lcn f ↔ lcn < l := behind_iff hl
    simp only [findPerfect, hl, Bind.bind, Except.bind]
    split_ifs with hle
    · exact hgo perfect hperf (fun p hp => Or.inl hp) fun h0 => ⟨h0, hb.not.2 (by omega)⟩
    · have hbf : fe.Behind lcn f := hb.2 (by omega)
      rcases perfect with _ | p
      · refine hgo (some f) (fun p hp => ?_) (fun p hp => ?_) (by simp)
        · exact Option.some.inj hp ▸ hbf
        · exact Or.inr ⟨(Option.some.inj hp).symm, hbf⟩
      · obtain ⟨lp, hlp, -⟩ := hperf p rfl
        simp only [hlp]
        refine hgo _ (fun q hq => ?_) (fun q hq => ?_) (by simp)
        · rw [← Option.some.inj hq]
          split_ifs
          · exact hbf
          · exact hperf p rfl
        · rw [← Option.some.inj hq]
          split_ifs
          · exact Or.inr ⟨rfl, hbf⟩
          · exact Or.inl rfl

theorem findSmaller_spec (fe : FileEnumeration) (l : ℕ) : ∀ (known : Known),
    (∀ e ∈ known, (fe.disp e.2).blockmap ≠ []) →
    ∃ r, fe.findSmaller l known = .ok r ∧ ∀ e, r = some e → e ∈ known
  | [], _ => ⟨none, rfl, by simp⟩
  | e :: es, hmap => by
    obtain ⟨l', hl'⟩ := headLcn_ok (hmap e (by simp))
    simp only [findSmaller, hl', Bind.bind, Except.bind]
    split_ifs
    · obtain ⟨r, hr, hmem⟩ := findSmaller_spec fe l es fun e he => hmap e (by simp [he])
      exact ⟨r, hr, fun x hx => by simp [hmem x hx]⟩
    · exact ⟨some e, rfl, fun x hx => by simp [Option.some.inj hx]⟩

/-- `known_` after a file came up: it is put in below the cap of four, and then in place of what the
search through those of its size finds. -/
theorem keepKnown_eq {size l : ℕ} {known known₁ : Known} {r : Option (ℕᵒᵈ × FileId)}
    (hknown₁ : (if (OrdMap.equalRange (OrderDual.toDual size) known).length < 4 then
      OrdMap.insertMulti (OrderDual.toDual size, f) known else known) = known₁)
    (hr : fe.findSmaller l (OrdMap.equalRange (OrderDual.toDual size) known₁) = .ok r) :
    fe.keepKnown size f l known
      = .ok (r.elim known₁ fun ri =>
        OrdMap.insertMulti (OrderDual.toDual size, f) (known₁.erase ri)) := by
  have hcap : (if (size < 4 ∧ (OrdMap.equalRange (OrderDual.toDual size) known).length < 1)
      ∨ (OrdMap.equalRange (OrderDual.toDual size) known).length < 4 then
        OrdMap.insertMulti (OrderDual.toDual size, f) known else known) = known₁ :=
    (if_congr (by omega) rfl rfl).trans hknown₁
  unfold keepKnown
  simp only [hcap, hr]
  cases r <;> rfl

/-- What is kept is the new entry and old ones, and something is kept. -/
theorem keepKnown_spec (size l : ℕ) {known : Known} (hf : (fe.disp f).blockmap ≠ [])
    (hmap : ∀ e ∈ known, (fe.disp e.2).blockmap ≠ []) :
    ∃ known', fe.keepKnown size f l known = .ok known' ∧ known' ≠ []
      ∧ ∀ x ∈ known', x = (OrderDual.toDual size, f) ∨ x ∈ known := by
  obtain ⟨known₁, hknown₁⟩ : ∃ known₁,
      (if (OrdMap.equalRange (OrderDual.toDual size) known).length < 4 then
        OrdMap.insertMulti (OrderDual.toDual size, f) known else known) = known₁ := ⟨_, rfl⟩
  have hmem₁ : ∀ x ∈ known₁, x = (OrderDual.toDual size, f) ∨ x ∈ known := fun x hx => by
    rw [← hknown₁] at hx
    split_ifs at hx
    · exact OrdMap.mem_insertMulti.1 hx
    · exact Or.inr hx
  have hne₁ : known₁ ≠ [] := by
    rw [← hknown₁]
    split_ifs with hk
    · exact List.ne_nil_of_mem (OrdMap.mem_insertMulti.2 (Or.inl rfl))
    · rintro rfl
      simp [OrdMap.equalRange] at hk
  obtain ⟨r, hr, hrmem⟩ := findSmaller_spec fe l
    (OrdMap.equalRange (OrderDual.toDual size) known₁) fun x hx => by
      rcases hmem₁ x (List.mem_of_mem_filter hx) with rfl | hx
      · exact hf
      · exact hmap x hx
  refine ⟨_, keepKnown_eq hknown₁ hr, ?_⟩
  rcases r with _ | ri
  · exact ⟨hne₁, hmem₁⟩
  · refine ⟨List.ne_nil_of_mem (OrdMap.mem_insertMulti.2 (Or.inl rfl)), fun x hx => ?_⟩
    rcases OrdMap.mem_insertMulti.1 hx with rfl | hx
    · exact Or.inl rfl
    · exact hmem₁ x (List.mem_of_mem_erase hx)

/-- What holds in the candidate loop: what was taken and what is left make the gap, and every
candidate fits into what is left. -/
structure Loop (fe : FileEnumeration) (lcn length : ℕ) (st : Cands) : Prop where
  mem : ∀ f ∈ st.rvs, fe.Choice lcn f
  sum : fe.clustersOf st.rvs + st.length = length
  known : ∀ x ∈ st.known, fe.Choice lcn x.2 ∧ (fe.disp x.2).clusters ≤ st.length
  small : st.known ≠ [] → st.length ≤ maxlen

def Cands.Took (st : Cands) : Prop := st.rvs ≠ [] ∨ st.known ≠ []

theorem findCands_spec (h : Shelved fe) : ∀ (es : List (ℕ × FileId)) (st : Cands),
    (∀ e ∈ es, e ∈ fe.buckets) → Loop fe lcn length st →
    ∃ st', fe.findCands lcn es st = .ok st' ∧ Loop fe lcn length st' ∧ (st.Took → st'.Took)
      ∧ (Stocked fe → ¬ st'.Took → ∀ e ∈ es, e.1 ≤ st.length → ¬ fe.Behind lcn e.2)
  | [], st, _, hL => ⟨st, rfl, hL, id, by simp⟩
  | (size, f) :: es, st, hes, hL => by
    have hmem := hes (size, f) (by simp)
    have hkey : size = (fe.disp f).clusters := h.key _ hmem
    have hes' : ∀ e ∈ es, e ∈ fe.buckets := fun e he => hes e (by simp [he])
    have hmapf : (fe.disp f).blockmap ≠ [] := h.map _ hmem
    obtain ⟨l, hl⟩ := headLcn_ok hmapf
    have hb : fe.Behind lcn f ↔ lcn < l := behind_iff hl
    -- the file is passed over
    have hskip : (size ≤ st.length → ¬ fe.Behind lcn f) →
        ∃ st', fe.findCands lcn es st = .ok st' ∧ Loop fe lcn length st' ∧ (st.Took → st'.Took)
          ∧ (Stocked fe → ¬ st'.Took → ∀ e ∈ (size, f) :: es, e.1 ≤ st.length →
            ¬ fe.Behind lcn e.2) := fun hno => by
      obtain ⟨st', heq, hL', htook, hnone⟩ := findCands_spec h es st hes' hL
      refine ⟨st', heq, hL', htook, fun hstock ht e he hle => ?_⟩
      rcases List.mem_cons.1 he with rfl | he
      · exact hno hle
      · exact hnone hstock ht e he hle
    -- the file is taken
    have htake : ∀ st₁ : Cands, st₁.Took → Loop fe lcn length st₁ →
        ∃ st', fe.findCands lcn es st₁ = .ok st' ∧ Loop fe lcn length st' ∧ (st.Took → st'.Took)
          ∧ (Stocked fe → ¬ st'.Took → ∀ e ∈ (size, f) :: es, e.1 ≤ st.length →
            ¬ fe.Behind lcn e.2) := fun st₁ ht₁ hL₁ => by
      obtain ⟨st', heq, hL', htook, -⟩ := findCands_spec h es st₁ hes' hL₁
      exact ⟨st', heq, hL', fun _ => htook ht₁, fun _ ht => absurd (htook ht₁) ht⟩
    rw [findCands]
    by_cases h0 : st.length = 0
    · rw [if_pos h0]
      refine ⟨st, rfl, hL, id, fun hstock _ e he hle => ?_⟩
      have h1 := h.key e (hes e he)
      have h2 := hstock.pos e (hes e he)
      omega
    by_cases hlt : st.length < size
    · rw [if_neg h0, if_pos hlt]
      exact hskip fun hle => absurd hlt (by omega)
    rw [if_neg h0, if_neg hlt]
    simp only [hl, Bind.bind, Except.bind]
    by_cases hle : l ≤ lcn
    · rw [if_pos hle]
      exact hskip fun _ => hb.not.2 (by omega)
    have hchoice : fe.Choice lcn f := ⟨⟨_, hmem, rfl⟩, hb.2 (by omega)⟩
    rw [if_neg hle]
    by_cases hbig : maxlen < st.length
    · rw [if_pos hbig, if_pos (by omega)]
      refine htake _ (Or.inl (by simp)) ⟨fun x hx => ?_, ?_, fun x hx => ?_, fun hk => ?_⟩
      · rcases List.mem_append.1 hx with hx | hx
        · exact hL.mem x hx
        · exact List.mem_singleton.1 hx ▸ hchoice
      · have h1 : fe.clustersOf [f] = (fe.disp f).clusters := by simp [clustersOf]
        have h2 := hL.sum
        rw [clustersOf_append, h1]
        simp only
        omega
      · have := hL.small (List.ne_nil_of_mem hx)
        omega
      · have := hL.small hk
        omega
    · obtain ⟨known', hk, hne, hsub⟩ := keepKnown_spec size l hmapf fun x hx => by
        obtain ⟨⟨e, he, hex⟩, -⟩ := (hL.known x hx).1
        exact hex ▸ h.map e he
      rw [if_neg hbig]
      simp only [hk]
      refine htake _ (Or.inr hne) ⟨hL.mem, hL.sum, fun x hx => ?_, fun _ => by simp only; omega⟩
      rcases hsub x hx with rfl | hx
      · exact ⟨hchoice, by simp only; omega⟩
      · exact hL.known x hx

/-- What `findBest` returns. -/
structure Chosen (fe : FileEnumeration) (lcn length : ℕ) (partialOK : Bool)
    (files : List FileId) : Prop where
  mem : ∀ f ∈ files, fe.Choice lcn f
  sum : fe.clustersOf files ≤ length
  all : partialOK = false → files = [] ∨ fe.clustersOf files = length
  none : partialOK = true → files = [] → ∀ e ∈ fe.buckets, e.1 ≤ length → ¬ fe.Behind lcn e.2

theorem Choice.clusters_pos (h : Stocked fe) (hf : fe.Choice lcn f) : 0 < (fe.disp f).clusters := by
  obtain ⟨⟨e, he, rfl⟩, -⟩ := hf
  exact h.pos e he

theorem clustersOf_positions {cands : List FileId} {sol : Sol} {n : ℕ}
    (hsol : sol.For (cands.map fun c => (fe.disp c).clusters) n) :
    fe.clustersOf (sol.positions.map fun i => cands.getD i 0) = sol.value
      ∧ ∀ f ∈ sol.positions.map (fun i => cands.getD i 0), f ∈ cands := by
  have hlt : ∀ i ∈ sol.positions, i < cands.length := fun i hi => by
    simpa using (Sol.mem_positions hi).trans_le hsol.short
  constructor
  · rw [← hsol.sum, clustersOf, List.map_map]
    congr 1
    refine List.map_congr_left fun i hi => ?_
    simp [List.getD_eq_getElem?_getD, List.getElem?_eq_getElem (hlt i hi)]
  · intro f hf
    obtain ⟨i, hi, rfl⟩ := List.mem_map.1 hf
    rw [List.getD_eq_getElem?_getD, List.getElem?_eq_getElem (hlt i hi)]
    exact List.getElem_mem _

/-- The picks from the candidates fit into what is left, and there are some if there are candidates
and a partial fill will do. -/
theorem pickCands_spec {st : Cands} (hL : Loop fe lcn length st)
    (partialOK : Bool) :
    let files := fe.pickCands st.rvs (st.known.map Prod.snd) st.length partialOK
    (∀ f ∈ files, fe.Choice lcn f) ∧ fe.clustersOf files ≤ length
      ∧ (partialOK = false → files = [] ∨ fe.clustersOf files = length)
      ∧ (Stocked fe → partialOK = true → files = [] → ¬ st.Took) := by
  have hsum := hL.sum
  have hcands : ∀ c ∈ st.known.map Prod.snd, fe.Choice lcn c ∧ (fe.disp c).clusters ≤ st.length :=
    fun c hc => by
      obtain ⟨x, hx, rfl⟩ := List.mem_map.1 hc
      exact hL.known x hx
  have hrvs : ∀ files, (∀ f ∈ files, fe.Choice lcn f) → ∀ f ∈ st.rvs ++ files, fe.Choice lcn f :=
    fun files hfiles f hf => (List.mem_append.1 hf).elim (hL.mem f) (hfiles f)
  have hknown : st.known.map Prod.snd = [] → st.known = [] := List.map_eq_nil_iff.1
  intro files
  revert files
  generalize st.known.map Prod.snd = cands at hcands hknown
  have hnil : ∀ P : Prop, (∀ f ∈ ([] : List FileId), fe.Choice lcn f)
      ∧ fe.clustersOf [] ≤ length ∧ (P → [] = ([] : List FileId) ∨ fe.clustersOf [] = length) :=
    fun P => ⟨by simp, by simp [clustersOf], fun _ => Or.inl rfl⟩
  rcases cands with _ | ⟨c, _ | ⟨c', cs⟩⟩
  · unfold pickCands
    rcases partialOK
    · exact ⟨(hnil True).1, (hnil True).2.1, fun _ => Or.inl rfl, by simp⟩
    · refine ⟨hL.mem, by simp only [if_true]; omega, by simp, fun _ _ hr => ?_⟩
      simp only [if_true] at hr
      simp [Cands.Took, hr, hknown rfl]
  · obtain ⟨hc, hle⟩ := hcands c (by simp)
    have hone : fe.clustersOf (st.rvs ++ [c]) = fe.clustersOf st.rvs + (fe.disp c).clusters := by
      simp [clustersOf]
    have hmem := hrvs [c] (by simpa using hc)
    unfold pickCands
    simp only
    split_ifs with heq hp
    · exact ⟨hmem, by omega, fun _ => Or.inr (by omega), by simp⟩
    · exact ⟨hmem, by omega, by simp [hp], by simp⟩
    · exact ⟨(hnil True).1, (hnil True).2.1, fun _ => Or.inl rfl, fun _ hp' => absurd hp' hp⟩
  · have hsol := solution_for ((c :: c' :: cs).map fun c => (fe.disp c).clusters) st.length
    obtain ⟨hval, hpick⟩ := clustersOf_positions hsol
    have hmem := hrvs _ fun f hf => (hcands f (hpick f hf)).1
    have hfits := hsol.fits
    simp only [pickCands]
    split_ifs with hno
    · refine ⟨(hnil True).1, (hnil True).2.1, fun _ => Or.inl rfl, fun _ hp => ?_⟩
      simp [hp] at hno
    · refine ⟨hmem, by rw [clustersOf_append, hval]; omega, fun hp => Or.inr ?_,
        fun hstock _ hr => ?_⟩
      · simp only [hp, Bool.not_false, Bool.true_and, decide_eq_true_eq, not_not] at hno
        rw [clustersOf_append, hval]
        omega
      · -- one candidate alone would be better than nothing
        obtain ⟨hc, hle⟩ := hcands c (by simp)
        have h1 := hsol.best (fe.disp c).clusters (by simp) hle
        have h2 := hc.clusters_pos hstock
        rw [(List.append_eq_nil_iff.1 hr).2] at hval
        simp only [clustersOf, List.map_nil, List.sum_nil] at hval
        omega

/-- The files `findBest` returns, also if some are empty. -/
theorem findBest_fits (h : Shelved fe) (lcn length : ℕ) (partialOK : Bool) :
    ∃ files, fe.findBest lcn length partialOK = .ok files
      ∧ (∀ f ∈ files, fe.Choice lcn f) ∧ fe.clustersOf files ≤ length
      ∧ (partialOK = false → files = [] ∨ fe.clustersOf files = length)
      ∧ (Stocked fe → partialOK = true → files = [] →
        ∀ e ∈ fe.buckets, e.1 ≤ length → ¬ fe.Behind lcn e.2) := by
  have hrange : ∀ e ∈ OrdMap.equalRange length fe.buckets, e ∈ fe.buckets ∧ e.1 = length :=
    fun e he => by simpa [OrdMap.equalRange] using he
  obtain ⟨r, hr, hsome, hnone⟩ := findPerfect_spec lcn
    (OrdMap.equalRange length fe.buckets) none (fun e he => h.map e (hrange e he).1) (by simp)
  unfold findBest
  rw [hr]
  simp only [Bind.bind, Except.bind]
  rcases r with _ | p
  · -- no perfect file
    have hes : ∀ e ∈ (fe.buckets.takeWhile fun e => e.1 ≤ length).reverse, e ∈ fe.buckets :=
      fun e he => (List.takeWhile_sublist _).subset (List.mem_reverse.1 he)
    have hL₀ : Loop fe lcn length ⟨[], length, []⟩ :=
      ⟨by simp, by simp [clustersOf], by simp, by simp⟩
    obtain ⟨st, hst, hL, -, hrest⟩ := findCands_spec h _ _ hes hL₀
    simp only [hst]
    split_ifs with h0
    · have hsum := hL.sum
      refine ⟨st.rvs, rfl, hL.mem, by omega, fun _ => Or.inr (by omega),
        fun hstock _ hr e he hle => ?_⟩
      simp only [hr, clustersOf, List.map_nil, List.sum_nil] at hsum
      have hpos := hstock.pos e he
      rw [← h.key e he] at hpos
      omega
    · obtain ⟨h1, h2, h3, h4⟩ := pickCands_spec hL partialOK
      refine ⟨_, rfl, h1, h2, h3, fun hstock hp hr e he hle => ?_⟩
      exact hrest hstock (h4 hstock hp hr) e
        (List.mem_reverse.2 (hstock.sorted.mem_takeWhile he hle)) hle
  · obtain ⟨⟨e, he, rfl⟩, hb⟩ := (hsome p rfl).resolve_left (by simp)
    obtain ⟨hmem, hk⟩ := hrange e he
    have hsum : fe.clustersOf [e.2] = length := by simp [clustersOf, ← h.key e hmem, hk]
    exact ⟨[e.2], rfl, by simpa using ⟨⟨e, hmem, rfl⟩, hb⟩, hsum.le, fun _ => Or.inr hsum, by simp⟩

theorem findBest_spec (h : Stocked fe) (lcn length : ℕ) (partialOK : Bool) :
    ∃ files, fe.findBest lcn length partialOK = .ok files
      ∧ Chosen fe lcn length partialOK files := by
  obtain ⟨files, hfiles, hmem, hsum, hall, hnone⟩ := findBest_fits h.shelved lcn length partialOK
  exact ⟨files, hfiles, hmem, hsum, hall, hnone h⟩

theorem findBest_ne_error (h : Stocked fe) {lcn length : ℕ} {partialOK : Bool} {why : Fault} :
    fe.findBest lcn length partialOK ≠ .error why := by
  obtain ⟨files, hfiles, -⟩ := findBest_spec h lcn length partialOK
  intro herror
  cases hfiles.symm.trans herror

/-- A file whose head is its lowest block is behind a cluster if all its blocks are. -/
theorem behind_iff_blocks {b : Block} {bm : List Block} (hmap : (fe.disp f).blockmap = b :: bm)
    (hlow : ∀ b' ∈ bm, b.lcn ≤ b'.lcn) :
    fe.Behind lcn f ↔ ∀ b' ∈ (fe.disp f).blockmap, lcn < b'.lcn := by
  have hhead : fe.headLcn f = .ok b.lcn := by
    unfold headLcn
    rw [hmap]
  rw [behind_iff hhead, hmap, List.forall_mem_cons]
  exact ⟨fun h => ⟨h, fun b' hb' => h.trans_le (hlow b' hb')⟩, And.left⟩

/-- Files of `size` clusters each, in the order of `buckets_`. File `f` is on the clusters from
`10 * f` on. -/
def ofSize (size : ℕ) (files : List FileId) : FileEnumeration where
  disp := fun f => ⟨size, 1, [⟨0, 10 * f, size⟩]⟩
  buckets := files.map (size, ·)
  lcns := []
  unmovable := []
  fragmented := 0
  unprocessable := 0

theorem ofSize_stocked {size : ℕ} (hpos : 0 < size) (files : List FileId) :
    Stocked (ofSize size files) where
  sorted := List.pairwise_map.2 (List.pairwise_of_forall fun _ _ => le_rfl)
  key := by simp [ofSize]
  pos := fun _ _ => hpos
  map := by simp [ofSize]
  lowest := by simp [ofSize]

/-- `findBest` never overfills the gap, and returns no file that is not wholly behind its start. -/
theorem findBest_never_overfills
    (hkey : ∀ e ∈ fe.buckets, e.1 = (fe.disp e.2).clusters)
    (hhead : ∀ e ∈ fe.buckets, ∃ b bm, (fe.disp e.2).blockmap = b :: bm
      ∧ ∀ b' ∈ bm, b.lcn ≤ b'.lcn) (lcn length : ℕ) (partialOK : Bool) :
    ∃ files, fe.findBest lcn length partialOK = .ok files
      ∧ (∀ f ∈ files, (∃ e ∈ fe.buckets, e.2 = f) ∧ ∀ b ∈ (fe.disp f).blockmap, lcn < b.lcn)
      ∧ (files.map fun f => (fe.disp f).clusters).sum ≤ length
      ∧ (partialOK = false →
        files = [] ∨ (files.map fun f => (fe.disp f).clusters).sum = length) := by
  have hshelved : Shelved fe := ⟨hkey, fun e he => by
    obtain ⟨b, bm, hmap, -⟩ := hhead e he
    rw [hmap]
    exact List.cons_ne_nil b bm⟩
  obtain ⟨files, hfiles, hmem, hsum, hall, -⟩ := findBest_fits hshelved lcn length partialOK
  refine ⟨files, hfiles, fun f hf => ?_, hsum, hall⟩
  obtain ⟨⟨e, he, rfl⟩, hbehind⟩ := hmem f hf
  obtain ⟨b, bm, hmap, hlow⟩ := hhead e he
  exact ⟨⟨e, he, rfl⟩, (behind_iff_blocks hmap hlow).1 hbehind⟩

theorem findBest_never_overfills_three : ∃ files, (ofSize 2 [1, 2]).findBest 5 3 true = .ok files
    ∧ (∀ f ∈ files, (∃ e ∈ (ofSize 2 [1, 2]).buckets, e.2 = f)
      ∧ ∀ b ∈ ((ofSize 2 [1, 2]).disp f).blockmap, 5 < b.lcn)
    ∧ (files.map fun f => ((ofSize 2 [1, 2]).disp f).clusters).sum ≤ 3 := by
  obtain ⟨files, hfiles, hmem, hsum, -⟩ := findBest_never_overfills
    (ofSize_stocked Nat.two_pos [1, 2]).key (fun _ _ => ⟨_, [], rfl, by simp⟩) 5 3 true
  exact ⟨files, hfiles, hmem, hsum⟩

/-- In partial mode `findBest` gives up exactly if no file behind the gap fits into it. -/
theorem findBest_partial_nil_iff (h : Stocked fe) (lcn length : ℕ) :
    fe.findBest lcn length true = .ok []
      ↔ ¬ ∃ e ∈ fe.buckets, (∀ b ∈ (fe.disp e.2).blockmap, lcn < b.lcn)
        ∧ (fe.disp e.2).clusters ≤ length := by
  have hbehind : ∀ e ∈ fe.buckets,
      (fe.Behind lcn e.2 ↔ ∀ b ∈ (fe.disp e.2).blockmap, lcn < b.lcn) := fun e he => by
    obtain ⟨b, bm, hmap⟩ := List.exists_cons_of_ne_nil (h.map e he)
    exact behind_iff_blocks hmap (h.lowest e he b bm hmap)
  obtain ⟨files, hfiles, hchosen⟩ := findBest_spec h lcn length true
  rw [hfiles, Except.ok.injEq]
  constructor
  · rintro hnil ⟨e, he, hblocks, hle⟩
    exact hchosen.none rfl hnil e he (h.key e he ▸ hle) ((hbehind e he).2 hblocks)
  · intro hno
    refine List.eq_nil_iff_forall_not_mem.2 fun f hf => hno ?_
    obtain ⟨⟨e, he, rfl⟩, hb⟩ := hchosen.mem f hf
    refine ⟨e, he, (hbehind e he).1 hb, le_trans ?_ hchosen.sum⟩
    exact List.single_le_sum (by simp) _ (List.mem_map.2 ⟨e.2, hf, rfl⟩)

theorem findBest_partial_nil_one : (ofSize 2 [1, 2]).findBest 5 1 true = .ok [] :=
  (findBest_partial_nil_iff (ofSize_stocked (by decide) [1, 2]) 5 1).2 (by decide)

end FileEnumeration

end StopGap
