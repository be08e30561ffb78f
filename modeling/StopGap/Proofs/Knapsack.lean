import StopGap.Chooser
import StopGap.Lib.Knapsack

/-!
# The knapsack of the chooser

Each cell of `solutions` holds a best set of the candidates so far for its length: most clusters,
then fewest files. `operator <` is the order of `Knapsack.worth`, so a row follows from the one
before by the two rules for the last item.
-/

namespace StopGap

open Knapsack

namespace Sol

variable {s : Sol} {i n w : ℕ} {weight : ℕ → ℕ}

theorem positions_eq (h : s.items.length ≤ n) :
    s.positions = (List.range n).filter fun i => s.items.getD i false := by
  obtain ⟨k, rfl⟩ := Nat.exists_eq_add_of_le h
  have hrest : ((List.range k).map (s.items.length + ·)).filter (fun i => s.items.getD i false)
      = [] := by
    simp [List.filter_eq_nil_iff]
  rw [List.range_add, List.filter_append, hrest, List.append_nil]
  rfl

theorem length_add (h : s.items.length ≤ i) : (s.add i).items.length = i + 1 := by
  simp only [add, if_pos h, List.length_set, List.length_append, List.length_replicate]
  omega

theorem positions_add (h : s.items.length ≤ i) : (s.add i).positions = s.positions ++ [i] := by
  have hget : ∀ j, (s.add i).items.getD j false = if j = i then true else s.items.getD j false := by
    intro j
    simp only [add, if_pos h, List.getD_eq_getElem?_getD, List.getElem?_set, List.getElem?_append,
      List.length_append, List.length_replicate, List.getElem?_replicate]
    by_cases hj : j = i
    · subst hj
      simp [show j < s.items.length + (j + 1 - s.items.length) by omega]
    · simp only [Ne.symm hj, hj, if_false]
      split_ifs with h1 h2
      · rfl
      · simp [List.getElem?_eq_none (Nat.le_of_not_lt h1)]
      · simp [List.getElem?_eq_none (Nat.le_of_not_lt h1)]
  rw [positions_eq (length_add h).le, positions_eq h, List.range_succ, List.filter_append]
  congr 1
  · refine List.filter_congr fun j hj => ?_
    rw [hget, if_neg (List.mem_range.1 hj).ne]
  · rw [List.filter_singleton, hget, if_pos rfl, cond_true]

theorem mem_positions (h : i ∈ s.positions) : i < s.items.length := by
  simp only [positions, List.mem_filter, List.mem_range] at h
  exact h.1

theorem positions_nodup (s : Sol) : s.positions.Nodup := List.nodup_range.filter _

theorem length_positions (s : Sol) : s.positions.length = s.count := by
  have hitems : (List.range s.items.length).map (fun i => s.items.getD i false) = s.items := by
    refine List.ext_getElem (by simp) fun i h1 h2 => ?_
    simp [List.getD_eq_getElem?_getD, List.getElem?_eq_getElem h2]
  have hcount : ((List.range s.items.length).map fun i => s.items.getD i false).count true
      = s.positions.length := by
    rw [List.count_eq_countP, List.countP_map, positions, ← List.countP_eq_length_filter]
    exact List.countP_congr fun i _ => by simp
  rw [← hcount, hitems, count]

def chosen (s : Sol) : Finset ℕ := s.positions.toFinset

theorem card_chosen (s : Sol) : s.chosen.card = s.positions.length :=
  List.toFinset_card_of_nodup s.positions_nodup

theorem load_chosen (s : Sol) (weight : ℕ → ℕ) :
    load weight s.chosen = (s.positions.map weight).sum :=
  List.sum_toFinset weight s.positions_nodup

theorem chosen_add (h : s.items.length ≤ i) : (s.add i).chosen = insert i s.chosen := by
  ext j
  simp [chosen, positions_add h]

/-- `value` is the load of the candidates in the bitset, which are a best set of the first `n` of
them for a gap of `w` clusters. -/
structure Solves (weight : ℕ → ℕ) (n w : ℕ) (s : Sol) : Prop where
  short : s.items.length ≤ n
  value : s.value = load weight s.chosen
  optimal : Optimal weight n w s.chosen

/-- `s` is a sum of some of the sizes `ws` that fits into `w`, no smaller than any of them that
does. -/
structure For (ws : List ℕ) (w : ℕ) (s : Sol) : Prop where
  fits : s.value ≤ w
  short : s.items.length ≤ ws.length
  sum : (s.positions.map fun i => ws.getD i 0).sum = s.value
  best : ∀ x ∈ ws, x ≤ w → x ≤ s.value

theorem lt_iff {s' : Sol} (h : s.value = load weight s.chosen)
    (h' : s'.value = load weight s'.chosen) :
    s.lt s' = true ↔ worth weight s.chosen < worth weight s'.chosen := by
  rw [worth_lt_iff, ← h, ← h', card_chosen, card_chosen, length_positions, length_positions]
  unfold lt
  split_ifs with heq
  · simp [heq]
  · simp [heq]

theorem zero_solves (h : ∀ T ⊆ Finset.range n, load weight T ≤ w → load weight T = 0) :
    zero.Solves weight n w :=
  ⟨Nat.zero_le n, rfl, Optimal.empty h⟩

theorem Solves.keep (h : s.Solves weight n w)
    (hnew : ∀ T ⊆ Finset.range n, load weight T + weight n ≤ w →
      worth weight (insert n T) ≤ worth weight s.chosen) : s.Solves weight (n + 1) w :=
  ⟨h.short.trans (Nat.le_succ n), h.value, h.optimal.keep hnew⟩

end Sol

variable {weight : ℕ → ℕ}

theorem solCell_solves {row : List Sol} {i w : ℕ}
    (hrow : ∀ w' ≤ w, (row.getD w' .zero).Solves weight i w') :
    (solCell row i (weight i) w).Solves weight (i + 1) w := by
  have hkeep := hrow w le_rfl
  unfold solCell
  split_ifs with hw hle
  · exact Sol.zero_solves fun T _ hT => by omega
  · have htake := hrow (w - weight i) (Nat.sub_le w _)
    set s := row.getD (w - weight i) .zero
    set s' : Sol := ({ s with value := s.value + weight i } : Sol).add i with hs'
    have hchosen : s'.chosen = insert i s.chosen := Sol.chosen_add htake.short
    have hvalue : s'.value = load weight s'.chosen := by
      rw [hchosen, load_insert htake.optimal.subset, ← htake.value]
      rfl
    have hlt := Sol.lt_iff hkeep.value hvalue
    simp only
    split_ifs with hless
    · refine ⟨(Sol.length_add htake.short).le, hvalue, ?_⟩
      rw [hlt, hchosen] at hless
      rw [hchosen]
      exact htake.optimal.take hle hkeep.optimal hless.le
    · rw [hlt, not_lt, hchosen] at hless
      exact hkeep.keep fun T hT hfits => (htake.optimal.insert_le hT hfits).trans hless
  · exact hkeep.keep fun T _ hfits => absurd hfits (by omega)

theorem solRows_solves {nlength : ℕ} : ∀ (candws : List ℕ) (i : ℕ) (row : List Sol),
    (∀ j, weight (i + j) = candws.getD j 0) →
    (∀ w ≤ nlength, (row.getD w .zero).Solves weight i w) →
    ∀ w ≤ nlength,
      ((solRows nlength i candws row).getD w .zero).Solves weight (i + candws.length) w
  | [], i, row, _, hrow, w, hw => hrow w hw
  | x :: candws, i, row, hws, hrow, w, hw => by
    have hx : weight i = x := hws 0
    have ih := solRows_solves candws (i + 1)
      ((List.range (nlength + 1)).map (solCell row i x)) (fun j => ?_) (fun w' hw' => ?_) w hw
    · rw [List.length_cons, Nat.add_comm candws.length, ← Nat.add_assoc]
      exact ih
    · rw [Nat.add_assoc, Nat.add_comm 1 j]
      exact hws (j + 1)
    · simp only [List.getD_eq_getElem?_getD, List.getElem?_map,
        List.getElem?_range (Nat.lt_succ_of_le hw'), Option.map_some, Option.getD_some]
      rw [← hx]
      exact solCell_solves fun w'' hw'' => hrow w'' (hw''.trans hw')

theorem solution_solves (ws : List ℕ) (nlength : ℕ) :
    (solution ws nlength).Solves (fun i => ws.getD i 0) ws.length nlength := by
  have hrows : ∀ w ≤ nlength,
      ((solRows nlength 0 ws (List.replicate (nlength + 1) .zero)).getD w .zero).Solves
        (fun i => ws.getD i 0) (0 + ws.length) w := by
    refine solRows_solves ws 0 _ (fun j => by rw [Nat.zero_add]) fun w hw => ?_
    simp only [List.getD_eq_getElem?_getD, List.getElem?_replicate, Nat.lt_succ_of_le hw, if_true,
      Option.getD_some]
    refine Sol.zero_solves fun T hT _ => ?_
    rw [Finset.subset_empty.1 hT]
    rfl
  rw [← Nat.zero_add ws.length]
  exact hrows nlength le_rfl

theorem solution_for (ws : List ℕ) (nlength : ℕ) : (solution ws nlength).For ws nlength := by
  have h := solution_solves ws nlength
  refine ⟨h.value.trans_le h.optimal.fits, h.short, ?_, fun x hx hle => ?_⟩
  · rw [h.value, Sol.load_chosen]
  · -- a candidate alone is a set of candidates
    obtain ⟨i, hi, rfl⟩ := List.getElem_of_mem hx
    have hload : load (fun i => ws.getD i 0) {i} = ws[i] := by
      simp [load, List.getD_eq_getElem?_getD, List.getElem?_eq_getElem hi]
    have hbest := h.optimal.best {i} (by simpa using hi) (hload.trans_le hle)
    rw [h.value, ← hload]
    exact (worth_le_iff.1 hbest).1

namespace FileEnumeration

/-- The knapsack is best by value and then by number of files among all sub-collections of the
candidates. So a gap that must be filled is given up here only if none of them fills it. -/
theorem solution_fullest_then_fewest (fe : FileEnumeration) {cands : List FileId} {nlength : ℕ}
    (hcands : 2 ≤ cands.length) (hlen : 1 ≤ nlength) :
    let size := fun i => (fe.disp (cands.getD i 0)).clusters
    let sol := solution (cands.map fun c => (fe.disp c).clusters) nlength
    sol.positions.Nodup ∧ (∀ i ∈ sol.positions, i < cands.length)
      ∧ (sol.positions.map size).sum = sol.value ∧ sol.value ≤ nlength
      ∧ (∀ S ⊆ Finset.range cands.length, ∑ i ∈ S, size i ≤ nlength →
        ∑ i ∈ S, size i ≤ sol.value
          ∧ (∑ i ∈ S, size i = sol.value → sol.positions.length ≤ S.card))
      ∧ ∀ rvs, fe.pickCands rvs cands nlength false = [] →
        ∀ S ⊆ Finset.range cands.length, ∑ i ∈ S, size i ≠ nlength := by
  intro size sol
  have hsize : ∀ i < cands.length,
      (cands.map fun c => (fe.disp c).clusters).getD i 0 = size i := fun i hi => by
    simp [size, List.getD_eq_getElem?_getD, List.getElem?_eq_getElem hi]
  have hsol : sol.Solves _ _ nlength := solution_solves _ nlength
  rw [List.length_map] at hsol
  have hshort : ∀ i ∈ sol.positions, i < cands.length := fun i hi =>
    (Sol.mem_positions hi).trans_le hsol.short
  have hload : ∀ S ⊆ Finset.range cands.length,
      load (fun i => (cands.map fun c => (fe.disp c).clusters).getD i 0) S = ∑ i ∈ S, size i :=
    fun S hS => Finset.sum_congr rfl fun i hi => hsize i (Finset.mem_range.1 (hS hi))
  have hvalue : (sol.positions.map size).sum = sol.value := by
    rw [hsol.value, Sol.load_chosen]
    exact congrArg List.sum (List.map_congr_left fun i hi => (hsize i (hshort i hi)).symm)
  have hbest : ∀ S ⊆ Finset.range cands.length, ∑ i ∈ S, size i ≤ nlength →
      ∑ i ∈ S, size i ≤ sol.value
        ∧ (∑ i ∈ S, size i = sol.value → sol.positions.length ≤ S.card) := fun S hS hle => by
    have h := worth_le_iff.1 (hsol.optimal.best S hS ((hload S hS).trans_le hle))
    rwa [hload S hS, ← hsol.value, Sol.card_chosen] at h
  have hfits : sol.value ≤ nlength := hsol.value.trans_le hsol.optimal.fits
  refine ⟨sol.positions_nodup, hshort, hvalue, hfits, hbest, fun rvs hnone S hS hsum => ?_⟩
  -- the picks would come to `nlength` clusters, so there are some
  have hfull : sol.value = nlength := le_antisymm hfits (hsum ▸ (hbest S hS hsum.le).1)
  obtain ⟨c, c', cs, rfl⟩ : ∃ c c' cs, cands = c :: c' :: cs := by
    rcases cands with _ | ⟨c, _ | ⟨c', cs⟩⟩
    · simp at hcands
    · simp at hcands
    · exact ⟨c, c', cs, rfl⟩
  have hpick : fe.pickCands rvs (c :: c' :: cs) nlength false
      = rvs ++ sol.positions.map fun i => (c :: c' :: cs).getD i 0 := by
    refine (if_neg ?_ : (if !false && decide (sol.value ≠ nlength) then [] else _) = _)
    simp [hfull]
  rw [hpick, List.append_eq_nil_iff, List.map_eq_nil_iff] at hnone
  rw [hnone.2] at hvalue
  simp only [List.map_nil, List.sum_nil] at hvalue
  omega

/-- File `f` has `f` clusters. -/
def numbered : FileEnumeration where
  disp := fun f => ⟨f, 1, [⟨0, 0, f⟩]⟩
  buckets := []
  lcns := []
  unmovable := []
  fragmented := 0
  unprocessable := 0

theorem solution_fullest_then_fewest_five : (solution [2, 3, 5] 5).value = 5
    ∧ (solution [2, 3, 5] 5).positions.length ≤ ({0, 1} : Finset ℕ).card := by
  have hvalue : (solution [2, 3, 5] 5).value = 5 := by decide
  have hfewest := (numbered.solution_fullest_then_fewest (show 2 ≤ [2, 3, 5].length by decide)
    (show 1 ≤ 5 by decide)).2.2.2.2.1 {0, 1} (by decide) (by decide)
  exact ⟨hvalue, hfewest.2 (by decide)⟩

example : (solution [2, 3, 5] 5).positions = [2] := by decide

end FileEnumeration

end StopGap
