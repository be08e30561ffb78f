import Mathlib.Algebra.BigOperators.Group.Finset.Basic
import Mathlib.Algebra.Order.Group.Nat
import Mathlib.Data.Finset.Range
import Mathlib.Data.Prod.Lex
import Mathlib.Tactic.Common

/-!
# Fullest loads of fewest items

Items are numbered and have weights. Of two sets of items the better one is heavier or, at equal
weight, smaller. A best set of the items below `n` that a capacity holds is known once the best
sets of one item less are: it leaves the last item out, or adds it to a best set for the capacity
the item leaves (`Optimal.keep`, `Optimal.take`).
-/

namespace Knapsack

open Finset

variable {weight : ℕ → ℕ} {n cap : ℕ} {S S' T : Finset ℕ}

def load (weight : ℕ → ℕ) (S : Finset ℕ) : ℕ := ∑ i ∈ S, weight i

/-- What sets of items are compared by: the load, and against it the number of items. -/
def worth (weight : ℕ → ℕ) (S : Finset ℕ) : ℕ ×ₗ ℕᵒᵈ :=
  toLex (load weight S, OrderDual.toDual S.card)

/-- `S` is a best set of items below `n` that fits into `cap`. -/
structure Optimal (weight : ℕ → ℕ) (n cap : ℕ) (S : Finset ℕ) : Prop where
  subset : S ⊆ range n
  fits : load weight S ≤ cap
  best : ∀ T ⊆ range n, load weight T ≤ cap → worth weight T ≤ worth weight S

theorem worth_le_iff : worth weight S ≤ worth weight T ↔
    load weight S ≤ load weight T ∧ (load weight S = load weight T → T.card ≤ S.card) := by
  unfold worth
  rw [Prod.Lex.toLex_le_toLex]
  simp only [OrderDual.toDual_le_toDual]
  omega

theorem worth_lt_iff : worth weight S < worth weight T ↔
    load weight S < load weight T ∨ load weight S = load weight T ∧ T.card < S.card := by
  unfold worth
  rw [Prod.Lex.toLex_lt_toLex]
  simp only [OrderDual.toDual_lt_toDual]

theorem load_insert (h : S ⊆ range n) : load weight (insert n S) = load weight S + weight n := by
  rw [load, sum_insert fun hn => (mem_range.1 (h hn)).ne rfl, add_comm, load]

theorem card_insert_item (h : S ⊆ range n) : (insert n S).card = S.card + 1 :=
  card_insert_of_notMem fun hn => (mem_range.1 (h hn)).ne rfl

theorem worth_insert_le (hS : S ⊆ range n) (hT : T ⊆ range n)
    (h : worth weight S ≤ worth weight T) :
    worth weight (insert n S) ≤ worth weight (insert n T) := by
  rw [worth_le_iff] at h ⊢
  rw [load_insert hS, load_insert hT, card_insert_item hS, card_insert_item hT]
  omega

theorem subset_range_succ (h : S ⊆ range (n + 1)) :
    S ⊆ range n ∨ ∃ T ⊆ range n, S = insert n T := by
  by_cases hn : n ∈ S
  · refine Or.inr ⟨S.erase n, fun i hi => ?_, (insert_erase hn).symm⟩
    obtain ⟨hne, hi⟩ := mem_erase.1 hi
    exact mem_range.2 (lt_of_le_of_ne (Nat.le_of_lt_succ (mem_range.1 (h hi))) hne)
  · refine Or.inl fun i hi => mem_range.2 (lt_of_le_of_ne ?_ fun hin => hn (hin ▸ hi))
    exact Nat.le_of_lt_succ (mem_range.1 (h hi))

namespace Optimal

theorem empty (h : ∀ T ⊆ range n, load weight T ≤ cap → load weight T = 0) :
    Optimal weight n cap ∅ := by
  refine ⟨empty_subset _, by simp [load], fun T hT hle => worth_le_iff.2 ?_⟩
  simp [load, show ∑ i ∈ T, weight i = 0 from h T hT hle]

/-- The last item is left out, where no set with it that fits is better. -/
theorem keep (h : Optimal weight n cap S)
    (hnew : ∀ T ⊆ range n, load weight T + weight n ≤ cap →
      worth weight (insert n T) ≤ worth weight S) : Optimal weight (n + 1) cap S := by
  refine ⟨h.subset.trans (range_mono (Nat.le_succ n)), h.fits, fun T hT hle => ?_⟩
  rcases subset_range_succ hT with hout | ⟨T, hT', rfl⟩
  · exact h.best T hout hle
  · exact hnew T hT' (load_insert hT' ▸ hle)

/-- A set with the last item is a set that fits into what the item leaves, and the item. -/
theorem insert_le (h : Optimal weight n (cap - weight n) S) (hT : T ⊆ range n)
    (hle : load weight T + weight n ≤ cap) :
    worth weight (insert n T) ≤ worth weight (insert n S) :=
  worth_insert_le hT h.subset (h.best T hT (by omega))

/-- The last item is put in, where that is no worse than a best set without it. -/
theorem take (h : Optimal weight n (cap - weight n) S) (hw : weight n ≤ cap)
    (h' : Optimal weight n cap S') (hle : worth weight S' ≤ worth weight (insert n S)) :
    Optimal weight (n + 1) cap (insert n S) := by
  refine ⟨?_, ?_, fun T hT hfits => ?_⟩
  · exact insert_subset (self_mem_range_succ n) (h.subset.trans (range_mono (Nat.le_succ n)))
  · have := h.fits
    rw [load_insert h.subset]
    omega
  · rcases subset_range_succ hT with hout | ⟨T, hT', rfl⟩
    · exact (h'.best T hout hfits).trans hle
    · exact h.insert_le hT' (load_insert hT' ▸ hfits)

end Optimal

end Knapsack
