import Mathlib.Data.List.Pairwise
import Mathlib.Order.Lattice
import Mathlib.Order.Nat
import Mathlib.Tactic.Common

/-!
# Bisection with a neighbourhood

A list in the order of its keys, in which a key may occur more than once: a bisection finds some
entry with the key, goes back to the first one, and takes the first of them with a property. It is
the first entry of the list with both (`find_eq`).
-/

namespace Bisect

variable {α κ : Type*} [LinearOrder κ] (key : α → κ) (p : α → Bool) (xs : List α) (k : κ)

/-- Back from `j` over the entries with the key. -/
def first : (j : ℕ) → ℕ
  | 0 => 0
  | j + 1 => if xs[j]?.map key = some k then first j else j + 1

/-- The first entry with the key and the property, for an entry `j` with the key. -/
def around (j : ℕ) : Option α :=
  ((xs.drop (first key xs k j)).takeWhile fun x => key x = k).find? p

/-- The search among the `lim` entries from `i` on. -/
def find : (fuel i lim : ℕ) → Option α
  | 0, _, _ => none
  | fuel + 1, i, lim =>
    if lim = 0 then none
    else
      match xs[i + lim / 2]? with
      | none => none
      | some x =>
        if key x = k then around key p xs k (i + lim / 2)
        else if key x < k then find fuel (i + lim / 2 + 1) ((lim - 1) / 2)
        else find fuel i (lim / 2)

variable {key p xs k}

theorem first_le : ∀ j, first key xs k j ≤ j
  | 0 => le_rfl
  | j + 1 => by
    unfold first
    split_ifs
    · exact (first_le j).trans (Nat.le_succ j)
    · exact le_rfl

/-- The entry before the first one has another key. -/
theorem first_before : ∀ j i, i + 1 = first key xs k j → xs[i]?.map key ≠ some k
  | 0, i, h => by simp [first] at h
  | j + 1, i, h => by
    unfold first at h
    split_ifs at h with hk
    · exact first_before j i h
    · rw [Nat.succ.inj h]
      exact hk

theorem key_le (hs : xs.Pairwise fun a b => key a ≤ key b) {i j : ℕ} {a b : α} (hij : i ≤ j)
    (ha : xs[i]? = some a) (hb : xs[j]? = some b) : key a ≤ key b := by
  obtain ⟨hi, rfl⟩ := List.getElem?_eq_some_iff.1 ha
  obtain ⟨hj, rfl⟩ := List.getElem?_eq_some_iff.1 hb
  rcases hij.lt_or_eq with hij | rfl
  · exact List.pairwise_iff_getElem.1 hs i j hi hj hij
  · exact le_rfl

/-- The first one is the first of the whole list: what stands before it has smaller keys. -/
theorem key_lt_of_mem_take (hs : xs.Pairwise fun a b => key a ≤ key b) {j : ℕ} {x a : α}
    (hx : xs[j]? = some x) (hk : key x = k) (ha : a ∈ xs.take (first key xs k j)) : key a < k := by
  have hfirst : first key xs k j ≤ j := first_le j
  have hj := (List.getElem?_eq_some_iff.1 hx).1
  obtain ⟨i, hi⟩ := List.mem_iff_getElem?.1 ha
  rw [List.getElem?_take] at hi
  split_ifs at hi with hif
  -- the entry right before the first one is not behind `k`, and its key is not `k`
  have hlt : first key xs k j - 1 < xs.length := by omega
  have hget := List.getElem?_eq_getElem hlt
  have hne : xs[first key xs k j - 1]?.map key ≠ some k := first_before j _ (by omega)
  rw [hget, Option.map_some] at hne
  have hle := key_le hs (by omega) hget hx
  rw [hk] at hle
  exact (key_le hs (by omega) hi hget).trans_lt (lt_of_le_of_ne hle fun h => hne (by rw [h]))

theorem le_key_of_mem_drop (hs : xs.Pairwise fun a b => key a ≤ key b) :
    ∀ {j : ℕ} {x a : α}, xs[j]? = some x → key x = k → a ∈ xs.drop (first key xs k j) → k ≤ key a
  | 0, x, a, hx, hk, ha => by
    obtain ⟨i, hi⟩ := List.mem_iff_getElem?.1 ha
    rw [List.getElem?_drop] at hi
    exact hk ▸ key_le hs (Nat.zero_le _) hx hi
  | j + 1, x, a, hx, hk, ha => by
    unfold first at ha
    split_ifs at ha with hj
    · obtain ⟨y, hy, hyk⟩ := Option.map_eq_some_iff.1 hj
      exact le_key_of_mem_drop hs hy hyk ha
    · obtain ⟨i, hi⟩ := List.mem_iff_getElem?.1 ha
      rw [List.getElem?_drop] at hi
      exact hk ▸ key_le hs (Nat.le_add_right _ _) hx hi

/-- In an ordered list that starts at `k`, the entries with the key come first. -/
theorem find?_takeWhile : ∀ {ys : List α}, ys.Pairwise (fun a b => key a ≤ key b) →
    (∀ y ∈ ys, k ≤ key y) →
    (ys.takeWhile fun x => key x = k).find? p = ys.find? fun x => decide (key x = k) && p x
  | [], _, _ => rfl
  | y :: ys, hys, hle => by
    rw [List.pairwise_cons] at hys
    by_cases hy : key y = k
    · rw [List.takeWhile_cons_of_pos (by simpa using hy), List.find?_cons, List.find?_cons,
        find?_takeWhile hys.2 fun z hz => hle z (by simp [hz])]
      simp [hy]
    · rw [List.takeWhile_cons_of_neg (by simpa using hy), List.find?_nil, eq_comm,
        List.find?_eq_none]
      intro z hz
      have hlt : k < key y := lt_of_le_of_ne (hle y (by simp)) (Ne.symm hy)
      rcases List.mem_cons.1 hz with rfl | hz
      · simp [hy]
      · simp [(hlt.trans_le (hys.1 z hz)).ne']

theorem around_eq (hs : xs.Pairwise fun a b => key a ≤ key b) {j : ℕ} {x : α}
    (hx : xs[j]? = some x) (hk : key x = k) :
    around key p xs k j = xs.find? fun x => decide (key x = k) && p x := by
  have hlow : (xs.take (first key xs k j)).find? (fun x => decide (key x = k) && p x) = none :=
    List.find?_eq_none.2 fun a ha => by simp [(key_lt_of_mem_take hs hx hk ha).ne]
  conv_rhs => rw [← List.take_append_drop (first key xs k j) xs, List.find?_append, hlow,
    Option.none_or]
  exact find?_takeWhile (hs.sublist (List.drop_sublist _ xs)) fun y hy =>
    le_key_of_mem_drop hs hx hk hy

/-- Left of the interval keys are smaller, right of it they are greater. -/
theorem find_eq_of_outside (hs : xs.Pairwise fun a b => key a ≤ key b) :
    ∀ fuel i lim : ℕ, lim < fuel → i + lim ≤ xs.length →
      (∀ j a, j < i → xs[j]? = some a → key a < k) →
      (∀ j a, i + lim ≤ j → xs[j]? = some a → k < key a) →
      find key p xs k fuel i lim = xs.find? fun x => decide (key x = k) && p x
  | 0, _, _, hfuel, _, _, _ => absurd hfuel (Nat.not_lt_zero _)
  | fuel + 1, i, lim, hfuel, hlen, hleft, hright => by
    unfold find
    split_ifs with hlim
    · rw [eq_comm, List.find?_eq_none]
      intro a ha
      obtain ⟨j, hj⟩ := List.mem_iff_getElem?.1 ha
      rcases lt_or_ge j i with hji | hji
      · simp [(hleft j a hji hj).ne]
      · simp [(hright j a (by omega) hj).ne']
    · have hmid : i + lim / 2 < xs.length := by omega
      have hget := List.getElem?_eq_getElem hmid
      rw [hget]
      dsimp only
      split_ifs with hk hlt
      · exact around_eq hs hget hk
      · refine find_eq_of_outside hs fuel _ _ (by omega) (by omega) (fun j a hj ha => ?_)
          fun j a hj ha => hright j a (by omega) ha
        exact (key_le hs (by omega) ha hget).trans_lt hlt
      · refine find_eq_of_outside hs fuel i _ (by omega) (by omega) hleft fun j a hj ha => ?_
        exact (lt_of_le_of_ne (not_lt.1 hlt) (Ne.symm hk)).trans_le (key_le hs hj hget ha)

/-- The bisection of an ordered list finds what a search from its start finds. -/
theorem find_eq (hs : xs.Pairwise fun a b => key a ≤ key b) :
    find key p xs k (xs.length + 1) 0 xs.length = xs.find? fun x => decide (key x = k) && p x :=
  find_eq_of_outside hs _ _ _ (Nat.lt_succ_self _) (by omega) (fun _ _ h => absurd h (by omega))
    fun j _ hj ha => absurd (List.getElem?_eq_some_iff.1 ha).1 (by omega)

end Bisect
