import StopGap.Proofs.GapIndex

/-!
# The gap `best` finds

`best` looks through `sizes_` three times: the regions of exactly the length, the ones much larger
from the smallest on, and all that are long enough from the largest on. Each search returns the
first region it may, so together they find one whenever there is one.
-/

namespace StopGap

namespace GapEnumeration

variable {ge : GapEnumeration} {clusters n : ℕ} {not : Option RegionPtr} {behindOnly : Bool}
  {e x : ℕ × ℕ}

/-- Of the regions in the model, those `best` may return. -/
structure Admissible (ge : GapEnumeration) (clusters : ℕ) (not : Option RegionPtr)
    (behindOnly : Bool) (n : ℕ) : Prop where
  mem : n ∈ ge.regions.map Prod.snd
  fits : clusters ≤ (ge.node n).length
  other : not ≠ some (.node n)
  behind : behindOnly = true → ∀ p, not = some p → (ge.deref p).lcn < (ge.node n).lcn

theorem eligible_iff : ge.eligible not behindOnly e = true ↔
    not ≠ some (.node e.2)
      ∧ (behindOnly = true → ∀ p, not = some p → (ge.deref p).lcn < (ge.node e.2).lcn) := by
  unfold eligible
  rcases not with _ | p
  · simp
  · rcases behindOnly <;> simp [and_comm]

theorem muchLarger_eq (h : clusters < 2 ^ 62) :
    muchLarger clusters = max (clusters * 3 / 2) (clusters + 512) := by
  have h1 : clusters * 3 % 2 ^ 64 = clusters * 3 := Nat.mod_eq_of_lt (by omega)
  have h2 : (clusters + 512) % 2 ^ 64 = clusters + 512 := Nat.mod_eq_of_lt (by omega)
  rw [muchLarger, h1, h2]

/-- What the entry that `best` returns the region of is preferred for. -/
inductive Preferred (ge : GapEnumeration) (clusters : ℕ) (not : Option RegionPtr)
    (behindOnly : Bool) (e : ℕ × ℕ) : Prop
  | exact (len : e.1 = clusters)
  | larger (len : muchLarger clusters < e.1)
      (none : ∀ x ∈ ge.sizes, ge.eligible not behindOnly x = true → x.1 ≠ clusters)
      (least : ∀ x ∈ ge.sizes, ge.eligible not behindOnly x = true → muchLarger clusters < x.1 →
        e.1 ≤ x.1)
  | largest (len : clusters ≤ e.1)
      (none : ∀ x ∈ ge.sizes, ge.eligible not behindOnly x = true → x.1 ≠ clusters)
      (nothing : ∀ x ∈ ge.sizes, ge.eligible not behindOnly x = true → x.1 ≤ muchLarger clusters)
      (most : ∀ x ∈ ge.sizes, ge.eligible not behindOnly x = true → clusters ≤ x.1 → x.1 ≤ e.1)

theorem mem_equalRange :
    x ∈ OrdMap.equalRange clusters ge.sizes ↔ x ∈ ge.sizes ∧ x.1 = clusters := by
  simp [OrdMap.equalRange]

/-- The three searches. -/
theorem best_search (hsorted : OrdMap.Sorted ge.sizes) (clusters : ℕ) (not : Option RegionPtr)
    (behindOnly : Bool) :
    (ge.best clusters not behindOnly = none
      ∧ ∀ x ∈ ge.sizes, ge.eligible not behindOnly x = true → x.1 < clusters)
    ∨ ∃ e ∈ ge.sizes, ge.best clusters not behindOnly = some e.2
      ∧ ge.eligible not behindOnly e = true ∧ Preferred ge clusters not behindOnly e := by
  set p := ge.eligible not behindOnly with hp
  have hbest : ge.best clusters not behindOnly
      = (((OrdMap.equalRange clusters ge.sizes).find? p).or
        (((ge.sizes.dropWhile fun e => e.1 ≤ muchLarger clusters).find? p).or
          ((ge.sizes.reverse.takeWhile fun e => clusters ≤ e.1).find? p))).map Prod.snd := by
    simp only [best, Option.orElse_eq_orElse, Option.orElse_eq_or, hp]
  rcases h₁ : (OrdMap.equalRange clusters ge.sizes).find? p with _ | e
  swap
  · obtain ⟨hmem, hlen⟩ := mem_equalRange.1 (List.mem_of_find?_eq_some h₁)
    exact Or.inr ⟨e, hmem, by simp [hbest, h₁], List.find?_some h₁, .exact hlen⟩
  have hexact : ∀ x ∈ ge.sizes, p x = true → x.1 ≠ clusters := fun x hx hpx hlen =>
    List.find?_eq_none.1 h₁ x (mem_equalRange.2 ⟨hx, hlen⟩) hpx
  rcases h₂ : (ge.sizes.dropWhile fun e => e.1 ≤ muchLarger clusters).find? p with _ | e
  swap
  · obtain ⟨hmem, hlen⟩ := hsorted.mem_dropWhile_iff.1 (List.mem_of_find?_eq_some h₂)
    refine Or.inr ⟨e, hmem, by simp [hbest, h₁, h₂], List.find?_some h₂, .larger hlen hexact ?_⟩
    intro x hx hpx hlarger
    rcases OrdMap.find?_first (List.Pairwise.sublist (List.dropWhile_sublist _) hsorted) h₂
      (hsorted.mem_dropWhile_iff.2 ⟨hx, hlarger⟩) hpx with rfl | h
    · exact le_rfl
    · exact h
  have hlarger : ∀ x ∈ ge.sizes, p x = true → x.1 ≤ muchLarger clusters := fun x hx hpx => by
    by_contra hlt
    exact List.find?_eq_none.1 h₂ x (hsorted.mem_dropWhile_iff.2 ⟨hx, not_le.1 hlt⟩) hpx
  rcases h₃ : (ge.sizes.reverse.takeWhile fun e => clusters ≤ e.1).find? p with _ | e
  · refine Or.inl ⟨by simp [hbest, h₁, h₂, h₃], fun x hx hpx => ?_⟩
    by_contra hle
    exact List.find?_eq_none.1 h₃ x
      (hsorted.mem_reverse_takeWhile_iff.2 ⟨hx, not_lt.1 hle⟩) hpx
  · obtain ⟨hmem, hlen⟩ := hsorted.mem_reverse_takeWhile_iff.1 (List.mem_of_find?_eq_some h₃)
    refine Or.inr ⟨e, hmem, by simp [hbest, h₁, h₂, h₃], List.find?_some h₃,
      .largest hlen hexact hlarger ?_⟩
    intro x hx hpx hle
    rcases OrdMap.find?_first
      (List.Pairwise.sublist (List.takeWhile_sublist _) (List.pairwise_reverse.2 hsorted)) h₃
      (hsorted.mem_reverse_takeWhile_iff.2 ⟨hx, hle⟩) hpx with rfl | h
    · exact le_rfl
    · exact h

theorem le_muchLarger (h : clusters < 2 ^ 62) : clusters ≤ muchLarger clusters := by
  rw [muchLarger_eq h]
  omega

theorem Preferred.le (h : Preferred ge clusters not behindOnly e) (hc : clusters < 2 ^ 62) :
    clusters ≤ e.1 := by
  cases h with
  | exact len => exact len.ge
  | larger len => exact (le_muchLarger hc).trans len.le
  | largest len => exact len

theorem best_mem (h : Indexed ge) (hc : clusters < 2 ^ 62)
    (hb : ge.best clusters not behindOnly = some n) :
    (ge.node n).run ∈ ge.gaps ∧ clusters ≤ (ge.node n).length := by
  rcases best_search h.views.sorted clusters not behindOnly with ⟨hnone, -⟩ |
    ⟨e, he, hsome, -, hpref⟩
  · cases hnone.symm.trans hb
  · obtain rfl := Option.some.inj (hsome.symm.trans hb)
    obtain ⟨x, hx, hxe⟩ := List.mem_map.1 (h.views.same.mem_iff.2 (List.mem_map.2 ⟨e, he, rfl⟩))
    exact ⟨mem_gapsOf.2 ⟨x, hx, by rw [hxe]⟩, h.views.length_eq e he ▸ hpref.le hc⟩

section Sizes

variable (hsorted : OrdMap.Sorted ge.sizes) (hlen : ∀ e ∈ ge.sizes, e.1 = (ge.node e.2).length)
  (hsame : ∀ n, n ∈ ge.regions.map Prod.snd ↔ n ∈ ge.sizes.map Prod.snd)

include hlen hsame

theorem admissible_iff : Admissible ge clusters not behindOnly n ↔
    ∃ e ∈ ge.sizes, e.2 = n ∧ ge.eligible not behindOnly e = true ∧ clusters ≤ e.1 := by
  constructor
  · rintro ⟨hmem, hfits, hother, hbehind⟩
    obtain ⟨e, he, rfl⟩ := List.mem_map.1 ((hsame n).1 hmem)
    exact ⟨e, he, rfl, eligible_iff.2 ⟨hother, hbehind⟩, hlen e he ▸ hfits⟩
  · rintro ⟨e, he, rfl, helig, hle⟩
    obtain ⟨hother, hbehind⟩ := eligible_iff.1 helig
    exact ⟨(hsame e.2).2 (List.mem_map.2 ⟨e, he, rfl⟩), hlen e he ▸ hle, hother, hbehind⟩

include hsorted

/-- `best` finds an admissible region if there is one, and keeps to its preference: the exact
length, else the least one that is much larger, else the greatest. -/
theorem best_admissible_preferred (hc : clusters < 2 ^ 62) (not : Option RegionPtr)
    (behindOnly : Bool) :
    let Fits := Admissible ge clusters not behindOnly
    let length := fun n => (ge.node n).length
    let much := max (clusters * 3 / 2) (clusters + 512)
    (ge.best clusters not behindOnly = none ↔ ∀ m, ¬ Fits m)
      ∧ ∀ n, ge.best clusters not behindOnly = some n → Fits n
        ∧ ((∃ m, Fits m ∧ length m = clusters) → length n = clusters)
        ∧ ((∀ m, Fits m → length m ≠ clusters) → (∃ m, Fits m ∧ much < length m) →
          much < length n ∧ ∀ m, Fits m → much < length m → length n ≤ length m)
        ∧ ((∀ m, Fits m → length m ≠ clusters) → (∀ m, Fits m → length m ≤ much) →
          ∀ m, Fits m → length m ≤ length n) := by
  intro Fits length much
  have hmuch : muchLarger clusters = much := muchLarger_eq hc
  have hiff : ∀ m, Fits m ↔ _ := fun m => admissible_iff hlen hsame
  rcases best_search hsorted clusters not behindOnly with ⟨hnone, hall⟩ |
    ⟨e, he, hsome, helig, hpref⟩
  · refine ⟨iff_of_true hnone fun m hm => ?_, fun n hn => by cases hnone.symm.trans hn⟩
    obtain ⟨x, hx, -, hpx, hle⟩ := (hiff m).1 hm
    exact absurd hle (not_le.2 (hall x hx hpx))
  have hfits : Fits e.2 := (hiff e.2).2 ⟨e, he, rfl, helig, hpref.le hc⟩
  have hlen' : length e.2 = e.1 := (hlen e he).symm
  have hentry : ∀ m, Fits m → ∃ x ∈ ge.sizes, length m = x.1
      ∧ ge.eligible not behindOnly x = true ∧ clusters ≤ x.1 := fun m hm => by
    obtain ⟨x, hx, rfl, hpx, hle⟩ := (hiff m).1 hm
    exact ⟨x, hx, (hlen x hx).symm, hpx, hle⟩
  refine ⟨iff_of_false (by simp [hsome]) fun h => h e.2 hfits, fun n hn => ?_⟩
  obtain rfl := Option.some.inj (hsome.symm.trans hn)
  rw [hlen', ← hmuch]
  refine ⟨hfits, ?_⟩
  cases hpref with
  | exact len =>
    exact ⟨fun _ => len, fun hno => absurd (hlen'.trans len) (hno e.2 hfits),
      fun hno => absurd (hlen'.trans len) (hno e.2 hfits)⟩
  | larger len hnone hleast =>
    refine ⟨?_, fun _ _ => ⟨len, fun m hm hlarge => ?_⟩, fun _ hno => ?_⟩
    · rintro ⟨m, hm, hexact⟩
      obtain ⟨x, hx, hxm, hpx, -⟩ := hentry m hm
      exact absurd (hxm.symm.trans hexact) (hnone x hx hpx)
    · obtain ⟨x, hx, hxm, hpx, -⟩ := hentry m hm
      rw [hxm] at hlarge ⊢
      exact hleast x hx hpx hlarge
    · exact absurd (hno e.2 hfits) (not_le.2 (hlen' ▸ len))
  | largest len hnone hnothing hmost =>
    refine ⟨?_, ?_, fun _ _ m hm => ?_⟩
    · rintro ⟨m, hm, hexact⟩
      obtain ⟨x, hx, hxm, hpx, -⟩ := hentry m hm
      exact absurd (hxm.symm.trans hexact) (hnone x hx hpx)
    · rintro - ⟨m, hm, hlarge⟩
      obtain ⟨x, hx, hxm, hpx, -⟩ := hentry m hm
      exact absurd (hnothing x hx hpx) (not_le.2 (hxm ▸ hlarge))
    · obtain ⟨x, hx, hxm, hpx, hle⟩ := hentry m hm
      exact hxm ▸ hmost x hx hpx hle

end Sizes

/-- Regions of three and of five clusters. -/
def twoGaps : GapEnumeration := empty.scan [⟨1, 3⟩, ⟨6, 5⟩]

theorem best_admissible_preferred_two_gaps : twoGaps.best 4 (some (.node 0)) true = some 1
    ∧ Admissible twoGaps 4 (some (.node 0)) true 1 := by
  have hbest : twoGaps.best 4 (some (.node 0)) true = some 1 := by decide
  have hsame : twoGaps.regions.map Prod.snd = twoGaps.sizes.map Prod.snd := by decide
  have hsorted : OrdMap.Sorted twoGaps.sizes := by
    unfold OrdMap.Sorted
    decide
  exact ⟨hbest, ((best_admissible_preferred hsorted (by decide) (fun _ => by rw [hsame])
    (by decide) (some (.node 0)) true).2 1 hbest).1⟩

end GapEnumeration

end StopGap
