import Mathlib.Data.Set.Basic
import Mathlib.Data.List.Pairwise
import Mathlib.Tactic.Common

/-!
# Runs of consecutive numbers

A finite set of numbers, written as the ascending list of its maximal runs. A list of non-empty
runs with at least one number between each and the next is that list for the set it covers
(`Spaced.runsOf`), and is determined by it (`Spaced.eq_of_cover`).
-/

namespace Runs

/-- The numbers from `start` on, `length` of them. -/
structure Run where
  start : ℕ
  length : ℕ
deriving DecidableEq, Repr

instance : Membership ℕ Run := ⟨fun r c => r.start ≤ c ∧ c < r.start + r.length⟩

theorem Run.mem_iff {r : Run} {c : ℕ} : c ∈ r ↔ r.start ≤ c ∧ c < r.start + r.length := Iff.rfl

instance (r : Run) (c : ℕ) : Decidable (c ∈ r) := decidable_of_iff _ Run.mem_iff.symm

def cover (rs : List Run) : Set ℕ := {c | ∃ r ∈ rs, c ∈ r}

theorem mem_cover {rs : List Run} {c : ℕ} : c ∈ cover rs ↔ ∃ r ∈ rs, c ∈ r := Iff.rfl

@[simp] theorem not_mem_cover_nil {c : ℕ} : ¬ c ∈ cover [] := by simp [mem_cover]

@[simp] theorem mem_cover_cons {r : Run} {rs : List Run} {c : ℕ} :
    c ∈ cover (r :: rs) ↔ c ∈ r ∨ c ∈ cover rs := by simp [mem_cover]

@[simp] theorem mem_cover_append {rs rs' : List Run} {c : ℕ} :
    c ∈ cover (rs ++ rs') ↔ c ∈ cover rs ∨ c ∈ cover rs' := by
  simp [mem_cover, or_and_right, exists_or]

/-- Non-empty runs in ascending order, at least `d` numbers between each and the next. -/
structure Spaced (d : ℕ) (rs : List Run) : Prop where
  pos : ∀ r ∈ rs, 0 < r.length
  apart : rs.Pairwise fun a b => a.start + a.length + d ≤ b.start

/-- A non-empty run of members of `S` that no run of members extends. -/
structure Maximal (S : Set ℕ) (r : Run) : Prop where
  pos : 0 < r.length
  sub : ∀ c ∈ r, c ∈ S
  left : ∀ c, c + 1 = r.start → c ∉ S
  right : r.start + r.length ∉ S

/-- `rs` lists the maximal runs of `S` in ascending order. -/
structure RunsOf (S : Set ℕ) (rs : List Run) : Prop where
  sorted : rs.Pairwise fun a b => a.start < b.start
  mem : ∀ r, r ∈ rs ↔ Maximal S r

namespace Spaced

variable {d : ℕ} {rs rs' A B : List Run} {r : Run}

theorem nil : Spaced d [] := ⟨by simp, by simp⟩

theorem cons_iff : Spaced d (r :: rs) ↔
    0 < r.length ∧ (∀ b ∈ rs, r.start + r.length + d ≤ b.start) ∧ Spaced d rs := by
  constructor
  · rintro ⟨hp, ha⟩
    rw [List.pairwise_cons] at ha
    exact ⟨hp r (by simp), ha.1, fun b hb => hp b (by simp [hb]), ha.2⟩
  · rintro ⟨hr, hb, hp, ha⟩
    refine ⟨fun b h => ?_, List.pairwise_cons.2 ⟨hb, ha⟩⟩
    rcases List.mem_cons.1 h with rfl | h
    · exact hr
    · exact hp b h

theorem append_iff : Spaced d (A ++ B) ↔ Spaced d A ∧ Spaced d B
    ∧ ∀ a ∈ A, ∀ b ∈ B, a.start + a.length + d ≤ b.start := by
  constructor
  · rintro ⟨hp, ha⟩
    rw [List.pairwise_append] at ha
    exact ⟨⟨fun a h => hp a (by simp [h]), ha.1⟩, ⟨fun b h => hp b (by simp [h]), ha.2.1⟩, ha.2.2⟩
  · rintro ⟨hA, hB, hab⟩
    refine ⟨fun r h => ?_, List.pairwise_append.2 ⟨hA.apart, hB.apart, hab⟩⟩
    rcases List.mem_append.1 h with h | h
    · exact hA.pos r h
    · exact hB.pos r h

theorem weaken {d' : ℕ} (h : Spaced d rs) (hd : d' ≤ d) : Spaced d' rs :=
  ⟨h.pos, h.apart.imp fun {_ _} hab => by omega⟩

/-- One run in the place of some neighbouring ones. -/
theorem splice {M : List Run} {m : Run} (h : Spaced d (A ++ M ++ B)) (hm : 0 < m.length)
    (hA : ∀ a ∈ A, a.start + a.length + d ≤ m.start)
    (hB : ∀ b ∈ B, m.start + m.length + d ≤ b.start) : Spaced d (A ++ m :: B) := by
  obtain ⟨hAM, hB', hAMB⟩ := append_iff.1 h
  obtain ⟨hA', -, -⟩ := append_iff.1 hAM
  refine append_iff.2 ⟨hA', cons_iff.2 ⟨hm, hB, hB'⟩, fun a ha b hb => ?_⟩
  rcases List.mem_cons.1 hb with rfl | hb
  · exact hA a ha
  · exact hAMB a (by simp [ha]) b hb

theorem trichotomy (h : Spaced d rs) {a b : Run} (ha : a ∈ rs) (hb : b ∈ rs) :
    a = b ∨ a.start + a.length + d ≤ b.start ∨ b.start + b.length + d ≤ a.start := by
  induction rs with
  | nil => simp at ha
  | cons r rs ih =>
    obtain ⟨-, hr, hrs⟩ := cons_iff.1 h
    rcases List.mem_cons.1 ha with rfl | ha' <;> rcases List.mem_cons.1 hb with rfl | hb'
    · exact Or.inl rfl
    · exact Or.inr (Or.inl (hr b hb'))
    · exact Or.inr (Or.inr (hr a ha'))
    · exact ih hrs ha' hb'

theorem unique (h : Spaced d rs) {a b : Run} (ha : a ∈ rs) (hb : b ∈ rs) {c : ℕ} (hca : c ∈ a)
    (hcb : c ∈ b) : a = b := by
  rw [Run.mem_iff] at hca hcb
  rcases h.trichotomy ha hb with hab | hab | hab
  · exact hab
  · omega
  · omega

theorem eq_of_start (h : Spaced d rs) {a b : Run} (ha : a ∈ rs) (hb : b ∈ rs)
    (heq : a.start = b.start) : a = b := by
  have ha' := h.pos a ha
  have hb' := h.pos b hb
  exact h.unique ha hb (c := a.start) (by rw [Run.mem_iff]; omega) (by rw [Run.mem_iff]; omega)

theorem of_disjoint (hpos : ∀ r ∈ rs, 0 < r.length) (hs : rs.Pairwise fun a b => a.start < b.start)
    (hd : rs.Pairwise fun a b => ∀ c ∈ a, c ∉ b) : Spaced 0 rs := by
  refine ⟨hpos, (hs.and hd).imp_of_mem fun {a b} _ hb hab => ?_⟩
  have h1 := hpos b hb
  have h2 := hab.2 b.start
  have h3 := hab.1
  simp only [Run.mem_iff] at h2
  omega

theorem eq_of_perm (h : Spaced d rs) (h' : Spaced d rs') (hp : rs.Perm rs') : rs = rs' :=
  List.Perm.eq_of_pairwise
    (fun a b ha _ hab hba => by
      have := h.pos a ha
      omega) h.apart h'.apart hp

theorem le_of_mem_cover (h : Spaced d (A ++ B)) {c : ℕ} (hc : c ∈ cover B) :
    ∀ a ∈ A, a.start + a.length + d ≤ c := by
  obtain ⟨b, hb, hcb⟩ := hc
  intro a ha
  have := (append_iff.1 h).2.2 a ha b hb
  rw [Run.mem_iff] at hcb
  omega

theorem append_of_cover (hA : Spaced d A) (hB : Spaced d B)
    (h : ∀ c ∈ cover B, ∀ a ∈ A, a.start + a.length + d ≤ c) : Spaced d (A ++ B) := by
  refine append_iff.2 ⟨hA, hB, fun a ha b hb => h b.start ⟨b, hb, ?_⟩ a ha⟩
  have := hB.pos b hb
  rw [Run.mem_iff]
  omega

theorem not_mem_middle (h : Spaced d (A ++ r :: B)) {c : ℕ} (hc : c ∈ cover A ∨ c ∈ cover B) :
    c ∉ r := by
  obtain ⟨-, hB, hAB⟩ := append_iff.1 h
  obtain ⟨-, hrB, -⟩ := cons_iff.1 hB
  rcases hc with ⟨x, hx, hcx⟩ | ⟨x, hx, hcx⟩ <;> rw [Run.mem_iff] at hcx ⊢
  · have := hAB x hx r (by simp)
    omega
  · have := hrB x hx
    omega

theorem nodup (h : Spaced d rs) : rs.Nodup := by
  induction rs with
  | nil => exact List.nodup_nil
  | cons r rs ih =>
    obtain ⟨hr, hb, hrs⟩ := cons_iff.1 h
    refine List.nodup_cons.2 ⟨fun hm => ?_, ih hrs⟩
    have := hb r hm
    omega

/-- A covered stretch lies inside one run. -/
theorem inside (h : Spaced 1 rs) {s n : ℕ} (hn : 0 < n)
    (hc : ∀ c, s ≤ c → c < s + n → c ∈ cover rs) :
    ∃ r ∈ rs, r.start ≤ s ∧ s + n ≤ r.start + r.length := by
  obtain ⟨r, hr, hsr⟩ := hc s le_rfl (by omega)
  rw [Run.mem_iff] at hsr
  refine ⟨r, hr, hsr.1, ?_⟩
  by_contra hlt
  -- the first number past `r` is covered too, by a run too close to `r`
  obtain ⟨r', hr', hsr'⟩ := hc (r.start + r.length) (by omega) (by omega)
  rw [Run.mem_iff] at hsr'
  rcases h.trichotomy hr hr' with rfl | h1 | h1 <;> omega

theorem maximal (h : Spaced 1 rs) (hr : r ∈ rs) : Maximal (cover rs) r where
  pos := h.pos r hr
  sub := fun c hc => ⟨r, hr, hc⟩
  left := by
    rintro c hc ⟨r', hr', hcr'⟩
    have := h.pos r hr
    rw [Run.mem_iff] at hcr'
    rcases h.trichotomy hr hr' with rfl | h1 | h1 <;> omega
  right := by
    rintro ⟨r', hr', hcr'⟩
    rw [Run.mem_iff] at hcr'
    rcases h.trichotomy hr hr' with rfl | h1 | h1 <;> omega

/-- What is covered from the start of a run on is in the run. -/
theorem le_length (h : Spaced 1 rs) (hr : r ∈ rs) {n : ℕ}
    (hcov : ∀ c, r.start ≤ c → c < r.start + n → c ∈ cover rs) : n ≤ r.length := by
  by_contra hlt
  exact (h.maximal hr).right (hcov _ (by omega) (by omega))

/-- The runs of a spaced list are the maximal runs of what it covers. -/
theorem runsOf (h : Spaced 1 rs) : RunsOf (cover rs) rs where
  sorted := h.apart.imp fun {_ _} hab => by omega
  mem := fun r => by
    refine ⟨h.maximal, fun hm => ?_⟩
    obtain ⟨r', hr', h1, h2⟩ := h.inside hm.pos fun c hc hc' => hm.sub c ⟨hc, hc'⟩
    have hr := h.maximal hr'
    -- `r'` holds `r`, and neither end can stick out
    have hs : r'.start = r.start := by
      by_contra hne
      exact hm.left (r.start - 1) (by omega) (hr.sub _ ⟨by omega, by omega⟩)
    have hl : r'.length = r.length := by
      by_contra hne
      exact hm.right (hr.sub _ ⟨by omega, by omega⟩)
    have : r = r' := by
      cases r
      cases r'
      simp_all
    exact this ▸ hr'

/-- A spaced list is determined by what it covers. -/
theorem eq_of_cover (h : Spaced 1 rs) (h' : Spaced 1 rs')
    (hc : ∀ c, c ∈ cover rs ↔ c ∈ cover rs') : rs = rs' := by
  have hS : cover rs = cover rs' := Set.ext hc
  have hmem : ∀ r, r ∈ rs ↔ r ∈ rs' := fun r => by
    rw [h.runsOf.mem, h'.runsOf.mem, hS]
  exact List.Perm.eq_of_pairwise
    (fun a b _ _ hab hba => by omega)
    h.runsOf.sorted h'.runsOf.sorted ((List.perm_ext_iff_of_nodup h.nodup h'.nodup).2 hmem)

theorem length_le (h : Spaced 0 rs) {lo hi : ℕ} (hlo : ∀ r ∈ rs, lo ≤ r.start)
    (hhi : ∀ r ∈ rs, r.start + r.length ≤ hi) : rs.length ≤ hi - lo := by
  induction rs generalizing lo with
  | nil => simp
  | cons r rs ih =>
    obtain ⟨hr, hb, hrs⟩ := cons_iff.1 h
    have := ih hrs hb fun b hb' => hhi b (by simp [hb'])
    have := hlo r (by simp)
    have := hhi r (by simp)
    simp only [List.length_cons]
    omega

end Spaced

end Runs
