import StopGap.Proofs.GapRuns
import StopGap.Proofs.Dump

/-!
# The first region

A block that starts behind the first region leaves it where it is, as the same node, whatever it is
merged with. So does `pop` at another region; `pop` at the first region itself moves its start, as
long as something is left of it.
-/

namespace StopGap

namespace GapEnumeration

open Runs

variable {ge ge' : GapEnumeration} {b : Block} {bm : List Block} {free : List Region}
  {k n t lcn length : ℕ} {e : ℕ × ℕ}

/-- What `push` can do to `regions_`. -/
theorem pushBlock_regions (h : ge.pushBlock b = .ok ge') : ge'.scans = ge.scans
    ∧ (ge'.regions = ge.regions
      ∨ (∃ k, b.lcn < k ∧ ge'.regions = OrdMap.erase k ge.regions)
      ∨ (∃ k n, b.lcn < k ∧ ge'.regions = OrdMap.insert (b.lcn, n) (OrdMap.erase k ge.regions))
      ∨ ∃ n, ge'.regions = OrdMap.insert (b.lcn, n) ge.regions) := by
  unfold pushBlock at h
  by_cases h0 : b.length = 0
  · rw [if_pos h0] at h
    obtain rfl := Except.ok.inj h
    exact ⟨rfl, Or.inl rfl⟩
  rw [if_neg h0] at h
  have hnext : ∀ k n, OrdMap.find (b.lcn + b.length) ge.regions = some (k, n) → b.lcn < k :=
    fun k n hf => by
      have := (OrdMap.find_some hf).2
      simp only at this
      omega
  simp only at h
  split at h
  · rename_i p k n _ hf
    obtain rfl := Except.ok.inj h
    exact ⟨rfl, Or.inr (Or.inl ⟨k, hnext k n hf, rfl⟩)⟩
  · obtain rfl := Except.ok.inj h
    exact ⟨rfl, Or.inl rfl⟩
  · rename_i k n _ hf
    obtain rfl := Except.ok.inj h
    exact ⟨rfl, Or.inr (Or.inr (Or.inl ⟨k, n, hnext k n hf, rfl⟩))⟩
  · split_ifs at h
    split at h
    · cases h
    · obtain rfl := Except.ok.inj h
      exact ⟨rfl, Or.inr (Or.inr (Or.inr ⟨ge.fresh, rfl⟩))⟩

theorem pushBlock_strict (hs : OrdMap.Strict ge.regions) (h : ge.pushBlock b = .ok ge') :
    OrdMap.Strict ge'.regions := by
  obtain ⟨-, hreg | ⟨k, -, hreg⟩ | ⟨k, n, -, hreg⟩ | ⟨n, hreg⟩⟩ := pushBlock_regions h <;>
    rw [hreg]
  · exact hs
  · exact hs.erase k
  · exact (hs.erase k).insert _
  · exact hs.insert _

/-- A region that starts in front of the block stays. -/
theorem pushBlock_mem (hs : OrdMap.Strict ge.regions) (h : ge.pushBlock b = .ok ge')
    (he : e ∈ ge.regions) (hlt : e.1 < b.lcn) : e ∈ ge'.regions := by
  obtain ⟨-, hreg | ⟨k, hk, hreg⟩ | ⟨k, n, hk, hreg⟩ | ⟨n, hreg⟩⟩ := pushBlock_regions h <;>
    rw [hreg]
  · exact he
  · exact (OrdMap.mem_erase hs).2 ⟨he, by omega⟩
  · exact OrdMap.mem_insert_of_mem ((OrdMap.mem_erase hs).2 ⟨he, by omega⟩)
  · exact OrdMap.mem_insert_of_mem he

theorem pushBlock_new (h : ge.pushBlock b = .ok ge') (he : e ∈ ge'.regions) :
    e ∈ ge.regions ∨ e.1 = b.lcn := by
  have hins : ∀ {n m}, e ∈ OrdMap.insert (b.lcn, n) m → e ∈ m ∨ e.1 = b.lcn := fun hin =>
    (OrdMap.mem_insert hin).symm.imp_right (congrArg Prod.fst)
  obtain ⟨-, hreg | ⟨k, -, hreg⟩ | ⟨k, n, -, hreg⟩ | ⟨n, hreg⟩⟩ := pushBlock_regions h <;>
    rw [hreg] at he
  · exact Or.inl he
  · exact Or.inl (OrdMap.erase_sublist.subset he)
  · exact (hins he).imp_left fun hin => OrdMap.erase_sublist.subset hin
  · exact hins he

/-- A region in front of all blocks stays, and a new one starts where a block does. -/
theorem push_regions : ∀ {bm : List Block} {ge ge' : GapEnumeration}, OrdMap.Strict ge.regions →
    ge.push bm = .ok ge' → ge'.scans = ge.scans
      ∧ (∀ e ∈ ge.regions, (∀ b ∈ bm, e.1 < b.lcn) → e ∈ ge'.regions)
      ∧ ∀ e ∈ ge'.regions, e ∈ ge.regions ∨ ∃ b ∈ bm, e.1 = b.lcn
  | [], ge, ge', _, heq => by
    obtain rfl := Except.ok.inj heq
    exact ⟨rfl, fun _ he _ => he, fun _ he => Or.inl he⟩
  | b :: bm, ge, ge', hs, heq => by
    unfold GapEnumeration.push at heq
    rw [List.foldlM_cons] at heq
    rcases hb : ge.pushBlock b with why | ge₁ <;> rw [hb] at heq
    · cases heq
    obtain ⟨hscans, hkept, hnew⟩ := push_regions (pushBlock_strict hs hb) heq
    refine ⟨hscans.trans (pushBlock_regions hb).1, fun e he hlt => ?_, fun e he => ?_⟩
    · exact hkept e (pushBlock_mem hs hb he (hlt b (by simp))) fun b' hb' => hlt b' (by simp [hb'])
    · rcases hnew e he with he | ⟨b', hb', heq'⟩
      · exact (pushBlock_new hb he).imp_right fun heq' => ⟨b, by simp, heq'⟩
      · exact Or.inr ⟨b', by simp [hb'], heq'⟩

/-- The first region starts at `k` and is the node `n`. -/
structure First (ge : GapEnumeration) (k n : ℕ) : Prop where
  mem : (k, n) ∈ ge.regions
  least : ∀ e ∈ ge.regions, k ≤ e.1

namespace First

theorem push (h : First ge k n) (hs : OrdMap.Strict ge.regions) (hlt : ∀ b ∈ bm, k < b.lcn)
    (heq : ge.push bm = .ok ge') : First ge' k n ∧ ge'.scans = ge.scans := by
  obtain ⟨hscans, hkept, hnew⟩ := push_regions hs heq
  refine ⟨⟨hkept _ h.mem hlt, fun e he => ?_⟩, hscans⟩
  rcases hnew e he with he | ⟨b, hb, heq'⟩
  · exact h.least e he
  · exact heq' ▸ (hlt b hb).le

/-- `pop` at the start of a region, which it does not use up if it is the first one. -/
theorem pop {r : Run} (h : First ge k n) (ht : Tidy 1 ge) (hr : r ∈ ge.gaps)
    (hstart : r.start = lcn) (hlt : lcn = k → length < r.length)
    (heq : ge.pop free lcn length = .ok ge') :
    ge'.scans = ge.scans
      ∧ (First ge' k n ∧ k < lcn ∨ First ge' (k + length) n ∧ lcn = k) := by
  have hV := ht.indexed.views
  obtain ⟨⟨k', n'⟩, he, rfl⟩ := mem_gapsOf.1 hr
  have hk' : k' = lcn := (hV.lcn_eq _ he).trans hstart
  subst hk'
  simp only [Region.run] at hstart hlt
  have hle := h.least _ he
  unfold GapEnumeration.pop at heq
  rw [hV.strict.find_eq he] at heq
  simp only at heq
  have hstay : k ≠ k' → (k, n) ∈ OrdMap.erase k' ge.regions := fun hne =>
    (OrdMap.mem_erase hV.strict).2 ⟨h.mem, hne⟩
  split_ifs at heq with hcut hbreak
  · obtain rfl := Except.ok.inj heq
    refine ⟨rfl, ?_⟩
    simp only at hle
    rcases hle.lt_or_eq with hlt' | rfl
    · refine Or.inl ⟨⟨OrdMap.mem_insert_of_mem (hstay hlt'.ne), fun e he' => ?_⟩, hlt'⟩
      rcases OrdMap.mem_insert he' with rfl | he'
      · simp only
        omega
      · exact h.least e (OrdMap.erase_sublist.subset he')
    · -- what is left of the first region is still in front of the others
      obtain rfl : n' = n := congrArg Prod.snd (hV.strict.eq_of_key he h.mem rfl)
      have hothers : ∀ e ∈ OrdMap.erase k ge.regions, k + length < e.1 := fun e he' => by
        obtain ⟨hin, hne⟩ := (OrdMap.mem_erase hV.strict).1 he'
        have h1 := hV.lcn_eq e hin
        have h2 := h.least e hin
        rcases ht.spaced.trichotomy hr (mem_gapsOf.2 ⟨e, hin, rfl⟩) with heq | h3 | h3
        · have := congrArg Run.start heq
          simp only [Region.run] at this
          omega
        · simp only [Region.run] at h3
          omega
        · simp only [Region.run] at h3
          omega
      rw [hstart]
      refine Or.inr ⟨⟨?_, fun e he' => ?_⟩, rfl⟩
      · exact (OrdMap.mem_insert_of_ne fun y hy => (hothers y hy).ne').2 (Or.inl rfl)
      · rcases OrdMap.mem_insert he' with rfl | he'
        · exact le_rfl
        · exact (hothers e he').le
  · obtain rfl := Except.ok.inj heq
    simp only at hle
    have hne : k ≠ k' := fun h0 => hcut (hlt h0.symm)
    exact ⟨rfl, Or.inl ⟨⟨hstay hne, fun e he' => h.least e (OrdMap.erase_sublist.subset he')⟩,
      by omega⟩⟩

end First

/-- A region starts where what is covered does. -/
theorem starts_of_cover {c : ℕ} (hc : c ∈ cover ge.gaps)
    (hleft : ∀ c', c' + 1 = c → c' ∉ cover ge.gaps) : ∃ r ∈ ge.gaps, r.start = c := by
  obtain ⟨r, hr, hcr⟩ := hc
  rw [Run.mem_iff] at hcr
  refine ⟨r, hr, ?_⟩
  by_contra hne
  refine hleft (c - 1) (by omega) ⟨r, hr, ?_⟩
  rw [Run.mem_iff]
  omega

/-- A file is popped that lies on `m` consecutive clusters from the start of a region on. -/
theorem First.popBlocks : ∀ {bm : List Block} {ge ge' : GapEnumeration} {k t m : ℕ}, Tidy 1 ge →
    First ge k n → blockLcns bm = List.range' t m → (∀ b ∈ bm, 0 < b.length) →
    (∀ c, t ≤ c → c < t + m → c ∈ cover ge.gaps) → (∀ c, c + 1 = t → c ∉ cover ge.gaps) →
    k ≤ t → (t = k → t + m ∈ cover ge.gaps) → ge.popBlocks free bm = .ok ge' →
    (∃ k', First ge' k' n) ∧ ge'.scans = ge.scans
  | [], ge, ge', k, t, m, _, h, _, _, _, _, _, _, heq => by
    obtain rfl := Except.ok.inj heq
    exact ⟨⟨k, h⟩, rfl⟩
  | b :: bm, ge, ge', k, t, m, ht, h, hbm, hpos, hcov, hleft, hkt, hrest, heq => by
    have hb := hpos b (by simp)
    obtain ⟨hlcn, hle, hbm'⟩ := range'_of_eq_append hb hbm
    obtain ⟨r, hr, hstart⟩ := starts_of_cover (hcov t le_rfl (by omega)) hleft
    -- the file, and one cluster more, is in the region if that is the first one
    have hmore : b.lcn = k → b.length < r.length := fun h0 => by
      have := ht.spaced.le_length hr (n := m + 1) fun c h1 h2 => by
        rcases Nat.lt_or_ge c (t + m) with h3 | h3
        · exact hcov c (hstart ▸ h1) h3
        · obtain rfl : c = t + m := by omega
          exact hrest (hlcn.symm.trans h0)
      omega
    unfold GapEnumeration.popBlocks at heq
    rw [List.foldlM_cons] at heq
    rcases pop_cases ht free b.lcn b.length with ⟨hno, -⟩ | ⟨r', hr', hs', hlt', herror⟩ |
      ⟨-, -, -, -, ge₁, hpop, hp⟩
    · exact absurd (hstart.trans hlcn.symm) (hno r hr)
    · rw [herror] at heq
      cases heq
    rw [hpop] at heq
    obtain ⟨hscans, hfirst⟩ := h.pop ht hr (hstart.trans hlcn.symm) hmore hpop
    have hcov₁ : ∀ c, c ∈ cover ge₁.gaps ↔ c ∈ cover ge.gaps ∧ ¬ (t ≤ c ∧ c < t + b.length) :=
      fun c => by rw [hp.covers, Run.mem_iff, hlcn]
    have hcover : ∀ c, t + b.length ≤ c → c < t + b.length + (m - b.length) →
        c ∈ cover ge₁.gaps := fun c h1 h2 =>
      (hcov₁ c).2 ⟨hcov c (by omega) (by omega), by omega⟩
    have hleft₁ : ∀ c, c + 1 = t + b.length → c ∉ cover ge₁.gaps := fun c hc hin =>
      ((hcov₁ c).1 hin).2 (by omega)
    have hpos' : ∀ b' ∈ bm, 0 < b'.length := fun b' hb' => hpos b' (by simp [hb'])
    rcases hfirst with ⟨hfirst, hlt⟩ | ⟨hfirst, hk⟩
    · obtain ⟨h', hscans'⟩ := First.popBlocks hp.tidy hfirst hbm' hpos' hcover hleft₁ (by omega)
        (fun h0 => by omega) heq
      exact ⟨h', hscans'.trans hscans⟩
    · obtain ⟨h', hscans'⟩ := First.popBlocks hp.tidy hfirst hbm' hpos' hcover hleft₁ (by omega)
        (fun _ => (hcov₁ _).2 ⟨by
          have := hrest (hlcn.symm.trans hk)
          rwa [Nat.add_assoc, Nat.add_sub_cancel' hle], by omega⟩) heq
      exact ⟨h', hscans'.trans hscans⟩

end GapEnumeration

end StopGap
