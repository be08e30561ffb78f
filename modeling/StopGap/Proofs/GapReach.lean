import StopGap.Proofs.GapRuns

/-!
# The two indexes over whole runs

Whatever is scanned, pushed and popped, `regions_` and `sizes_` stay two views of one set of nodes.
-/

namespace StopGap

open Runs

namespace GapEnumeration

/-- What `winx_get_free_volume_regions` returns: non-empty runs that share no cluster. -/
structure Disjoint (free : List Region) : Prop where
  pos : ∀ r ∈ free, 0 < r.length
  apart : free.Pairwise fun a b => ∀ c ∈ a.run, c ∉ b.run

/-- Either no region starts at `lcn`, or one that does is long enough. -/
def Fits (ge : GapEnumeration) (lcn length : ℕ) : Prop :=
  ∀ r ∈ ge.gaps, r.start = lcn → length ≤ r.length

/-- The states `scan()`, `push(f)`, `pop(lcn, length)` and `pop(f)` lead to. -/
inductive Reach : GapEnumeration → Prop
  | scan {free : List Region} (ge : GapEnumeration) : Disjoint free → Reach (ge.scan free)
  | push {ge ge' : GapEnumeration} {bm : List Block} : Reach ge → ge.regions ≠ [] → Apart bm →
      (∀ c ∈ cover (bm.map Block.run), c ∉ cover ge.gaps) → ge.push bm = .ok ge' → Reach ge'
  | pop {ge ge' : GapEnumeration} {free : List Region} {lcn length : ℕ} : Reach ge →
      Disjoint free → ge.Fits lcn length → ge.pop free lcn length = .ok ge' → Reach ge'
  | popBlocks {ge ge' : GapEnumeration} {free : List Region} {bm : List Block} : Reach ge →
      Disjoint free →
      (∀ before b after ge₁, bm = before ++ b :: after → ge.popBlocks free before = .ok ge₁ →
        ge₁.Fits b.lcn b.length) →
      ge.popBlocks free bm = .ok ge' → Reach ge'

variable {ge ge' : GapEnumeration} {free : List Region}

theorem Tidy.pop {lcn length : ℕ} (h : Tidy 0 ge) (hfree : Disjoint free)
    (heq : ge.pop free lcn length = .ok ge') : Tidy 0 ge' := by
  rcases pop_cases h free lcn length with
    ⟨-, heq'⟩ | ⟨-, -, -, -, heq'⟩ | ⟨-, -, -, -, ge₁, heq', hp⟩
    <;> rw [heq'] at heq
  · rw [← Except.ok.inj heq]
    exact (scan_spec _ hfree.pos hfree.apart).tidy
  · simp at heq
  · rw [← Except.ok.inj heq]
    exact hp.tidy

theorem Tidy.popBlocks (hfree : Disjoint free) : ∀ {bm : List Block} {ge ge' : GapEnumeration},
    Tidy 0 ge → ge.popBlocks free bm = .ok ge' → Tidy 0 ge'
  | [], ge, ge', h, heq => by
    rw [← Except.ok.inj heq]
    exact h
  | b :: bm, ge, ge', h, heq => by
    unfold GapEnumeration.popBlocks at heq
    rw [List.foldlM_cons] at heq
    rcases hb : ge.pop free b.lcn b.length with e | ge₁ <;> rw [hb] at heq
    · simp [Bind.bind, Except.bind] at heq
    · exact Tidy.popBlocks hfree (h.pop hfree hb) heq

theorem Reach.tidy (h : Reach ge) : Tidy 0 ge := by
  induction h with
  | scan ge hfree => exact (scan_spec _ hfree.pos hfree.apart).tidy
  | push _ hne hap hdis heq ih =>
    obtain ⟨ge₁, heq₁, hp⟩ := push_spec ih (Nat.zero_le 1) hne hap hdis
    rw [heq₁] at heq
    exact Except.ok.inj heq ▸ hp.tidy
  | pop _ hfree _ heq ih => exact ih.pop hfree heq
  | popBlocks _ hfree _ heq ih => exact ih.popBlocks hfree heq

/-- `regions_` and `sizes_` hold the same nodes, each once and under its own values. -/
theorem reach_two_views (h : Reach ge) :
    (ge.regions.map Prod.snd).Perm (ge.sizes.map Prod.snd)
      ∧ (ge.regions.map Prod.snd).Nodup
      ∧ (∀ e ∈ ge.regions, e.1 = (ge.node e.2).lcn)
      ∧ (∀ e ∈ ge.sizes, e.1 = (ge.node e.2).length)
      ∧ ∀ e ∈ ge.regions, 0 < (ge.node e.2).length ∧ e.2 ∈ ge.info := by
  obtain ⟨hI, hS⟩ := h.tidy
  exact ⟨hI.views.same, hI.views.nodup, hI.views.lcn_eq, hI.views.length_eq, fun e he =>
    ⟨hS.pos _ (mem_gapsOf.2 ⟨e, he, rfl⟩), hI.info e he⟩⟩

theorem reach_two_views_cut :
    ∃ ge', (empty.scan [⟨1, 2⟩, ⟨5, 3⟩]).pop [] 5 1 = .ok ge'
      ∧ ge'.regions = [(1, 0), (6, 1)] ∧ ge'.sizes = [(2, 0), (2, 1)]
      ∧ (ge'.regions.map Prod.snd).Perm (ge'.sizes.map Prod.snd) := by
  have hfree : Disjoint [⟨1, 2⟩, ⟨5, 3⟩] := by
    refine ⟨by decide, List.pairwise_pair.2 fun c => ?_⟩
    simp only [Run.mem_iff, Region.run]
    omega
  have hfits : (empty.scan [⟨1, 2⟩, ⟨5, 3⟩]).Fits 5 1 := fun r hr _ =>
    (Reach.scan empty hfree).tidy.spaced.pos r hr
  have hnone : Disjoint [] := ⟨by simp, by simp⟩
  exact ⟨_, rfl, rfl, rfl, (reach_two_views (.pop (.scan empty hfree) hnone hfits rfl)).1⟩

end GapEnumeration

end StopGap
