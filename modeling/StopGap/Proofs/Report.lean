import StopGap.Report
import StopGap.Proofs.Mirror
import StopGap.Proofs.Preserved

/-!
# The report is right

The gaps of the last scan are the maximal free runs of the volume, and a run leaves as many free
clusters as it found. So what a run reports at its end accounts for every cluster that was free at
its start, and the largest gap it names is the longest stretch of free clusters
(`report_accounts_for_free_clusters`).
-/

namespace StopGap

open Exec Runs GapEnumeration

/-- Runs apart from each other have as many numbers as they are long together. -/
theorem sum_length_of_spaced : ∀ {rs : List Run}, Spaced 0 rs → ∀ {S : Finset ℕ},
    (∀ c, c ∈ S ↔ c ∈ cover rs) → (rs.map Run.length).sum = S.card
  | [], _, S, hS => by
    have hempty : S = ∅ := Finset.eq_empty_of_forall_notMem fun c hc => by simpa using (hS c).1 hc
    simp [hempty]
  | r :: rs, h, S, hS => by
    obtain ⟨-, hfar, hrest⟩ := Spaced.cons_iff.1 h
    have hsub : Finset.Ico r.start (r.start + r.length) ⊆ S := fun c hc =>
      (hS c).2 (mem_cover_cons.2 (.inl (Finset.mem_Ico.1 hc)))
    have hdiff : ∀ c, c ∈ S \ Finset.Ico r.start (r.start + r.length) ↔ c ∈ cover rs := by
      intro c
      rw [Finset.mem_sdiff, hS, mem_cover_cons, Finset.mem_Ico, Run.mem_iff]
      constructor
      · exact fun ⟨hc, hno⟩ => hc.resolve_left hno
      · intro hc
        obtain ⟨b, hb, hcb⟩ := mem_cover.1 hc
        have := hfar b hb
        rw [Run.mem_iff] at hcb
        exact ⟨.inr hc, by omega⟩
    have hcard := Finset.card_sdiff_add_card_eq_card hsub
    rw [Nat.card_Ico, Nat.add_sub_cancel_left] at hcard
    rw [List.map_cons, List.sum_cons, sum_length_of_spaced hrest hdiff]
    omega

/-- The clusters a report accounts for. -/
def Report.clusters (rep : Report) : ℕ :=
  rep.smallsize + rep.largesize + (rep.printed.map Region.length).sum

theorem Report.clusters_add (maxSize : ℕ) (verbose : Bool) (rep : Report) (r : Region) :
    (rep.add maxSize verbose r).clusters = rep.clusters + r.length := by
  unfold Report.add Report.clusters
  split_ifs
  · dsimp only
    omega
  · dsimp only
    omega
  · simp only [List.map_append, List.map_cons, List.map_nil, List.sum_append, List.sum_singleton]
    omega

theorem Report.clusters_ofGaps (maxSize : ℕ) (verbose : Bool) (ge : GapEnumeration) :
    (Report.ofGaps maxSize verbose ge).clusters = (ge.gaps.map Run.length).sum := by
  have hfold : ∀ (es : List (ℕ × ℕ)) (rep : Report),
      (es.foldl (fun rep e => rep.add maxSize verbose (ge.node e.2)) rep).clusters
        = rep.clusters + (es.map fun e => (ge.node e.2).length).sum := by
    intro es
    induction es with
    | nil => simp
    | cons e es ih =>
      intro rep
      rw [List.foldl_cons, ih, Report.clusters_add, List.map_cons, List.sum_cons, Nat.add_assoc]
  rw [Report.ofGaps, hfold, gaps, List.map_map]
  exact Nat.zero_add _

/-- The last entry of `sizes_` is that of a longest gap. -/
theorem largest_spec {ge : GapEnumeration} (h : Indexed ge) {n : ℕ} (hn : ge.largest = some n) :
    (∃ r ∈ ge.gaps, r.length = n) ∧ ∀ r ∈ ge.gaps, r.length ≤ n := by
  obtain ⟨e, he, rfl⟩ := Option.map_eq_some_iff.1 hn
  obtain ⟨init, hsizes⟩ := List.getLast?_eq_some_iff.1 he
  have hmem : e ∈ ge.sizes := by simp [hsizes]
  constructor
  · have hnode : e.2 ∈ ge.regions.map Prod.snd :=
      h.views.same.mem_iff.2 (List.mem_map_of_mem hmem)
    obtain ⟨e', he', heq⟩ := List.mem_map.1 hnode
    exact ⟨_, List.mem_map_of_mem he', by rw [heq, h.views.length_eq e hmem]; rfl⟩
  · intro r hr
    obtain ⟨e', he', rfl⟩ := List.mem_map.1 hr
    have hin := h.views.mem_sizes he'
    have hsorted := h.views.sorted
    rw [hsizes] at hin hsorted
    rcases List.mem_append.1 hin with hin | hin
    · exact (List.pairwise_append.1 hsorted).2.2 _ hin e (by simp)
    · exact (congrArg Prod.fst (List.mem_singleton.1 hin)).le

theorem largest_none {ge : GapEnumeration} (h : Indexed ge) (hnone : ge.largest = none) :
    ge.gaps = [] := by
  have hsizes : ge.sizes = [] := List.getLast?_eq_none_iff.1 (Option.map_eq_none_iff.1 hnone)
  have hsame := h.views.same
  rw [hsizes, List.map_nil, List.perm_nil, List.map_eq_nil_iff] at hsame
  rw [gaps, hsame, List.map_nil]

/-- What a run reports accounts for the clusters that were free when it began, small gaps and large
ones together, and the largest gap is as long as the longest run of free clusters it leaves. -/
theorem report_accounts_for_free_clusters {env : Env} {v : Volume} (hv : v.Sound)
    (hguard : env.Guarded) (opts : Options) (verbose : Bool) (fuel : ℕ) (disk : List FileId)
    (disp : FileId → Disposition) (excluded : FileId → Bool) :
    Meets (fun _ _ => True) (fun _ _ => True) (run env opts fuel) (.init v disk disp excluded)
      (keeps (fun s => (Report.ofGaps opts.maxSize verbose s.ge).clusters = v.free.card
        ∧ (s.ge.largest = none → v.free = ∅)
        ∧ ∀ n, s.ge.largest = some n →
          (∃ r, Runs.Maximal {c | s.vol.Free c} r ∧ r.length = n)
            ∧ ∀ r, Runs.Maximal {c | s.vol.Free c} r → r.length ≤ n) fun _ => True) := by
  have hkept := (steady_conserved hguard (Movable disk disp excluded) v).run
    (fun _ _ h => h) opts fuel (s := .init v disk disp excluded)
    ⟨⟨hv, rfl, fun _ => rfl⟩, within_scan disk disp excluded⟩
  have hscan : Meets (fun _ _ => True) (fun _ _ => True) (run env opts fuel)
      (.init v disk disp excluded)
      ⟨fun _ s => ∃ ge : GapEnumeration, s.ge = ge.scan s.vol.winxGetFreeVolumeRegions,
        fun _ => True, fun _ _ => True, fun _ => True⟩ :=
    .modify_bind (Meets.any.bind (fun _ s _ => .modify ⟨s.ge, rfl⟩) (fun _ _ => trivial)
      (fun _ _ _ => trivial) fun _ _ => trivial)
  refine ((hkept.and hscan).shows fun _ _ _ => trivial).mono (fun _ s hs => ?_)
    (fun _ hs => hs.1) (fun _ _ _ => trivial) fun _ _ => trivial
  obtain ⟨⟨hcons, -⟩, ge, hge⟩ := hs
  have htidy := scan_tidy s.vol ge
  have hcover := mem_cover_scan s.vol ge
  rw [← hge] at htidy hcover
  have hset : cover s.ge.gaps = {c | s.vol.Free c} := Set.ext hcover
  have hruns := htidy.spaced.runsOf
  rw [hset] at hruns
  have hsum : (s.ge.gaps.map Run.length).sum = v.free.card := by
    rw [← hcons.free]
    refine sum_length_of_spaced (htidy.spaced.weaken (Nat.zero_le 1)) fun c => ?_
    rw [Volume.mem_free, hcover]
  refine ⟨by rw [Report.clusters_ofGaps, hsum], fun hnone => ?_, fun n hn => ?_⟩
  · rw [largest_none htidy.indexed hnone] at hsum
    exact Finset.card_eq_zero.1 hsum.symm
  · obtain ⟨⟨r, hr, hlen⟩, hmax⟩ := largest_spec htidy.indexed hn
    exact ⟨⟨r, (hruns.mem r).1 hr, hlen⟩, fun r hr => hmax r ((hruns.mem r).2 hr)⟩

/-- The gaps a run leaves, if it returns. -/
def gapsAtEnd : Outcome Operation Fault Unit → Option (List Run)
  | .ok _ s => some s.ge.gaps
  | _ => none

theorem report_scatteredVolume :
    gapsAtEnd (run .granting defragAndGaps 8
        (.init scatteredVolume [0] scatteredVolume.dumps fun _ => false)).out
      = some [⟨1, 2⟩, ⟨4, 2⟩, ⟨9, 1⟩]
    ∧ Meets (fun _ _ => True) (fun _ _ => True) (run .granting defragAndGaps 8)
      (.init scatteredVolume [0] scatteredVolume.dumps fun _ => false)
      (keeps (fun s => (Report.ofGaps 10 false s.ge).clusters = scatteredVolume.free.card
        ∧ (s.ge.largest = none → scatteredVolume.free = ∅)
        ∧ ∀ n, s.ge.largest = some n →
          (∃ r, Runs.Maximal {c | s.vol.Free c} r ∧ r.length = n)
            ∧ ∀ r, Runs.Maximal {c | s.vol.Free c} r → r.length ≤ n) fun _ => True) :=
  ⟨by decide +kernel, report_accounts_for_free_clusters scatteredVolume_closedWorld.sound
    Env.granting_guarded defragAndGaps false 8 [0] scatteredVolume.dumps fun _ => false⟩

end StopGap
