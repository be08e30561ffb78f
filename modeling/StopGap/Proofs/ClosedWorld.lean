import StopGap.Proofs.CloseGaps
import StopGap.Proofs.BestGap

/-!
# Runs in the closed world

Without widening, whatever the answers to the requests, the gap model mirrors the volume in every
run but for the gaps that were dropped, and what a finished pass of `close_gaps` leaves is too small
for every file behind it.
-/

namespace StopGap

open Exec Exec.Prog Runs FileEnumeration

variable {P : Prop} {A : Mark → Operation → Prop} {env : Env} {opts : Options}
  {s s' : Operation} {f : FileId} {files : List FileId}

/-- What an iteration of `defrag` does with `f`. -/
inductive Repair (P : Prop) (env : Env) (f : FileId) (s : Operation) : Operation → Prop
  | idle : Repair P env f s s
  | moved {t : ℕ} {s' : Operation} : Ready s f t → Relocated P s s' f t → Repair P env f s s'
  | refused {t : ℕ} {s' : Operation} : Refused P env s f t s' → Repair P env f s s'.scanned

/-- Different files in stock, each in pieces. -/
structure Listed (files : List FileId) (s : Operation) : Prop where
  nodup : files.Nodup
  mem : ∀ f ∈ files, (∃ e ∈ s.fe.buckets, e.2 = f) ∧ 1 < (s.fe.disp f).fragments

theorem Good.last_ne (h : Good P opts s) (hf : 1 < (s.fe.disp f).fragments) : s.last ≠ some f := by
  intro hlast
  obtain ⟨t, n, ht⟩ := h.last f hlast
  have := (h.world.accurate f).whole t n ht
  omega

theorem defragBody_spec (htruth : env.Truthful) (hplaced : P → ∀ m s, A m s → Placed m s)
    (hg : Good P opts s) (hd : s.ge.dropped = []) (hf : Listed (f :: files) s) :
    Meets A (Watched P opts) (defragBody env f) s
      ⟨fun _ s' => Repair P env f s s', fun _ => False, fun _ _ => False, fun _ => False⟩ := by
  obtain ⟨hmem, hfrag⟩ := hf.mem f (by simp)
  refine Meets.mark_bind (fun _ => trivial) fun _ => Meets.get_bind ?_
  -- the file moved last is in one piece, so it is not in the list
  rw [if_neg (hg.last_ne hfrag)]
  refine Meets.get_bind ?_
  rcases hbest : s.ge.best (s.fe.disp f).clusters none false with _ | n
  · exact Meets.pure .idle
  have hbound := hg.world.bounded f
  rw [← hg.world.clusters_eq f] at hbound
  obtain ⟨hrun, hfits⟩ := GapEnumeration.best_mem hg.mirrors.indexed hbound hbest
  have hready : Ready s f (s.ge.node n).lcn := by
    refine ⟨hmem, by simp [hd], fun c h1 h2 => ⟨_, hrun, ?_⟩⟩
    simp only [Run.mem_iff, Region.run]
    omega
  refine Meets.catching (moveFile_meets hg.world hg.mirrors hready htruth hplaced)
    (fun s' hs' => Meets.modify (.refused hs')) fun _ s' hs' => .moved hready hs'.1

theorem Repair.good (h : Repair P env f s s') (hg : Good P opts s) (hd : s.ge.dropped = []) :
    Good P opts s' ∧ s'.ge.dropped = [] := by
  rcases h with _ | ⟨hr, hm⟩ | hr
  · exact ⟨hg, hd⟩
  · refine ⟨hm.good hg hr, ?_⟩
    rcases hm.dropped with h | h
    · exact h.trans hd
    · exact h
  · exact ⟨hr.scanned hg, scan_dropped _ _⟩

/-- The files still to come are still in stock and in pieces. -/
theorem Repair.listed (h : Repair P env f s s') (hf : Listed (f :: files) s) : Listed files s' := by
  obtain ⟨hnd, hmem⟩ := hf
  obtain ⟨hnot, hnd⟩ := List.nodup_cons.1 hnd
  refine ⟨hnd, fun g hg => ?_⟩
  have hne : g ≠ f := fun heq => hnot (heq ▸ hg)
  obtain ⟨⟨e, he, heg⟩, hfrag⟩ := hmem g (by simp [hg])
  rcases h with _ | ⟨hr, hm⟩ | @⟨t, _, hr⟩
  · exact ⟨⟨e, he, heg⟩, hfrag⟩
  · exact ⟨⟨e, hm.buckets.mem_iff.2 he, heg⟩, by rw [hm.others g hne]; exact hfrag⟩
  · refine ⟨⟨e, ?_, heg⟩, by simpa only [Operation.scanned, hr.others g hne] using hfrag⟩
    by_cases hv : Vanished env s f t
    · exact (hr.kept hv).mem_iff.2 he
    · rcases List.mem_cons.1 ((hr.lost hv).mem_iff.1 he) with rfl | he
      · exact absurd heg.symm hne
      · exact he

/-- `defrag` keeps the invariant, and whatever else each of its iterations keeps. -/
theorem defrag_spec {K : Operation → Prop} (htruth : env.Truthful)
    (hplaced : P → ∀ m s, A m s → Placed m s) (hclock : ∀ s k, K s → K { s with clock := k })
    (hstep : ∀ f files s s', Good P opts s → Listed (f :: files) s → Repair P env f s s' → K s →
      K s')
    (hg : Good P opts s) (hd : s.ge.dropped = []) (hK : K s) :
    Meets A (Watched P opts) (defrag env) s
      (ends (fun s' => (Good P opts s' ∧ s'.ge.dropped = []) ∧ K s') fun _ => False) := by
  refine (defrag_meets (Q := fun files s =>
    ((Good P opts s ∧ s.ge.dropped = []) ∧ K s) ∧ Listed files s)
    (fun files s h => ⟨⟨⟨h.1.1.1.tick, h.1.1.2⟩, hclock s _ h.1.2⟩, h.2.nodup, h.2.mem⟩)
    (fun f files s h => ?_) fun k files hsub hfrag => ?_).mono fun _ s' hs' => ?_
  · obtain ⟨⟨⟨hg, hd⟩, hK⟩, hl⟩ := h
    refine (defragBody_spec htruth hplaced hg hd hl).mono fun _ s' hs' => ?_
    exact ⟨⟨hs'.good hg hd, hstep f files s s' hg hl hs' hK⟩, hs'.listed hl⟩
  · refine ⟨⟨⟨⟨hg.world, hg.mirrors, hg.last, hg.given⟩, hd⟩, hclock s k hK⟩,
      hg.world.nodup.sublist hsub, fun f hf => ⟨?_, hfrag f hf⟩⟩
    obtain ⟨e, he, hef⟩ := List.mem_map.1 (hsub.subset hf)
    exact ⟨e, he, hef⟩
  · obtain ⟨files, h, -⟩ := hs'
    exact h

theorem run_spec (htruth : env.Truthful) (hplaced : P → ∀ m s, A m s → Placed m s)
    (hwiden : opts.widen = false) (hg : Good P opts s) (hd : s.ge.dropped = []) (fuel : ℕ) :
    Meets A (Watched P opts) (run env opts fuel) s
      (keeps (fun s' => Good P opts s' ∧ s'.ge.dropped = []) fun _ => False) := by
  have hinv : RunInvariant A (Watched P opts) env opts (fun _ => False) (Good P opts)
      fun s => Good P opts s ∧ s.ge.dropped = [] :=
    { tick := fun s h => ⟨h.1.tick, h.2⟩
      tick_in := fun s h => h.tick
      replaced := fun b s h => ⟨⟨h.1.world, h.1.mirrors, h.1.last, h.1.given⟩, h.2⟩
      enter := fun s h => h.1
      scanned := fun s h => ⟨h.scanned, scan_dropped _ _⟩
      closed := fun s h hnext => ⟨h, gaps_eq_nil hnext⟩
      body := fun g p s h hgap => (closeGapsBody_spec htruth hplaced hwiden h hgap p).mono
        fun _ s' hs' => hs'.1
      defrag := fun s h => (defrag_spec (K := fun _ => True) htruth hplaced (fun _ _ h => h)
        (fun _ _ _ _ _ _ _ h => h) h.1 h.2 trivial).mono fun _ _ h => h.1.1 }
  exact hinv.meets fuel ⟨hg, hd⟩

section WholeRuns

variable {v : Volume} {disk : List FileId} {disp : FileId → Disposition} {excluded : FileId → Bool}

theorem init_good (opts : Options) (excluded : FileId → Bool) (hw : ClosedWorld env v disk disp)
    (hbounded : ∀ f, (lcns (v.map f)).length < 2 ^ 62)
    (hwhole : P ∨ ∀ f, NoHoles (v.map f) ∧ (lcns (v.map f)).length < maxChunk) :
    Good P opts (Operation.init v disk disp excluded)
      ∧ (Operation.init v disk disp excluded).ge.dropped = [] := by
  obtain ⟨hstocked, hnodup, -, haccurate⟩ := scan_accurate excluded hw
  refine ⟨⟨⟨hw.sound, hbounded, hwhole, haccurate, hstocked, hnodup⟩, mirrors_scan _ _,
    by simp [Operation.init], fun r hr => ?_⟩, scan_dropped _ _⟩
  simp only [Operation.init, scan_dropped] at hr
  simp at hr

/-- Files without holes that fit one request, whatever the answers to the requests. -/
theorem run_solid (excluded : FileId → Bool) (hw : ClosedWorld env v disk disp)
    (hsolid : ∀ f, NoHoles (v.map f)) (hsmall : ∀ f, (lcns (v.map f)).length < maxChunk)
    (hwiden : opts.widen = false) (fuel : ℕ) :
    Meets (fun _ _ => True) (Watched False opts) (run env opts fuel)
      (Operation.init v disk disp excluded)
      (keeps (fun s' => Good False opts s' ∧ s'.ge.dropped = []) fun _ => False) := by
  have hbounded : ∀ f, (lcns (v.map f)).length < 2 ^ 62 := fun f =>
    (hsmall f).trans (by unfold maxChunk; omega)
  obtain ⟨hg, hd⟩ := init_good opts excluded hw hbounded (Or.inr fun f => ⟨hsolid f, hsmall f⟩)
  exact run_spec hw.truthful (fun h => h.elim) hwiden hg hd fuel

/-- The target of every request is free and lies in one gap of the model; whenever `move_file`
returns, the model is what a scan would build less what was dropped since the last one; and the run
never halts, be it at the breakpoint of `pop` or elsewhere. -/
theorem gap_model_agrees_with_rescan (hw : ClosedWorld env v disk disp)
    (hsolid : ∀ f, NoHoles (v.map f)) (hsmall : ∀ f, (lcns (v.map f)).length < maxChunk)
    (hwiden : opts.widen = false) (fuel : ℕ) :
    (∀ caller d s,
      (Mark.request caller d, s) ∈ (run env opts fuel (.init v disk disp excluded)).seen →
      (∃ r ∈ s.ge.gaps, r.start ≤ d.targetLcn ∧ d.targetLcn + d.numVcns ≤ r.start + r.length)
        ∧ ∀ c, d.targetLcn ≤ c → c < d.targetLcn + d.numVcns → s.vol.Free c)
    ∧ (∀ f s, (Mark.moveReturned f, s) ∈ (run env opts fuel (.init v disk disp excluded)).seen →
      s.ge.gaps = (s.ge.scan s.vol.winxGetFreeVolumeRegions).gaps.filter
        fun r => r ∉ s.ge.dropped.map Region.run)
    ∧ ∀ why s, (run env opts fuel (.init v disk disp excluded)).out ≠ .halted why s := by
  obtain ⟨hseen, hend⟩ := run_solid excluded hw hsolid hsmall hwiden fuel fun _ _ => trivial
  refine ⟨fun caller d s hm => hseen _ hm, fun f s hm => ?_, fun why s hout => ?_⟩
  · rw [scan_gaps]
    exact Mirrors.gaps_eq_filter (hseen _ hm)
  · rw [hout] at hend
    exact hend

/-- One file in one piece behind a gap of two clusters, another in two pieces behind that. -/
def twoFileVolume : Volume :=
  .laid 8 [0] [[⟨some 3, 2⟩], [⟨some 5, 1⟩, ⟨some 7, 1⟩]]

theorem twoFileVolume_closedWorld (status : NtStatus) :
    ClosedWorld (.answering status) twoFileVolume [0, 1] twoFileVolume.dumps :=
  laid_closedWorld (by decide) (by decide) (by decide) (by decide) (Env.answering_truthful status)

theorem twoFileVolume_solid : ∀ f, NoHoles (twoFileVolume.map f) :=
  Volume.laid_forall (by decide) (by decide)

theorem twoFileVolume_small : ∀ f, (lcns (twoFileVolume.map f)).length < maxChunk :=
  Volume.laid_forall (p := fun m => (lcns m).length < maxChunk) (by decide) (by decide)

theorem gap_model_agrees_with_rescan_two_files :
    (∃ m ∈ (run (.answering 0) defragAndGaps 8
        (.init twoFileVolume [0, 1] twoFileVolume.dumps fun _ => false)).seen,
      m.1 = .moveReturned 1)
    ∧ ∀ why s, (run (.answering 0) defragAndGaps 8
      (.init twoFileVolume [0, 1] twoFileVolume.dumps fun _ => false)).out ≠ .halted why s :=
  ⟨by decide +kernel, (gap_model_agrees_with_rescan (twoFileVolume_closedWorld 0)
    twoFileVolume_solid twoFileVolume_small rfl 8).2.2⟩

/-- When `close_gaps` returns for want of gaps, no file behind a free run that it was to close fits
into it. The size of the volume in bytes is a 64-bit number, and a cluster has 512 at least. -/
theorem finished_pass_leaves_no_fit (hw : ClosedWorld env v disk disp)
    (hsize : v.total * 512 < 2 ^ 64) (hwiden : opts.widen = false) (fuel : ℕ)
    (hplaced : ∀ m ∈ (run env opts fuel (.init v disk disp excluded)).seen, Placed m.1 m.2) :
    ∀ s, (Mark.gapsClosed, s) ∈ (run env opts fuel (.init v disk disp excluded)).seen →
      ∀ r, Runs.Maximal {c | s.vol.Free c} r → (opts.aggressive = true ∨ r.length ≤ opts.maxSize) →
        ∀ e ∈ s.fe.buckets, ¬ ((∀ b ∈ (s.fe.disp e.2).blockmap, r.start + r.length ≤ b.lcn)
          ∧ (s.fe.disp e.2).clusters ≤ r.length) := by
  have hbounded : ∀ f, (lcns (v.map f)).length < 2 ^ 62 := fun f => by
    have := hw.sound.length_le f
    omega
  obtain ⟨hg, hd⟩ := init_good (P := True) opts excluded hw hbounded (Or.inl trivial)
  have hrun := run_spec (A := Placed) hw.truthful (fun _ _ _ h => h) hwiden hg hd fuel hplaced
  rintro s hs r hr hfits e he ⟨hbehind, hle⟩
  obtain ⟨hgood, hnone⟩ : Good True opts s ∧ s.ge.gaps = [] := hrun.1 _ hs
  -- with no gap left, the free runs are the dropped ones
  have hdropped : r ∈ s.ge.dropped.map Region.run := by
    have hcover : cover (s.vol.winxGetFreeVolumeRegions.map Region.run) = {c | s.vol.Free c} := by
      ext c
      exact s.vol.mem_cover_freeRegions c
    have hmem := (s.vol.freeRegions_spaced.runsOf.mem r).2 (hcover ▸ hr)
    rwa [hgood.mirrors.gaps_eq, hnone, List.append_nil] at hmem
  obtain ⟨d, hd, rfl⟩ := List.mem_map.1 hdropped
  have hlt := hgood.given d hd hfits e he fun c hc => by
    obtain ⟨run, hrun, hcb⟩ := (hgood.world.accurate e.2).mem_cover.2 hc
    obtain ⟨b, hb, rfl⟩ := List.mem_map.1 hrun
    have := hbehind b hb
    simp only [Run.mem_iff, Block.run, Region.run] at hcb this
    omega
  have hkey := hgood.world.stocked.key e he
  simp only [Region.run] at hle
  omega

theorem finished_pass_leaves_no_fit_two_files :
    (∃ m ∈ (run (.answering 0) defragAndGaps 8
        (.init twoFileVolume [0, 1] twoFileVolume.dumps fun _ => false)).seen,
      m.1 = .gapsClosed ∧ m.2.fe.buckets ≠ [])
    ∧ ∀ s, (Mark.gapsClosed, s) ∈ (run (.answering 0) defragAndGaps 8
        (.init twoFileVolume [0, 1] twoFileVolume.dumps fun _ => false)).seen →
      ∀ r, Runs.Maximal {c | s.vol.Free c} r → r.length ≤ 10 →
        ∀ e ∈ s.fe.buckets, ¬ ((∀ b ∈ (s.fe.disp e.2).blockmap, r.start + r.length ≤ b.lcn)
          ∧ (s.fe.disp e.2).clusters ≤ r.length) :=
  ⟨by decide +kernel, fun s hs r hr hle =>
    finished_pass_leaves_no_fit (twoFileVolume_closedWorld 0) (by decide) rfl 8 (by decide +kernel)
      s hs r hr (Or.inr hle)⟩

end WholeRuns

end StopGap
