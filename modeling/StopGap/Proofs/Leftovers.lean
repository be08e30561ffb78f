import StopGap.Proofs.ClosedWorld

/-!
# What is left in pieces

A pass of `defrag` takes up every fragmented file and moves it, unless no free run is long enough
for it at that time; `close_gaps` puts no file in pieces. So each file that is still in stock and in
pieces when a run ends came up at a time when no free run would have held it (`Unfit`). A move that
fails takes the file out of stock.
-/

namespace StopGap

open Exec Exec.Prog Runs FileEnumeration

/-- The file of the entry came up in `defrag` when no free run was as long as it, as is seen in
`seen`. -/
def Unfit (seen : List (Mark × Operation)) (e : ℕ × FileId) : Prop :=
  ∃ s, (Mark.defragIter e.2, s) ∈ seen ∧ ∀ r, Runs.Maximal {c | s.vol.Free c} r → r.length < e.1

/-- The fragmented files in stock are among those to come up, or have come up in vain. -/
def Leftover (seen : List (Mark × Operation)) (files : List FileId) (s : Operation) : Prop :=
  ∀ e ∈ s.fe.buckets, 1 < (s.fe.disp e.2).fragments → e.2 ∈ files ∨ Unfit seen e

variable {P : Prop} {A Φ : Mark → Operation → Prop} {env : Env} {opts : Options}
  {s s' : Operation} {f : FileId} {files : List FileId} {seen : List (Mark × Operation)} {t : ℕ}
  {r : Region}

section Loops

variable (hstay : ∀ k, env.terminated k = false)

include hstay

theorem listFragmented_all : ∀ (es : List (ℕ × FileId)) (s : Operation),
    Meets A Φ (listFragmented env es) s
      ⟨fun files s' => (∃ k, s' = { s with clock := k })
        ∧ files = (es.filter fun e => 1 < (s.fe.disp e.2).fragments).map Prod.snd,
        fun _ => False, fun _ _ => False, fun _ => False⟩
  | [], s => Meets.pure ⟨⟨s.clock, rfl⟩, rfl⟩
  | e :: es, s => by
    refine terminated_bind (Meets.ite (fun hstop => ?_) fun _ => ?_)
    · rw [hstay] at hstop
      cases hstop
    · refine Meets.get_bind (Meets.bind (listFragmented_all es s.tick) ?_)
      rintro files s' ⟨⟨k, rfl⟩, rfl⟩
      refine Meets.ite (fun hf => Meets.pure ⟨⟨k, rfl⟩, ?_⟩) fun hf => Meets.pure ⟨⟨k, rfl⟩, ?_⟩
      · have hf : decide (1 < (s.fe.disp e.2).fragments) = true := decide_eq_true hf
        rw [List.filter_cons, if_pos hf]
        rfl
      · have hf : ¬ decide (1 < (s.fe.disp e.2).fragments) = true :=
          fun h => hf (of_decide_eq_true h)
        rw [List.filter_cons, if_neg hf]
        rfl

theorem defragLoop_all {Fatal : Fault → Prop} {Q : List FileId → Operation → Prop}
    (htick : ∀ files s, Q files s → Q files s.tick)
    (hbody : ∀ f files s, Q (f :: files) s →
      Meets A Φ (defragBody env f) s (ends (Q files) Fatal)) :
    ∀ files s, Q files s → Meets A Φ (defragLoop env files) s (ends (Q []) Fatal)
  | [], s, h => Meets.pure h
  | f :: files, s, h => by
    refine terminated_bind (Meets.ite (fun hstop => ?_) fun _ => ?_)
    · rw [hstay] at hstop
      cases hstop
    · exact Meets.bind (hbody f files _ (htick _ _ h)) fun _ s' hs' =>
        defragLoop_all htick hbody files s' hs'

end Loops

/-- What an iteration of `defrag` for `f` comes to: no gap is as long as the file, or it is moved,
or the move fails. -/
inductive Attempt (P : Prop) (env : Env) (f : FileId) (s : Operation) : Operation → Prop
  | unfit : (∀ r ∈ s.ge.gaps, r.length < (s.fe.disp f).clusters) → Attempt P env f s s
  | moved {t : ℕ} {s' : Operation} : Ready s f t → Relocated P s s' f t → Attempt P env f s s'
  | refused {t : ℕ} {s' : Operation} : Refused P env s f t s' → Attempt P env f s s'.scanned

theorem Attempt.repair (h : Attempt P env f s s') : Repair P env f s s' := by
  cases h with
  | unfit => exact .idle
  | moved hr hm => exact .moved hr hm
  | refused hr => exact .refused hr

theorem gaps_lt_of_best_none {clusters : ℕ} {ge : GapEnumeration} (h : ge.Indexed)
    (hbest : ge.best clusters none false = none) : ∀ r ∈ ge.gaps, r.length < clusters := by
  intro r hr
  rcases GapEnumeration.best_search h.views.sorted clusters none false with ⟨-, hlt⟩ |
    ⟨e, -, hsome, -⟩
  · obtain ⟨x, hx, rfl⟩ := GapEnumeration.mem_gapsOf.1 hr
    obtain ⟨e, he, hex⟩ := List.mem_map.1
      (h.views.same.mem_iff.1 (List.mem_map.2 ⟨x, hx, rfl⟩))
    have := hlt e he (GapEnumeration.eligible_iff.2 (by simp))
    rw [h.views.length_eq e he, hex] at this
    exact this
  · rw [hbest] at hsome
    cases hsome

theorem defragBody_attempts (htruth : env.Truthful) (hplaced : P → ∀ m s, A m s → Placed m s)
    (hg : Good P opts s) (hd : s.ge.dropped = []) (hf : Listed (f :: files) s) :
    Meets A (Watched P opts) (defragBody env f) s
      ⟨fun _ s' => A (.defragIter f) s ∧ Attempt P env f s s', fun _ => False,
        fun _ _ => False, fun _ => False⟩ := by
  obtain ⟨hmem, hfrag⟩ := hf.mem f (by simp)
  refine Meets.mark_bind (fun _ => trivial) fun hA => Meets.get_bind ?_
  rw [if_neg (hg.last_ne hfrag)]
  refine Meets.get_bind ?_
  rcases hbest : s.ge.best (s.fe.disp f).clusters none false with _ | n
  · exact Meets.pure ⟨hA, .unfit (gaps_lt_of_best_none hg.mirrors.indexed hbest)⟩
  have hbound := hg.world.bounded f
  rw [← hg.world.clusters_eq f] at hbound
  obtain ⟨hrun, hfits⟩ := GapEnumeration.best_mem hg.mirrors.indexed hbound hbest
  have hready : Ready s f (s.ge.node n).lcn := by
    refine ⟨hmem, by simp [hd], fun c h1 h2 => ⟨_, hrun, ?_⟩⟩
    simp only [Run.mem_iff, Region.run]
    omega
  refine Meets.catching (moveFile_meets hg.world hg.mirrors hready htruth hplaced)
    (fun s' hs' => Meets.modify ⟨hA, .refused hs'⟩) fun _ s' hs' => ⟨hA, .moved hready hs'.1⟩

/-- A free run of the volume is a gap of the model, if none was dropped. -/
theorem Mirrors.mem_gaps {v : Volume} {ge : GapEnumeration} (h : Mirrors v ge)
    (hd : ge.dropped = []) {r : Run} (hr : Runs.Maximal {c | v.Free c} r) : r ∈ ge.gaps := by
  have hcover : cover (v.winxGetFreeVolumeRegions.map Region.run) = {c | v.Free c} := by
    ext c
    exact v.mem_cover_freeRegions c
  have hmem := (v.freeRegions_spaced.runsOf.mem r).2 (hcover ▸ hr)
  rwa [h.gaps_eq, hd] at hmem

/-- A failed move leaves the other files in stock as they are. -/
theorem Refused.of_mem (h : Refused P env s f t s') (hw : World P s.vol s.fe)
    (hno : ¬ Vanished env s f t) {e : ℕ × FileId} (he : e ∈ s'.fe.buckets) :
    e ∈ s.fe.buckets ∧ e.2 ≠ f ∧ s'.fe.disp e.2 = s.fe.disp e.2 := by
  have hperm := h.lost hno
  have hnd : (((s.fe.disp f).clusters, f) :: s'.fe.buckets).map Prod.snd |>.Nodup :=
    (hperm.map Prod.snd).nodup_iff.1 hw.nodup
  have hne : e.2 ≠ f := by
    rintro rfl
    exact (List.nodup_cons.1 hnd).1 (List.mem_map.2 ⟨e, he, rfl⟩)
  exact ⟨hperm.mem_iff.2 (List.mem_cons_of_mem _ he), hne, h.others e.2 hne⟩

namespace Leftover

theorem refused (h : Leftover seen (f :: files) s) (hr : Refused P env s f t s')
    (hw : World P s.vol s.fe) (hno : ¬ Vanished env s f t) : Leftover seen files s' := by
  intro e he hfrag
  obtain ⟨he, hne, hdisp⟩ := hr.of_mem hw hno he
  rw [hdisp] at hfrag
  exact (h e he hfrag).imp_left fun hmem => (List.mem_cons.1 hmem).resolve_left hne

theorem since {s₀ : Operation} (h : Leftover seen files s₀) (hs : Since r s₀ s) :
    Leftover seen files s := fun e he hfrag =>
  h e (hs.buckets.mem_iff.1 he) (hs.fragments e.2 hfrag)

theorem attempt (h : Leftover seen (f :: files) s) (hg : Good P opts s) (hd : s.ge.dropped = [])
    (hseen : (Mark.defragIter f, s) ∈ seen) (hno : ∀ s t, ¬ Vanished env s f t)
    (ha : Attempt P env f s s') : Leftover seen files s' := by
  cases ha with
  | unfit hlt =>
    intro e he hfrag
    rcases h e he hfrag with hmem | hunfit
    · rcases List.mem_cons.1 hmem with rfl | hmem
      · refine .inr ⟨s, hseen, fun r hr => ?_⟩
        rw [hg.world.stocked.key e he]
        exact hlt r (hg.mirrors.mem_gaps hd hr)
      · exact .inl hmem
    · exact .inr hunfit
  | moved hready hmove =>
    intro e he hfrag
    have hne : e.2 ≠ f := by
      rintro rfl
      have := (hmove.world.accurate e.2).whole _ _ hmove.lcns_eq
      omega
    rw [hmove.others e.2 hne] at hfrag
    exact (h e (hmove.buckets.mem_iff.1 he) hfrag).imp_left fun hmem =>
      (List.mem_cons.1 hmem).resolve_left hne
  | @refused t s₁ hr =>
    have hs₁ : Leftover seen files s₁ := h.refused hr hg.world (hno s t)
    exact hs₁

theorem weaken (h : Leftover seen [] s) (files : List FileId) : Leftover seen files s :=
  fun e he hfrag => (h e he hfrag).imp_left fun hmem => by cases hmem

theorem setMoved {moved : Bool} (h : Leftover seen [] s) (hg : Good P opts s)
    (hno : ∀ s f t, ¬ Vanished env s f t) (hm : SetMoved P env opts r files s moved s') :
    Leftover seen [] s' := by
  cases hm with
  | stopped => exact h
  | filled _ hfill => exact h.since hfill.since
  | @refused f _ _ _ _ hr =>
    have htick : Leftover seen [] s.tick := h
    exact (htick.weaken [f]).refused hr hg.world (hno _ _ _)
  | @refusedLater f _ _ _ _ hfill hr =>
    exact ((h.since hfill.since).weaken [f]).refused hr hfill.good.world (hno _ _ _)

theorem iteration {p p' : Bool} (h : Leftover seen [] s) (hg : Good P opts s)
    (hno : ∀ s f t, ¬ Vanished env s f t) (hi : Iteration P env opts r s p p' s') :
    Leftover seen [] s' := by
  cases hi with
  | dropped => exact h
  | flagged => exact h
  | @moved _ moved _ _ _ hm =>
    have hs' := h.setMoved hg hno hm
    cases moved with
    | false => exact hs'
    | true => exact hs'

end Leftover

section Whole

variable (hstay : ∀ k, env.terminated k = false)
  (hno : ∀ k v d, env.status k v d ≠ statusAlreadyCommitted)

include hno in
theorem never_vanished (s : Operation) (f : FileId) (t : ℕ) : ¬ Vanished env s f t :=
  fun h => hno _ _ _ h.2

include hstay hno

theorem defrag_leftovers (htruth : env.Truthful) (hplaced : P → ∀ m s, A m s → Placed m s)
    (hseen : ∀ m s, A m s → (m, s) ∈ seen) (hg : Good P opts s) (hd : s.ge.dropped = []) :
    Meets A (Watched P opts) (defrag env) s
      (ends (fun s' => (Good P opts s' ∧ s'.ge.dropped = []) ∧ Leftover seen [] s')
        fun _ => False) := by
  refine Meets.get_bind (Meets.bind (listFragmented_all hstay _ s) ?_)
  rintro files s' ⟨⟨k, rfl⟩, rfl⟩
  refine (defragLoop_all hstay (Q := fun files s =>
      ((Good P opts s ∧ s.ge.dropped = []) ∧ Listed files s) ∧ Leftover seen files s)
    (fun files s h => ⟨⟨⟨h.1.1.1.tick, h.1.1.2⟩, h.1.2.nodup, h.1.2.mem⟩, h.2⟩)
    (fun f files s h => ?_) _ _ ?_).mono fun _ s' hs' => ⟨hs'.1.1, hs'.2⟩
  · obtain ⟨⟨⟨hg, hd⟩, hl⟩, hleft⟩ := h
    refine (defragBody_attempts htruth hplaced hg hd hl).mono fun _ s' ⟨hA, ha⟩ => ?_
    exact ⟨⟨ha.repair.good hg hd, ha.repair.listed hl⟩,
      hleft.attempt hg hd (hseen _ _ hA) (fun s t => never_vanished hno s f t) ha⟩
  · refine ⟨⟨⟨⟨hg.world, hg.mirrors, hg.last, hg.given⟩, hd⟩, ?_, fun f hf => ?_⟩,
      fun e he hfrag => .inl ?_⟩
    · exact hg.world.nodup.sublist (List.Sublist.map _ List.filter_sublist)
    · obtain ⟨e, he, rfl⟩ := List.mem_map.1 hf
      obtain ⟨he, hfrag⟩ := List.mem_filter.1 he
      exact ⟨⟨e, he, rfl⟩, of_decide_eq_true hfrag⟩
    · exact List.mem_map.2 ⟨e, List.mem_filter.2 ⟨he, decide_eq_true hfrag⟩, rfl⟩

/-- After each pass of `defrag` and the gaps that are closed after it. -/
theorem runBody_leftovers (htruth : env.Truthful) (hplaced : P → ∀ m s, A m s → Placed m s)
    (hseen : ∀ m s, A m s → (m, s) ∈ seen) (hwiden : opts.widen = false)
    (hdefrag : opts.defrag = true) (fuel : ℕ) (hg : Good P opts s) (hd : s.ge.dropped = []) :
    Meets A (Watched P opts) (runBody env opts fuel) s
      (keeps (fun s' => (Good P opts s' ∧ s'.ge.dropped = []) ∧ Leftover seen [] s')
        fun _ => False) := by
  unfold runBody
  refine Meets.ite (fun _ => ?_) fun hnot => absurd hdefrag hnot
  refine Meets.bind (defrag_leftovers hstay hno htruth hplaced hseen hg hd)
    fun _ s₁ ⟨⟨hg₁, _⟩, hleft⟩ => Meets.modify_bind (Meets.modify_bind ?_)
  have hg₁ := hg₁.scanned
  refine Meets.ite (fun _ => ?_) fun _ => Meets.pure
    ⟨⟨⟨hg₁.world, hg₁.mirrors, hg₁.last, hg₁.given⟩, scan_dropped _ _⟩, hleft⟩
  refine Meets.bind (closeGaps_meets (I := fun s => Good P opts s ∧ Leftover seen [] s)
      (fun s h => ⟨h.1.tick, h.2⟩) (fun s h hnext => ⟨h.1, gaps_eq_nil hnext⟩)
      (fun g p s h hgap => ?_) fuel false _
      ⟨⟨hg₁.world, hg₁.mirrors, hg₁.last, hg₁.given⟩, hleft⟩)
    fun _ s' hs' => Meets.modify ⟨⟨hs'.1.scanned, scan_dropped _ _⟩, hs'.2⟩
  exact (closeGapsBody_spec htruth hplaced hwiden h.1 hgap p).mono fun _ s' hs' =>
    ⟨hs'.1, h.2.iteration h.1 (never_vanished hno) hs'.2⟩

theorem run_leftovers (htruth : env.Truthful) (hplaced : P → ∀ m s, A m s → Placed m s)
    (hseen : ∀ m s, A m s → (m, s) ∈ seen) (hwiden : opts.widen = false)
    (hdefrag : opts.defrag = true) (fuel : ℕ) (hg : Good P opts s) (hd : s.ge.dropped = []) :
    Meets A (Watched P opts) (run env opts fuel) s
      (keeps (fun s' => Good P opts s' ∧ Leftover seen [] s') fun _ => False) := by
  -- only the first iteration may begin with files that did not come up yet
  have hloop : ∀ n s, (Good P opts s ∧ s.ge.dropped = [])
      ∧ (s.replaced = true ∨ Leftover seen [] s) →
      Meets A (Watched P opts) (runLoop env opts fuel n) s
        (keeps (fun s' => Good P opts s' ∧ Leftover seen [] s') fun _ => False) := by
    intro n
    induction n with
    | zero => exact fun s _ => Meets.spent trivial
    | succ n ih =>
      rintro s ⟨⟨hg, hd⟩, hleft⟩
      refine terminated_bind (Meets.ite (fun hstop => ?_) fun _ => Meets.get_bind ?_)
      · rw [hstay] at hstop
        cases hstop
      refine Meets.ite (fun _ => ?_) fun hnot => ?_
      · exact Meets.bind (runBody_leftovers hstay hno htruth hplaced hseen hwiden hdefrag fuel
          hg.tick hd) fun _ s' hs' => ih s' ⟨hs'.1, .inr hs'.2⟩
      · exact Meets.pure ⟨hg.tick, hleft.resolve_left hnot⟩
  refine Meets.modify_bind (Meets.bind (hloop fuel _
    ⟨⟨⟨hg.world, hg.mirrors, hg.last, hg.given⟩, hd⟩, .inl rfl⟩) fun _ s' hs' => ?_)
  exact Meets.modify ⟨hs'.1.scanned, hs'.2⟩

end Whole

/-- A file that is in stock and in pieces at the end of a run came up in `defrag` when no free run
of the volume was as long as it. -/
theorem fragmented_at_end_had_no_gap {v : Volume} {disk : List FileId} {disp : FileId → Disposition}
    {excluded : FileId → Bool} (hw : ClosedWorld env v disk disp) (hsize : v.total * 512 < 2 ^ 64)
    (hwiden : opts.widen = false) (hdefrag : opts.defrag = true)
    (hstay : ∀ k, env.terminated k = false)
    (hno : ∀ k v d, env.status k v d ≠ statusAlreadyCommitted) (fuel : ℕ)
    (hplaced : ∀ m ∈ (run env opts fuel (.init v disk disp excluded)).seen, Placed m.1 m.2) :
    ∀ s, (run env opts fuel (.init v disk disp excluded)).out = .ok () s →
      ∀ e ∈ s.fe.buckets, 1 < (s.fe.disp e.2).fragments →
        ∃ s₁, (Mark.defragIter e.2, s₁) ∈ (run env opts fuel (.init v disk disp excluded)).seen
          ∧ ∀ r, Runs.Maximal {c | s₁.vol.Free c} r → r.length < (s.fe.disp e.2).clusters := by
  have hbounded : ∀ f, (lcns (v.map f)).length < 2 ^ 62 := fun f => by
    have := hw.sound.length_le f
    omega
  obtain ⟨hg, hd⟩ := init_good (P := True) opts excluded hw hbounded (Or.inl trivial)
  -- what may be assumed at a mark is that it is one of the run
  have hrun := run_leftovers (P := True)
    (A := fun m s => (m, s) ∈ (run env opts fuel (.init v disk disp excluded)).seen) hstay hno
    hw.truthful (fun _ m s hm => hplaced (m, s) hm) (fun _ _ hm => hm) hwiden hdefrag fuel hg hd
  intro s hs e he hfrag
  have hend := (hrun fun m hm => hm).2
  rw [hs] at hend
  obtain ⟨hgood, hleft⟩ := hend
  obtain ⟨s₁, hs₁, hlt⟩ := (hleft e he hfrag).resolve_left (List.not_mem_nil)
  exact ⟨s₁, hs₁, fun r hr => (hlt r hr).trans_eq (hgood.world.stocked.key e he)⟩

/-- A file in two pieces, and one free cluster. -/
def crampedVolume : Volume := .laid 7 [0, 2, 5] [[⟨some 1, 1⟩, ⟨some 3, 2⟩]]

theorem fragmented_at_end_crampedVolume : ∃ s,
    (run (.answering 0) defragAndGaps 8
      (.init crampedVolume [0] crampedVolume.dumps fun _ => false)).out = .ok () s
    ∧ 1 < (s.fe.disp 0).fragments
    ∧ ∃ s₁, (Mark.defragIter 0, s₁) ∈ (run (.answering 0) defragAndGaps 8
        (.init crampedVolume [0] crampedVolume.dumps fun _ => false)).seen
      ∧ ∀ r, Runs.Maximal {c | s₁.vol.Free c} r → r.length < 3 := by
  have hworld : ClosedWorld (.answering 0) crampedVolume [0] crampedVolume.dumps :=
    laid_closedWorld (by decide) (by decide) (by decide) (by decide) (Env.answering_truthful 0)
  have hno : (0 : NtStatus) ≠ statusAlreadyCommitted := by decide
  have hend := @fragmented_at_end_had_no_gap (.answering 0) defragAndGaps crampedVolume [0]
    crampedVolume.dumps (fun _ => false) hworld (by decide) rfl rfl (fun _ => rfl)
    (fun _ _ _ => hno) 8 (by decide +kernel)
  refine ⟨_, rfl, by decide +kernel, hend _ rfl (3, 0) (by decide +kernel) (by decide +kernel)⟩

end StopGap
