import StopGap.Proofs.Mirror
import StopGap.Proofs.Stock
import StopGap.Proofs.Steps

/-!
# What the gap model calls free

`move_file` adds the clusters a file lies on to the gap model before it looks at the answer to its
request, and throws without taking them out again. `defrag` and `close_gaps` rescan after that, and
`widen_behind` does not. So whatever else happens, with any files and any options, the model offers
free clusters only, as long as no request of `widen_behind` fails.
-/

namespace StopGap

open Exec Exec.Prog Runs GapEnumeration

/-- The volume is sound, and the enumeration right about its files. -/
structure Sane (s : Operation) : Prop where
  sound : s.vol.Sound
  accurate : ∀ f, Accurate (s.vol.map f) (s.fe.disp f)

structure Safe (s : Operation) : Prop where
  sane : Sane s
  tidy : Tidy 1 s.ge
  free : ∀ c ∈ cover s.ge.gaps, s.vol.Free c

/-- What is seen of the model where an iteration of `defrag` or `close_gaps` begins. -/
def GapsFree : Mark → Operation → Prop
  | .defragIter _, s | .gapsIter _, s =>
    (∀ c ∈ cover s.ge.gaps, s.vol.Free c)
      ∧ s.ge.gaps.Pairwise fun a b => a.start + a.length ≤ b.start
  | _, _ => True

/-- If this is the answer to a request of `widen_behind`, the request was granted. -/
def Mark.widenGranted : Mark → Bool
  | .answered .widenBehind _ status => ntSuccess status
  | _ => true

section Model

variable {v : Volume} {ge ge' : GapEnumeration} {bm : List Block}

theorem push_of_no_regions (h : ge.regions = []) (hpos : ∀ b ∈ bm, 0 < b.length)
    (heq : ge.push bm = .ok ge') : bm = [] ∧ ge' = ge := by
  rcases bm with _ | ⟨b, bm⟩
  · exact ⟨rfl, (Except.ok.inj heq).symm⟩
  · have hb := hpos b (by simp)
    have herror : ∃ why, ge.pushBlock b = .error why := by
      unfold pushBlock
      simp only [if_neg hb.ne', h]
      by_cases hi : ge.info = []
      · exact ⟨.debugBreak, by simp [hi, OrdMap.before, OrdMap.find]⟩
      · exact ⟨.noPredecessor, by simp [hi, OrdMap.before, OrdMap.find]⟩
    obtain ⟨why, hwhy⟩ := herror
    unfold GapEnumeration.push at heq
    rw [List.foldlM_cons, hwhy] at heq
    simp [Bind.bind, Except.bind] at heq

theorem push_covers (h : Tidy 1 ge) (hap : Apart bm) (hpos : ∀ b ∈ bm, 0 < b.length)
    (hdis : ∀ c ∈ cover (bm.map Block.run), c ∉ cover ge.gaps) (heq : ge.push bm = .ok ge') :
    Tidy 1 ge' ∧ ∀ c, c ∈ cover ge'.gaps ↔ c ∈ cover ge.gaps ∨ c ∈ cover (bm.map Block.run) := by
  by_cases hne : ge.regions = []
  · obtain ⟨rfl, rfl⟩ := push_of_no_regions hne hpos heq
    exact ⟨h, fun c => by simp⟩
  · obtain ⟨ge₁, heq₁, hp⟩ := push_spec h le_rfl hne hap hdis
    obtain rfl := Except.ok.inj (heq₁.symm.trans heq)
    exact ⟨hp.tidy, hp.covers⟩

/-- `pop` of a run takes nothing else that is free out of the model, and leaves nothing in it that
is neither free nor in `rest`. -/
theorem pop_free (rest : Set ℕ) {lcn length : ℕ} (h : Tidy 1 ge)
    (hfree : ∀ c ∈ cover ge.gaps, v.Free c ∨ c ∈ (⟨lcn, length⟩ : Run) ∨ c ∈ rest)
    (heq : ge.pop v.winxGetFreeVolumeRegions lcn length = .ok ge') :
    Tidy 1 ge' ∧ (∀ c ∈ cover ge'.gaps, v.Free c ∨ c ∈ rest)
      ∧ ∀ c ∈ cover ge.gaps, v.Free c → c ∉ (⟨lcn, length⟩ : Run) → c ∈ cover ge'.gaps := by
  rcases pop_cases h v.winxGetFreeVolumeRegions lcn length with
    ⟨-, heq'⟩ | ⟨-, -, -, -, heq'⟩ | ⟨-, -, -, -, ge₁, heq', hp⟩ <;> rw [heq'] at heq
  · obtain rfl := Except.ok.inj heq
    exact ⟨scan_tidy v ge, fun c hc => Or.inl ((mem_cover_scan v ge c).1 hc),
      fun c _ hc _ => (mem_cover_scan v ge c).2 hc⟩
  · simp at heq
  · obtain rfl := Except.ok.inj heq
    refine ⟨hp.tidy, fun c hc => ?_, fun c hc _ hnot => (hp.covers c).2 ⟨hc, hnot⟩⟩
    obtain ⟨hc, hnot⟩ := (hp.covers c).1 hc
    rcases hfree c hc with h1 | h1 | h1
    · exact Or.inl h1
    · exact absurd h1 hnot
    · exact Or.inr h1

theorem popBlocks_free : ∀ {bm : List Block} {ge ge' : GapEnumeration}, Tidy 1 ge →
    (∀ c ∈ cover ge.gaps, v.Free c ∨ c ∈ cover (bm.map Block.run)) →
    ge.popBlocks v.winxGetFreeVolumeRegions bm = .ok ge' →
    Tidy 1 ge' ∧ (∀ c ∈ cover ge'.gaps, v.Free c)
      ∧ ∀ c ∈ cover ge.gaps, v.Free c → c ∉ cover (bm.map Block.run) → c ∈ cover ge'.gaps
  | [], ge, ge', h, hfree, heq => by
    obtain rfl := Except.ok.inj heq
    exact ⟨h, fun c hc => by simpa using hfree c hc, fun c hc _ _ => hc⟩
  | b :: bm, ge, ge', h, hfree, heq => by
    unfold GapEnumeration.popBlocks at heq
    rw [List.foldlM_cons] at heq
    rcases hb : ge.pop v.winxGetFreeVolumeRegions b.lcn b.length with e | ge₁ <;> rw [hb] at heq
    · simp [Bind.bind, Except.bind] at heq
    · obtain ⟨h₁, hfree₁, hkeep₁⟩ := pop_free (cover (bm.map Block.run)) h
        (fun c hc => by simpa [Block.run] using hfree c hc) hb
      obtain ⟨h₂, hfree₂, hkeep₂⟩ := popBlocks_free h₁ hfree₁ heq
      refine ⟨h₂, hfree₂, fun c hc hf hnot => ?_⟩
      rw [List.map_cons, mem_cover_cons, not_or] at hnot
      exact hkeep₂ c (hkeep₁ c hc hf hnot.1) hf hnot.2

theorem popRegion_free (rest : Set ℕ) {n : ℕ} (h : Tidy 1 ge)
    (hfree : ∀ c ∈ cover ge.gaps, v.Free c ∨ c ∈ rest)
    (heq : ge.popRegion v.winxGetFreeVolumeRegions n = .ok ge') :
    Tidy 1 ge' ∧ ∀ c ∈ cover ge'.gaps, v.Free c ∨ c ∈ rest := by
  rcases hpop : ge.pop v.winxGetFreeVolumeRegions (ge.node n).lcn (ge.node n).length with e | ge₁
  · unfold GapEnumeration.popRegion at heq
    simp [hpop, Except.map] at heq
  obtain ⟨h₁, hfree₁, -⟩ := pop_free rest h (fun c hc => (hfree c hc).imp_right Or.inr) hpop
  unfold GapEnumeration.popRegion at heq
  simp only [hpop, Except.map] at heq
  split_ifs at heq
  · obtain rfl := Except.ok.inj heq
    exact ⟨⟨⟨h₁.indexed.views, h₁.indexed.info, h₁.indexed.fresh⟩, h₁.spaced⟩, hfree₁⟩
  · obtain rfl := Except.ok.inj heq
    exact ⟨h₁, hfree₁⟩

theorem popRegion_tidy {n : ℕ} (h : Tidy 1 ge)
    (heq : ge.popRegion v.winxGetFreeVolumeRegions n = .ok ge') : Tidy 1 ge' :=
  (popRegion_free Set.univ h (fun _ _ => Or.inr trivial) heq).1

end Model

variable {A : Mark → Operation → Prop} {env : Env} {opts : Options} {s s' : Operation} {f : FileId}
  {caller : Caller} {g : Region}

theorem Sane.congr (h : Sane s) (hvol : s'.vol = s.vol) (hdisp : s'.fe.disp = s.fe.disp) :
    Sane s' :=
  ⟨hvol ▸ h.sound, fun f => by
    rw [hvol, hdisp]
    exact h.accurate f⟩

theorem Sane.scanned (h : Sane s) : Safe s.scanned :=
  ⟨h.congr rfl rfl, scan_tidy _ _, fun c hc => (mem_cover_scan _ _ c).1 hc⟩

theorem Safe.congr (h : Safe s) (hvol : s'.vol = s.vol) (hge : s'.ge = s.ge)
    (hdisp : s'.fe.disp = s.fe.disp) : Safe s' :=
  ⟨h.sane.congr hvol hdisp, hge ▸ h.tidy, by
    rw [hvol, hge]
    exact h.free⟩

theorem Safe.tick (h : Safe s) : Safe s.tick := h.congr rfl rfl rfl

theorem Safe.pushed {ge₁ : GapEnumeration} (h : Safe s)
    (hpush : s.ge.push (s.fe.disp f).blockmap = .ok ge₁) :
    Tidy 1 ge₁ ∧ ∀ c, c ∈ cover ge₁.gaps ↔ c ∈ cover s.ge.gaps ∨ c ∈ lcns (s.vol.map f) := by
  have hsound := h.sane.sound
  have hacc := h.sane.accurate f
  obtain ⟨htidy, hcover⟩ := push_covers h.tidy (hacc.apart (hsound.nodup f)) hacc.pos
    (fun c hc hcg => hsound.not_free (hacc.mem_cover.1 hc) (h.free c hcg)) hpush
  exact ⟨htidy, fun c => by rw [hcover, hacc.mem_cover]⟩

/-- A granted request: once the old blocks are pushed and the new ones popped, the model is right
again, and has lost nothing that is free. -/
theorem Safe.granted {v' : Volume} {t : ℕ} {B C : List ℕ} {d : Disposition}
    {ge₁ ge₂ : GapEnumeration} (h : Safe s) (hm : Volume.Moved s.vol v' f t B C)
    (hd : Accurate (v'.map f) d) (hpush : s.ge.push (s.fe.disp f).blockmap = .ok ge₁)
    (hpop : ge₁.popBlocks v'.winxGetFreeVolumeRegions d.blockmap = .ok ge₂) :
    Tidy 1 ge₂ ∧ (∀ c ∈ cover ge₂.gaps, v'.Free c)
      ∧ ∀ c ∈ cover ge₁.gaps, v'.Free c → c ∉ lcns (v'.map f) → c ∈ cover ge₂.gaps := by
  obtain ⟨htidy, hcover⟩ := h.pushed hpush
  simp only [← hd.mem_cover]
  refine popBlocks_free htidy (fun c hc => ?_) hpop
  by_cases hnew : c ∈ cover (d.blockmap.map Block.run)
  · exact Or.inr hnew
  -- a cluster the file is no longer on was free before or has become free
  have hnot : c ∉ lcns (v'.map f) := fun hc' => hnew (hd.mem_cover.2 hc')
  rw [hm.after, List.mem_append, not_or, List.mem_range'_1] at hnot
  refine Or.inl ((hm.free h.sane.sound c).2 ⟨?_, hnot.1⟩)
  rcases (hcover c).1 hc with h1 | h1
  · exact Or.inl (h.free c h1)
  · rw [hm.before, List.mem_append] at h1
    exact Or.inr (h1.resolve_right hnot.2)

/-- The volume is sound and the model in order, but it may take used clusters for free. -/
structure Usable (s : Operation) : Prop where
  sane : Sane s
  tidy : Tidy 1 s.ge

theorem Safe.usable (h : Safe s) : Usable s := ⟨h.sane, h.tidy⟩

/-- The marks `move_file` passes. -/
def Mark.ofMove : Mark → Bool
  | .fePop _ | .request _ _ | .answered _ _ _ | .gePush _ | .dumped _ _ | .moveReturned _ => true
  | .defragIter _ | .gapsIter _ | .gapsClosed | .widened _ | .dropWidened _ => false

section Runs

variable {Φ : Mark → Operation → Prop} (htruth : env.Truthful) (hguard : env.Guarded)
  (hquiet : ∀ m s, m.ofMove = true → Φ m s)

include htruth hguard hquiet

/-- An exception leaves `T`: nothing has changed if the file does not open, and the model may be
off if a request fails. -/
theorem moveChunks_safe {T : Operation → Prop} (hshut : ∀ s, Safe s → T s)
    (hrefused : ∀ d status s s', A (.answered caller d status) s → ¬ ntSuccess status = true →
      Usable s' → T s') :
    ∀ (fuel n : ℕ) (g : Region) (s : Operation), Safe s →
      Meets A Φ (moveChunks env caller f fuel n g) s
        ⟨fun _ s' => Safe s', T, fun _ _ => True, fun _ => False⟩
  | 0, _, _, _, h => Meets.pure h
  | fuel + 1, n, g, s, h => by
    rw [moveChunks]
    refine Meets.ite (fun _ => Meets.pure h) fun _ => ?_
    refine openFile_bind (fun _ => ?_) fun _ => hshut _ h.tick
    refine request_bind (fun _ => hquiet _ _ rfl) fun status hst _ hA => ⟨hquiet _ _ rfl, ?_⟩
    set cur := min n maxChunk
    by_cases hok : ntSuccess status = true
    · rw [Operation.answered_of_success hok]
      obtain ⟨C, hm, -⟩ := s.vol.moved_fsctlMoveFile f g.lcn cur
      have hfree : ∀ c, g.lcn ≤ c →
          c < g.lcn + (lcns (s.vol.requested ⟨f, 0, g.lcn, cur⟩)).length → s.vol.Free c := by
        rw [length_lcns]
        exact hguard _ s.vol ⟨f, 0, g.lcn, cur⟩ (hst ▸ hok)
      refine gePush_bind (fun _ => hquiet _ _ rfl) (fun ge₁ hpush => ?_) fun _ _ => trivial
      refine dumpFile_bind (Meets.mark_bind (fun _ => hquiet _ _ rfl) fun _ => ?_)
      rw [if_pos hok]
      have hacc := FileEnumeration.accurate_dump htruth f h.sane.accurate hm.others
      refine gePopFile_bind (fun ge₂ hpop => ?_) fun _ _ => trivial
      have hd := hacc (s.clock + 2) f
      obtain ⟨htidy, hfree', -⟩ := h.granted hm hd hpush hpop
      exact fePush_bind (moveChunks_safe hshut hrefused fuel _ _ _ ⟨⟨hm.sound h.sane.sound hfree,
        FileEnumeration.accurate_push (hacc (s.clock + 2)) f⟩, htidy, hfree'⟩)
    · rw [Operation.answered_of_failure hok] at hA ⊢
      have hacc := FileEnumeration.accurate_dump htruth f h.sane.accurate (fun _ _ => rfl)
        (s.clock + 2)
      refine gePush_bind (fun _ => hquiet _ _ rfl) (fun ge₁ hpush => ?_) fun _ _ => trivial
      have htidy := (h.pushed hpush).1
      refine dumpFile_bind (Meets.mark_bind (fun _ => hquiet _ _ rfl) fun _ => ?_)
      rw [if_neg hok]
      refine Meets.ite (fun _ => fePush_bind (Meets.throw ?_)) fun _ => Meets.throw ?_
      · exact hrefused _ _ _ _ hA hok
          ⟨⟨h.sane.sound, FileEnumeration.accurate_push hacc f⟩, htidy⟩
      · exact hrefused _ _ _ _ hA hok ⟨⟨h.sane.sound, hacc⟩, htidy⟩

theorem moveFile_safe {T : Operation → Prop} (hshut : ∀ s, Safe s → T s)
    (hrefused : ∀ d status s s', A (.answered caller d status) s → ¬ ntSuccess status = true →
      Usable s' → T s') (h : Safe s) :
    Meets A Φ (moveFile env caller f g) s
      ⟨fun _ s' => Safe s', T, fun _ _ => True, fun _ => False⟩ := by
  refine fePop_bind (fun _ => hquiet _ _ rfl) fun _ => Meets.get_bind ?_
  refine Meets.bind (moveChunks_safe htruth hguard hquiet hshut hrefused _ _ _ (s.fePopped f)
    (h.congr rfl rfl rfl)) fun _ s' hs' => ?_
  exact Meets.modify_bind (Meets.mark fun _ => ⟨hquiet _ _ rfl, Safe.congr hs' rfl rfl rfl⟩)

theorem moveFile_usable (h : Safe s) : Meets A Φ (moveFile env caller f g) s
    ⟨fun _ s' => Safe s', Usable, fun _ _ => True, fun _ => False⟩ :=
  moveFile_safe htruth hguard hquiet (fun _ hs => hs.usable) (fun _ _ _ _ _ _ hs => hs) h

theorem defragBody_safe (hshown : ∀ s, Safe s → Φ (.defragIter f) s) (h : Safe s) :
    Meets A Φ (defragBody env f) s (ends Safe fun _ => True) := by
  have hstep : DefragStep A Φ env (fun _ => True) f s Safe Usable Safe :=
    { shown := fun _ => hshown s h
      popped := fun _ _ => ⟨fun _ => hquiet _ _ rfl, h.congr rfl rfl rfl⟩
      go := fun _ => h
      idle := fun _ hs => hs
      moved := fun _ _ hs _ => moveFile_usable htruth hguard hquiet hs
      scanned := fun _ hs => hs.sane.scanned }
  exact hstep.meets

theorem defrag_safe (hshown : ∀ f s, Safe s → Φ (.defragIter f) s) (h : Safe s) :
    Meets A Φ (defrag env) s (ends Safe fun _ => True) := by
  refine (defrag_meets (Q := fun _ s => Safe s) (fun _ s h => h.tick)
    (fun f files s h => defragBody_safe htruth hguard hquiet (hshown f) h)
    fun k files _ _ => ?_).mono fun _ s' hs' => ?_
  · exact h.congr rfl rfl rfl
  · obtain ⟨-, hs'⟩ := hs'
    exact hs'

theorem moveSet_safe {files : List FileId} (h : Safe s) :
    Meets A Φ (moveSet env files g) s
      ⟨fun moved s' => if moved then Safe s' else Usable s', fun _ => False, fun _ _ => True,
        fun _ => False⟩ := by
  refine (moveSet_meets (Q := fun _ _ s => Safe s) (T := Usable) (fun _ _ s hs => hs.tick)
    (fun f files r s hs => moveFile_usable htruth hguard hquiet hs) h).mono fun moved s' hs' => ?_
  cases moved with
  | false => exact hs'
  | true =>
    obtain ⟨-, -, hs'⟩ := hs'
    exact hs'

end Runs

theorem Safe.found (h : Safe s) (lcn : ℕ) : Safe { s with fe := (s.fe.findAt lcn).1 } :=
  h.congr rfl rfl (FileEnumeration.findAt_disp s.fe lcn)

theorem Safe.gapsFree (h : Safe s) : (∀ c ∈ cover s.ge.gaps, s.vol.Free c)
    ∧ s.ge.gaps.Pairwise fun a b => a.start + a.length ≤ b.start :=
  ⟨h.free, h.tidy.spaced.apart.imp fun {_ _} hab => by omega⟩

theorem gapsFree_ofMove : ∀ m s, m.ofMove = true → GapsFree m s
  | .fePop _, _, _ | .request _ _, _, _ | .answered _ _ _, _, _ | .gePush _, _, _
  | .dumped _ _, _, _ | .moveReturned _, _, _ => trivial

section Granted

variable (htruth : env.Truthful) (hguard : env.Guarded)
  (hwiden : ∀ m s, A m s → m.widenGranted = true)

include htruth hguard hwiden

theorem widenBehind_safe (h : Safe s) (n : ℕ) :
    Meets A GapsFree (widenBehind env opts g n) s (ends Safe fun _ => True) := by
  have hstep : WidenStep A GapsFree env opts (fun _ => True) (fun _ => Safe) Safe :=
    { tick := fun _ _ hs => hs.tick
      found := fun _ lcn _ hs => hs.found lcn
      shown := fun _ _ _ _ => trivial
      -- no request fails here, so an exception comes from a file that does not open
      moved := fun _ lcn _ _ _ hs _ _ _ => moveFile_safe htruth hguard gapsFree_ofMove
        (fun _ hs => hs) (fun _ _ _ _ hA hno _ => absurd (hwiden _ _ hA) hno) (hs.found lcn) }
  exact hstep.ends g n h

theorem closeGapsBody_safe {g : NodePtr} (h : Safe s) (hg : g.scan = s.ge.scans) (p : Bool) :
    Meets A GapsFree (closeGapsBody env opts g p) s (ends Safe fun _ => True) := by
  have hstep : GapStep A GapsFree env opts (fun _ => True) g p s Usable Safe :=
    { inv := h
      current := hg
      shown := fun _ => h.gapsFree
      dropping := fun _ _ _ => trivial
      dropped := fun s ge hs hge => by
        obtain ⟨htidy, hfree⟩ := popRegion_free ∅ hs.tidy (fun c hc => Or.inl (hs.free c hc)) hge
        exact ⟨hs.sane.congr rfl rfl, htidy, fun c hc => by simpa using hfree c hc⟩
      breaks := trivial
      dangles := trivial
      chosen := fun _ _ => trivial
      moved := fun files _ => moveSet_safe htruth hguard gapsFree_ofMove h
      scanned := fun s hs => hs.sane.scanned
      widened := fun n => widenBehind_safe htruth hguard hwiden h n }
  exact hstep.meets

theorem run_safe (fuel : ℕ) (h : Safe s) :
    Meets A GapsFree (run env opts fuel) s (keeps Safe fun _ => True) := by
  have hinv : RunInvariant A GapsFree env opts (fun _ => True) Safe Safe :=
    { tick := fun s h => h.tick
      tick_in := fun s h => h.tick
      replaced := fun b s h => h.congr rfl rfl rfl
      enter := fun s h => h
      scanned := fun s h => h.sane.scanned
      closed := fun _ _ _ => trivial
      body := fun g p s h hgap => closeGapsBody_safe htruth hguard hwiden h (nextGap_scan hgap) p
      defrag := fun s h =>
        defrag_safe htruth hguard gapsFree_ofMove (fun _ _ hs => hs.gapsFree) h }
  exact hinv.meets fuel h

end Granted

section Failures

variable {v : Volume} {disk : List FileId} {disp : FileId → Disposition} {excluded : FileId → Bool}

theorem init_safe (excluded : FileId → Bool) (hw : ClosedWorld env v disk disp) :
    Safe (Operation.init v disk disp excluded) :=
  ⟨⟨hw.sound, (FileEnumeration.scan_accurate excluded hw).2.2.2⟩, scan_tidy _ _,
    fun c hc => (mem_cover_scan _ _ c).1 hc⟩

/-- As long as no request of `widen_behind` fails, whenever an iteration of `defrag` or `close_gaps`
begins, every cluster of the model is free and no two regions overlap. -/
theorem gaps_free_unless_widening_fails (hw : ClosedWorld env v disk disp) (hguard : env.Guarded)
    (fuel : ℕ)
    (hwiden : ∀ m ∈ (run env opts fuel (.init v disk disp excluded)).seen,
      m.1.widenGranted = true) :
    ∀ m ∈ (run env opts fuel (.init v disk disp excluded)).seen,
      ((∃ f, m.1 = .defragIter f) ∨ ∃ p, m.1 = .gapsIter p) →
      (∀ c ∈ cover m.2.ge.gaps, m.2.vol.Free c)
        ∧ m.2.ge.gaps.Pairwise fun a b => a.start + a.length ≤ b.start := by
  obtain ⟨hseen, -⟩ := run_safe (A := fun m _ => m.widenGranted = true) hw.truthful hguard
    (fun _ _ h => h) fuel (init_safe excluded hw) hwiden
  rintro ⟨m, s⟩ hm (⟨f, rfl⟩ | ⟨p, rfl⟩)
  · exact hseen _ hm
  · exact hseen _ hm

/-- A file right behind a gap of one cluster, and a gap of three for it. -/
def widenedVolume : Volume := .laid 9 [0, 4, 8] [[⟨some 2, 2⟩]]

theorem gaps_free_unless_widening_fails_granted :
    (∃ m ∈ (run .granting gapsWidened 6
        (.init widenedVolume [0] widenedVolume.dumps fun _ => false)).seen,
      ∃ d, m.1 = .answered .widenBehind d 0)
    ∧ ∀ m ∈ (run .granting gapsWidened 6
        (.init widenedVolume [0] widenedVolume.dumps fun _ => false)).seen,
      ((∃ f, m.1 = .defragIter f) ∨ ∃ p, m.1 = .gapsIter p) →
      (∀ c ∈ cover m.2.ge.gaps, m.2.vol.Free c)
        ∧ m.2.ge.gaps.Pairwise fun a b => a.start + a.length ≤ b.start := by
  have hmoved : ∃ m ∈ (run .granting gapsWidened 6
      (.init widenedVolume [0] widenedVolume.dumps fun _ => false)).seen,
      m.1 = .answered .widenBehind ⟨0, 0, 5, 2⟩ 0 := by decide +kernel
  obtain ⟨m, hm, heq⟩ := hmoved
  exact ⟨⟨m, hm, _, heq⟩, gaps_free_unless_widening_fails
    (laid_closedWorld (by decide) (by decide) (by decide) (by decide) Env.granting_truthful)
    Env.granting_guarded 6 (by decide +kernel)⟩

/-- After `STATUS_ACCESS_DENIED` for the file behind the gap, the model takes its clusters for
free. -/
theorem widening_failure_leaves_used_clusters :
    ∃ m ∈ (run (.answering 0xC0000022#32) gapsWidened 2
        (.init widenedVolume [0] widenedVolume.dumps fun _ => false)).seen,
      m.1 = .gapsIter true ∧ ∃ r ∈ m.2.ge.gaps,
        r.start ≤ 2 ∧ 2 < r.start + r.length ∧ m.2.vol.used 2 = true := by decide +kernel

end Failures

end StopGap
