import StopGap.Lib.Rank
import StopGap.Proofs.ClosedWorld

/-!
# Termination of `run`

A pass of `defrag` makes fragmented files whole, a pass of `close_gaps` fills free clusters with
ones from behind, and a refused move takes a file out of stock. Lexicographically, the files in
stock, the fragmented ones among them and the free clusters, read as a binary number from the front
of the volume on, fall with every one of these; in between, gaps are dropped and the flag is set.
-/

namespace StopGap

open Exec Exec.Prog Runs FileEnumeration

variable {P : Prop} {A : Mark → Operation → Prop} {env : Env} {opts : Options}
  {s s' s₂ : Operation} {f : FileId} {files : List FileId} {r : Region} {p p' : Bool} {F : ℕ}

def Operation.inPieces (s : Operation) : ℕ :=
  s.fe.buckets.countP fun e => decide (1 < (s.fe.disp e.2).fragments)

/-- What is left to do on a volume with at most `F` files in stock. -/
def work (F : ℕ) (s : Operation) : ℕ :=
  (s.fe.buckets.length * (F + 1) + s.inPieces) * 2 ^ s.vol.total
    + Rank.code s.vol.used s.vol.total

/-- There is less left to do. -/
structure Closer (F : ℕ) (s s' : Operation) : Prop where
  total : s'.vol.total = s.vol.total
  stock : s'.fe.buckets.length ≤ s.fe.buckets.length
  work_lt : work F s' < work F s

/-- There is not more left to do, and less if something was moved. -/
structure Nearer (F : ℕ) (s s' : Operation) : Prop where
  total : s'.vol.total = s.vol.total
  stock : s'.fe.buckets.length ≤ s.fe.buckets.length
  work_le : work F s' ≤ work F s
  replaced : s'.replaced = s.replaced ∨ work F s' < work F s

theorem Closer.nearer (h : Closer F s s') : Nearer F s s' :=
  ⟨h.total, h.stock, h.work_lt.le, Or.inr h.work_lt⟩

theorem Closer.trans (h : Closer F s s') (h' : Closer F s' s₂) : Closer F s s₂ :=
  ⟨h'.total.trans h.total, h'.stock.trans h.stock, h'.work_lt.trans h.work_lt⟩

theorem Nearer.refl (s : Operation) : Nearer F s s := ⟨rfl, le_rfl, le_rfl, Or.inl rfl⟩

theorem Nearer.trans (h : Nearer F s s') (h' : Nearer F s' s₂) : Nearer F s s₂ := by
  refine ⟨h'.total.trans h.total, h'.stock.trans h.stock, h'.work_le.trans h.work_le, ?_⟩
  rcases h.replaced with h1 | h1
  · rcases h'.replaced with h2 | h2
    · exact Or.inl (h2.trans h1)
    · exact Or.inr (h2.trans_le h.work_le)
  · exact Or.inr (h'.work_le.trans_lt h1)

theorem Refused.closer {t : ℕ} (h : Refused P env s f t s') (hv : ¬ Vanished env s f t)
    (hF : s.fe.buckets.length ≤ F) : Closer F s s' := by
  have hlen := (h.lost hv).length_eq
  rw [List.length_cons] at hlen
  have hpieces : s'.inPieces ≤ s'.fe.buckets.length := List.countP_le_length
  refine ⟨by rw [h.vol], by omega, ?_⟩
  unfold work
  rw [h.vol]
  exact Rank.lex_lt (Rank.lex_lt (by omega) (by omega)) (Rank.code_lt_two_pow _ _)

theorem Filled.closer (h : Filled P opts r s s') (hm : Mirrors s.vol s.ge)
    (hr : r.run ∈ s.ge.gaps) : Closer F s s' := by
  have hfree : ∀ c, r.lcn ≤ c → c < r.lcn + r.length → s.vol.Free c :=
    fun c h1 h2 => hm.free ⟨r.run, hr, h1, h2⟩
  obtain ⟨htotal, hsame, hbuckets, hfrag⟩ := h.since
  have hpieces : s'.inPieces ≤ s.inPieces := by
    unfold Operation.inPieces
    rw [hbuckets.countP_eq]
    exact List.countP_mono_left fun e _ he => decide_eq_true (hfrag e.2 (of_decide_eq_true he))
  -- the first cluster of the gap that is in use now
  have hex : ∃ c, r.lcn ≤ c ∧ c < r.lcn + r.length ∧ s'.vol.used c = true := h.inside
  obtain ⟨h1, h2, hused⟩ := Nat.find_spec hex
  have hbelow : ∀ c < Nat.find hex, s'.vol.used c = s.vol.used c := fun c hc => by
    by_cases hlow : c < r.lcn
    · exact hsame c hlow
    · have hnot := Nat.find_min hex hc
      have hc' : c < r.lcn + r.length := by omega
      rw [(hfree c (by omega) hc').2, ← Bool.not_eq_true]
      exact fun hu => hnot ⟨by omega, hc', hu⟩
  have hcode := Rank.code_lt_code hbelow (hfree _ h1 h2).2 hused (hfree _ h1 h2).1
  refine ⟨htotal, hbuckets.length_eq.le, ?_⟩
  unfold work
  rw [htotal, hbuckets.length_eq]
  exact Rank.lex_lt_of_le (by omega) hcode

theorem Relocated.closer {t : ℕ} (h : Relocated P s s' f t) (hw : World P s.vol s.fe)
    (hf : s.fe.Present f) (hfrag : 1 < (s.fe.disp f).fragments) : Closer F s s' := by
  have hwhole := (h.world.accurate f).whole t _ h.lcns_eq
  have hpop := pop_buckets_perm hf
  have hrest : ((s.fe.pop f).buckets.countP fun e => decide (1 < (s'.fe.disp e.2).fragments))
      = (s.fe.pop f).buckets.countP fun e => decide (1 < (s.fe.disp e.2).fragments) :=
    List.countP_congr fun e he => by rw [h.others e.2 (hw.gone _ e he)]
  have hpieces : s'.inPieces < s.inPieces := by
    unfold Operation.inPieces
    rw [(h.buckets.trans hpop).countP_eq, List.countP_cons_of_neg (by simpa using hwhole), hrest,
      hpop.countP_eq, List.countP_cons_of_pos (by simpa using hfrag)]
    exact Nat.lt_succ_self _
  refine ⟨h.moved.total, h.buckets.length_eq.le, ?_⟩
  unfold work
  rw [h.moved.total, h.buckets.length_eq]
  exact Rank.lex_lt (by omega) (Rank.code_lt_two_pow _ _)

/-- Where `close_gaps` stands. -/
def rank (F : ℕ) (s : Operation) (partialOK : Bool) : ℕ :=
  (work F s * (s.vol.total + 1) + s.ge.gaps.length) * 2 + if partialOK then 0 else 1

theorem Good.gaps_length_le (h : Good P opts s) : s.ge.gaps.length ≤ s.vol.total := by
  have hspaced := h.mirrors.tidy.spaced
  have hend : ∀ r ∈ s.ge.gaps, r.start + r.length ≤ s.vol.total := fun r hr => by
    have hpos := hspaced.pos r hr
    have hlast : r.start + r.length - 1 ∈ cover s.ge.gaps := ⟨r, hr, by omega, by omega⟩
    have := (h.mirrors.free hlast).1
    omega
  simpa using (hspaced.weaken (Nat.zero_le 1)).length_le (fun _ _ => Nat.zero_le _) hend

theorem Closer.rank_lt (h : Closer F s s') (hg : Good P opts s') :
    rank F s' p' < rank F s p := by
  have hlen := hg.gaps_length_le
  have htotal := h.total
  have := Rank.lex_lt (b := s.ge.gaps.length) h.work_lt
    (show s'.ge.gaps.length < s.vol.total + 1 by omega)
  unfold rank
  rw [htotal]
  split_ifs <;> omega

/-- One gap less comes next, whatever becomes of the flag. -/
theorem rank_lt_of_gap {g : Run} (hvol : s'.vol = s.vol) (hfe : s'.fe = s.fe)
    (hgaps : s.ge.gaps = g :: s'.ge.gaps) : rank F s' p' < rank F s p := by
  have hwork : work F s' = work F s := by
    unfold work Operation.inPieces
    rw [hvol, hfe]
  unfold rank
  rw [hwork, hvol, hgaps, List.length_cons]
  split_ifs <;> omega

/-- More than any rank while there are at most `n` to do. -/
def rankBound (n total : ℕ) : ℕ := (n + 1) * (total + 1) * 2

theorem rank_lt_rankBound {n : ℕ} (hg : Good P opts s) (hn : work F s ≤ n) :
    rank F s p < rankBound n s.vol.total := by
  have hlen := hg.gaps_length_le
  have := Nat.mul_le_mul_right (s.vol.total + 1) hn
  unfold rank rankBound
  rw [Nat.add_mul n, Nat.one_mul]
  split_ifs <;> omega

section Ends

variable (hgoing : ∀ k, env.terminated k = false)
  (hfound : ∀ k v d, env.status k v d ≠ statusAlreadyCommitted)

include hfound

theorem not_vanished {t : ℕ} : ¬ Vanished env s f t := fun h => hfound _ _ _ h.2

theorem Repair.nearer (h : Repair P env f s s') (hg : Good P opts s)
    (hl : Listed (f :: files) s) (hF : s.fe.buckets.length ≤ F) : Nearer F s s' := by
  obtain ⟨hmem, hfrag⟩ := hl.mem f (by simp)
  rcases h with - | ⟨-, hm⟩ | hr
  · exact .refl s
  · exact (hm.closer hg.world (hg.world.stocked.present hmem) hfrag).nearer
  · obtain ⟨htotal, hstock, hlt⟩ := hr.closer (not_vanished hfound) hF
    exact Closer.nearer ⟨htotal, hstock, hlt⟩

theorem defrag_ends (htruth : env.Truthful) (hg : Good False opts s) (hd : s.ge.dropped = [])
    (hF : s.fe.buckets.length ≤ F) :
    Meets A (Watched False opts) (defrag env) s
      (ends (fun s' => (Good False opts s' ∧ s'.ge.dropped = []) ∧ Nearer F s s')
        fun _ => False) :=
  defrag_spec htruth (fun h => h.elim)
    (fun _ _ h => ⟨h.total, h.stock, h.work_le, h.replaced⟩)
    (fun _ _ _ _ hg hl hrep h => h.trans (hrep.nearer hfound hg hl (h.stock.trans hF)))
    hg hd (.refl s)

include hgoing

theorem SetMoved.closer {moved : Bool} (h : SetMoved P env opts r files s moved s')
    (hg : Good P opts s) (hr : r.run ∈ s.ge.gaps) (hF : s.fe.buckets.length ≤ F) :
    Closer F s s' := by
  have hv : ∀ {s f t}, ¬ Vanished env s f t := not_vanished hfound
  rcases h with hterm | ⟨-, hfill⟩ | ⟨-, -, href⟩ | ⟨-, hfill, href⟩
  · exact absurd (hterm.symm.trans (hgoing _)) (by decide)
  · exact hfill.closer hg.mirrors hr
  · obtain ⟨htotal, hstock, hlt⟩ := href.closer hv hF
    exact ⟨htotal, hstock, hlt⟩
  · have hfirst : Closer F s _ := hfill.closer hg.mirrors hr
    exact hfirst.trans (href.closer hv (hfirst.stock.trans hF))

theorem Iteration.nearer (h : Iteration P env opts r s p p' s') (hg : Good P opts s)
    (hg' : Good P opts s') (hr : r.run ∈ s.ge.gaps) (hF : s.fe.buckets.length ≤ F) :
    Nearer F s s' ∧ rank F s' p' < rank F s p := by
  rcases h with ⟨-, hdrop, -⟩ | - | @⟨_, moved, _, s₂, -, hset⟩
  · exact ⟨⟨rfl, le_rfl, le_rfl, Or.inl rfl⟩, rank_lt_of_gap rfl rfl hdrop⟩
  · exact ⟨.refl s, by simp [rank]⟩
  · obtain ⟨htotal, hstock, hlt⟩ := hset.closer hgoing hfound hg hr hF
    have hcloser : Closer F s (if moved then s₂ else s₂.scanned) := by
      rcases moved
      · exact ⟨htotal, hstock, hlt⟩
      · exact ⟨htotal, hstock, hlt⟩
    exact ⟨hcloser.nearer, hcloser.rank_lt hg'⟩

theorem closeGaps_ends (htruth : env.Truthful) (hwiden : opts.widen = false) :
    ∀ (fuel : ℕ) (p : Bool) (s : Operation), Good False opts s →
      s.fe.buckets.length ≤ F → rank F s p < fuel →
      Meets A (Watched False opts) (closeGaps env opts fuel p) s
        (ends (fun s' => Good False opts s' ∧ Nearer F s s') fun _ => False)
  | 0, _, _, _, _, h => absurd h (Nat.not_lt_zero _)
  | fuel + 1, p, s, hg, hF, hrank => by
    refine Meets.get_bind ?_
    rcases hgap : s.nextGap with _ | g
    · exact Meets.mark fun _ => ⟨⟨hg, gaps_eq_nil hgap⟩, hg, .refl s⟩
    · refine terminated_bind (Meets.ite (fun hterm => ?_) fun _ => ?_)
      · exact absurd (hterm.symm.trans (hgoing _)) (by decide)
      obtain ⟨-, rest, hgaps⟩ := nextGap_some hgap
      have hmem : (s.ge.node g.node).run ∈ s.ge.gaps := by simp [hgaps]
      refine Meets.bind (closeGapsBody_spec htruth (fun h => h.elim) hwiden hg.tick hgap p)
        fun p' s' hs' => ?_
      obtain ⟨hnear, hlt⟩ := hs'.2.nearer hgoing hfound hg.tick hs'.1 hmem hF
      have hnear : Nearer F s s' := ⟨hnear.total, hnear.stock, hnear.work_le, hnear.replaced⟩
      have hlt : rank F s' p' < rank F s p := hlt
      exact (closeGaps_ends htruth hwiden fuel p' s' hs'.1 (hnear.stock.trans hF)
        (by omega)).mono fun _ s₂ hs₂ => ⟨hs₂.1, hnear.trans hs₂.2⟩

/-- What is left after an iteration of `run`, which goes on only if something was moved. -/
theorem runBody_ends (htruth : env.Truthful) (hwiden : opts.widen = false) {fuel : ℕ}
    (hg : Good False opts s) (hd : s.ge.dropped = []) (hF : s.fe.buckets.length ≤ F)
    (hfuel : rankBound (work F s) s.vol.total ≤ fuel) :
    Meets A (Watched False opts) (runBody env opts fuel) s
      (ends (fun s' => (Good False opts s' ∧ s'.ge.dropped = [])
        ∧ s'.vol.total = s.vol.total ∧ s'.fe.buckets.length ≤ s.fe.buckets.length
        ∧ work F s' ≤ work F s ∧ (s'.replaced = true → work F s' < work F s))
        fun _ => False) := by
  -- the second half, after a scan
  have hgaps : ∀ s₁, Good False opts s₁ → s₁.ge.dropped = [] → Nearer F s s₁ →
      Meets A (Watched False opts) (do
        modify fun s : Operation => { s with replaced := false }
        if opts.gaps then
          closeGaps env opts fuel false
          geScan : M Unit) s₁
        (ends (fun s' => (Good False opts s' ∧ s'.ge.dropped = [])
          ∧ s'.vol.total = s.vol.total ∧ s'.fe.buckets.length ≤ s.fe.buckets.length
          ∧ work F s' ≤ work F s ∧ (s'.replaced = true → work F s' < work F s))
          fun _ => False) := by
    intro s₁ hg₁ hd₁ hn
    have hg₁' : Good False opts { s₁ with replaced := false } :=
      ⟨hg₁.world, hg₁.mirrors, hg₁.last, hg₁.given⟩
    refine Meets.modify_bind (Meets.ite (fun _ => ?_) fun _ => ?_)
    · have hrank : rank F { s₁ with replaced := false } false < fuel := by
        have := rank_lt_rankBound (p := false) hg₁' hn.work_le
        rw [hn.total] at this
        omega
      refine Meets.bind (closeGaps_ends hgoing hfound htruth hwiden fuel false _ hg₁'
        (hn.stock.trans hF) hrank) fun _ s₂ hs₂ => Meets.modify ⟨⟨hs₂.1.scanned, scan_dropped _ _⟩,
          hs₂.2.total.trans hn.total, hs₂.2.stock.trans hn.stock, hs₂.2.work_le.trans hn.work_le,
          fun hrep => ?_⟩
      rcases hs₂.2.replaced with h | h
      · exact absurd (h.symm.trans hrep) Bool.false_ne_true
      · exact lt_of_lt_of_le h hn.work_le
    · exact Meets.pure ⟨⟨hg₁', hd₁⟩, hn.total, hn.stock, hn.work_le,
        fun h => absurd h Bool.false_ne_true⟩
  refine Meets.ite (fun _ => ?_) fun _ => hgaps s hg hd (.refl s)
  refine Meets.bind (defrag_ends hfound htruth hg hd hF) fun _ s₁ hs₁ => Meets.modify_bind ?_
  obtain ⟨⟨hg₁, -⟩, htotal, hstock, hle, hrep⟩ := hs₁
  exact hgaps _ hg₁.scanned (scan_dropped _ _) ⟨htotal, hstock, hle, hrep⟩

theorem runLoop_ends (htruth : env.Truthful) (hwiden : opts.widen = false) {gapFuel : ℕ} :
    ∀ (fuel : ℕ) (s : Operation), Good False opts s → s.ge.dropped = [] →
      s.fe.buckets.length ≤ F → rankBound (work F s) s.vol.total ≤ gapFuel → 0 < fuel →
      (s.replaced = true → work F s + 1 < fuel) →
      Meets A (Watched False opts) (runLoop env opts gapFuel fuel) s
        (ends (fun _ => True) fun _ => False)
  | 0, _, _, _, _, _, h, _ => absurd h (Nat.lt_irrefl 0)
  | fuel + 1, s, hg, hd, hF, hgap, _, hfuel => by
    refine terminated_bind (Meets.ite (fun hterm => ?_) fun _ => Meets.get_bind ?_)
    · exact absurd (hterm.symm.trans (hgoing _)) (by decide)
    refine Meets.ite (fun hrep => ?_) fun _ => Meets.pure trivial
    have hlt : work F s + 1 < fuel + 1 := hfuel hrep
    refine Meets.bind (runBody_ends (F := F) hgoing hfound htruth hwiden hg.tick hd hF hgap)
      fun _ s' hs' => ?_
    obtain ⟨⟨hg', hd'⟩, htotal, hstock, hle, hless⟩ := hs'
    have hle : work F s' ≤ work F s := hle
    refine runLoop_ends htruth hwiden fuel s' hg' hd' (hstock.trans hF) ?_ (by omega)
      fun hrep' => ?_
    · refine le_trans ?_ hgap
      unfold rankBound
      rw [htotal]
      exact Nat.mul_le_mul_right _ (Nat.mul_le_mul_right _ (Nat.succ_le_succ hle))
    · have hless : work F s' < work F s := hless hrep'
      omega

end Ends

/-- Without widening, and if no request finds its target in use, `run` ends, for every sound volume
whose files have no holes and fit one request. -/
theorem run_terminates {v : Volume} {disk : List FileId} {disp : FileId → Disposition}
    {excluded : FileId → Bool} (hw : ClosedWorld env v disk disp)
    (hsolid : ∀ f, NoHoles (v.map f)) (hsmall : ∀ f, (lcns (v.map f)).length < maxChunk)
    (hwiden : opts.widen = false) (hgoing : ∀ k, env.terminated k = false)
    (hfound : ∀ k v d, env.status k v d ≠ statusAlreadyCommitted) :
    ∃ n, ∀ fuel, n ≤ fuel → ∃ s', (run env opts fuel (.init v disk disp excluded)).out
      = .ok () s' := by
  have hbounded : ∀ f, (lcns (v.map f)).length < 2 ^ 62 := fun f =>
    (hsmall f).trans (by unfold maxChunk; omega)
  obtain ⟨hg, hd⟩ := init_good (P := False) opts excluded hw hbounded
    (Or.inr fun f => ⟨hsolid f, hsmall f⟩)
  let s : Operation := { Operation.init v disk disp excluded with replaced := true }
  let F := s.fe.buckets.length
  refine ⟨rankBound (work F s) v.total + work F s + 2, fun fuel hfuel => ?_⟩
  have hloop := runLoop_ends (A := fun _ _ => True) (F := F) hgoing hfound hw.truthful hwiden fuel s
    ⟨hg.world, hg.mirrors, hg.last, hg.given⟩ hd le_rfl
    (show rankBound (work F s) v.total ≤ fuel by omega) (by omega) fun _ => by omega
  have hrun : Meets (fun _ _ => True) (Watched False opts) (run env opts fuel)
      (Operation.init v disk disp excluded) (ends (fun _ => True) fun _ => False) :=
    Meets.modify_bind (Meets.bind hloop fun _ s' _ => Meets.modify trivial)
  obtain ⟨_, s', hout, -⟩ := hrun.returns
  exact ⟨s', hout⟩

theorem run_terminates_two_files :
    ∃ n, ∀ fuel, n ≤ fuel → ∃ s', (run (.answering 0) defragAndGaps fuel
      (.init twoFileVolume [0, 1] twoFileVolume.dumps fun _ => false)).out = .ok () s' :=
  run_terminates (twoFileVolume_closedWorld 0) twoFileVolume_solid twoFileVolume_small rfl
    (fun _ => rfl) fun _ _ _ => (by decide : (0 : NtStatus) ≠ statusAlreadyCommitted)

end StopGap
