import StopGap.Proofs.Moves

/-!
# An iteration of `close_gaps` in the closed world

Without widening, an iteration drops the gap, flips the flag, moves files from behind the gap into
it, or is refused a move and rescans (`Iteration`). Whatever it does, the gap model mirrors the
volume again, and no file behind a dropped gap fits into it.
-/

namespace StopGap

open Exec Exec.Prog Runs FileEnumeration

variable {P : Prop} {A : Mark → Operation → Prop} {env : Env} {opts : Options}
  {s s' s₀ : Operation} {f : FileId} {files : List FileId} {r : Region} {t : ℕ}

theorem Good.tick (h : Good P opts s) : Good P opts s.tick := ⟨h.world, h.mirrors, h.last, h.given⟩

theorem Relocated.lcns_eq (h : Relocated P s s' f t) :
    lcns (s'.vol.map f) = List.range' t (lcns (s.vol.map f)).length := by
  rw [h.moved.after, List.append_nil]

theorem Relocated.clusters_eq (h : Relocated P s s' f t) (hw : World P s.vol s.fe) (g : FileId) :
    (s'.fe.disp g).clusters = (s.fe.disp g).clusters := by
  rw [h.world.clusters_eq, hw.clusters_eq]
  by_cases hg : g = f
  · rw [hg, h.lcns_eq, List.length_range']
  · rw [h.moved.others g hg]

theorem Relocated.used_iff (h : Relocated P s s' f t) (hw : World P s.vol s.fe) (c : ℕ) :
    s'.vol.used c = true ↔ (t ≤ c ∧ c < t + (s.fe.disp f).clusters)
      ∨ (s.vol.used c = true ∧ c ∉ lcns (s.vol.map f)) := by
  rw [h.moved.used, hw.clusters_eq f]

theorem Relocated.good (h : Relocated P s s' f t) (hg : Good P opts s) (hr : Ready s f t) :
    Good P opts s' where
  world := h.world
  mirrors := h.mirrors
  last := by
    intro g hgl
    rw [h.last] at hgl
    exact ⟨t, _, Option.some.inj hgl ▸ h.lcns_eq⟩
  given := by
    intro d hd hsize e he hbehind
    have hd' : d ∈ s.ge.dropped := by
      rcases h.dropped with hdr | hdr <;> rw [hdr] at hd
      · exact hd
      · simp at hd
    refine hg.given d hd' hsize e (h.buckets.mem_iff.1 he) fun c hc => ?_
    by_cases hef : e.2 = f
    · exact (hr.behind d hd' c (hef ▸ hc)).le
    · exact hbehind c (h.moved.others e.2 hef ▸ hc)

theorem Good.scanned (h : Good P opts s) : Good P opts s.scanned :=
  ⟨h.world, mirrors_scan _ _, h.last, fun r hr => by
    simp only [Operation.scanned, scan_dropped] at hr
    simp at hr⟩

theorem Refused.scanned (h : Refused P env s f t s') (hg : Good P opts s) :
    Good P opts s'.scanned := by
  refine ⟨h.world, mirrors_scan _ _, fun g hgl => ?_, fun r hr => ?_⟩
  · change s'.last = some g at hgl
    change ∃ t n, lcns (s'.vol.map g) = _
    rw [h.last] at hgl
    rw [h.vol]
    exact hg.last g hgl
  · simp only [Operation.scanned, scan_dropped] at hr
    simp at hr

/-- Files from behind the gap `r`, still to be moved to `t` and on, inside the gap. -/
structure Aiming (r : Region) (files : List FileId) (t : ℕ) (s : Operation) : Prop where
  dropped : ∀ d ∈ s.ge.dropped, d.lcn + d.length < r.lcn
  mem : ∀ f ∈ files, (∃ e ∈ s.fe.buckets, e.2 = f) ∧ ∀ c ∈ lcns (s.vol.map f), r.lcn ≤ c
  low : r.lcn ≤ t
  high : t + s.fe.clustersOf files ≤ r.lcn + r.length
  target : ∀ c, t ≤ c → c < t + s.fe.clustersOf files → c ∈ cover s.ge.gaps

theorem clustersOf_cons (fe : FileEnumeration) (f : FileId) (files : List FileId) :
    fe.clustersOf (f :: files) = (fe.disp f).clusters + fe.clustersOf files := by
  simp [clustersOf]

theorem Aiming.ready (h : Aiming r (f :: files) t s) : Ready s f t := by
  obtain ⟨hmem, hlow⟩ := h.mem f (by simp)
  refine ⟨hmem, fun d hd c hc => (h.dropped d hd).trans_le (hlow c hc), fun c h1 h2 => ?_⟩
  refine h.target c h1 (h2.trans_le ?_)
  rw [clustersOf_cons]
  omega

theorem Aiming.step (h : Aiming r (f :: files) t s) (hw : World P s.vol s.fe)
    (hm : Mirrors s.vol s.ge) (hmove : Relocated P s s' f t) :
    Aiming r files (t + (s'.fe.disp f).clusters) s' := by
  have hsum : s'.fe.clustersOf files = s.fe.clustersOf files := by
    unfold clustersOf
    congr 1
    exact List.map_congr_left fun g _ => hmove.clusters_eq hw g
  have hhigh := h.high
  have hlow := h.low
  rw [clustersOf_cons] at hhigh
  have hdropped : ∀ d ∈ s'.ge.dropped, d.lcn + d.length < r.lcn := fun d hd => by
    rcases hmove.dropped with hdr | hdr <;> rw [hdr] at hd
    · exact h.dropped d hd
    · simp at hd
  rw [hmove.clusters_eq hw f]
  refine ⟨hdropped, fun g hg => ?_, by omega, by omega, fun c h1 h2 => ?_⟩
  · obtain ⟨⟨e, he, heg⟩, hc⟩ := h.mem g (by simp [hg])
    refine ⟨⟨e, hmove.buckets.mem_iff.2 he, heg⟩, fun c hc' => ?_⟩
    by_cases hgf : g = f
    · rw [hgf, hmove.lcns_eq, List.mem_range'_1] at hc'
      omega
    · exact hc c (hmove.moved.others g hgf ▸ hc')
  · -- the rest of the target stays free, and nothing dropped is there
    have hfree : s.vol.Free c := hm.free (h.target c (by omega) (by rw [clustersOf_cons]; omega))
    have hfree' : s'.vol.Free c := by
      rw [hmove.moved.free hw.sound, ← hw.clusters_eq f]
      exact ⟨Or.inl hfree, by omega⟩
    rcases mem_cover_append.1 ((hmove.mirrors.covers c).2 hfree') with hc | hc
    · obtain ⟨run, hrun, hcd⟩ := hc
      obtain ⟨d, hd, rfl⟩ := List.mem_map.1 hrun
      have := hdropped d hd
      simp only [Run.mem_iff, Region.run] at hcd
      omega
    · exact hc

/-- What moves of files into the gap `r` leave alone. -/
structure Since (r : Region) (s₀ s : Operation) : Prop where
  total : s.vol.total = s₀.vol.total
  below : ∀ c < r.lcn, s.vol.used c = s₀.vol.used c
  buckets : s.fe.buckets.Perm s₀.fe.buckets
  fragments : ∀ g, 1 < (s.fe.disp g).fragments → 1 < (s₀.fe.disp g).fragments

theorem Since.step (h : Since r s₀ s) (ha : Aiming r (f :: files) t s) (hw : World P s.vol s.fe)
    (hmove : Relocated P s s' f t) : Since r s₀ s' := by
  refine ⟨hmove.moved.total.trans h.total, fun c hc => ?_, hmove.buckets.trans h.buckets,
    fun g hg => ?_⟩
  · rw [← h.below c hc, Bool.eq_iff_iff, hmove.used_iff hw]
    have h1 := ha.low
    have h2 := (ha.mem f (by simp)).2 c
    constructor
    · rintro (h3 | h3)
      · omega
      · exact h3.1
    · exact fun h3 => Or.inr ⟨h3, fun hmem => absurd (h2 hmem) (by omega)⟩
  · by_cases hgf : g = f
    · have := (hmove.world.accurate f).whole t _ hmove.lcns_eq
      rw [hgf] at hg
      omega
    · exact h.fragments g (hmove.others g hgf ▸ hg)

/-- Some file from behind the gap `r` has been moved into it. -/
structure Filled (P : Prop) (opts : Options) (r : Region) (s₀ s : Operation) : Prop where
  good : Good P opts s
  since : Since r s₀ s
  inside : ∃ c, r.lcn ≤ c ∧ c < r.lcn + r.length ∧ s.vol.used c = true

theorem Filled.tick (h : Filled P opts r s₀ s) : Filled P opts r s₀ s.tick :=
  ⟨h.good.tick, ⟨h.since.total, h.since.below, h.since.buckets, h.since.fragments⟩, h.inside⟩

theorem filled_of_moved (hg : Good P opts s) (h : Since r s₀ s) (ha : Aiming r (f :: files) t s)
    (hmove : Relocated P s s' f t) : Filled P opts r s₀ s' := by
  have hpos := ha.ready.pos hg.world
  have hhigh := ha.high
  rw [clustersOf_cons] at hhigh
  refine ⟨hmove.good hg ha.ready, h.step ha hg.world hmove, t, ha.low, by omega, ?_⟩
  exact (hmove.used_iff hg.world t).2 (Or.inl ⟨le_rfl, by omega⟩)

/-- The first of `files` gets to its place in the gap `r`. -/
structure Begun (env : Env) (r : Region) (files : List FileId) (s : Operation) : Prop where
  going : env.terminated s.clock = false
  granted : ∀ f ∈ files.head?, ¬ Vanished env s.tick f r.lcn

/-- How a set of files fares: the user stops it at once, some files are moved, or a move is refused,
the first or a later one. -/
inductive SetMoved (P : Prop) (env : Env) (opts : Options) (r : Region) (files : List FileId)
    (s : Operation) : Bool → Operation → Prop
  | stopped : env.terminated s.clock = true → SetMoved P env opts r files s true s.tick
  | filled {s' : Operation} : Begun env r files s → Filled P opts r s s' →
      SetMoved P env opts r files s true s'
  | refused {f : FileId} {rest : List FileId} {s' : Operation} : files = f :: rest →
      env.terminated s.clock = false → Refused P env s.tick f r.lcn s' →
      SetMoved P env opts r files s false s'
  | refusedLater {f : FileId} {t : ℕ} {s₁ s' : Operation} : Begun env r files s →
      Filled P opts r s s₁ → Refused P env s₁ f t s' → SetMoved P env opts r files s false s'

theorem moveSet_spec (htruth : env.Truthful) (hplaced : P → ∀ m s, A m s → Placed m s)
    (hg : Good P opts s) (ha : Aiming r files r.lcn s) (hne : files ≠ []) :
    Meets A (Watched P opts) (moveSet env files r) s
      ⟨SetMoved P env opts r files s, fun _ => False, fun _ _ => False, fun _ => False⟩ := by
  obtain ⟨f, files, rfl⟩ := List.exists_cons_of_ne_nil hne
  -- after the first file, every further one finds the gap filled in part
  have hrest (hb : Begun env r (f :: files) s) : ∀ files' r' s',
      (Filled P opts r s s' ∧ Aiming r files' r'.lcn s') →
      Meets A (Watched P opts) (moveSetLoop env files' r') s'
        ⟨fun _ s₂ => ∃ files₂ r₂, Filled P opts r s s₂ ∧ Aiming r files₂ (Region.lcn r₂) s₂,
          SetMoved P env opts r (f :: files) s false, fun _ => fun _ => False, fun _ => False⟩ := by
    refine moveSetLoop_meets (fun files' r' s' h => ⟨h.1.tick, ?_⟩) fun g files' r' s' h => ?_
    · exact ⟨h.2.dropped, h.2.mem, h.2.low, h.2.high, h.2.target⟩
    · obtain ⟨hfill, haim⟩ := h
      refine (moveFile_meets hfill.good.world hfill.good.mirrors haim.ready htruth hplaced).mono
        (fun _ s₂ h₂ => ?_) fun s₂ h₂ => .refusedLater hb hfill h₂
      exact ⟨filled_of_moved hfill.good hfill.since haim h₂.1,
        haim.step hfill.good.world hfill.good.mirrors h₂.1⟩
  refine Meets.catching (S := ⟨fun moved s' => SetMoved P env opts r (f :: files) s true s'
    ∧ moved = true, SetMoved P env opts r (f :: files) s false, fun _ _ => False, fun _ => False⟩)
    ?_ (fun s' hs' => Meets.pure hs') fun moved s' hs' => hs'.2 ▸ hs'.1
  refine Meets.bind (Q := ⟨fun _ s' => SetMoved P env opts r (f :: files) s true s',
    SetMoved P env opts r (f :: files) s false, fun _ _ => False, fun _ => False⟩) ?_
    fun _ s' hs' => Meets.pure ⟨hs', rfl⟩
  refine terminated_bind ?_
  rcases hterm : env.terminated s.clock
  · rw [if_neg Bool.false_ne_true]
    have ha' : Aiming r (f :: files) r.lcn s.tick :=
      ⟨ha.dropped, ha.mem, ha.low, ha.high, ha.target⟩
    have hsince : Since r s s.tick := ⟨rfl, fun _ _ => rfl, List.Perm.refl _, fun _ h => h⟩
    refine Meets.bind ((moveFile_meets hg.tick.world hg.tick.mirrors ha'.ready htruth hplaced).mono
      (S := ⟨fun _ s' => Relocated P s.tick s' f r.lcn ∧ Begun env r (f :: files) s,
        SetMoved P env opts r (f :: files) s false, fun _ _ => False, fun _ => False⟩)
      (fun _ _ h => ⟨h.1, hterm, by simpa using h.2⟩)
      fun s' hs' => .refused rfl hterm hs') fun _ s' hs' => Meets.get_bind ?_
    obtain ⟨hs', hb⟩ := hs'
    refine (hrest hb files _ s' ⟨filled_of_moved hg.tick hsince ha' hs', ?_⟩).mono ?_
    · exact ha'.step hg.world hg.mirrors hs'
    · rintro _ s₂ ⟨_, _, hfill, -⟩
      exact .filled hb hfill
  · rw [if_pos rfl]
    exact Meets.pure (.stopped hterm)

/-- `close_gaps` tries to close the gap `r` with `files`. -/
structure Picks (opts : Options) (r : Region) (s : Operation) (partialOK : Bool)
    (files : List FileId) : Prop where
  size : opts.aggressive = true ∨ r.length ≤ opts.maxSize
  found : s.fe.findBest r.lcn r.length partialOK = .ok files
  nonempty : files ≠ []

/-- What an iteration of `close_gaps` does to the first gap, `r`. -/
inductive Iteration (P : Prop) (env : Env) (opts : Options) (r : Region) (s : Operation) :
    Bool → Bool → Operation → Prop
  | dropped {p p' : Bool} {ge' : GapEnumeration} : (∀ files, ¬ Picks opts r s p files) →
      s.ge.gaps = r.run :: ge'.gaps → (p' = p ∨ p = true ∧ p' = false) →
      Iteration P env opts r s p p' { s with ge := ge' }
  | flagged : (∀ files, ¬ Picks opts r s false files) → Iteration P env opts r s false true s
  | moved {p moved : Bool} {files : List FileId} {s' : Operation} : Picks opts r s p files →
      SetMoved P env opts r files s moved s' →
      Iteration P env opts r s p (if moved then false else p) (if moved then s' else s'.scanned)

theorem nextGap_some {g : NodePtr} (h : s.nextGap = some g) :
    g.scan = s.ge.scans ∧ ∃ rest, s.ge.gaps = (s.ge.node g.node).run :: rest := by
  unfold Operation.nextGap GapEnumeration.next at h
  obtain ⟨n, hn, rfl⟩ := Option.map_eq_some_iff.1 h
  obtain ⟨e, he, rfl⟩ := Option.map_eq_some_iff.1 hn
  obtain ⟨tl, htl⟩ := List.head?_eq_some_iff.1 he
  exact ⟨rfl, _, by rw [GapEnumeration.gaps_eq, htl]; rfl⟩

theorem gaps_eq_nil (h : s.nextGap = none) : s.ge.gaps = [] := by
  unfold Operation.nextGap GapEnumeration.next at h
  simp only [Option.map_eq_none_iff, List.head?_eq_none_iff] at h
  rw [GapEnumeration.gaps_eq, h]
  rfl

/-- Dropping the first gap keeps the invariant, if no file behind it fits or it is too large. -/
theorem Good.dropped {g : NodePtr} (hg : Good P opts s) (hgap : s.nextGap = some g)
    (hgiven : (opts.aggressive = true ∨ (s.ge.node g.node).length ≤ opts.maxSize) →
      ∀ e ∈ s.fe.buckets, e.1 ≤ (s.ge.node g.node).length →
        ¬ s.fe.Behind (s.ge.node g.node).lcn e.2) :
    ∃ ge', s.ge.popRegion s.vol.winxGetFreeVolumeRegions g.node = .ok ge'
      ∧ s.ge.gaps = (s.ge.node g.node).run :: ge'.gaps ∧ Good P opts { s with ge := ge' } := by
  obtain ⟨-, rest, hgaps⟩ := nextGap_some hgap
  obtain ⟨ge', heq, hrest, hdrop, hmir⟩ := hg.mirrors.popRegion hgaps s.vol.winxGetFreeVolumeRegions
  refine ⟨ge', heq, by rw [hrest]; exact hgaps, hg.world, hmir, hg.last, ?_⟩
  intro d hd hsize e he hbehind
  rw [hdrop, List.mem_append, List.mem_singleton] at hd
  rcases hd with hd | rfl
  · exact hg.given d hd hsize e he hbehind
  · by_contra hle
    refine hgiven hsize e he (Nat.le_of_not_lt hle) ?_
    obtain ⟨l, hl⟩ := headLcn_ok (hg.world.stocked.map e he)
    refine ⟨l, hl, ?_⟩
    -- the head of the map is one of the file's clusters
    unfold headLcn at hl
    rcases hbm : (s.fe.disp e.2).blockmap with _ | ⟨b, bm⟩ <;> rw [hbm] at hl
    · simp at hl
    · obtain rfl := Except.ok.inj hl
      have h1 := hbehind b.lcn ((hg.world.accurate e.2).lcn_mem (by simp [hbm]))
      have h2 := hg.mirrors.tidy.spaced.pos (s.ge.node g.node).run (by simp [hgaps])
      simp only [Region.run] at h2
      omega

theorem widenBehind_off (h : opts.widen = false) (n : ℕ) :
    widenBehind env opts r n = pure false := by
  rcases n with _ | n
  · rfl
  · simp only [widenBehind, widenLoop, h, Bool.not_false, if_true]
    rfl

theorem closeGapsBody_spec {g : NodePtr} (htruth : env.Truthful)
    (hplaced : P → ∀ m s, A m s → Placed m s) (hwiden : opts.widen = false)
    (hg : Good P opts s) (hgap : s.nextGap = some g) (p : Bool) :
    Meets A (Watched P opts) (closeGapsBody env opts g p) s
      ⟨fun p' s' => Good P opts s' ∧ Iteration P env opts (s.ge.node g.node) s p p' s',
        fun _ => False, fun _ _ => False, fun _ => False⟩ := by
  obtain ⟨hscan, rest, hgaps⟩ := nextGap_some hgap
  refine Meets.mark_bind (fun _ => hg) fun _ => readRegion_bind hscan ?_
  refine Meets.ite (fun hbig => ?_) fun hsize => Meets.get_bind ?_
  · simp only [Bool.and_eq_true, Bool.not_eq_true', decide_eq_true_eq] at hbig
    obtain ⟨ge', heq, hdrop, hgood⟩ := hg.dropped hgap fun hsize => by
      rcases hsize with hsize | hsize
      · simp [hbig.1] at hsize
      · omega
    refine gePopRegion_bind (fun ge hge => ?_) (fun why hwhy => ?_) fun hno => absurd hscan hno
    · obtain rfl := Except.ok.inj (heq.symm.trans hge)
      refine Meets.pure ⟨hgood, .dropped (fun files hp => ?_) hdrop (Or.inl rfl)⟩
      rcases hp.size with h | h
      · simp [hbig.1] at h
      · omega
    · exact absurd (heq.symm.trans hwhy) (by simp)
  · have hsize' : opts.aggressive = true ∨ (s.ge.node g.node).length ≤ opts.maxSize := by
      rcases hag : opts.aggressive
      · simpa [hag] using hsize
      · exact Or.inl rfl
    obtain ⟨files, hfiles, hchosen⟩ :=
      findBest_spec hg.world.stocked (s.ge.node g.node).lcn (s.ge.node g.node).length p
    refine Meets.lift_bind (fun files' hfiles' => ?_) fun why hwhy => ?_
    swap
    · exact absurd (hfiles.symm.trans hwhy) (by simp)
    obtain rfl := Except.ok.inj (hfiles.symm.trans hfiles')
    refine Meets.ite (fun hne => ?_) fun hnil => ?_
    · -- files are moved into the gap
      have haim : Aiming (s.ge.node g.node) files (s.ge.node g.node).lcn s := by
        refine ⟨fun d hd => ?_, fun f hf => ⟨(hchosen.mem f hf).1, fun c hc =>
          ((hchosen.mem f hf).lt hg.world.stocked (hg.world.accurate f) c hc).le⟩, le_rfl,
          Nat.add_le_add_left hchosen.sum _, fun c h1 h2 => ?_⟩
        · have := (Spaced.append_iff.1 hg.mirrors.spaced).2.2 d.run
            (List.mem_map.2 ⟨d, hd, rfl⟩) (s.ge.node g.node).run (by simp [hgaps])
          exact this
        · have := hchosen.sum
          refine ⟨(s.ge.node g.node).run, by simp [hgaps], ?_⟩
          simp only [Run.mem_iff, Region.run]
          omega
      refine Meets.bind (moveSet_spec htruth hplaced hg haim hne) fun moved s' hs' => ?_
      refine Meets.ite (fun hmoved => Meets.pure ?_) fun hmoved => ?_
      · subst hmoved
        refine ⟨?_, .moved ⟨hsize', hfiles, hne⟩ hs'⟩
        rcases hs' with hterm | ⟨-, hfill⟩
        · exact hg.tick
        · exact hfill.good
      · obtain rfl : moved = false := by simpa using hmoved
        refine Meets.modify_bind (Meets.pure ⟨?_, .moved ⟨hsize', hfiles, hne⟩ hs'⟩)
        rcases hs' with hterm | hfill | ⟨-, -, href⟩ | ⟨-, hfill, href⟩
        · exact href.scanned hg.tick
        · exact href.scanned hfill.good
    · -- nothing to move, and nothing is widened
      have hnil : files = [] := by simpa using hnil
      have hno : ∀ files', ¬ Picks opts (s.ge.node g.node) s p files' := fun files' hp =>
        hp.nonempty ((Except.ok.inj (hp.found.symm.trans hfiles)).trans hnil)
      rw [widenBehind_off hwiden]
      refine Meets.bind (Meets.pure (Q := ⟨fun widened s' => widened = false ∧ s' = s,
        fun _ => False, fun _ _ => False, fun _ => False⟩) ⟨rfl, rfl⟩) ?_
      rintro _ _ ⟨rfl, rfl⟩
      rcases p
      · exact Meets.pure ⟨hg, .flagged hno⟩
      · simp only [Bool.not_false, Bool.and_self, if_true]
        refine Meets.mark_bind (fun _ => trivial) fun _ => ?_
        obtain ⟨ge', heq, hdrop, hgood⟩ := hg.dropped hgap fun _ => hchosen.none rfl hnil
        refine gePopRegion_bind (fun ge hge => ?_) (fun why hwhy => ?_) fun h => absurd hscan h
        · obtain rfl := Except.ok.inj (heq.symm.trans hge)
          exact Meets.pure ⟨hgood, .dropped hno hdrop (Or.inr ⟨rfl, rfl⟩)⟩
        · exact absurd (heq.symm.trans hwhy) (by simp)

end StopGap
