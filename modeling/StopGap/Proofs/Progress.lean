import StopGap.Proofs.ClosedWorld

/-!
# Progress of `close_gaps`

A move refused with `STATUS_ALREADY_COMMITTED` puts the file back, and the rescan brings back
the gaps. Where no gap had been dropped, the iteration leaves everything as it was but for the order
of the files of one size. No other answer has that effect.
-/

namespace StopGap

open Exec Exec.Prog Runs FileEnumeration

variable {P : Prop} {env : Env} {opts : Options} {s s' : Operation} {r : Region} {p p' : Bool}

/-- The volume, `regions_` and `buckets_` hold what they held. -/
structure Unchanged (s s' : Operation) : Prop where
  vol : s'.vol = s.vol
  gaps : s'.ge.gaps = s.ge.gaps
  buckets : s'.fe.buckets.Perm s.fe.buckets

/-- The first of the files picked for the gap `r` is refused because clusters of the target are in
use, while no gap is missing from the model; or the user stops the iteration before its first
move. -/
def Stalls (env : Env) (opts : Options) (s : Operation) (r : Region) (partialOK : Bool) : Prop :=
  (opts.aggressive = true ∨ r.length ≤ opts.maxSize)
    ∧ ∃ f files, s.fe.findBest r.lcn r.length partialOK = .ok (f :: files)
      ∧ ((env.terminated s.clock = true ∧ partialOK = false)
        ∨ (env.terminated s.clock = false ∧ Vanished env s.tick f r.lcn ∧ s.ge.dropped = []))

theorem Stalls.picks (h : Stalls env opts s r p) : ∃ files, Picks opts r s p files := by
  obtain ⟨hsize, f, files, hfound, -⟩ := h
  exact ⟨f :: files, hsize, hfound, by simp⟩

theorem Begun.not_stalls {files : List FileId} (h : Begun env r files s)
    (hp : Picks opts r s p files) : ¬ Stalls env opts s r p := by
  rintro ⟨-, f, rest, hfound, ⟨hterm, -⟩ | ⟨-, hvan, -⟩⟩
  · exact absurd (h.going.symm.trans hterm) (by decide)
  · obtain rfl := Except.ok.inj (hp.found.symm.trans hfound)
    exact h.granted f (by simp) hvan

theorem Filled.vol_ne (h : Filled P opts r s s') (hm : Mirrors s.vol s.ge)
    (hr : r.run ∈ s.ge.gaps) : s'.vol ≠ s.vol := by
  obtain ⟨c, h1, h2, hused⟩ := h.inside
  have hfree : s.vol.Free c := hm.free ⟨r.run, hr, h1, h2⟩
  intro heq
  rw [heq, hfree.2] at hused
  exact absurd hused (by decide)

theorem Mirrors.scan_gaps_eq_iff {v : Volume} {ge : GapEnumeration} (h : Mirrors v ge)
    (ge' : GapEnumeration) :
    (ge'.scan v.winxGetFreeVolumeRegions).gaps = ge.gaps ↔ ge.dropped = [] := by
  rw [scan_gaps, h.gaps_eq, List.append_left_eq_self, List.map_eq_nil_iff]

/-- An iteration leaves everything as it was exactly if it stalls. -/
theorem Iteration.unchanged_iff (h : Iteration P env opts r s p p' s') (hg : Good P opts s)
    (hr : r.run ∈ s.ge.gaps) : (Unchanged s s' ∧ p' = p) ↔ Stalls env opts s r p := by
  rcases h with ⟨hno, hdrop, -⟩ | hno | @⟨_, moved, files, s₂, hp, hset⟩
  · refine ⟨fun hu => ?_, fun hs => (hs.picks.elim hno).elim⟩
    have := congrArg List.length hu.1.gaps
    rw [hdrop] at this
    simp at this
  · exact ⟨fun hu => absurd hu.2 (by decide), fun hs => (hs.picks.elim hno).elim⟩
  rcases hset with hterm | ⟨hb, hfill⟩ | ⟨rfl, hgoing, href⟩ | ⟨hb, hfill, href⟩
  · -- stopped before the first move
    obtain ⟨f, files, rfl⟩ := List.exists_cons_of_ne_nil hp.nonempty
    constructor
    · exact fun hu => ⟨hp.size, f, files, hp.found, Or.inl ⟨hterm, hu.2.symm⟩⟩
    · rintro ⟨-, _, _, -, ⟨-, hpf⟩ | ⟨hgo, -⟩⟩
      · exact ⟨⟨rfl, rfl, List.Perm.refl _⟩, hpf.symm⟩
      · exact absurd (hgo.symm.trans hterm) (by decide)
  · exact ⟨fun hu => absurd hu.1.vol (hfill.vol_ne hg.mirrors hr),
      fun hs => absurd hs (hb.not_stalls hp)⟩
  · -- the first move is refused
    have hgaps := hg.mirrors.scan_gaps_eq_iff s₂.ge
    have hvol : s₂.vol = s.vol := href.vol
    rw [← hvol] at hgaps
    constructor
    · rintro ⟨hu, -⟩
      refine ⟨hp.size, _, _, hp.found, Or.inr ⟨hgoing, ?_, hgaps.1 ?_⟩⟩
      · by_contra hv
        have hlen := (href.lost hv).length_eq
        have hsame : s₂.fe.buckets.length = s.fe.buckets.length := hu.buckets.length_eq
        rw [List.length_cons, hsame] at hlen
        exact absurd hlen (Nat.ne_of_lt (Nat.lt_succ_self _))
      · exact hu.gaps
    · rintro ⟨-, f', rest', hfound, ⟨hterm, -⟩ | ⟨-, hv, hd⟩⟩
      · exact absurd (hgoing.symm.trans hterm) (by decide)
      · obtain ⟨rfl, -⟩ := List.cons.inj (Except.ok.inj (hp.found.symm.trans hfound))
        exact ⟨⟨hvol, hgaps.2 hd, href.kept hv⟩, rfl⟩
  · refine ⟨fun hu => ?_, fun hs => absurd hs (hb.not_stalls hp)⟩
    exact absurd (href.vol.symm.trans hu.1.vol) (hfill.vol_ne hg.mirrors hr)

theorem closeGapsBody_unchanged_iff {g : NodePtr} (htruth : env.Truthful)
    (hwiden : opts.widen = false) (hg : Good False opts s) (hgap : s.nextGap = some g) (p : Bool) :
    ∃ p' s', (closeGapsBody env opts g p s).out = .ok p' s'
      ∧ ((Unchanged s s' ∧ p' = p) ↔ Stalls env opts s (s.ge.node g.node) p) := by
  obtain ⟨-, rest, hgaps⟩ := nextGap_some hgap
  obtain ⟨p', s', hout, -, hit⟩ :=
    (closeGapsBody_spec htruth (fun h => h.elim) hwiden hg hgap p).returns
  exact ⟨p', s', hout, hit.unchanged_iff hg (by simp [hgaps])⟩

section Iterations

variable {v : Volume} {disk : List FileId} {disp : FileId → Disposition} {excluded : FileId → Bool}

/-- From every state a run reaches, an iteration of `close_gaps` changes the volume, `regions_`,
`buckets_` or `partialOK`, unless it stalls. -/
theorem iteration_progresses_unless_stalled (hw : ClosedWorld env v disk disp)
    (hsolid : ∀ f, NoHoles (v.map f)) (hsmall : ∀ f, (lcns (v.map f)).length < maxChunk)
    (hwiden : opts.widen = false) (fuel : ℕ) (p : Bool) (s : Operation) (g : NodePtr)
    (hs : (Mark.gapsIter p, s) ∈ (run env opts fuel (.init v disk disp excluded)).seen)
    (hg : s.nextGap = some g) :
    ∃ p' s', (closeGapsBody env opts g p s).out = .ok p' s'
      ∧ ((Unchanged s s' ∧ p' = p) ↔ Stalls env opts s (s.ge.node g.node) p) := by
  obtain ⟨hseen, -⟩ := run_solid excluded hw hsolid hsmall hwiden fuel fun _ _ => trivial
  exact closeGapsBody_unchanged_iff hw.truthful hwiden (hseen _ hs) hg p

theorem iteration_progresses_unless_stalled_two_files :
    ∃ s p' s', (Mark.gapsIter false, s) ∈ (run (.answering 0) gapsOnly 2
        (.init twoFileVolume [0, 1] twoFileVolume.dumps fun _ => false)).seen
      ∧ (closeGapsBody (.answering 0) gapsOnly ⟨1, 0⟩ false s).out = .ok p' s'
      ∧ ¬ (Unchanged s s' ∧ p' = false) := by
  have hfirst : ∃ m ∈ (run (.answering 0) gapsOnly 2
      (.init twoFileVolume [0, 1] twoFileVolume.dumps fun _ => false)).seen,
      m.1 = .gapsIter false ∧ m.2.nextGap = some ⟨1, 0⟩ := by decide +kernel
  obtain ⟨⟨_, s⟩, hm, rfl, hg⟩ := hfirst
  obtain ⟨p', s', hout, hiff⟩ := iteration_progresses_unless_stalled (twoFileVolume_closedWorld 0)
    twoFileVolume_solid twoFileVolume_small rfl 2 false s ⟨1, 0⟩ hm hg
  refine ⟨s, p', s', hm, hout, fun hu => ?_⟩
  obtain ⟨-, f, files, -, ⟨hterm, -⟩ | ⟨-, hv, -⟩⟩ := hiff.1 hu
  · exact absurd hterm Bool.false_ne_true
  · have hcom : (0 : NtStatus) = statusAlreadyCommitted := hv.2
    exact absurd hcom (by decide)

/-- The only request of an iteration finds its target in use, and nothing has changed. -/
theorem committed_iteration_stalls :
    ∃ s s', (Mark.gapsIter false, s) ∈ (run (.answering statusAlreadyCommitted) gapsOnly 2
        (.init twoFileVolume [0, 1] twoFileVolume.dumps fun _ => false)).seen
      ∧ s.nextGap = some ⟨1, 0⟩
      ∧ (closeGapsBody (.answering statusAlreadyCommitted) gapsOnly ⟨1, 0⟩ false s).out
        = .ok false s'
      ∧ Unchanged s s' := by
  have hfirst : ∃ m ∈ (run (.answering statusAlreadyCommitted) gapsOnly 2
      (.init twoFileVolume [0, 1] twoFileVolume.dumps fun _ => false)).seen,
      m.1 = .gapsIter false ∧ m.2.nextGap = some ⟨1, 0⟩ ∧ (m.2.ge.node 0).length ≤ 10
        ∧ m.2.fe.findBest (m.2.ge.node 0).lcn (m.2.ge.node 0).length false = .ok [1]
        ∧ m.2.ge.dropped = [] := by decide +kernel
  obtain ⟨⟨_, s⟩, hm, rfl, hg, hsize, hfound, hd⟩ := hfirst
  have hgood := (run_solid _ (twoFileVolume_closedWorld statusAlreadyCommitted) twoFileVolume_solid
    twoFileVolume_small rfl 2 fun _ _ => trivial).1 _ hm
  obtain ⟨p', s', hout, hiff⟩ := closeGapsBody_unchanged_iff
    (Env.answering_truthful statusAlreadyCommitted) rfl hgood hg false
  obtain ⟨hu, rfl⟩ := hiff.2
    ⟨Or.inr hsize, 1, [], hfound, Or.inr ⟨rfl, ⟨rfl, rfl⟩, hd⟩⟩
  exact ⟨s, s', hm, hg, hout, hu⟩

end Iterations

end StopGap
