import StopGap.Proofs.BestGap
import StopGap.Proofs.FileIndex
import StopGap.Proofs.SafeMoves

/-!
# The running gap of `widen_behind`

`widen_behind` goes on with a copy of the gap, which it takes to be longer by all clusters of the
file it has moved away from behind it. That is right of a file that lay there in one piece. If no
other gap holds the file, it goes to the start of the gap itself, and the copy is moved towards the
front by as much, where it should be moved back.
-/

namespace StopGap

open Exec Exec.Prog Runs GapEnumeration FileEnumeration

/-- The clusters of a file are consecutive, in whatever order. -/
def Consecutive (m : List Extent) : Prop :=
  ∃ t ∈ lcns m, (lcns m).Perm (List.range' t (lcns m).length)

instance (m : List Extent) : Decidable (Consecutive m) :=
  inferInstanceAs (Decidable (∃ t ∈ lcns m, _))

/-- The file that is popped is in one piece, and `best` finds a gap behind `g` for it. -/
def FitsBehind (g : Region) : Mark → Operation → Prop
  | .fePop f, s => Consecutive (s.vol.map f)
    ∧ s.ge.best (s.fe.disp f).clusters (some (.copy g)) true ≠ none
  | _, _ => True

instance (g : Region) (m : Mark) (s : Operation) : Decidable (FitsBehind g m s) := by
  refine m.casesOn ?_ ?_ ?_ ?_ ?_ ?_ ?_ ?_ ?_ ?_ ?_ <;> intros <;>
    unfold FitsBehind <;> infer_instance

/-- What is seen of the running gap after a move. -/
def RunsFree (g : Region) : Mark → Operation → Prop
  | .widened r, s => r.lcn = g.lcn ∧ ∀ c, r.lcn ≤ c → c < r.lcn + r.length → s.vol.Free c
  | _, _ => True

/-- The model offers free clusters only, the stock is in order, and the index of `findAt` is not
built or right. -/
structure Settled (s : Operation) : Prop where
  safe : Safe s
  stocked : s.fe.Stocked
  nodup : (s.fe.buckets.map Prod.snd).Nodup
  index : s.fe.lcns = [] ∨ s.fe.Exact

namespace Settled

variable {s s' : Operation} {f : FileId} {lcn t : ℕ} {B C : List ℕ}

theorem shelf (h : Settled s) : Shelf s.vol s.fe :=
  ⟨h.safe.sane.sound, h.safe.sane.accurate, h.stocked, h.nodup, h.index⟩

theorem of_shelf (hs : Safe s) (h : Shelf s.vol s.fe) : Settled s :=
  ⟨hs, h.stocked, h.nodup, h.index⟩

theorem tick (h : Settled s) : Settled s.tick := of_shelf h.safe.tick h.shelf

theorem found (h : Settled s) (lcn : ℕ) : Settled { s with fe := (s.fe.findAt lcn).1 } :=
  of_shelf (h.safe.found lcn) (h.shelf.findAt lcn)

theorem of_findAt (h : Settled s) (hf : (s.fe.findAt lcn).2 = some f) :
    (∃ e ∈ s.fe.buckets, e.2 = f) ∧ lcn ∈ lcns (s.vol.map f) := by
  obtain ⟨hin, b, hb, rfl⟩ := (findAt_iff h.shelf.clean h.index).1 hf
  exact ⟨hin, (h.safe.sane.accurate f).lcn_mem hb⟩

theorem pos (h : Settled s) (hf : ∃ e ∈ s.fe.buckets, e.2 = f) : 0 < (s.fe.disp f).clusters := by
  obtain ⟨e, he, rfl⟩ := hf
  exact h.stocked.pos e he

theorem carried (h : Settled s) (hc : Carried s s' f t B C) : Settled s' :=
  of_shelf hc.safe (hc.shelf h.shelf)

end Settled

section Widen

variable {A : Mark → Operation → Prop} {env : Env} {opts : Options} {s s' : Operation}
  {f : FileId} {g r : Region} {B C : List ℕ}

/-- `best` reads nothing of a copy but where it starts. -/
theorem best_copy (ge : GapEnumeration) (n : ℕ) (b : Bool) (h : r.lcn = g.lcn) :
    ge.best n (some (.copy r)) b = ge.best n (some (.copy g)) b := by
  have hsame : ge.eligible (some (.copy r)) b = ge.eligible (some (.copy g)) b := by
    funext e
    rw [Bool.eq_iff_iff, eligible_iff, eligible_iff]
    simp [deref, h]
  simp only [best, hsame]

/-- What `best` finds behind a copy is a region of the model that starts behind it. -/
theorem best_behind {ge : GapEnumeration} {n k : ℕ} (h : Indexed ge)
    (hbest : ge.best n (some (.copy g)) true = some k) :
    (ge.node k).run ∈ ge.gaps ∧ g.lcn < (ge.node k).lcn := by
  rcases best_search h.views.sorted n (some (.copy g)) true with
    ⟨hnone, -⟩ | ⟨e, he, hsome, hel, -⟩
  · cases hbest.symm.trans hnone
  · obtain rfl := Option.some.inj (hbest.symm.trans hsome)
    refine ⟨(sizeGaps_perm h).mem_iff.1 (List.mem_map.2 ⟨e, he, rfl⟩), ?_⟩
    exact (eligible_iff.1 hel).2 rfl _ rfl

/-- The running gap is in the model, from where the gap was on. -/
structure Running (g r : Region) (s : Operation) : Prop where
  settled : Settled s
  total : s.vol.total < 2 ^ 64
  start : r.lcn = g.lcn
  pos : 0 < r.length
  covered : ∀ c, r.lcn ≤ c → c < r.lcn + r.length → c ∈ cover s.ge.gaps

namespace Running

theorem tick (h : Running g r s) : Running g r s.tick :=
  ⟨h.settled.tick, h.total, h.start, h.pos, h.covered⟩

theorem found (h : Running g r s) (lcn : ℕ) :
    Running g r { s with fe := (s.fe.findAt lcn).1 } :=
  ⟨h.settled.found lcn, h.total, h.start, h.pos, h.covered⟩

theorem end_lt (h : Running g r s) : r.lcn + r.length < 2 ^ 64 := by
  have hpos := h.pos
  have hlast := h.settled.safe.free _ (h.covered (r.lcn + r.length - 1) (by omega) (by omega))
  have := hlast.1
  have := h.total
  omega

/-- A region of the model that starts behind the running gap starts behind all of it. -/
theorem lt_of_behind (h : Running g r s) {x : Run} (hx : x ∈ s.ge.gaps) (hlt : r.lcn < x.start) :
    r.lcn + r.length < x.start := by
  have hsp := h.settled.safe.tidy.spaced
  obtain ⟨y, hy, hlo, hhi⟩ := hsp.inside h.pos h.covered
  rcases hsp.trichotomy hy hx with rfl | h1 | h1 <;> omega

/-- A file in one piece with a cluster at the end of the gap lies there. -/
theorem file_at_end (h : Running g r s) (hcon : Consecutive (s.vol.map f))
    (hin : r.lcn + r.length ∈ lcns (s.vol.map f)) (c : ℕ) : c ∈ lcns (s.vol.map f) ↔
      r.lcn + r.length ≤ c ∧ c < r.lcn + r.length + (lcns (s.vol.map f)).length := by
  obtain ⟨t, -, hperm⟩ := hcon
  have hmem : ∀ c, c ∈ lcns (s.vol.map f) ↔ t ≤ c ∧ c < t + (lcns (s.vol.map f)).length :=
    fun c => by rw [hperm.mem_iff, List.mem_range'_1]
  obtain ⟨hlo, hhi⟩ := (hmem _).1 hin
  have hstart : t = r.lcn + r.length := by
    by_contra hne
    -- else the cluster in front of it would be the file's, and free
    have hpos := h.pos
    refine h.settled.safe.sane.sound.not_free ((hmem (r.lcn + r.length - 1)).2 (by omega)) ?_
    exact h.settled.safe.free _ (h.covered _ (by omega) (by omega))
  rw [hmem, hstart]

/-- If such a file lies in one piece behind the gap after its move, all of it was moved. -/
theorem none_left (h : Running g r s) {x : Run} (hcon : Consecutive (s.vol.map f))
    (hin : r.lcn + r.length ∈ lcns (s.vol.map f)) (hx : x ∈ s.ge.gaps) (hlt : r.lcn < x.start)
    (hc : Carried s s' f x.start B C)
    (hpiece : lcns (s'.vol.map f) = List.range' x.start (lcns (s'.vol.map f)).length) : C = [] := by
  have hfile := h.file_at_end hcon hin
  have hbehind := h.lt_of_behind hx hlt
  set n := (lcns (s.vol.map f)).length with hn
  rcases C with _ | ⟨c, C⟩
  · rfl
  -- `c` follows the clusters that were moved, so these went where the file was
  rw [hc.length_lcns, hc.moved.after, ← hn] at hpiece
  have hlen : B.length + (C.length + 1) = n := by simp [hn, hc.moved.before]
  have hcx : c = x.start + B.length := by
    have hget := congrArg (fun l => l[B.length]?) hpiece
    simpa [List.getElem?_append_right, List.getElem?_range', hlen.symm] using hget
  have hc' := (hfile c).1 (by simp [hc.moved.before])
  rcases Nat.eq_zero_or_pos B.length with h0 | hpos
  · have hmem := (hfile (r.lcn + r.length)).2 (by omega)
    rw [hc.moved.before, List.length_eq_zero_iff.1 h0, List.nil_append] at hmem
    have hr : r.lcn + r.length ∈ List.range' x.start n := by
      rw [← hpiece]
      exact List.mem_append_right _ hmem
    have := (List.mem_range'_1.1 hr).1
    omega
  · exact absurd ⟨le_rfl, by omega⟩
      (hc.clear h.settled.safe.sane ((hfile x.start).2 (by omega)))

/-- After a file in one piece was moved from the end of the gap to another one, the gap is longer by
the file. -/
theorem carried (h : Running g r s) {t : ℕ} (hcon : Consecutive (s.vol.map f))
    (hin : r.lcn + r.length ∈ lcns (s.vol.map f)) (hlt : r.lcn + r.length < t)
    (hc : Carried s s' f t B C) (hC : C = []) :
    Running g ⟨r.lcn, r.length + (s'.fe.disp f).clusters⟩ s' := by
  have hsane := h.settled.safe.sane
  have hfile := h.file_at_end hcon hin
  have hB : lcns (s.vol.map f) = B := by simpa [hC] using hc.moved.before
  refine ⟨h.settled.carried hc, hc.moved.total ▸ h.total, h.start, ?_, fun c h1 h2 => ?_⟩
  · have := h.pos
    simp only
    omega
  · rw [hc.clusters hsane, (hsane.accurate f).clusters] at h2
    simp only at h1 h2
    by_cases hgap : c < r.lcn + r.length
    · have hcov := h.covered c h1 hgap
      refine hc.covers c (Or.inl hcov) ((hc.moved.free hsane.sound c).2 ⟨Or.inl ?_, by omega⟩)
      exact h.settled.safe.free c hcov
    · have hcf : c ∈ lcns (s.vol.map f) := (hfile c).2 ⟨by omega, by omega⟩
      refine hc.covers c (Or.inr hcf) ((hc.moved.free hsane.sound c).2 ⟨Or.inr (hB ▸ hcf), ?_⟩)
      exact hc.clear hsane hcf

end Running

theorem widenBehind_running (htruth : env.Truthful) (hguard : env.Guarded)
    (hfits : ∀ m s, A m s → FitsBehind g m s) (hplaced : ∀ m s, A m s → Placed m s) (n : ℕ)
    (h : Running g g s) : Meets A (RunsFree g) (widenBehind env opts g n) s
      ⟨fun _ _ => True, fun _ => False, fun _ _ => True, fun _ => False⟩ := by
  have hstep : WidenStep A (RunsFree g) env opts (fun _ => True) (Running g) (fun _ => True) :=
    { tick := fun _ _ hs => hs.tick
      found := fun _ lcn _ hs => hs.found lcn
      shown := fun r s hs _ =>
        ⟨hs.start, fun c h1 h2 => hs.settled.safe.free c (hs.covered c h1 h2)⟩
      moved := fun r lcn s f target hs hlcn hf htarget => by
        rw [Nat.mod_eq_of_lt hs.end_lt] at hlcn
        subst hlcn
        obtain ⟨hstock, hin⟩ := hs.settled.of_findAt hf
        have hs' := hs.found (r.lcn + r.length)
        have hpos : 0 < ((s.fe.findAt (r.lcn + r.length)).1.disp f).clusters := by
          rw [findAt_disp]
          exact hs.settled.pos hstock
        have hone : OneMove A (RunsFree g) .widenBehind f (s.ge.deref target).lcn
            { s with fe := (s.fe.findAt (r.lcn + r.length)).1 }
            (fun s' => Running g (widenRegion target r (s'.fe.disp f).clusters) s')
            (fun _ => True) :=
          { quiet := fun m _ _ _ => by cases m <;> trivial
            pushing := fun _ _ => trivial
            empty := fun h0 => absurd h0 hpos.ne'
            shut := trivial
            granted := fun status s' B C hasked hok hc => by
              obtain ⟨hcon, hbest⟩ := hfits _ _ hasked.popped
              have hpiece := hplaced _ _ hasked.answered hok
              rw [Operation.replied_vol hok, ← hc.vol] at hpiece
              -- the target is another gap
              rw [← best_copy _ _ _ hs.start] at hbest
              obtain ⟨k, hk⟩ := Option.ne_none_iff_exists'.1 hbest
              unfold widenTarget at htarget
              rw [show s.ge.best _ _ _ = some k from hk] at htarget
              obtain rfl := Option.some.inj htarget
              obtain ⟨hgap, hlt⟩ := best_behind hs.settled.safe.tidy.indexed hk
              have hC := hs'.none_left hcon hin hgap hlt hc hpiece
              exact ⟨hc.one hs'.settled.safe.sane hC,
                hs'.carried hcon hin (hs'.lt_of_behind hgap hlt) hc hC⟩
            refused := fun _ _ _ _ _ => trivial }
        exact hone.meets hs'.settled.safe htruth hguard }
  exact (hstep.meets n g 0 0 s h).mono fun _ _ _ => trivial

/-- As long as `widen_behind` comes to files in one piece and `best` finds another gap for each, the
running gap starts where the gap did and consists of free clusters. -/
theorem widened_free_if_consecutive (h : Settled s) (htotal : s.vol.total < 2 ^ 64)
    (hg : g.run ∈ s.ge.gaps) (htruth : env.Truthful) (hguard : env.Guarded) (maxMoves : ℕ)
    (hplaced : ∀ m ∈ (widenBehind env opts g maxMoves s).seen, Placed m.1 m.2)
    (hfits : ∀ m ∈ (widenBehind env opts g maxMoves s).seen, FitsBehind g m.1 m.2) :
    ∀ m ∈ (widenBehind env opts g maxMoves s).seen, ∀ r, m.1 = .widened r →
      r.lcn = g.lcn ∧ ∀ c, r.lcn ≤ c → c < r.lcn + r.length → m.2.vol.Free c := by
  have hrun : Running g g s :=
    ⟨h, htotal, rfl, h.safe.tidy.spaced.pos _ hg, fun c h1 h2 => ⟨_, hg, h1, h2⟩⟩
  have hmeets : Meets (fun m s => FitsBehind g m s ∧ Placed m s) (RunsFree g)
      (widenBehind env opts g maxMoves) s _ :=
    widenBehind_running htruth hguard (fun _ _ h => h.1) (fun _ _ h => h.2) maxMoves hrun
  obtain ⟨hseen, -⟩ := hmeets fun m hm => ⟨hfits m hm, hplaced m hm⟩
  rintro ⟨m, s'⟩ hm r rfl
  exact hseen _ hm

end Widen

theorem init_settled {env : Env} {v : Volume} {disk : List FileId} {disp : FileId → Disposition}
    (excluded : FileId → Bool) (hw : ClosedWorld env v disk disp) :
    Settled (.init v disk disp excluded) := by
  obtain ⟨hstocked, hnodup, hlcns, -⟩ := scan_accurate excluded hw
  exact ⟨init_safe excluded hw, hstocked, hnodup, Or.inl hlcns⟩

theorem widened_free_if_consecutive_one_file :
    (∃ m ∈ (widenBehind .granting gapsWidened ⟨1, 1⟩ 3
        (.init widenedVolume [0] widenedVolume.dumps fun _ => false)).seen,
      m.1 = .widened ⟨1, 3⟩)
    ∧ ∀ m ∈ (widenBehind .granting gapsWidened ⟨1, 1⟩ 3
        (.init widenedVolume [0] widenedVolume.dumps fun _ => false)).seen,
      ∀ r, m.1 = .widened r →
        r.lcn = 1 ∧ ∀ c, r.lcn ≤ c → c < r.lcn + r.length → m.2.vol.Free c := by
  have hworld : ClosedWorld .granting widenedVolume [0] widenedVolume.dumps :=
    laid_closedWorld (by decide) (by decide) (by decide) (by decide) Env.granting_truthful
  exact ⟨by decide +kernel, widened_free_if_consecutive (g := ⟨1, 1⟩)
    (init_settled (fun _ => false) hworld) (by decide) (by decide) Env.granting_truthful
    Env.granting_guarded 3 (by decide +kernel) (by decide +kernel)⟩

/-- A gap, and behind it the first of a file's two clusters. -/
def splitBehind : Volume := .laid 12 [0, 3, 4, 6, 11] [[⟨some 2, 1⟩, ⟨some 5, 1⟩]]

/-- A gap and a file behind it, and no other gap. -/
def onlyGap : Volume := .laid 9 [0, 1, 2, 8] [[⟨some 6, 2⟩]]

/-- The file behind the gap is moved in one piece, and the running gap has cluster 3, which is in
use: by something else in the first case, by the file itself in the second. -/
theorem widened_over_used_clusters :
    ((∀ m ∈ (widenBehind .granting gapsWidened ⟨1, 1⟩ 3
        (.init splitBehind [0] splitBehind.dumps fun _ => false)).seen, Placed m.1 m.2)
      ∧ ∃ m ∈ (widenBehind .granting gapsWidened ⟨1, 1⟩ 3
        (.init splitBehind [0] splitBehind.dumps fun _ => false)).seen,
        m.1 = .widened ⟨1, 3⟩ ∧ m.2.vol.used 3 = true)
    ∧ (∀ m ∈ (widenBehind .granting { gapsWidened with maxSize := 2 } ⟨3, 3⟩ 3
        (.init onlyGap [0] onlyGap.dumps fun _ => false)).seen, Placed m.1 m.2)
      ∧ ∃ m ∈ (widenBehind .granting { gapsWidened with maxSize := 2 } ⟨3, 3⟩ 3
        (.init onlyGap [0] onlyGap.dumps fun _ => false)).seen,
        m.1 = .widened ⟨1, 5⟩ ∧ m.2.vol.used 3 = true := by decide +kernel

end StopGap
