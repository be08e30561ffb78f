import StopGap.Proofs.FirstGap
import StopGap.Proofs.Widening

/-!
# The region before a block

`push` finds the region before a block by one step back from `lower_bound`, and there is nothing to
step back to if the block lies in front of every region. The files `close_gaps` fills a gap with
come from behind it, so the rest of the gap is always before them. `defrag` takes files in pieces
from anywhere on the volume, and `widen_behind` needs one block only to lie behind the gap.
-/

namespace StopGap

open Exec Exec.Prog Runs GapEnumeration FileEnumeration

/-- Each block that is not empty finds a region that starts before it, among those the blocks before
it have left. -/
def HasPredecessors (ge : GapEnumeration) (bm : List Block) : Prop :=
  ∀ done b rest ge', bm = done ++ b :: rest → ge.push done = .ok ge' → b.length ≠ 0 →
    ∃ e ∈ ge'.regions, e.1 < b.lcn

/-- What is seen of the model when a file is pushed. -/
def ShowsPredecessors : Mark → Operation → Prop
  | .gePush f, s => HasPredecessors s.ge (s.fe.disp f).blockmap
  | _, _ => True

/-- Some free cluster lies in front of the whole file. -/
def Operation.FreeBefore (s : Operation) (f : FileId) : Prop :=
  ∃ c ∈ List.range s.vol.total, s.vol.Free c ∧ ∀ c' ∈ lcns (s.vol.map f), c < c'

/-- `findBest` picks no file twice for the first gap. -/
def Operation.PicksOnce (s : Operation) (partialOK : Bool) : Prop :=
  ∀ g ∈ s.nextGap, ∀ files ∈ (s.fe.findBest (s.ge.node g.node).lcn (s.ge.node g.node).length
    partialOK).toOption, files.Nodup

/-- One request is enough for each file. A file `defrag` has a gap for lies behind a free cluster,
and a file of `widen_behind` is in one piece. An iteration of `close_gaps` begins with a model that
offers free clusters only, and picks no file twice. -/
def Tame : Mark → Operation → Prop
  | .fePop f, s => (s.fe.disp f).clusters ≤ maxChunk
  | .defragIter f, s => s.ge.best (s.fe.disp f).clusters none false ≠ none → s.FreeBefore f
  | .gapsIter partialOK, s => s.Offers ∧ s.PicksOnce partialOK
  | .request .widenBehind d, s => Consecutive (s.vol.map d.file) ∧ NoHoles (s.vol.map d.file)
  | _, _ => True

instance (s : Operation) (f : FileId) : Decidable (s.FreeBefore f) :=
  inferInstanceAs (Decidable (∃ c ∈ List.range s.vol.total, _))

instance (s : Operation) (partialOK : Bool) : Decidable (s.PicksOnce partialOK) :=
  inferInstanceAs (Decidable (∀ g ∈ s.nextGap, _))

instance (m : Mark) (s : Operation) : Decidable (Tame m s) := by
  rcases m with _ | ⟨_ | _ | _, _⟩ | _ | _ | _ | _ | _ | _ | _ | _ | _ <;> unfold Tame <;>
    infer_instance

theorem hasPredecessors_of_cover {ge : GapEnumeration} {bm : List Block} {c : ℕ} (ht : Tidy 1 ge)
    (hc : c ∈ cover ge.gaps) (hlt : ∀ b ∈ bm, c < b.lcn) : HasPredecessors ge bm := by
  obtain ⟨r, hr, hcr⟩ := hc
  obtain ⟨e, he, rfl⟩ := mem_gapsOf.1 hr
  have hV := ht.indexed.views
  have hkey : e.1 ≤ c := (hV.lcn_eq e he).trans_le hcr.1
  rintro done b rest ge' rfl hpush -
  obtain ⟨-, hkept, -⟩ := push_regions hV.strict hpush
  have hin := hkept e he fun b' hb' => hkey.trans_lt (hlt b' (by simp [hb']))
  exact ⟨e, hin, hkey.trans_lt (hlt b (by simp))⟩

section States

variable {s s' : Operation} {f : FileId} {t : ℕ} {B C : List ℕ}

/-- The stock and the model are in order, but the model may take used clusters for free. -/
structure Workable (s : Operation) : Prop where
  shelf : Shelf s.vol s.fe
  tidy : Tidy 1 s.ge
  total : s.vol.total < 2 ^ 64

/-- The model offers the free clusters, all of them. -/
structure Complete (s : Operation) : Prop where
  shelf : Shelf s.vol s.fe
  tidy : Tidy 1 s.ge
  free : ∀ c, c ∈ cover s.ge.gaps ↔ s.vol.Free c
  total : s.vol.total < 2 ^ 64

theorem Workable.settled (h : Workable s) (ho : s.Offers) : Settled s := by
  have husable : Usable s := ⟨⟨h.shelf.sound, h.shelf.accurate⟩, h.tidy⟩
  exact .of_shelf (husable.safe ho) h.shelf

theorem Workable.scanned (h : Workable s) : Complete s.scanned :=
  ⟨h.shelf, scan_tidy _ _, mem_cover_scan _ _, h.total⟩

theorem Settled.workable (h : Settled s) (htotal : s.vol.total < 2 ^ 64) : Workable s :=
  ⟨h.shelf, h.safe.tidy, htotal⟩

theorem Complete.settled (h : Complete s) : Settled s :=
  .of_shelf ⟨⟨h.shelf.sound, h.shelf.accurate⟩, h.tidy, fun c hc => (h.free c).1 hc⟩ h.shelf

theorem Complete.carried (h : Complete s) (hc : Carried s s' f t B C) : Complete s' := by
  refine ⟨hc.shelf h.shelf, hc.safe.tidy, fun c => ⟨hc.safe.free c, fun hfree => ?_⟩,
    hc.moved.total ▸ h.total⟩
  refine hc.covers c ?_ hfree
  rcases ((hc.moved.free h.shelf.sound c).1 hfree).1 with hc' | hc'
  · exact Or.inl ((h.free c).2 hc')
  · exact Or.inr (by simp [hc.moved.before, hc'])

/-- The first gap is a region of the model. -/
theorem nextGap_mem {g : NodePtr} (h : s.nextGap = some g) :
    (s.ge.node g.node).run ∈ s.ge.gaps := by
  obtain ⟨n, hn, rfl⟩ := Option.map_eq_some_iff.1 h
  obtain ⟨e, he, rfl⟩ := Option.map_eq_some_iff.1 hn
  exact mem_gapsOf.2 ⟨e, List.mem_of_head? he, rfl⟩

/-- `files` are still to be moved, from behind `e` to the rest of the gap that ends there. -/
structure Filling (e : ℕ) (files : List FileId) (r : Region) (s : Operation) : Prop where
  settled : Settled s
  total : s.vol.total < 2 ^ 64
  nodup : files.Nodup
  behind : ∀ f ∈ files, ∀ c ∈ lcns (s.vol.map f), e ≤ c
  pos : ∀ f ∈ files, 0 < (lcns (s.vol.map f)).length
  fits : r.lcn + (files.map fun f => (lcns (s.vol.map f)).length).sum ≤ e
  covered : ∀ c, r.lcn ≤ c → c < e → c ∈ cover s.ge.gaps

namespace Filling

variable {e : ℕ} {files : List FileId} {r : Region}

theorem hasPredecessors (h : Filling e (f :: files) r s) :
    HasPredecessors s.ge (s.fe.disp f).blockmap := by
  have hpos := h.pos f (by simp)
  have hfits := h.fits
  rw [List.map_cons, List.sum_cons] at hfits
  refine hasPredecessors_of_cover h.settled.safe.tidy (h.covered r.lcn le_rfl (by omega))
    fun b hb => ?_
  have := h.behind f (by simp) _ ((h.settled.safe.sane.accurate f).lcn_mem hb)
  omega

theorem carried (h : Filling e (f :: files) r s) (hc : Carried s s' f r.lcn B C) (length : ℕ) :
    Filling e files ⟨r.lcn + (s'.fe.disp f).clusters, length⟩ s' := by
  have hsane := h.settled.safe.sane
  obtain ⟨hf, hnd⟩ := List.nodup_cons.1 h.nodup
  have hothers : ∀ g ∈ files, s'.vol.map g = s.vol.map g := fun g hg =>
    hc.moved.others g fun heq => hf (heq ▸ hg)
  have hclusters : (s'.fe.disp f).clusters = (lcns (s.vol.map f)).length := by
    rw [hc.clusters hsane, (hsane.accurate f).clusters]
  refine ⟨h.settled.carried hc, hc.moved.total ▸ h.total, hnd, fun g hg => ?_, fun g hg => ?_, ?_,
    fun c h1 h2 => ?_⟩
  · rw [hothers g hg]
    exact h.behind g (by simp [hg])
  · rw [hothers g hg]
    exact h.pos g (by simp [hg])
  · have hfits := h.fits
    rw [List.map_cons, List.sum_cons, ← Nat.add_assoc] at hfits
    rw [List.map_congr_left fun g hg => by rw [hothers g hg], hclusters]
    exact hfits
  · -- the file has taken no more of the gap than it has clusters
    have hB : B.length ≤ (lcns (s.vol.map f)).length := by simp [hc.moved.before]
    simp only [hclusters] at h1
    have hcov := h.covered c (by omega) h2
    refine hc.covers c (Or.inl hcov) ((hc.moved.free hsane.sound c).2 ⟨Or.inl ?_, by omega⟩)
    exact h.settled.safe.free c hcov

end Filling

theorem Settled.filling {r : Region} {p : Bool} {files : List FileId} (h : Settled s)
    (htotal : s.vol.total < 2 ^ 64) (hr : r.run ∈ s.ge.gaps)
    (hfiles : s.fe.findBest r.lcn r.length p = .ok files) (hnd : files.Nodup) :
    Filling (r.lcn + r.length) files r s := by
  have hsane := h.safe.sane
  obtain ⟨files', hfiles', hchosen⟩ := findBest_spec h.stocked r.lcn r.length p
  obtain rfl := Except.ok.inj (hfiles.symm.trans hfiles')
  have hcovered : ∀ c, r.lcn ≤ c → c < r.lcn + r.length → c ∈ cover s.ge.gaps :=
    fun c h1 h2 => ⟨_, hr, h1, h2⟩
  refine ⟨h, htotal, hnd, fun f hf c hc => ?_, fun f hf => ?_, ?_, hcovered⟩
  · have hlt := (hchosen.mem f hf).lt h.stocked (hsane.accurate f) c hc
    by_contra hin
    exact hsane.sound.not_free hc (h.safe.free c (hcovered c hlt.le (by omega)))
  · rw [← (hsane.accurate f).clusters]
    exact (hchosen.mem f hf).clusters_pos h.stocked
  · have hsum := hchosen.sum
    unfold clustersOf at hsum
    rw [List.map_congr_left fun f _ => (hsane.accurate f).clusters] at hsum
    exact Nat.add_le_add_left hsum _

/-- The running gap of `widen_behind` is as it should be, or there is no file at its end. -/
def Widens (g r : Region) (s : Operation) : Prop :=
  Running g r s ∨ Settled s ∧ s.vol.total < 2 ^ 64 ∧ s.vol.Free ((r.lcn + r.length) % 2 ^ 64)

theorem Widens.workable {g r : Region} (h : Widens g r s) : Workable s := by
  rcases h with h | ⟨h, htotal, -⟩
  · exact h.settled.workable h.total
  · exact h.workable htotal

/-- Where the file from the end of the gap goes to the start of the gap. -/
theorem Running.back {g r : Region} (h : Running g r s)
    (hin : r.lcn + r.length ∈ lcns (s.vol.map f)) (hle : (s.fe.disp f).clusters ≤ r.length)
    (hc : Carried s s' f r.lcn B C) (hC : C = []) :
    Widens g ⟨subU64 r.lcn (s'.fe.disp f).clusters, r.length + (s'.fe.disp f).clusters⟩ s' := by
  have hsane := h.settled.safe.sane
  have hB : lcns (s.vol.map f) = B := by simpa [hC] using hc.moved.before
  refine Or.inr ⟨h.settled.carried hc, hc.moved.total ▸ h.total, ?_⟩
  have hend := h.end_lt
  have hsame : (subU64 r.lcn (s'.fe.disp f).clusters + (r.length + (s'.fe.disp f).clusters))
      % 2 ^ 64 = r.lcn + r.length := by
    rw [hc.clusters hsane]
    unfold subU64
    omega
  simp only [hsame]
  refine (hc.moved.free hsane.sound _).2 ⟨Or.inr (hB ▸ hin), ?_⟩
  rw [← hB, ← (hsane.accurate f).clusters]
  omega

end States

section Runs

variable {A : Mark → Operation → Prop} {env : Env} {opts : Options} {s : Operation} {f : FileId}
  {caller : Caller} {r : Region} (htruth : env.Truthful) (hguard : env.Guarded)
  (htame : ∀ m s, A m s → Tame m s)

include htruth hguard htame

theorem moveFile_predecessors {Q : Operation → Prop} (hs : Settled s)
    (htotal : s.vol.total < 2 ^ 64)
    (hpush : ∀ status, Asked A caller f r.lcn s status →
      HasPredecessors s.ge (s.fe.disp f).blockmap)
    (hempty : (s.fe.disp f).clusters = 0 → Q ((s.fePopped f).movedFile f))
    (hgranted : ∀ status s' B C, Asked A caller f r.lcn s status →
      Carried s s' f r.lcn B C → Q s') :
    Meets A ShowsPredecessors (moveFile env caller f r) s
      ⟨fun _ s' => Q s', Workable, fun _ _ => True, fun _ => False⟩ := by
  have hone : OneMove A ShowsPredecessors caller f r.lcn s Q Workable :=
    { quiet := fun m _ _ hne => by
        cases m with
        | gePush h => exact absurd rfl (hne h)
        | _ => trivial
      pushing := fun status hasked => by
        simp only [ShowsPredecessors, Operation.replied_ge, Operation.replied_fe]
        exact hpush status hasked
      empty := hempty
      shut := ⟨hs.shelf.pop f, hs.safe.tidy, htotal⟩
      granted := fun status s' B C hasked _ hc =>
        ⟨htame _ _ hasked.popped, hgranted status s' B C hasked hc⟩
      refused := fun _ s' _ _ hf => ⟨hf.shelf hs.shelf, hf.usable.tidy, hf.vol ▸ htotal⟩ }
  exact hone.meets hs.safe htruth hguard

theorem defragBody_predecessors (h : Complete s) :
    Meets A ShowsPredecessors (defragBody env f) s (ends Complete fun _ => True) := by
  refine Meets.assume_mark fun hA => ?_
  have hfront := htame _ _ hA
  have hstep : DefragStep A ShowsPredecessors env (fun _ => True) f s
      (fun s => Complete s ∧ Tame (.defragIter f) s) Workable Complete :=
    { shown := fun _ => trivial
      popped := fun _ _ => ⟨fun _ => trivial, ⟨h.shelf.pop f, h.tidy, h.free, h.total⟩, hfront⟩
      go := fun _ => ⟨h, hfront⟩
      idle := fun _ hs => hs.1
      moved := fun s n hs hbest => by
        obtain ⟨h, hfront⟩ := hs
        refine moveFile_predecessors htruth hguard htame h.settled h.total (fun _ _ => ?_)
          (fun _ => ⟨h.shelf.pop f, h.tidy, h.free, h.total⟩) fun _ _ _ _ _ hc => h.carried hc
        obtain ⟨c, -, hfree, hlt⟩ := hfront (by simp [hbest])
        exact hasPredecessors_of_cover h.tidy ((h.free c).2 hfree) fun b hb =>
          hlt _ ((h.shelf.accurate f).lcn_mem hb)
      scanned := fun _ hs => hs.scanned }
  exact hstep.meets

theorem defrag_predecessors (h : Complete s) :
    Meets A ShowsPredecessors (defrag env) s (ends Complete fun _ => True) := by
  refine (defrag_meets (Q := fun _ => Complete)
    (fun _ _ h => ⟨h.shelf, h.tidy, h.free, h.total⟩)
    (fun _ _ _ h => defragBody_predecessors htruth hguard htame h)
    fun _ _ _ _ => ⟨h.shelf, h.tidy, h.free, h.total⟩).mono fun _ _ hs' => ?_
  obtain ⟨-, hs'⟩ := hs'
  exact hs'

theorem moveSet_predecessors {e : ℕ} {files : List FileId} (h : Filling e files r s) :
    Meets A ShowsPredecessors (moveSet env files r) s
      ⟨fun _ s' => Workable s', fun _ => False, fun _ _ => True, fun _ => False⟩ := by
  refine (moveSet_meets (Q := Filling e) (T := Workable) (fun files r s h =>
      ⟨h.settled.tick, h.total, h.nodup, h.behind, h.pos, h.fits, h.covered⟩)
    (fun f files r s h => ?_) h).mono fun moved s' hs' => ?_
  · refine moveFile_predecessors htruth hguard htame h.settled h.total
      (fun _ _ => h.hasPredecessors) (fun h0 => ?_) fun _ _ _ _ _ hc => h.carried hc _
    have hpos := h.pos f (by simp)
    rw [← (h.settled.safe.sane.accurate f).clusters] at hpos
    omega
  · cases moved with
    | false => exact hs'
    | true =>
      obtain ⟨files', r', hs'⟩ := hs'
      exact hs'.settled.workable hs'.total

theorem widenBehind_predecessors {g : Region} (h : Running g g s) (n : ℕ) :
    Meets A ShowsPredecessors (widenBehind env opts g n) s (ends Workable fun _ => True) := by
  have hstep : WidenStep A ShowsPredecessors env opts (fun _ => True) (Widens g) Workable :=
    { tick := fun _ _ hs => hs.imp Running.tick fun h => ⟨h.1.tick, h.2⟩
      found := fun _ lcn _ hs => hs.imp (fun h => h.found lcn) fun h => ⟨h.1.found lcn, h.2⟩
      shown := fun _ _ _ _ => trivial
      moved := fun r lcn s f target hs hlcn hf htarget => by
        rcases hs with hs | ⟨hs, -, hfree⟩
        swap
        · exact absurd (hlcn ▸ hfree) (hs.safe.sane.sound.not_free (hs.of_findAt hf).2)
        rw [Nat.mod_eq_of_lt hs.end_lt] at hlcn
        subst hlcn
        obtain ⟨hstock, hin⟩ := hs.settled.of_findAt hf
        have hpos := hs.settled.pos hstock
        have hs' := hs.found (r.lcn + r.length)
        have hsane := hs'.settled.safe.sane
        refine moveFile_predecessors htruth hguard htame hs'.settled hs'.total
          (fun _ hasked => ?_) (fun h0 => ?_) fun status s' B C hasked hc => ?_
        · obtain ⟨hcon, -⟩ := htame _ _ hasked.requested
          have hrpos := hs.pos
          refine hasPredecessors_of_cover hs'.settled.safe.tidy
            (hs'.covered r.lcn le_rfl (by omega)) fun b hb => ?_
          have := ((hs'.file_at_end hcon hin _).1 ((hsane.accurate f).lcn_mem hb)).1
          omega
        · rw [findAt_disp] at h0
          exact absurd h0 hpos.ne'
        · obtain ⟨hcon, hsolid⟩ := htame _ _ hasked.requested
          have hC := hc.solid hsolid (htame _ _ hasked.popped)
          unfold widenTarget at htarget
          split at htarget
          · rename_i k hbest
            obtain rfl := Option.some.inj htarget
            obtain ⟨hgap, hlt⟩ := best_behind hs.settled.safe.tidy.indexed hbest
            exact Or.inl (hs'.carried hcon hin (hs'.lt_of_behind hgap hlt) hc hC)
          · split_ifs at htarget with hfits
            obtain rfl := Option.some.inj htarget
            exact hs'.back hin hfits.2 hc hC }
  refine (hstep.meets n g 0 0 s (Or.inl h)).mono fun widened s' hs' => ?_
  rcases hs' with ⟨r', hs'⟩ | ⟨-, hs'⟩
  · exact hs'.workable
  · exact hs'

theorem closeGapsBody_predecessors {g : NodePtr} {p : Bool} (h : Workable s)
    (hg : s.nextGap = some g) :
    Meets A ShowsPredecessors (closeGapsBody env opts g p) s (ends Workable fun _ => True) := by
  refine Meets.assume_mark fun hA => ?_
  obtain ⟨hoffers, honce⟩ := htame _ _ hA
  have hs := h.settled hoffers
  have hmem := nextGap_mem hg
  have hstep : GapStep A ShowsPredecessors env opts (fun _ => True) g p s Workable Workable :=
    { inv := h
      current := nextGap_scan hg
      shown := fun _ => trivial
      dropping := fun _ _ _ => trivial
      dropped := fun s ge hs hge => ⟨hs.shelf, popRegion_tidy hs.tidy hge, hs.total⟩
      breaks := trivial
      dangles := trivial
      chosen := fun _ _ => trivial
      moved := fun files hfiles => by
        have hnd := honce g hg files (by simp [hfiles, Except.toOption])
        refine (moveSet_predecessors htruth hguard htame
          (hs.filling h.total hmem hfiles hnd)).mono fun moved s' hs' => ?_
        cases moved with
        | false => exact hs'
        | true => exact hs'
      scanned := fun _ hs => hs.scanned.settled.workable hs.total
      widened := fun n => widenBehind_predecessors htruth hguard htame ⟨hs, h.total, rfl,
        hs.safe.tidy.spaced.pos _ hmem, fun c h1 h2 => ⟨_, hmem, h1, h2⟩⟩ n }
  exact hstep.meets

theorem run_predecessors (fuel : ℕ) (h : Complete s) :
    Meets A ShowsPredecessors (run env opts fuel) s (keeps Complete fun _ => True) := by
  have hinv : RunInvariant A ShowsPredecessors env opts (fun _ => True) Workable Complete :=
    { tick := fun s h => ⟨h.shelf, h.tidy, h.free, h.total⟩
      tick_in := fun s h => ⟨h.shelf, h.tidy, h.total⟩
      replaced := fun b s h => ⟨h.shelf, h.tidy, h.free, h.total⟩
      enter := fun s h => ⟨h.shelf, h.tidy, h.total⟩
      scanned := fun s h => h.scanned
      closed := fun _ _ _ => trivial
      body := fun g p s h hg => closeGapsBody_predecessors htruth hguard htame h hg
      defrag := fun s h => (defrag_predecessors htruth hguard htame h).mono fun _ _ hs' =>
        ⟨hs'.shelf, hs'.tidy, hs'.total⟩ }
  exact hinv.meets fuel h

end Runs

section Pushes

variable {env : Env} {opts : Options} {v : Volume} {disk : List FileId}
  {disp : FileId → Disposition} {excluded : FileId → Bool}

/-- In a tame run each block that is pushed has a region before it. -/
theorem push_has_predecessors_if_tame (hw : ClosedWorld env v disk disp) (hguard : env.Guarded)
    (htotal : v.total < 2 ^ 64) (fuel : ℕ)
    (htame : ∀ m ∈ (run env opts fuel (.init v disk disp excluded)).seen, Tame m.1 m.2) :
    ∀ m ∈ (run env opts fuel (.init v disk disp excluded)).seen, ∀ f, m.1 = .gePush f →
      HasPredecessors m.2.ge (m.2.fe.disp f).blockmap := by
  have hinit : Complete (.init v disk disp excluded) :=
    ⟨(init_settled excluded hw).shelf, scan_tidy _ _, mem_cover_scan _ _, htotal⟩
  obtain ⟨hseen, -⟩ := run_predecessors (A := Tame) hw.truthful hguard (fun _ _ h => h) fuel hinit
    htame
  rintro ⟨m, s⟩ hm f rfl
  exact hseen _ hm

/-- A gap of one cluster, a file behind it, a file in pieces and a large gap. -/
def splitAfterGap : Volume :=
  .laid 16 [0, 4, 6, 8, 15] [[⟨some 2, 2⟩], [⟨some 5, 1⟩, ⟨some 7, 1⟩]]

theorem push_has_predecessors_if_tame_all_callers :
    (∀ caller, ∃ m ∈ (run .granting { gapsWidened with defrag := true } 2
        (.init splitAfterGap [0, 1] splitAfterGap.dumps fun _ => false)).seen,
      ∃ d, m.1 = .request caller d)
    ∧ ∀ m ∈ (run .granting { gapsWidened with defrag := true } 2
        (.init splitAfterGap [0, 1] splitAfterGap.dumps fun _ => false)).seen,
      ∀ f, m.1 = .gePush f → HasPredecessors m.2.ge (m.2.fe.disp f).blockmap := by
  have hpushed : ∀ d ∈ [(Caller.defrag, (⟨1, 0, 9, 2⟩ : MoveFileDescriptor)),
      (.widenBehind, ⟨0, 0, 11, 2⟩), (.moveSet, ⟨0, 0, 1, 2⟩)],
      ∃ m ∈ (run .granting { gapsWidened with defrag := true } 2
        (.init splitAfterGap [0, 1] splitAfterGap.dumps fun _ => false)).seen,
      m.1 = .request d.1 d.2 := by decide +kernel
  refine ⟨fun caller => ?_, push_has_predecessors_if_tame
    (laid_closedWorld (by decide) (by decide) (by decide) (by decide) Env.granting_truthful)
    Env.granting_guarded (by decide) 2 (by decide +kernel)⟩
  cases caller with
  | defrag =>
    obtain ⟨m, hm, heq⟩ := hpushed (.defrag, ⟨1, 0, 9, 2⟩) (by simp)
    exact ⟨m, hm, _, heq⟩
  | moveSet =>
    obtain ⟨m, hm, heq⟩ := hpushed (.moveSet, ⟨0, 0, 1, 2⟩) (by simp)
    exact ⟨m, hm, _, heq⟩
  | widenBehind =>
    obtain ⟨m, hm, heq⟩ := hpushed (.widenBehind, ⟨0, 0, 11, 2⟩) (by simp)
    exact ⟨m, hm, _, heq⟩

/-- A file in pieces, and behind it the only gap. -/
def splitBeforeGap : Volume := .laid 9 [0, 2, 4, 8] [[⟨some 1, 1⟩, ⟨some 3, 1⟩]]

/-- `defrag` moves the file to the gap, and pushes its blocks where no region is before them. -/
theorem defrag_pushes_before_first_region :
    ClosedWorld .granting splitBeforeGap [0] splitBeforeGap.dumps ∧ Env.granting.Guarded
    ∧ ∃ m ∈ (run .granting defragAndGaps 1
        (.init splitBeforeGap [0] splitBeforeGap.dumps fun _ => false)).seen,
      m.1 = .gePush 0 ∧ ¬ HasPredecessors m.2.ge (m.2.fe.disp 0).blockmap := by
  have hpushed : ∃ m ∈ (run .granting defragAndGaps 1
      (.init splitBeforeGap [0] splitBeforeGap.dumps fun _ => false)).seen, m.1 = .gePush 0
        ∧ (m.2.fe.disp 0).blockmap = [⟨0, 1, 1⟩, ⟨1, 3, 1⟩]
        ∧ ∀ e ∈ m.2.ge.regions, ¬ e.1 < 1 := by decide +kernel
  obtain ⟨m, hm, heq, hbm, hregions⟩ := hpushed
  refine ⟨laid_closedWorld (by decide) (by decide) (by decide) (by decide) Env.granting_truthful,
    Env.granting_guarded, m, hm, heq, fun hpred => ?_⟩
  obtain ⟨e, he, hlt⟩ := hpred [] ⟨0, 1, 1⟩ [⟨1, 3, 1⟩] m.2.ge hbm rfl (by decide)
  exact hregions e he hlt

end Pushes

end StopGap
