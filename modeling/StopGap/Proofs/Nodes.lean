import StopGap.Proofs.FirstGap
import StopGap.Proofs.SafeMoves

/-!
# The gap `close_gaps` holds

`close_gaps` keeps the node of the first region while `widen_behind` moves files, and pops it if
that returns false, which it also does when moves went well before one failed. If a file is moved to
the gap directly behind it, its old clusters join the gaps on both sides to one region, `pop` does
not find the target in it and scans anew, and the node is gone. Where no move does that, the node
stays the first region.
-/

namespace StopGap

open Exec Exec.Prog Runs GapEnumeration

/-- `n` clusters fit into the region that starts at `t`. No block of `bm` is joined to it from the
front, and something follows the clusters there if it is the first region. -/
def Lands (ge : GapEnumeration) (bm : List Block) (t n : ℕ) : Prop :=
  ∃ r ∈ ge.gaps, r.start = t ∧ n ≤ r.length ∧ (∀ b ∈ bm, b.lcn + b.length ≠ t)
    ∧ ((∀ e ∈ ge.regions, t ≤ e.1) → n < r.length ∨ ∃ b ∈ bm, b.lcn = t + n)

instance (ge : GapEnumeration) (bm : List Block) (t n : ℕ) : Decidable (Lands ge bm t n) :=
  inferInstanceAs (Decidable (∃ r ∈ ge.gaps, _))

/-- An iteration of `close_gaps` begins with a model that offers free clusters only. -/
def OffersFree : Mark → Operation → Prop
  | .gapsIter _, s => s.Offers
  | _, _ => True

/-- A file `widen_behind` moves lies behind the start of a region with all its blocks, and lands at
its target as a whole. -/
def LandsBehind : Mark → Operation → Prop
  | .answered .widenBehind d status, s =>
    (∀ b ∈ (s.fe.disp d.file).blockmap, ∃ e ∈ s.ge.regions, e.1 < b.lcn)
      ∧ (ntSuccess status = true → lcns (s.vol.map d.file) = List.range' d.targetLcn d.numVcns
        ∧ Lands s.ge (s.fe.disp d.file).blockmap d.targetLcn d.numVcns)
  | _, _ => True

instance (m : Mark) (s : Operation) : Decidable (OffersFree m s) := by
  refine m.casesOn ?_ ?_ ?_ ?_ ?_ ?_ ?_ ?_ ?_ ?_ ?_ <;> intros <;>
    unfold OffersFree <;> infer_instance

instance (m : Mark) (s : Operation) : Decidable (LandsBehind m s) := by
  rcases m with _ | _ | ⟨_ | _ | _, _, _⟩ | _ | _ | _ | _ | _ | _ | _ | _ <;>
    unfold LandsBehind <;> infer_instance

/-- What is seen of the node that is popped after `widen_behind` returned false. -/
def HoldsGap : Mark → Operation → Prop
  | .dropWidened g, s => g.scan = s.ge.scans ∧ ∃ e ∈ s.ge.regions, e.2 = g.node
  | _, _ => True

theorem holdsGap_ofMove (m : Mark) (s : Operation) (h : m.ofMove = true) : HoldsGap m s := by
  cases m <;> trivial

/-- The node is the first region. -/
def Holding (g : NodePtr) (s : Operation) : Prop :=
  g.scan = s.ge.scans ∧ ∃ k, First s.ge k g.node

section Holding

variable {g : NodePtr} {s s' : Operation} {f : FileId} {t n : ℕ} {B C : List ℕ}

theorem Holding.holdsGap (h : Holding g s) : HoldsGap (.dropWidened g) s := by
  obtain ⟨hscan, k, hfirst⟩ := h
  exact ⟨hscan, _, hfirst.mem, rfl⟩

theorem holding_of_nextGap (ht : Tidy 1 s.ge) (h : s.nextGap = some g) : Holding g s := by
  obtain ⟨n, hn, rfl⟩ := Option.map_eq_some_iff.1 h
  obtain ⟨e, he, rfl⟩ := Option.map_eq_some_iff.1 hn
  obtain ⟨rest, hrest⟩ := List.head?_eq_some_iff.1 he
  have hstrict := ht.indexed.views.strict
  rw [hrest, OrdMap.strict_cons] at hstrict
  refine ⟨rfl, e.1, by simp [hrest], fun e' he' => ?_⟩
  rw [hrest] at he'
  rcases List.mem_cons.1 he' with rfl | he'
  · exact le_rfl
  · exact (hstrict.1 e' he').le

theorem Holding.pushed {ge₁ : GapEnumeration} (h : Holding g s) (ht : Tidy 1 s.ge)
    (hbehind : ∀ b ∈ (s.fe.disp f).blockmap, ∃ e ∈ s.ge.regions, e.1 < b.lcn)
    (hpush : s.ge.push (s.fe.disp f).blockmap = .ok ge₁) :
    ∃ k, First s.ge k g.node ∧ First ge₁ k g.node ∧ g.scan = ge₁.scans := by
  obtain ⟨hscan, k, hfirst⟩ := h
  obtain ⟨hfirst₁, hscans⟩ := hfirst.push ht.indexed.views.strict (fun b hb => by
    obtain ⟨e, he, hlt⟩ := hbehind b hb
    exact (hfirst.least e he).trans_lt hlt) hpush
  exact ⟨k, hfirst, hfirst₁, hscan.trans hscans.symm⟩

theorem Holding.carried (h : Holding g s) (hs : Safe s) (hc : Carried s s' f t B C)
    (hbehind : ∀ b ∈ (s.fe.disp f).blockmap, ∃ e ∈ s.ge.regions, e.1 < b.lcn)
    (hwhole : lcns (s'.vol.map f) = List.range' t n)
    (hlands : Lands s.ge (s.fe.disp f).blockmap t n) : Holding g s' := by
  obtain ⟨ge₁, d, hpush, hpop, hd, hlcns, -⟩ := hc.model
  obtain ⟨htidy, hcover⟩ := hs.pushed hpush
  obtain ⟨k, hfirst, hfirst₁, hscan⟩ := h.pushed hs.tidy hbehind hpush
  obtain ⟨r, hr, rfl, hfits, hclear, hrest⟩ := hlands
  have hmax := hs.tidy.spaced.maximal hr
  have hacc := hs.sane.accurate f
  -- the region starts where it did
  have hleft : ∀ c, c + 1 = r.start → c ∉ cover ge₁.gaps := fun c hc' hin => by
    rcases (hcover c).1 hin with hin | hin
    · exact hmax.left c hc' hin
    obtain ⟨x, hx, hcx⟩ := hacc.mem_cover.2 hin
    obtain ⟨b, hb, rfl⟩ := List.mem_map.1 hx
    have hne := hclear b hb
    simp only [Run.mem_iff, Block.run] at hcx
    have hstart : r.start ∈ lcns (s.vol.map f) := hacc.mem_cover.1
      ⟨b.run, hx, by simp only [Run.mem_iff, Block.run]; omega⟩
    have hpos := hmax.pos
    exact hs.sane.sound.not_free hstart
      (hs.free _ (hmax.sub _ (by simp only [Run.mem_iff]; omega)))
  have hle : k ≤ r.start := by
    obtain ⟨e, he, rfl⟩ := mem_gapsOf.1 hr
    exact (hfirst.least e he).trans (hs.tidy.indexed.views.lcn_eq e he).le
  have hmore : r.start = k → r.start + n ∈ cover ge₁.gaps := fun heq => by
    rcases hrest fun e he => heq ▸ hfirst.least e he with hlt | ⟨b, hb, hb'⟩
    · exact (hcover _).2 (Or.inl ⟨r, hr, by omega, by omega⟩)
    · exact (hcover _).2 (Or.inr (hb' ▸ hacc.lcn_mem hb))
  obtain ⟨hfirst', hscans⟩ := hfirst₁.popBlocks htidy (hlcns.trans hwhole) hd.pos
    (fun c h1 h2 => (hcover c).2 (Or.inl ⟨r, hr, h1, by omega⟩)) hleft hle hmore hpop
  exact ⟨hscan.trans hscans.symm, hfirst'⟩

end Holding

section Runs

variable {A : Mark → Operation → Prop} {env : Env} {opts : Options} {s s' : Operation}
  {g : NodePtr} {f : FileId} (htruth : env.Truthful) (hguard : env.Guarded)
  (hlands : ∀ m s, A m s → LandsBehind m s)

include htruth hguard hlands

theorem moveFile_holding {r : Region} (hs : Safe s) (h : Holding g s) :
    Meets A HoldsGap (moveFile env .widenBehind f r) s
      ⟨fun _ s' => Safe s' ∧ Holding g s', fun s' => Usable s' ∧ Holding g s', fun _ _ => True,
        fun _ => False⟩ := by
  have hone : OneMove A HoldsGap .widenBehind f r.lcn s (fun s' => Safe s' ∧ Holding g s')
      fun s' => Usable s' ∧ Holding g s' :=
    { quiet := fun m s hm _ => holdsGap_ofMove m s hm
      pushing := fun _ _ => trivial
      empty := fun _ => ⟨hs.congr rfl rfl rfl, h⟩
      shut := ⟨(hs.congr rfl rfl rfl : Safe (s.fePopped f).tick).usable, h⟩
      granted := fun status s' B C hasked hok hc => by
        obtain ⟨hbehind, hland⟩ := hlands _ _ hasked.answered
        obtain ⟨hwhole, hland⟩ := hland hok
        simp only [Operation.replied_ge, Operation.replied_fe] at hbehind hland
        rw [Operation.replied_vol hok, ← hc.vol] at hwhole
        refine ⟨?_, hc.safe, h.carried hs hc hbehind hwhole hland⟩
        -- it has as many clusters as one request asks for
        have hlen := congrArg List.length hwhole
        simp only [Operation.request, List.length_range', hc.length_lcns,
          ← (hs.sane.accurate f).clusters] at hlen
        exact hlen ▸ min_le_right _ _
      refused := fun status s' hasked _ hf => by
        obtain ⟨hbehind, -⟩ := hlands _ _ hasked.answered
        simp only [Operation.replied_ge, Operation.replied_fe] at hbehind
        obtain ⟨k, -, hfirst, hscan⟩ := h.pushed hs.tidy hbehind hf.model
        exact ⟨hf.usable, hscan, k, hfirst⟩ }
  exact hone.meets hs htruth hguard

theorem closeGapsBody_holding (hoffers : ∀ m s, A m s → OffersFree m s) {p : Bool} (h : Usable s)
    (hg : s.nextGap = some g) :
    Meets A HoldsGap (closeGapsBody env opts g p) s (ends Usable fun _ => True) := by
  refine Meets.assume_mark fun hA => ?_
  have hs := h.safe (hoffers _ _ hA)
  have hstep : WidenStep A HoldsGap env opts (fun _ => True)
      (fun _ s => Safe s ∧ Holding g s) fun s => Usable s ∧ Holding g s :=
    { tick := fun _ _ hs => ⟨hs.1.tick, hs.2⟩
      found := fun _ lcn _ hs => ⟨hs.1.found lcn, hs.2⟩
      shown := fun _ _ _ _ => trivial
      moved := fun _ lcn _ _ _ hs _ _ _ =>
        moveFile_holding htruth hguard hlands (hs.1.found lcn) hs.2 }
  have hdropped : ∀ s ge, Usable s →
      s.ge.popRegion s.vol.winxGetFreeVolumeRegions g.node = .ok ge → Usable { s with ge := ge } :=
    fun s ge hs hge => ⟨hs.sane.congr rfl rfl, popRegion_tidy hs.tidy hge⟩
  have hrule : GapRule A HoldsGap env opts (fun _ => True) g p s Usable
      (fun s => Usable s ∧ Holding g s) Usable :=
    { current := nextGap_scan hg
      shown := fun _ => trivial
      dropping := fun _ hs _ => hs.2.holdsGap
      skipped := fun ge hge => hdropped s ge h hge
      dropped := fun s ge hs hge => hdropped s ge hs.1 hge
      breaks := trivial
      dangles := trivial
      chosen := fun _ _ => trivial
      moved := fun files _ => by
        refine (moveSet_safe htruth hguard holdsGap_ofMove hs).mono fun moved s' hs' => ?_
        cases moved with
        | false => exact hs'
        | true => exact Safe.usable hs'
      scanned := fun s hs => hs.sane.scanned.usable
      widened := fun n => by
        refine (hstep.meets n _ 0 0 s ⟨hs, holding_of_nextGap h.tidy hg⟩).mono
          fun widened s' hs' => ?_
        rcases hs' with ⟨_, hs', hheld⟩ | ⟨-, hs', hheld⟩
        · exact ⟨hs'.usable, fun _ => ⟨hs'.usable, hheld⟩⟩
        · exact ⟨hs', fun _ => ⟨hs', hheld⟩⟩ }
  exact hrule.meets

theorem run_holding (hoffers : ∀ m s, A m s → OffersFree m s) (fuel : ℕ) (h : Safe s) :
    Meets A HoldsGap (run env opts fuel) s (keeps Safe fun _ => True) := by
  have hinv : RunInvariant A HoldsGap env opts (fun _ => True) Usable Safe :=
    { tick := fun s h => h.tick
      tick_in := fun s h => ⟨h.sane.congr rfl rfl, h.tidy⟩
      replaced := fun b s h => h.congr rfl rfl rfl
      enter := fun s h => h.usable
      scanned := fun s h => h.sane.scanned
      closed := fun _ _ _ => trivial
      body := fun g p s h hg => closeGapsBody_holding htruth hguard hlands hoffers h hg
      defrag := fun s h => (defrag_safe htruth hguard holdsGap_ofMove (fun _ _ _ => trivial) h).mono
        fun _ _ hs' => Safe.usable hs' }
  exact hinv.meets fuel h

end Runs

section Uses

variable {env : Env} {opts : Options} {v : Volume} {disk : List FileId}
  {disp : FileId → Disposition} {excluded : FileId → Bool}

/-- As long as `close_gaps` begins its iterations with a model that offers free clusters only, and
the files `widen_behind` moves lie behind the first region and land as a whole in a gap that is not
directly behind them, the node `close_gaps` pops after `widen_behind` is a region of the model. -/
theorem dropped_gap_held_if_landed (hw : ClosedWorld env v disk disp) (hguard : env.Guarded)
    (fuel : ℕ)
    (hoffers : ∀ m ∈ (run env opts fuel (.init v disk disp excluded)).seen, OffersFree m.1 m.2)
    (hlands : ∀ m ∈ (run env opts fuel (.init v disk disp excluded)).seen, LandsBehind m.1 m.2) :
    ∀ m ∈ (run env opts fuel (.init v disk disp excluded)).seen, ∀ g, m.1 = .dropWidened g →
      g.scan = m.2.ge.scans ∧ ∃ e ∈ m.2.ge.regions, e.2 = g.node := by
  obtain ⟨hseen, -⟩ := run_holding (A := fun m s => OffersFree m s ∧ LandsBehind m s) hw.truthful
    hguard (fun _ _ h => h.2) (fun _ _ h => h.1) fuel (init_safe excluded hw)
    fun m hm => ⟨hoffers m hm, hlands m hm⟩
  rintro ⟨m, s⟩ hm g rfl
  exact hseen _ hm

theorem dropped_gap_held_if_landed_widened :
    (∃ m ∈ (run .granting gapsWidened 6
        (.init widenedVolume [0] widenedVolume.dumps fun _ => false)).seen,
      ∃ d, m.1 = .answered .widenBehind d 0)
    ∧ (∃ m ∈ (run .granting gapsWidened 6
        (.init widenedVolume [0] widenedVolume.dumps fun _ => false)).seen,
      ∃ g, m.1 = .dropWidened g)
    ∧ ∀ m ∈ (run .granting gapsWidened 6
        (.init widenedVolume [0] widenedVolume.dumps fun _ => false)).seen,
      ∀ g, m.1 = .dropWidened g →
        g.scan = m.2.ge.scans ∧ ∃ e ∈ m.2.ge.regions, e.2 = g.node := by
  have hmoved : ∃ m ∈ (run .granting gapsWidened 6
      (.init widenedVolume [0] widenedVolume.dumps fun _ => false)).seen,
      m.1 = .answered .widenBehind ⟨0, 0, 5, 2⟩ 0 := by decide +kernel
  have hdropped : ∃ m ∈ (run .granting gapsWidened 6
      (.init widenedVolume [0] widenedVolume.dumps fun _ => false)).seen,
      m.1 = .dropWidened ⟨1, 0⟩ := by decide +kernel
  obtain ⟨m, hm, heq⟩ := hmoved
  obtain ⟨m', hm', heq'⟩ := hdropped
  exact ⟨⟨m, hm, _, heq⟩, ⟨m', hm', _, heq'⟩, dropped_gap_held_if_landed
    (laid_closedWorld (by decide) (by decide) (by decide) (by decide) Env.granting_truthful)
    Env.granting_guarded 6 (by decide +kernel) (by decide +kernel)⟩

/-- Requests with a target from `lo` on and below `hi` are granted if the target is free, all others
get `STATUS_ACCESS_DENIED`. -/
def Env.grantingWithin (lo hi : ℕ) : Env :=
  { Env.granting with status := fun k v d =>
      if lo ≤ d.targetLcn ∧ d.targetLcn < hi then Env.granting.status k v d else 0xC0000022#32 }

theorem Env.grantingWithin_guarded (lo hi : ℕ) : (Env.grantingWithin lo hi).Guarded := by
  intro k v d hok
  unfold Env.grantingWithin at hok
  simp only at hok
  split_ifs at hok
  · exact Env.granting_guarded k v d hok
  · exact absurd hok (by decide)

/-- A small gap, three small files behind it, a larger one, the gap that just holds it, and a large
gap. -/
def gapBehindFile : Volume :=
  .laid 42 [0, 24, 25, 41] [[⟨some 2, 2⟩], [⟨some 4, 2⟩], [⟨some 6, 2⟩], [⟨some 8, 8⟩]]

/-- The small files are moved away, and lost when they should fill the gap. Then the larger file is
moved to the gap directly behind it, its second move fails, and the node that is popped was freed
by the scan between. The model offers free clusters only whenever an iteration begins. -/
theorem dropped_gap_freed_by_scan :
    ClosedWorld (.grantingWithin 16 32) gapBehindFile [0, 1, 2, 3] gapBehindFile.dumps
    ∧ (Env.grantingWithin 16 32).Guarded
    ∧ (∀ m ∈ (run (.grantingWithin 16 32) { gapsWidened with maxSize := 18 } 5
        (.init gapBehindFile [0, 1, 2, 3] gapBehindFile.dumps fun _ => false)).seen,
      OffersFree m.1 m.2)
    ∧ ∃ m ∈ (run (.grantingWithin 16 32) { gapsWidened with maxSize := 18 } 5
        (.init gapBehindFile [0, 1, 2, 3] gapBehindFile.dumps fun _ => false)).seen,
      m.1 = .dropWidened ⟨4, 0⟩ ∧ m.2.ge.scans = 5 := by
  refine ⟨?_, Env.grantingWithin_guarded 16 32, by decide +kernel, by decide +kernel⟩
  exact laid_closedWorld (by decide) (by decide) (by decide) (by decide) Env.granting_truthful

end Uses

end StopGap
