import StopGap.Proofs.Stock
import StopGap.Proofs.Steps

/-!
# Files out of stock

`FileEnumeration::pop` expects the file in `buckets_` under its cluster count. Files are held by
pointer in the list `defrag` makes, in the set the chooser returns, in the index of `findAt` and as
the file moved last. All of these stay in stock until they are popped, and `move_file` puts them
back. The case in `defrag` for the file moved last pops it too, and then goes on to `move_file`,
which pops it once more if there is a gap for it. The file moved last can still be fragmented if it
has holes: the request for as many virtual clusters as it has clusters does not reach its end.
-/

namespace StopGap

open Exec Exec.Prog FileEnumeration

def FileEnumeration.Holds (fe : FileEnumeration) (f : FileId) : Prop := ∃ e ∈ fe.buckets, e.2 = f

/-- `defrag` finds no gap for the file moved last. -/
def LastIdle : Mark → Operation → Prop
  | .defragIter f, s => s.last = some f → s.ge.best (s.fe.disp f).clusters none false = none
  | _, _ => True

instance (m : Mark) (s : Operation) : Decidable (LastIdle m s) := by
  refine m.casesOn ?_ ?_ ?_ ?_ ?_ ?_ ?_ ?_ ?_ ?_ ?_ <;> intros <;>
    unfold LastIdle <;> infer_instance

/-- What a run shows at its marks: a file to be popped is there. -/
def ShowsPresent : Mark → Operation → Prop
  | .fePop f, s => s.fe.Present f
  | _, _ => True

/-- The files in stock are small and known, and the index leads to files in stock. -/
structure Kept (v : Volume) (fe : FileEnumeration) : Prop where
  small : ∀ f, (lcns (v.map f)).length < maxChunk
  accurate : ∀ e ∈ fe.buckets, Accurate (v.map e.2) (fe.disp e.2)
  stocked : fe.Stocked
  nodup : (fe.buckets.map Prod.snd).Nodup
  strict : OrdMap.Strict fe.lcns
  indexed : ∀ x ∈ fe.lcns, x ∈ fe.allStarts

/-- `f` is out of stock with its clusters, and every other file of `fe₀` is in. -/
structure Taken (fe₀ : FileEnumeration) (f : FileId) (v : Volume) (fe : FileEnumeration) :
    Prop where
  kept : Kept v fe
  gone : ∀ e ∈ fe.buckets, e.2 ≠ f
  others : ∀ g, g ≠ f → fe₀.Holds g → fe.Holds g
  pos : 0 < (lcns (v.map f)).length

variable {v : Volume} {fe fe₀ : FileEnumeration} {f : FileId}

theorem Kept.findAt (h : Kept v fe) (lcn : ℕ) : Kept v (fe.findAt lcn).1 := by
  unfold FileEnumeration.findAt
  split_ifs
  · refine ⟨h.small, h.accurate, h.stocked.congr rfl rfl, h.nodup,
      OrdMap.Strict.foldl_insert List.Pairwise.nil _, fun x hx => ?_⟩
    rcases OrdMap.mem_of_mem_foldl_insert hx with hx | hx
    · cases hx
    · exact hx
  · exact h

theorem Kept.holds_of_findAt (h : Kept v fe) {lcn : ℕ} (hf : (fe.findAt lcn).2 = some f) :
    (fe.findAt lcn).1.Holds f := by
  have hfind : (fe.findAt lcn).2 = (OrdMap.find lcn (fe.findAt lcn).1.lcns).map Prod.snd := rfl
  obtain ⟨x, hx, rfl⟩ := Option.map_eq_some_iff.1 (hfind ▸ hf)
  exact (mem_allStarts.1 ((h.findAt lcn).indexed x (OrdMap.find_some hx).1)).1

theorem Kept.pop (h : Kept v fe) (hf : fe.Holds f) : Taken fe f v (fe.pop f) := by
  have hpres := h.stocked.present hf
  refine ⟨⟨h.small, fun e he => h.accurate e (List.mem_of_mem_erase he), h.stocked.pop f,
    nodup_pop h.nodup f, pop_lcns fe f ▸ h.strict.foldl_erase _, fun x hx => ?_⟩,
    h.stocked.gone h.nodup f, fun g hg hin => ?_, ?_⟩
  · -- an entry of the index that is not one of `f`
    rw [pop_lcns, OrdMap.mem_foldl_erase h.strict] at hx
    rcases List.mem_append.1 ((allStarts_pop_perm hpres).mem_iff.2 (h.indexed x hx.1)) with hs | hs
    · obtain ⟨-, b, hb, hbx⟩ := mem_starts.1 hs
      exact absurd (List.mem_map.2 ⟨b, hb, hbx⟩) hx.2
    · exact hs
  · obtain ⟨e, he, rfl⟩ := hin
    exact ⟨e, (List.mem_erase_of_ne fun heq => hg (congrArg Prod.snd heq)).2 he, rfl⟩
  · obtain ⟨e, he, rfl⟩ := hf
    rw [← (h.accurate e he).clusters]
    exact h.stocked.pos e he

namespace Taken

theorem move (h : Taken fe₀ f v fe) (t n : ℕ) : Taken fe₀ f (v.fsctlMoveFile ⟨f, 0, t, n⟩) fe := by
  obtain ⟨C, hmv, -⟩ := Volume.moved_fsctlMoveFile v f t n
  have hlen : (lcns ((v.fsctlMoveFile ⟨f, 0, t, n⟩).map f)).length = (lcns (v.map f)).length := by
    simp [hmv.before, hmv.after]
  refine ⟨⟨fun g => ?_, fun e he => ?_, h.kept.stocked, h.kept.nodup, h.kept.strict,
    h.kept.indexed⟩, h.gone, h.others, hlen ▸ h.pos⟩
  · by_cases hg : g = f
    · subst hg
      exact hlen ▸ h.kept.small g
    · exact hmv.others g hg ▸ h.kept.small g
  · exact hmv.others e.2 (h.gone e he) ▸ h.kept.accurate e he

theorem change (h : Taken fe₀ f v fe) (d : Disposition) :
    Taken fe₀ f v { fe with disp := Function.update fe.disp f d } := by
  refine ⟨⟨h.kept.small, fun e he => ?_, h.kept.stocked.change h.gone d, h.kept.nodup,
    h.kept.strict, fun x hx => ?_⟩, h.gone, h.others, h.pos⟩
  · simpa only [Function.update_of_ne (h.gone e he)] using h.kept.accurate e he
  · rw [allStarts_change d h.gone]
    exact h.kept.indexed x hx

theorem push (h : Taken fe₀ f v fe) (hd : Accurate (v.map f) (fe.disp f)) :
    Kept v (fe.push f) ∧ ∀ g, fe₀.Holds g → (fe.push f).Holds g := by
  have hpos : 0 < (fe.disp f).clusters := hd.clusters ▸ h.pos
  refine ⟨⟨h.kept.small, fun e he => ?_, h.kept.stocked.push hpos (hd.map_ne_nil hpos),
    nodup_push h.kept.nodup h.gone, ?_, fun x hx => ?_⟩, fun g hg => ?_⟩
  · rw [push_disp]
    rcases OrdMap.mem_insertMulti.1 he with rfl | he
    · rw [if_pos rfl]
      exact hd.order
    · rw [if_neg (h.gone e he)]
      exact h.kept.accurate e he
  · unfold FileEnumeration.push
    split_ifs
    · exact List.Pairwise.nil
    · exact h.kept.strict.foldl_insert _
  · have hx' : x ∈ fe.lcns ∨ x ∈ fe.starts f := by
      unfold FileEnumeration.push at hx
      split_ifs at hx
      · cases hx
      · exact OrdMap.mem_of_mem_foldl_insert hx
    rw [(allStarts_push_perm fe f).mem_iff, List.mem_append]
    exact hx'.symm.imp_right (h.kept.indexed x)
  · by_cases hgf : g = f
    · exact ⟨_, OrdMap.mem_insertMulti.2 (Or.inl rfl), hgf.symm⟩
    · obtain ⟨e, he, heq⟩ := h.others g hgf hg
      exact ⟨e, OrdMap.mem_insertMulti.2 (Or.inr he), heq⟩

end Taken

section Runs

variable {env : Env} {opts : Options} {s : Operation}

theorem moveFile_present {caller : Caller} {g : Region} (htruth : env.Truthful)
    (h : Kept s.vol s.fe) (hf : s.fe.Holds f) :
    Meets LastIdle ShowsPresent (moveFile env caller f g) s
      ⟨fun _ s' => Kept s'.vol s'.fe ∧ ∀ f', s.fe.Holds f' → s'.fe.Holds f',
        fun s' => Kept s'.vol s'.fe ∧ ∀ f', f' ≠ f → s.fe.Holds f' → s'.fe.Holds f',
        fun why _ => why ≠ .nullBlockmap, fun _ => False⟩ := by
  have hpop := h.pop hf
  obtain ⟨e, he, rfl⟩ := hf
  have hacc := h.accurate e he
  have hone : OneRequest LastIdle ShowsPresent env caller e.2 g s (Taken s.fe e.2)
      (fun v fe => Kept v fe ∧ ∀ f', s.fe.Holds f' → fe.Holds f')
      (fun v fe => Kept v fe ∧ ∀ f', f' ≠ e.2 → s.fe.Holds f' → fe.Holds f')
      (fun _ v fe => Taken s.fe e.2 v fe ∧ Accurate (v.map e.2) (fe.disp e.2)) :=
    { popped := fun _ => h.stocked.present ⟨e, he, rfl⟩
      one := fun _ => hacc.clusters ▸ (h.small e.2).le
      taken := hpop
      empty := fun h0 => absurd h0 (h.stocked.pos e he).ne'
      moved := fun v fe n hK => hK.move g.lcn n
      dumped := fun _ s₁ _ hK => by
        refine ⟨hK.change _, ?_⟩
        obtain ⟨m', hm', htell⟩ := htruth s₁.clock (s₁.vol.map e.2)
        simpa only [Function.update_self, hm'] using htell.accurate
      pushed := fun _ _ _ _ hL => hL.1.push hL.2
      of_taken := fun _ _ hK => ⟨hK.kept, hK.others⟩
      of_dumped := fun _ _ _ hL => ⟨hL.1.kept, hL.1.others⟩
      of_pushed := fun _ _ hB => ⟨hB.1, fun f' _ => hB.2 f'⟩
      shown := fun m _ hm _ => by
        cases m with
        | fePop f' => exact absurd rfl (hm f')
        | _ => trivial }
  exact hone.meets

/-- The files still to be handled by `defrag` are in stock. -/
structure Waiting (files : List FileId) (s : Operation) : Prop where
  kept : Kept s.vol s.fe
  nodup : files.Nodup
  holds : ∀ f ∈ files, s.fe.Holds f

theorem defragBody_present {files : List FileId} (htruth : env.Truthful)
    (h : Waiting (f :: files) s) :
    Meets LastIdle ShowsPresent (defragBody env f) s
      (ends (Waiting files) (· ≠ .nullBlockmap)) := by
  obtain ⟨hkept, hnd, hholds⟩ := h
  obtain ⟨hnot, hnd⟩ := List.nodup_cons.1 hnd
  have hf := hholds f (by simp)
  have hne : ∀ f' ∈ files, f' ≠ f := fun f' hf' heq => hnot (heq ▸ hf')
  have hwait : Waiting files s := ⟨hkept, hnd, fun f' hf' => hholds f' (by simp [hf'])⟩
  have hstep : DefragStep LastIdle ShowsPresent env (· ≠ .nullBlockmap) f s
      (fun s => Waiting files s
        ∧ (s.fe.Holds f ∨ s.ge.best (s.fe.disp f).clusters none false = none))
      (Waiting files) (Waiting files) :=
    { shown := fun _ => trivial
      popped := fun hlast hidle => by
        have hpop := hkept.pop hf
        refine ⟨fun _ => hkept.stocked.present hf, ⟨hpop.kept, hnd, fun f' hf' => ?_⟩,
          Or.inr (hidle hlast)⟩
        exact hpop.others f' (hne f' hf') (hwait.holds f' hf')
      go := fun _ => ⟨hwait, Or.inl hf⟩
      idle := fun _ hs => hs.1
      moved := fun s n hs hbest => by
        -- a gap was found, so the file was not skipped
        obtain ⟨hs, hin | hnone⟩ := hs
        · exact (moveFile_present htruth hs.kept hin).mono
            (fun _ s' hs' => ⟨hs'.1, hnd, fun f' hf' => hs'.2 f' (hs.holds f' hf')⟩)
            fun s' hs' => ⟨hs'.1, hnd, fun f' hf' => hs'.2 f' (hne f' hf') (hs.holds f' hf')⟩
        · cases hbest.symm.trans hnone
      scanned := fun _ hs => ⟨hs.kept, hs.nodup, hs.holds⟩ }
  exact hstep.meets

theorem defrag_present (htruth : env.Truthful) (h : Kept s.vol s.fe) :
    Meets LastIdle ShowsPresent (defrag env) s
      (ends (fun s => Kept s.vol s.fe) (· ≠ .nullBlockmap)) := by
  refine (defrag_meets (Q := Waiting) (fun _ _ h => ⟨h.kept, h.nodup, h.holds⟩)
    (fun f files s h => defragBody_present htruth h) fun k files hsub _ => ?_).mono
    fun _ s' hs' => ?_
  · exact ⟨h, h.nodup.sublist hsub, fun f hf => List.mem_map.1 (hsub.subset hf)⟩
  · obtain ⟨_, hs'⟩ := hs'
    exact hs'.kept

/-- Files in stock are back in stock after each move, so the set may be moved one by one. -/
theorem moveSet_present {files : List FileId} {r : Region} (htruth : env.Truthful)
    (h : Kept s.vol s.fe) (hfiles : ∀ f ∈ files, s.fe.Holds f) :
    Meets LastIdle ShowsPresent (moveSet env files r) s
      ⟨fun _ s' => Kept s'.vol s'.fe, fun _ => False, fun why _ => why ≠ .nullBlockmap,
        fun _ => False⟩ := by
  refine (moveSet_meets (Q := fun files _ s => Kept s.vol s.fe ∧ ∀ f ∈ files, s.fe.Holds f)
    (T := fun s => Kept s.vol s.fe) (fun _ _ _ hs => hs) (fun f files r s hs => ?_)
    ⟨h, hfiles⟩).mono fun moved s' hs' => ?_
  · exact (moveFile_present htruth hs.1 (hs.2 f (by simp))).mono
      (fun _ s' hs' => ⟨hs'.1, fun f' hf' => hs'.2 f' (hs.2 f' (by simp [hf']))⟩)
      fun s' hs' => hs'.1
  · cases moved with
    | false => exact hs'
    | true =>
      obtain ⟨_, _, hs'⟩ := hs'
      exact hs'.1

theorem widenBehind_present {r : Region} (htruth : env.Truthful) (h : Kept s.vol s.fe) (n : ℕ) :
    Meets LastIdle ShowsPresent (widenBehind env opts r n) s
      (ends (fun s => Kept s.vol s.fe) (· ≠ .nullBlockmap)) := by
  have hstep : WidenStep LastIdle ShowsPresent env opts (· ≠ .nullBlockmap)
      (fun _ s => Kept s.vol s.fe) (fun s => Kept s.vol s.fe) :=
    { tick := fun _ _ hs => hs
      found := fun _ lcn s hs => hs.findAt lcn
      shown := fun _ _ _ _ => trivial
      moved := fun _ lcn _ _ _ hs _ hf _ =>
        (moveFile_present htruth (hs.findAt lcn) (hs.holds_of_findAt hf)).mono
          (fun _ _ hs' => hs'.1) fun _ hs' => hs'.1 }
  exact hstep.ends r n h

theorem closeGapsBody_present {g : NodePtr} (htruth : env.Truthful) (h : Kept s.vol s.fe)
    (hg : g.scan = s.ge.scans) (p : Bool) :
    Meets LastIdle ShowsPresent (closeGapsBody env opts g p) s
      (ends (fun s => Kept s.vol s.fe) (· ≠ .nullBlockmap)) := by
  have hstep : GapStep LastIdle ShowsPresent env opts (· ≠ .nullBlockmap) g p s
      (fun s => Kept s.vol s.fe) (fun s => Kept s.vol s.fe) :=
    { inv := h
      current := hg
      shown := fun _ => trivial
      dropping := fun _ _ _ => trivial
      dropped := fun _ _ hs _ => hs
      breaks := by simp
      dangles := by simp
      chosen := fun _ hwhy => absurd hwhy (findBest_ne_error h.stocked)
      moved := fun files hfiles => by
        obtain ⟨files', hfiles', hchosen⟩ := findBest_spec h.stocked (s.ge.node g.node).lcn
          (s.ge.node g.node).length p
        obtain rfl : files' = files := Except.ok.inj (hfiles'.symm.trans hfiles)
        refine (moveSet_present htruth h fun f hf => (hchosen.mem f hf).1).mono fun _ _ hs' => ?_
        simpa only [ite_self] using hs'
      scanned := fun _ hs => hs
      widened := fun n => widenBehind_present htruth h n }
  exact hstep.meets

theorem run_present (htruth : env.Truthful) (fuel : ℕ) (h : Kept s.vol s.fe) :
    Meets LastIdle ShowsPresent (run env opts fuel) s
      (keeps (fun s => Kept s.vol s.fe) (· ≠ .nullBlockmap)) := by
  have hinv : RunInvariant LastIdle ShowsPresent env opts (· ≠ .nullBlockmap)
      (fun s => Kept s.vol s.fe) (fun s => Kept s.vol s.fe) :=
    { tick := fun _ h => h
      tick_in := fun _ h => h
      replaced := fun _ _ h => h
      enter := fun _ h => h
      scanned := fun _ h => h
      closed := fun _ _ _ => trivial
      body := fun g p s h hgap => closeGapsBody_present htruth h (nextGap_scan hgap) p
      defrag := fun s h => defrag_present htruth h }
  exact hinv.meets fuel h

/-- Whatever moves fail, and with holes in files: as long as `defrag` finds no gap for the file
moved last, every call of `pop` finds its file in `buckets_` under its cluster count. -/
theorem popped_present_if_last_idle {disk : List FileId} {disp : FileId → Disposition}
    {excluded : FileId → Bool} (hw : ClosedWorld env v disk disp)
    (hsmall : ∀ f, (lcns (v.map f)).length < maxChunk) (fuel : ℕ)
    (hidle : ∀ m ∈ (run env opts fuel (.init v disk disp excluded)).seen, LastIdle m.1 m.2) :
    ∀ m ∈ (run env opts fuel (.init v disk disp excluded)).seen, ∀ f, m.1 = .fePop f →
      m.2.fe.Present f := by
  obtain ⟨hstocked, hnodup, hlcns, haccurate⟩ := scan_accurate excluded hw
  have hkept : Kept v (FileEnumeration.scan disk disp excluded) :=
    ⟨hsmall, fun e _ => haccurate e.2, hstocked, hnodup, hlcns ▸ List.Pairwise.nil,
      by simp [hlcns]⟩
  have hmeets : Meets LastIdle ShowsPresent (run env opts fuel) (.init v disk disp excluded)
      (keeps (fun s => Kept s.vol s.fe) (· ≠ .nullBlockmap)) := run_present hw.truthful fuel hkept
  rintro ⟨m, s⟩ hm f rfl
  exact (hmeets hidle).1 _ hm

end Runs

/-- A file with a hole, and one gap it fits into. -/
def oneGapVolume : Volume := .laid 8 [0, 3, 5, 7] [[⟨some 6, 1⟩, ⟨none, 1⟩, ⟨some 4, 1⟩]]

def Env.busyAtFirst : Env :=
  { Env.granting with status := fun k v d =>
      if k < 5 then statusAlreadyCommitted else Env.granting.status k v d }

theorem popped_present_if_last_idle_popped :
    (∃ m ∈ (run .busyAtFirst defragAndGaps 12
        (.init oneGapVolume [0] oneGapVolume.dumps fun _ => false)).seen,
      m.1 = .defragIter 0 ∧ m.2.last = some 0)
    ∧ ∀ m ∈ (run .busyAtFirst defragAndGaps 12
        (.init oneGapVolume [0] oneGapVolume.dumps fun _ => false)).seen,
      ∀ f, m.1 = .fePop f → m.2.fe.Present f := by
  have hworld : ClosedWorld .busyAtFirst oneGapVolume [0] oneGapVolume.dumps :=
    laid_closedWorld (by decide) (by decide) (by decide) (by decide) Env.granting_truthful
  have hsmall : ∀ f, (lcns (oneGapVolume.map f)).length < maxChunk :=
    Volume.laid_forall (p := fun m => (lcns m).length < maxChunk) (by decide) (by decide)
  exact ⟨by decide +kernel, popped_present_if_last_idle hworld hsmall 12 (by decide +kernel)⟩

/-- A file with a hole, a gap for it and a larger one before it. -/
def twoGapVolume : Volume :=
  .laid 12 [0, 4, 6, 8, 11] [[⟨some 7, 1⟩, ⟨none, 1⟩, ⟨some 5, 1⟩]]

/-- All requests are granted, the file moved last is still in pieces, and `defrag` pops it twice. -/
theorem last_file_popped_twice :
    ∃ m ∈ (run .granting defragAndGaps 12
        (.init twoGapVolume [0] twoGapVolume.dumps fun _ => false)).seen,
      m.1 = .fePop 0 ∧ m.2.last = some 0 ∧ ¬ m.2.fe.Present 0 := by decide +kernel

end StopGap
