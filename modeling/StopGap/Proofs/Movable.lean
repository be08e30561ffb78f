import StopGap.Proofs.Stock
import StopGap.Proofs.Steps

/-!
# What a run leaves alone

The files a run handles all come out of `buckets_`: the list `defrag` makes, the picks of the
chooser and the answers of `findAt`. So whatever the driver answers and the dumps report, a request
names a file that `scan` has put there (`Within`), and the files `scan` takes to be unmovable stay
where they are. `Steady` turns what one request keeps into what a whole run keeps.
-/

namespace StopGap

open Exec Exec.Prog FileEnumeration

/-- The files that can be come by are among those of `P`. -/
structure Within (P : FileId → Prop) (fe : FileEnumeration) : Prop where
  stock : ∀ e ∈ fe.buckets, P e.2
  index : ∀ e ∈ fe.lcns, P e.2

section Chooser

variable {P : FileId → Prop} {fe : FileEnumeration} {lcn : ℕ}

theorem findPerfect_within : ∀ {es : List (ℕ × FileId)} {perfect r : Option FileId},
    (∀ e ∈ es, P e.2) → (∀ p, perfect = some p → P p) → fe.findPerfect lcn es perfect = .ok r →
    ∀ p, r = some p → P p
  | [], perfect, r, _, hperf, h => by
    cases h
    exact hperf
  | (k, f) :: es, perfect, r, hes, hperf, h => by
    have hes' : ∀ e ∈ es, P e.2 := fun e he => hes e (by simp [he])
    have hf : P f := hes (k, f) (by simp)
    unfold findPerfect at h
    rcases hl : fe.headLcn f with why | l <;> rw [hl] at h
    · cases h
    simp only [Bind.bind, Except.bind] at h
    split_ifs at h with hle
    · exact findPerfect_within hes' hperf h
    rcases perfect with _ | p
    · exact findPerfect_within hes' (fun p hp => Option.some.inj hp ▸ hf) h
    · simp only at h
      rcases hlp : fe.headLcn p with why | lp <;> rw [hlp] at h
      · cases h
      refine findPerfect_within hes' (fun q hq => ?_) h
      rw [← Option.some.inj hq]
      split_ifs
      · exact hf
      · exact hperf p rfl

theorem keepKnown_within {size l : ℕ} {f : FileId} {known known' : Known} (hf : P f)
    (hknown : ∀ e ∈ known, P e.2) (h : fe.keepKnown size f l known = .ok known') :
    ∀ e ∈ known', P e.2 := by
  unfold keepKnown at h
  obtain ⟨known₁, hknown₁⟩ : ∃ known₁,
      (if (size < 4 ∧ (OrdMap.equalRange (OrderDual.toDual size) known).length < 1)
        ∨ (OrdMap.equalRange (OrderDual.toDual size) known).length < 4 then
          OrdMap.insertMulti (OrderDual.toDual size, f) known else known) = known₁ := ⟨_, rfl⟩
  simp only [hknown₁] at h
  have hmem₁ : ∀ e ∈ known₁, P e.2 := by
    intro e he
    rw [← hknown₁] at he
    split_ifs at he
    · rcases OrdMap.mem_insertMulti.1 he with rfl | he
      · exact hf
      · exact hknown e he
    · exact hknown e he
  rcases hr : fe.findSmaller l (OrdMap.equalRange (OrderDual.toDual size) known₁) with why | r <;>
    rw [hr] at h
  · cases h
  rcases r with _ | ri <;> cases h
  · exact hmem₁
  · intro e he
    rcases OrdMap.mem_insertMulti.1 he with rfl | he
    · exact hf
    · exact hmem₁ e (List.mem_of_mem_erase he)

theorem findCands_within : ∀ {es : List (ℕ × FileId)} {st st' : Cands}, (∀ e ∈ es, P e.2) →
    (∀ f ∈ st.rvs, P f) → (∀ e ∈ st.known, P e.2) → fe.findCands lcn es st = .ok st' →
    (∀ f ∈ st'.rvs, P f) ∧ ∀ e ∈ st'.known, P e.2
  | [], st, st', _, hrvs, hknown, h => by
    cases h
    exact ⟨hrvs, hknown⟩
  | (size, f) :: es, st, st', hes, hrvs, hknown, h => by
    have hes' : ∀ e ∈ es, P e.2 := fun e he => hes e (by simp [he])
    have hf : P f := hes (size, f) (by simp)
    unfold findCands at h
    by_cases h0 : st.length = 0
    · rw [if_pos h0] at h
      cases h
      exact ⟨hrvs, hknown⟩
    by_cases hbig : st.length < size
    · rw [if_neg h0, if_pos hbig] at h
      exact findCands_within hes' hrvs hknown h
    rw [if_neg h0, if_neg hbig] at h
    rcases hl : fe.headLcn f with why | l <;> rw [hl] at h
    · cases h
    simp only [Bind.bind, Except.bind] at h
    split_ifs at h
    · exact findCands_within hes' hrvs hknown h
    · have hrvs' : ∀ g ∈ st.rvs ++ [f], P g := by
        intro g hg
        rcases List.mem_append.1 hg with hg | hg
        · exact hrvs g hg
        · exact List.mem_singleton.1 hg ▸ hf
      exact @findCands_within es ⟨st.rvs ++ [f], _, st.known⟩ _ hes' hrvs' hknown h
    · exact findCands_within hes' hrvs hknown h
    · rcases hk : fe.keepKnown size f l st.known with why | known <;> rw [hk] at h
      · cases h
      exact @findCands_within es { st with known := known } _ hes' hrvs
        (keepKnown_within hf hknown hk) h

theorem pickCands_within {rvs cands : List FileId} (length : ℕ) (partialOK : Bool)
    (hrvs : ∀ f ∈ rvs, P f) (hcands : ∀ f ∈ cands, P f) :
    ∀ f ∈ fe.pickCands rvs cands length partialOK, P f := by
  have happend : ∀ files, (∀ f ∈ files, f ∈ cands) → ∀ f ∈ rvs ++ files, P f := fun files h f hf =>
    (List.mem_append.1 hf).elim (hrvs f) fun hf => hcands f (h f hf)
  rcases cands with _ | ⟨c, _ | ⟨c', cs⟩⟩
  · unfold pickCands
    split_ifs
    · exact hrvs
    · simp
  · simp only [pickCands]
    split_ifs
    · exact happend [c] (by simp)
    · exact happend [c] (by simp)
    · exact hrvs
    · simp
  · simp only [pickCands]
    split_ifs
    · simp
    · exact happend _ (clustersOf_positions
        (solution_for ((c :: c' :: cs).map fun c => (fe.disp c).clusters) length)).2

theorem Within.findBest {length : ℕ} {partialOK : Bool} {files : List FileId} (h : Within P fe)
    (hbest : fe.findBest lcn length partialOK = .ok files) : ∀ f ∈ files, P f := by
  unfold FileEnumeration.findBest at hbest
  rcases hp : fe.findPerfect lcn (OrdMap.equalRange length fe.buckets) none with why | perfect <;>
    rw [hp] at hbest
  · cases hbest
  rcases perfect with _ | p
  · simp only [Bind.bind, Except.bind] at hbest
    rcases hst : fe.findCands lcn (fe.buckets.takeWhile fun e => decide (e.1 ≤ length)).reverse
      ⟨[], length, []⟩ with why | st <;> rw [hst] at hbest
    · cases hbest
    obtain ⟨hrvs, hknown⟩ := findCands_within (P := P) (fun e he => h.stock e
      ((List.takeWhile_sublist _).subset (List.mem_reverse.1 he))) (by simp) (by simp) hst
    simp only at hbest
    split_ifs at hbest <;> cases hbest
    · exact hrvs
    · refine pickCands_within _ _ hrvs fun f hf => ?_
      obtain ⟨e, he, rfl⟩ := List.mem_map.1 hf
      exact hknown e he
  · cases hbest
    intro f hf
    rw [List.mem_singleton.1 hf]
    exact findPerfect_within (P := P) (fun e he => h.stock e (List.mem_of_mem_filter he)) (by simp)
      hp p rfl

end Chooser

namespace Within

variable {P : FileId → Prop} {fe : FileEnumeration} {f : FileId}

theorem pop (h : Within P fe) (f : FileId) : Within P (fe.pop f) where
  stock := fun e he => h.stock e (List.mem_of_mem_erase he)
  index := fun e he => by
    unfold FileEnumeration.pop at he
    split_ifs at he
    · cases he
    · have hsub : ∀ (bm : List Block) (m : List (ℕ × FileId)),
          (bm.foldl (fun m b => OrdMap.erase b.lcn m) m).Sublist m := by
        intro bm
        induction bm with
        | nil => exact fun m => .refl m
        | cons b bm ih => exact fun m => (ih _).trans OrdMap.erase_sublist
      exact h.index e ((hsub _ _).subset he)

theorem push (h : Within P fe) (hf : P f) : Within P (fe.push f) where
  stock := fun e he => by
    rcases OrdMap.mem_insertMulti.1 he with rfl | he
    · exact hf
    · exact h.stock e he
  index := fun e he => by
    unfold FileEnumeration.push at he
    split_ifs at he
    · cases he
    · rcases OrdMap.mem_of_mem_foldl_insert he with he | he
      · exact h.index e he
      · obtain ⟨b, -, rfl⟩ := List.mem_map.1 he
        exact hf

theorem findAt (h : Within P fe) (lcn : ℕ) : Within P (fe.findAt lcn).1 where
  stock := by
    rw [findAt_buckets]
    exact h.stock
  index := fun e he => by
    unfold FileEnumeration.findAt at he
    split_ifs at he
    · rcases OrdMap.mem_of_mem_foldl_insert he with he | he
      · cases he
      · obtain ⟨e', he', hb⟩ := List.mem_flatMap.1 he
        obtain ⟨b, -, rfl⟩ := List.mem_map.1 hb
        exact h.stock e' he'
    · exact h.index e he

theorem of_findAt (h : Within P fe) {lcn : ℕ} (hf : (fe.findAt lcn).2 = some f) : P f := by
  have hfind : (fe.findAt lcn).2 = (OrdMap.find lcn (fe.findAt lcn).1.lcns).map Prod.snd := rfl
  obtain ⟨e, he, rfl⟩ := Option.map_eq_some_iff.1 (hfind ▸ hf)
  exact (h.findAt lcn).index e (OrdMap.find_some he).1

end Within

/-! ## Requests and runs -/

/-- What the clusters `left` of `f` ask for next. -/
def nextRequest (f : FileId) (t left : ℕ) : MoveFileDescriptor := ⟨f, 0, t, min left maxChunk⟩

/-- What `move_file` keeps: `I` between its calls, and `K f left` while `left` clusters of `f` are
still to be asked for. Only the files of `P` come up. -/
structure Steady (env : Env) (P : FileId → Prop) (I : Volume → (FileId → Disposition) → Prop)
    (K : FileId → ℕ → Volume → (FileId → Disposition) → Prop) : Prop where
  enter : ∀ f v disp, P f → I v disp → K f (disp f).clusters v disp
  leave : ∀ f left v disp, K f left v disp → I v disp
  granted : ∀ f left t k k' v disp, P f → K f left v disp → left ≠ 0 →
    ntSuccess (env.status k v (nextRequest f t left)) = true →
    K f (left - min left maxChunk) (v.fsctlMoveFile (nextRequest f t left))
      (Function.update disp f (order (winxFtwDumpFile
        (env.report k' ((v.fsctlMoveFile (nextRequest f t left)).map f)))))
  dumped : ∀ f k v disp, P f → I v disp →
    I v (Function.update disp f (winxFtwDumpFile (env.report k (v.map f))))
  ordered : ∀ f v disp, P f → I v disp → I v (Function.update disp f (order (disp f)))

/-- What a run shows at its marks: the volume has `J`, and a request names a file of `P`. -/
def Minds (P : FileId → Prop) (J : Volume → Prop) (m : Mark) (s : Operation) : Prop :=
  J s.vol ∧ ∀ caller d, m = .request caller d → P d.file

theorem minds_of {P : FileId → Prop} {J : Volume → Prop} {m : Mark} {s : Operation} (hs : J s.vol)
    (hm : ∀ caller d, m ≠ .request caller d) : Minds P J m s :=
  ⟨hs, fun caller d heq => absurd heq (hm caller d)⟩

def Steadied (P : FileId → Prop) (I : Volume → (FileId → Disposition) → Prop) (s : Operation) :
    Prop :=
  I s.vol s.fe.disp ∧ Within P s.fe

namespace Steady

variable {env : Env} {opts : Options} {P : FileId → Prop} {J : Volume → Prop}
  {I : Volume → (FileId → Disposition) → Prop}
  {K : FileId → ℕ → Volume → (FileId → Disposition) → Prop} {f : FileId} {s : Operation}

/-- A dump and the order `push` puts it in, as one change. -/
theorem update_order (disp : FileId → Disposition) (f : FileId) (d : Disposition) :
    Function.update (Function.update disp f d) f (order (Function.update disp f d f))
      = Function.update disp f (order d) := by
  rw [Function.update_self, Function.update_idem]

theorem moveChunks (h : Steady env P I K) (hJ : ∀ v disp, I v disp → J v) (hf : P f)
    (caller : Caller) : ∀ (fuel left : ℕ) (g : Region) (s : Operation),
      K f left s.vol s.fe.disp → Within P s.fe →
      Meets (fun _ _ => True) (Minds P J) (moveChunks env caller f fuel left g) s
        ⟨fun _ s' => Steadied P I s', Steadied P I, fun _ _ => True, fun _ => False⟩
  | 0, left, g, s, hK, hW => Meets.pure ⟨h.leave _ _ _ _ hK, hW⟩
  | fuel + 1, left, g, s, hK, hW => by
    have hI := h.leave _ _ _ _ hK
    simp only [StopGap.moveChunks]
    refine Meets.ite (fun _ => Meets.pure ⟨hI, hW⟩) fun h0 => ?_
    have hleft : left ≠ 0 := fun hl => h0 (by simp [hl])
    refine openFile_bind (fun _ => ?_) fun _ => ⟨hI, hW⟩
    refine request_bind (fun _ => ⟨hJ _ _ hI, ?_⟩) fun status hst _ _ => ?_
    · rintro _ _ ⟨⟩
      exact hf
    by_cases hok : ntSuccess status = true
    · -- granted: the map is the new one from the dump on
      rw [Operation.answered_of_success hok]
      have hK' := h.granted f left g.lcn s.clock.succ (s.clock + 2) s.vol s.fe.disp hf hK hleft
        (hst ▸ hok)
      have hJ' := hJ _ _ (h.leave _ _ _ _ hK')
      refine ⟨minds_of hJ' (by simp), ?_⟩
      refine gePush_bind (fun _ => minds_of hJ' (by simp)) (fun ge _ => ?_) fun _ _ => trivial
      refine dumpFile_bind (Meets.mark_bind (fun _ => minds_of hJ' (by simp)) fun _ => ?_)
      refine Meets.ite (fun _ => ?_) fun hno => absurd hok hno
      refine gePopFile_bind (fun ge _ => fePush_bind ?_) fun _ _ => trivial
      refine h.moveChunks hJ hf caller fuel _ _ _ ?_ (Within.push ⟨hW.stock, hW.index⟩ hf)
      rw [← update_order] at hK'
      exact hK'
    · rw [Operation.answered_of_failure hok]
      have hI' := h.dumped f (s.clock + 2) s.vol s.fe.disp hf hI
      refine ⟨minds_of (hJ _ _ hI) (by simp), ?_⟩
      refine gePush_bind (fun _ => minds_of (hJ _ _ hI) (by simp)) (fun ge _ => ?_)
        fun _ _ => trivial
      refine dumpFile_bind (Meets.mark_bind (fun _ => minds_of (hJ _ _ hI) (by simp)) fun _ => ?_)
      refine Meets.ite (fun hyes => absurd hyes hok) fun _ => Meets.ite (fun _ => ?_) fun _ => ?_
      · refine fePush_bind (Meets.throw ⟨?_, Within.push ⟨hW.stock, hW.index⟩ hf⟩)
        exact h.ordered f _ _ hf hI'
      · exact Meets.throw ⟨hI', hW.stock, hW.index⟩

theorem moveFile (h : Steady env P I K) (hJ : ∀ v disp, I v disp → J v) (hf : P f)
    (caller : Caller) (g : Region) (hs : Steadied P I s) :
    Meets (fun _ _ => True) (Minds P J) (moveFile env caller f g) s
      ⟨fun _ s' => Steadied P I s', Steadied P I, fun _ _ => True, fun _ => False⟩ := by
  refine fePop_bind (fun _ => minds_of (hJ _ _ hs.1) (by simp)) fun _ => Meets.get_bind ?_
  refine Meets.bind (h.moveChunks hJ hf caller _ _ _ _ (h.enter f _ _ hf hs.1) (hs.2.pop f))
    fun _ s' hs' => Meets.modify_bind (Meets.mark fun _ => ⟨minds_of (hJ _ _ hs'.1) (by simp), hs'⟩)

theorem defrag (h : Steady env P I K) (hJ : ∀ v disp, I v disp → J v) (hs : Steadied P I s) :
    Meets (fun _ _ => True) (Minds P J) (defrag env) s (ends (Steadied P I) fun _ => True) := by
  refine (defrag_meets (Q := fun files s => Steadied P I s ∧ ∀ f ∈ files, P f)
    (fun _ _ h => h) (fun f files s hQ => ?_) fun _ files hsub _ => ⟨hs, fun f hf => ?_⟩).mono
    fun _ s' ⟨_, hs', _⟩ => hs'
  · have hf : P f := hQ.2 f (by simp)
    have hfiles : ∀ g ∈ files, P g := fun g hg => hQ.2 g (by simp [hg])
    have hstep : DefragStep (fun _ _ => True) (Minds P J) env (fun _ => True) f s (Steadied P I)
        (Steadied P I) (fun s => Steadied P I s ∧ ∀ f ∈ files, P f) :=
      { shown := fun _ => minds_of (hJ _ _ hQ.1.1) (by simp)
        popped := fun _ _ => ⟨fun _ => minds_of (hJ _ _ hQ.1.1) (by simp), hQ.1.1, hQ.1.2.pop f⟩
        go := fun _ => hQ.1
        idle := fun _ hs => ⟨hs, hfiles⟩
        moved := fun _ _ hs _ => (h.moveFile hJ hf _ _ hs).mono fun _ _ hs' => ⟨hs', hfiles⟩
        scanned := fun _ hs => ⟨hs, hfiles⟩ }
    exact hstep.meets
  · obtain ⟨e, he, rfl⟩ := List.mem_map.1 (hsub.subset hf)
    exact hs.2.stock e he

theorem closeGapsBody (h : Steady env P I K) (hJ : ∀ v disp, I v disp → J v) {g : NodePtr}
    (hg : g.scan = s.ge.scans) (p : Bool) (hs : Steadied P I s) :
    Meets (fun _ _ => True) (Minds P J) (closeGapsBody env opts g p) s
      (ends (Steadied P I) fun _ => True) := by
  have hfound : ∀ lcn (s : Operation), Steadied P I s →
      Steadied P I { s with fe := (s.fe.findAt lcn).1 } := by
    rintro lcn s ⟨hI, hW⟩
    refine ⟨?_, hW.findAt lcn⟩
    simp only [findAt_disp]
    exact hI
  have hwiden : WidenStep (fun _ _ => True) (Minds P J) env opts (fun _ => True)
      (fun _ => Steadied P I) (Steadied P I) :=
    { tick := fun _ _ hs => hs
      found := fun _ lcn s hs => hfound lcn s hs
      shown := fun _ _ hs _ => minds_of (hJ _ _ hs.1) (by simp)
      moved := fun _ lcn s _ _ hs _ hf _ =>
        h.moveFile hJ (hs.2.of_findAt hf) _ _ (hfound lcn s hs) }
  have hstep : GapStep (fun _ _ => True) (Minds P J) env opts (fun _ => True) g p s (Steadied P I)
      (Steadied P I) :=
    { inv := hs
      current := hg
      shown := fun _ => minds_of (hJ _ _ hs.1) (by simp)
      dropping := fun _ hs _ => minds_of (hJ _ _ hs.1) (by simp)
      dropped := fun _ _ hs _ => hs
      breaks := trivial
      dangles := trivial
      chosen := fun _ _ => trivial
      moved := fun files hfiles => by
        refine (moveSet_meets (Q := fun files _ s => Steadied P I s ∧ ∀ f ∈ files, P f)
          (T := Steadied P I) (fun _ _ _ hs => hs) (fun f files r s hQ => ?_)
          ⟨hs, hs.2.findBest hfiles⟩).mono fun moved s' hs' => ?_
        · exact (h.moveFile hJ (hQ.2 f (by simp)) _ _ hQ.1).mono
            fun _ _ hs' => ⟨hs', fun g hg => hQ.2 g (by simp [hg])⟩
        · cases moved with
          | false => exact hs'
          | true =>
            obtain ⟨-, -, hs', -⟩ := hs'
            exact hs'
      scanned := fun _ hs => hs
      widened := fun n => hwiden.ends _ n hs }
  exact hstep.meets

theorem run (h : Steady env P I K) (hJ : ∀ v disp, I v disp → J v) (opts : Options) (fuel : ℕ)
    (hs : Steadied P I s) :
    Meets (fun _ _ => True) (Minds P J) (run env opts fuel) s
      (keeps (Steadied P I) fun _ => True) := by
  have hinv : RunInvariant (fun _ _ => True) (Minds P J) env opts (fun _ => True) (Steadied P I)
      (Steadied P I) :=
    { tick := fun _ h => h
      tick_in := fun _ h => h
      replaced := fun _ _ h => h
      enter := fun _ h => h
      scanned := fun _ h => h
      closed := fun _ hs _ => minds_of (hJ _ _ hs.1) (by simp)
      body := fun g p s hs hgap => h.closeGapsBody hJ (nextGap_scan hgap) p hs
      defrag := fun s hs => h.defrag hJ hs }
  exact hinv.meets fuel hs

end Steady

/-! ## The unmovable files -/

section Unmovable

variable (disk : List FileId) (disp : FileId → Disposition) (excluded : FileId → Bool)

/-- `scan` puts the file into `buckets_`: it is listed with a map, and its name is not excluded. -/
def Movable (f : FileId) : Prop :=
  f ∈ disk ∧ (disp f).blockmap ≠ [] ∧ excluded f = false

theorem order_blockmap_ne_nil {d : Disposition} (h : (order d).blockmap ≠ []) : d.blockmap ≠ [] :=
  fun h0 => h (by simp [order, h0])

theorem within_scanFile {fe : FileEnumeration} {f : FileId} (hf : f ∈ disk)
    (hW : Within (Movable disk disp excluded) fe)
    (hdisp : ∀ g, (fe.disp g).blockmap ≠ [] → (disp g).blockmap ≠ []) :
    Within (Movable disk disp excluded) (scanFile excluded fe f)
      ∧ ∀ g, ((scanFile excluded fe f).disp g).blockmap ≠ [] → (disp g).blockmap ≠ [] := by
  obtain ⟨fr, hfr⟩ : ∃ fr, (if 1 < (fe.disp f).fragments then
      { fe with fragmented := fe.fragmented + 1 } else fe) = { fe with fragmented := fr } := by
    split_ifs
    · exact ⟨_, rfl⟩
    · exact ⟨fe.fragmented, rfl⟩
  unfold scanFile
  simp only [hfr]
  split_ifs with hskip
  · exact ⟨⟨hW.stock, hW.index⟩, hdisp⟩
  rw [not_or, Bool.not_eq_true] at hskip
  refine ⟨⟨fun e he => ?_, hW.index⟩, fun g hg => ?_⟩
  · rcases OrdMap.mem_insertMulti.1 he with rfl | he
    · exact ⟨hf, hdisp f hskip.1, hskip.2⟩
    · exact hW.stock e he
  · by_cases hgf : g = f
    · subst hgf
      simp only [Function.update_self] at hg
      exact hdisp g (order_blockmap_ne_nil hg)
    · simp only [Function.update_of_ne hgf] at hg
      exact hdisp g hg

theorem within_scan : Within (Movable disk disp excluded) (scan disk disp excluded) := by
  have hfold : ∀ (files : List FileId) (fe : FileEnumeration), files ⊆ disk →
      Within (Movable disk disp excluded) fe →
      (∀ g, (fe.disp g).blockmap ≠ [] → (disp g).blockmap ≠ []) →
      Within (Movable disk disp excluded) (files.foldl (scanFile excluded) fe) := by
    intro files
    induction files with
    | nil => exact fun _ _ hW _ => hW
    | cons f files ih =>
      intro fe hsub hW hdisp
      obtain ⟨hW', hdisp'⟩ := within_scanFile disk disp excluded (hsub List.mem_cons_self) hW hdisp
      exact ih _ (fun g hg => hsub (by simp [hg])) hW' hdisp'
  exact hfold disk _ (List.Subset.refl _) ⟨by simp, by simp⟩ fun _ h => h

theorem steady_unmovable (env : Env) (P : FileId → Prop) (v : Volume) :
    Steady env P (fun v' _ => ∀ f, ¬ P f → v'.map f = v.map f)
      fun _ _ v' _ => ∀ f, ¬ P f → v'.map f = v.map f where
  enter := fun _ _ _ _ h => h
  leave := fun _ _ _ _ h => h
  granted := by
    intro f left t k k' v' disp hf h _ _ g hg
    have hne : g ≠ f := fun heq => hg (heq ▸ hf)
    rw [← h g hg]
    exact Function.update_of_ne hne _ _
  dumped := fun _ _ _ _ _ h => h
  ordered := fun _ _ _ _ h => h

/-- Whatever the driver answers and the dumps report, a run asks for moves of listed files only that
have a map and are not excluded, and every other file stays where it is. -/
theorem run_moves_movable_files (env : Env) (opts : Options) (fuel : ℕ) (v : Volume) :
    Meets (fun _ _ => True)
      (fun m s => (∀ f, ¬ Movable disk disp excluded f → s.vol.map f = v.map f)
        ∧ ∀ caller d, m = .request caller d → Movable disk disp excluded d.file)
      (run env opts fuel) (.init v disk disp excluded)
      (keeps (fun s => ∀ f, ¬ Movable disk disp excluded f → s.vol.map f = v.map f)
        fun _ => True) :=
  ((steady_unmovable env (Movable disk disp excluded) v).run (fun _ _ h => h) opts fuel
    ⟨fun _ _ => rfl, within_scan disk disp excluded⟩).mono fun _ _ hs => hs.1

end Unmovable

end StopGap
