import StopGap.Operation
import StopGap.Proofs.GapIndex

/-!
# Rules for the program

One rule for each step the program takes, and for each of its loops the rule that turns what an
iteration keeps into what the loop keeps.
-/

namespace StopGap

open Exec Exec.Prog

def Operation.tick (s : Operation) : Operation := { s with clock := s.clock + 1 }

def Operation.scanned (s : Operation) : Operation :=
  { s with ge := s.ge.scan s.vol.winxGetFreeVolumeRegions }

def Operation.answered (s : Operation) (d : MoveFileDescriptor) (status : NtStatus) : Operation :=
  if ntSuccess status then { s.tick with vol := s.vol.fsctlMoveFile d } else s.tick

theorem Operation.answered_of_success {s : Operation} {d : MoveFileDescriptor} {status : NtStatus}
    (h : ntSuccess status = true) :
    s.answered d status = { s.tick with vol := s.vol.fsctlMoveFile d } := if_pos h

theorem Operation.answered_of_failure {s : Operation} {d : MoveFileDescriptor} {status : NtStatus}
    (h : ¬ ntSuccess status = true) : s.answered d status = s.tick := if_neg h

def Operation.dumped (env : Env) (f : FileId) (s : Operation) : Operation :=
  { s.tick with fe := { s.fe with
    disp := Function.update s.fe.disp f (winxFtwDumpFile (env.report s.clock (s.vol.map f))) } }

def Operation.fePopped (s : Operation) (f : FileId) : Operation := { s with fe := s.fe.pop f }

def Operation.fePushed (s : Operation) (f : FileId) : Operation := { s with fe := s.fe.push f }

def Operation.movedFile (s : Operation) (f : FileId) : Operation :=
  { s with
    moved := s.moved + 1
    movedLen := s.movedLen + (s.fe.disp f).clusters
    replaced := true
    last := some f }

variable {A Φ : Mark → Operation → Prop} {env : Env} {opts : Options} {s : Operation} {β : Type}
  {R : Post Operation Fault β}

theorem terminated_bind {k : Bool → M β} (h : Meets A Φ (k (env.terminated s.clock)) s.tick R) :
    Meets A Φ (terminated env >>= k) s R := h

theorem openFile_bind {k : Unit → M β} (hok : env.opens s.clock = true → Meets A Φ (k ()) s.tick R)
    (hno : env.opens s.clock = false → R.thrown s.tick) : Meets A Φ (openFile env >>= k) s R := by
  have heq : (openFile env >>= k) s
      = ((if env.opens s.clock then pure () else throw) >>= k : M β) s.tick := rfl
  rcases ho : env.opens s.clock
  · intro _
    rw [heq, ho]
    exact ⟨by simp [Bind.bind, Prog.bind, Prog.throw], hno ho⟩
  · unfold Meets
    rw [heq, ho]
    exact hok ho

theorem fePop_bind {f : FileId} {k : Unit → M β} (hm : A (.fePop f) s → Φ (.fePop f) s)
    (h : A (.fePop f) s → Meets A Φ (k ()) (s.fePopped f) R) :
    Meets A Φ (fePop f >>= k) s R :=
  Meets.bind (Q := ⟨fun _ s' => A (.fePop f) s ∧ s' = s.fePopped f, fun _ => False,
      fun _ _ => False, fun _ => False⟩)
    (Meets.mark_bind hm fun hA => Meets.modify ⟨hA, rfl⟩) fun _ _ hs' => hs'.2 ▸ h hs'.1

theorem fePush_bind {f : FileId} {k : Unit → M β} (h : Meets A Φ (k ()) (s.fePushed f) R) :
    Meets A Φ (fePush f >>= k) s R := h

theorem gePush_bind {f : FileId} {k : Unit → M β} (hm : A (.gePush f) s → Φ (.gePush f) s)
    (hok : ∀ ge, s.ge.push (s.fe.disp f).blockmap = .ok ge →
      Meets A Φ (k ()) { s with ge := ge } R)
    (herror : ∀ why, s.ge.push (s.fe.disp f).blockmap = .error why → R.halted why s) :
    Meets A Φ (gePush f >>= k) s R :=
  Meets.bind (Q := ⟨fun _ s' => ∃ ge, s.ge.push (s.fe.disp f).blockmap = .ok ge
        ∧ s' = { s with ge := ge }, fun _ => False,
      fun why s' => s' = s ∧ s.ge.push (s.fe.disp f).blockmap = .error why, fun _ => False⟩)
    (Meets.mark_bind hm fun _ => Meets.get_bind <| Meets.lift_bind
      (fun ge hge => Meets.modify ⟨ge, hge, rfl⟩) fun _ hwhy => ⟨rfl, hwhy⟩)
    (by rintro _ _ ⟨ge, hge, rfl⟩; exact hok ge hge) (by intros; contradiction)
    (by rintro why _ ⟨rfl, hwhy⟩; exact herror why hwhy)

theorem gePopFile_bind {f : FileId} {k : Unit → M β}
    (hok : ∀ ge, s.ge.popBlocks s.vol.winxGetFreeVolumeRegions (s.fe.disp f).blockmap = .ok ge →
      Meets A Φ (k ()) { s with ge := ge } R)
    (herror : ∀ why, s.ge.popBlocks s.vol.winxGetFreeVolumeRegions (s.fe.disp f).blockmap
      = .error why → R.halted why s) :
    Meets A Φ (gePopFile f >>= k) s R :=
  Meets.bind (Q := ⟨fun _ s' => ∃ ge, s.ge.popBlocks s.vol.winxGetFreeVolumeRegions
        (s.fe.disp f).blockmap = .ok ge ∧ s' = { s with ge := ge }, fun _ => False,
      fun why s' => s' = s ∧ s.ge.popBlocks s.vol.winxGetFreeVolumeRegions
        (s.fe.disp f).blockmap = .error why, fun _ => False⟩)
    (Meets.get_bind <| Meets.lift_bind (fun ge hge => Meets.modify ⟨ge, hge, rfl⟩)
      fun _ hwhy => ⟨rfl, hwhy⟩)
    (by rintro _ _ ⟨ge, hge, rfl⟩; exact hok ge hge) (by intros; contradiction)
    (by rintro why _ ⟨rfl, hwhy⟩; exact herror why hwhy)

theorem request_bind {caller : Caller} {d : MoveFileDescriptor} {k : NtStatus → M β}
    (hm : A (.request caller d) s → Φ (.request caller d) s)
    (hm' : ∀ status, status = env.status s.clock s.vol d → A (.request caller d) s →
      A (.answered caller d status) (s.answered d status) →
      Φ (.answered caller d status) (s.answered d status)
        ∧ Meets A Φ (k status) (s.answered d status) R) :
    Meets A Φ (ntFsControlFile env caller d >>= k) s R :=
  Meets.bind (Q := ⟨fun status s' => status = env.status s.clock s.vol d
        ∧ s' = s.answered d status ∧ A (.request caller d) s
        ∧ A (.answered caller d status) (s.answered d status),
      fun _ => False, fun _ _ => False, fun _ => False⟩)
    (Meets.mark_bind hm fun hreq => by
      change Meets A Φ (mark (.answered caller d (env.status s.clock s.vol d)) >>= fun _ =>
        pure (env.status s.clock s.vol d)) (s.answered d (env.status s.clock s.vol d)) _
      exact Meets.mark_bind (fun hA => (hm' _ rfl hreq hA).1) fun hA =>
        Meets.pure ⟨rfl, rfl, hreq, hA⟩)
    (by rintro status _ ⟨hst, rfl, hreq, hA⟩; exact (hm' status hst hreq hA).2)

theorem dumpFile_bind {f : FileId} {k : Unit → M β}
    (h : Meets A Φ (k ()) (s.dumped env f) R) : Meets A Φ (dumpFile env f >>= k) s R := h

theorem readRegion_bind {g : NodePtr} {k : Region → M β} (hg : g.scan = s.ge.scans)
    (h : Meets A Φ (k (s.ge.node g.node)) s R) : Meets A Φ (readRegion g >>= k) s R := by
  have heq : (readRegion g >>= k) s
      = ((if g.scan = s.ge.scans then pure (s.ge.node g.node) else halt .danglingRegion)
        >>= k : M β) s := rfl
  unfold Meets
  rw [heq, if_pos hg]
  exact h

theorem feFindAt_bind {lcn : ℕ} {k : Option FileId → M β}
    (h : Meets A Φ (k (s.fe.findAt lcn).2) { s with fe := (s.fe.findAt lcn).1 } R) :
    Meets A Φ (feFindAt lcn >>= k) s R := h

theorem gePopRegion_bind {g : NodePtr} {k : Unit → M β}
    (hok : ∀ ge, s.ge.popRegion s.vol.winxGetFreeVolumeRegions g.node = .ok ge →
      Meets A Φ (k ()) { s with ge := ge } R)
    (herror : ∀ why, s.ge.popRegion s.vol.winxGetFreeVolumeRegions g.node = .error why →
      R.halted why s)
    (hdangling : g.scan ≠ s.ge.scans → R.halted .danglingRegion s) :
    Meets A Φ (gePopRegion g >>= k) s R := by
  by_cases hg : g.scan = s.ge.scans
  · refine Meets.bind (Q := ⟨fun _ s' => ∃ ge, s.ge.popRegion s.vol.winxGetFreeVolumeRegions g.node
          = .ok ge ∧ s' = { s with ge := ge }, fun _ => False,
        fun why s' => s' = s ∧ s.ge.popRegion s.vol.winxGetFreeVolumeRegions g.node = .error why,
        fun _ => False⟩)
      (readRegion_bind hg <| Meets.get_bind <| Meets.lift_bind
        (fun ge hge => Meets.modify ⟨ge, hge, rfl⟩) fun _ hwhy => ⟨rfl, hwhy⟩)
      (by rintro _ _ ⟨ge, hge, rfl⟩; exact hok ge hge) (by intros; contradiction)
      (by rintro why _ ⟨rfl, hwhy⟩; exact herror why hwhy)
  · intro _
    have heq : (gePopRegion g >>= k) s
        = (((if g.scan = s.ge.scans then pure (s.ge.node g.node) else halt .danglingRegion)
          >>= fun _ => do
            let s ← get
            let ge ← lift (s.ge.popRegion s.vol.winxGetFreeVolumeRegions g.node)
            modify fun s => { s with ge := ge }) >>= k : M β) s := rfl
    rw [heq, if_neg hg]
    exact ⟨by simp [Bind.bind, Prog.bind, Prog.halt], hdangling hg⟩

theorem moveChunks_zero {caller : Caller} {f : FileId} {g : Region} (fuel : ℕ) :
    moveChunks env caller f fuel 0 g = pure () := by
  rcases fuel with _ | fuel
  · rfl
  · simp [moveChunks]

/-- `move_file` of a file that one request is enough for, as `buckets_` and the volume see it: the
file is out of stock (`K`) until it is dumped (`L`), and then in stock again (`B`) or not; `D` holds
in every case. What the dump will find may be assumed when the request is answered. -/
structure OneRequest (A Φ : Mark → Operation → Prop) (env : Env) (caller : Caller) (f : FileId)
    (g : Region) (s : Operation) (K B D : Volume → FileEnumeration → Prop)
    (L : NtStatus → Volume → FileEnumeration → Prop) : Prop where
  popped : A (.fePop f) s → Φ (.fePop f) s
  one : A (.fePop f) s → (s.fe.disp f).clusters ≤ maxChunk
  taken : K s.vol (s.fe.pop f)
  empty : (s.fe.disp f).clusters = 0 → B s.vol (s.fe.pop f)
  moved : ∀ v fe n, K v fe → K (v.fsctlMoveFile ⟨f, 0, g.lcn, n⟩) fe
  dumped : ∀ status s₁,
    A (.answered caller ⟨f, 0, g.lcn, (s.fe.disp f).clusters⟩ status) s₁ → K s₁.vol s₁.fe →
    L status s₁.vol { s₁.fe with
      disp := Function.update s₁.fe.disp f
        (winxFtwDumpFile (env.report s₁.clock (s₁.vol.map f))) }
  pushed : ∀ status v fe, ntSuccess status = true ∨ status = statusAlreadyCommitted →
    L status v fe → B v (fe.push f)
  of_taken : ∀ v fe, K v fe → D v fe
  of_dumped : ∀ status v fe, L status v fe → D v fe
  of_pushed : ∀ v fe, B v fe → D v fe
  shown : ∀ m s, (∀ h, m ≠ .fePop h) → D s.vol s.fe → Φ m s

theorem OneRequest.meets {caller : Caller} {f : FileId} {g : Region}
    {K B D : Volume → FileEnumeration → Prop} {L : NtStatus → Volume → FileEnumeration → Prop}
    (h : OneRequest A Φ env caller f g s K B D L) :
    Meets A Φ (moveFile env caller f g) s
      ⟨fun _ s' => B s'.vol s'.fe, fun s' => D s'.vol s'.fe,
        fun why _ => why ≠ .nullBlockmap, fun _ => False⟩ := by
  have hmarkK : ∀ m s, (∀ h, m ≠ .fePop h) → K s.vol s.fe → Φ m s :=
    fun m s hm hs => h.shown m s hm (h.of_taken _ _ hs)
  refine fePop_bind h.popped fun hA => Meets.get_bind ?_
  refine Meets.bind (Q := ⟨fun _ s' => B s'.vol s'.fe, fun s' => D s'.vol s'.fe,
    fun why _ => why ≠ .nullBlockmap, fun _ => False⟩) ?_ fun _ s' hs' => ?_
  swap
  · exact Meets.modify_bind (Meets.mark fun _ => ⟨h.shown _ _ (by simp) (h.of_pushed _ _ hs'), hs'⟩)
  have hcur : min (s.fe.disp f).clusters maxChunk = (s.fe.disp f).clusters :=
    Nat.min_eq_left (h.one hA)
  change Meets A Φ (moveChunks env caller f ((s.fe.disp f).clusters / maxChunk + 1)
    (s.fe.disp f).clusters g) _ _
  simp only [moveChunks, hcur, Nat.sub_self, moveChunks_zero]
  refine Meets.ite (fun h0 => Meets.pure (h.empty h0)) fun _ => ?_
  refine openFile_bind (fun _ => ?_) fun _ => h.of_taken _ _ h.taken
  refine request_bind (fun _ => hmarkK _ _ (by simp) h.taken) fun status _ _ hans => ?_
  -- the answer may have changed the volume
  have hdump := h.dumped status _ hans
  generalize hd : (⟨f, 0, g.lcn, (s.fe.disp f).clusters⟩ : MoveFileDescriptor) = d at hdump
  have hs₁ : K ((s.fePopped f).tick.answered d status).vol
      ((s.fePopped f).tick.answered d status).fe := by
    by_cases hok : ntSuccess status = true
    · rw [Operation.answered_of_success hok, ← hd]
      exact h.moved _ _ _ h.taken
    · rw [Operation.answered_of_failure hok]
      exact h.taken
  refine ⟨hmarkK _ _ (by simp) hs₁, ?_⟩
  have hs₂ := hdump hs₁
  generalize (s.fePopped f).tick.answered d status = s₁ at hs₁ hs₂
  refine gePush_bind (fun _ => hmarkK _ _ (by simp) hs₁) (fun ge _ => ?_) fun why hwhy => ?_
  swap
  · exact GapEnumeration.push_error hwhy
  refine dumpFile_bind (Meets.mark_bind
    (fun _ => h.shown _ _ (by simp) (h.of_dumped _ _ _ hs₂)) fun _ => ?_)
  refine Meets.ite (fun hok => ?_) fun hok => Meets.ite (fun hcom => ?_) fun _ => ?_
  · refine gePopFile_bind (fun ge _ => ?_) fun why hwhy => ?_
    · exact fePush_bind (Meets.pure (h.pushed status _ _ (Or.inl hok) hs₂))
    · intro hnull
      cases hnull.symm.trans (GapEnumeration.popBlocks_error hwhy)
  · exact fePush_bind (Meets.throw (h.of_pushed _ _ (h.pushed status _ _ (Or.inr hcom) hs₂)))
  · exact Meets.throw (h.of_dumped _ _ _ hs₂)

/-! ## Loops -/

/-- Returns in `I`, throws nothing and halts with `Fatal` faults only. -/
def keeps {α : Type} (I : Operation → Prop) (Fatal : Fault → Prop) : Post Operation Fault α :=
  ⟨fun _ s => I s, fun _ => False, fun why _ => Fatal why, fun _ => True⟩

/-- The same, and does not run out of fuel. -/
def ends {α : Type} (I : Operation → Prop) (Fatal : Fault → Prop) : Post Operation Fault α :=
  ⟨fun _ s => I s, fun _ => False, fun why _ => Fatal why, fun _ => False⟩

section Loops

variable {I O : Operation → Prop} {Fatal : Fault → Prop}

/-- The fragmented files, in the order of `buckets_`, unless the user stops the search. -/
theorem listFragmented_meets : ∀ (es : List (ℕ × FileId)) (s : Operation),
    Meets A Φ (listFragmented env es) s
      ⟨fun files s' => (∃ k, s' = { s with clock := k }) ∧ files.Sublist (es.map Prod.snd)
        ∧ ∀ f ∈ files, 1 < (s.fe.disp f).fragments, fun _ => False, fun _ _ => False,
        fun _ => False⟩
  | [], s => Meets.pure ⟨⟨s.clock, rfl⟩, by simp, by simp⟩
  | e :: es, s => by
    refine terminated_bind (Meets.ite (fun _ => ?_) fun _ => ?_)
    · exact Meets.pure ⟨⟨_, rfl⟩, by simp, by simp⟩
    · refine Meets.get_bind (Meets.bind (listFragmented_meets es s.tick) ?_)
      rintro files s' ⟨⟨k, rfl⟩, hsub, hfrag⟩
      refine Meets.ite (fun hf => ?_) fun _ => ?_
      · refine Meets.pure ⟨⟨k, rfl⟩, hsub.cons_cons _, fun f hmem => ?_⟩
        rcases List.mem_cons.1 hmem with rfl | hmem
        · exact hf
        · exact hfrag f hmem
      · exact Meets.pure ⟨⟨k, rfl⟩, hsub.cons _, hfrag⟩

/-- What an iteration of `defrag` has to meet: the file may be popped (then `K`), and is moved if
there is a gap for it; after an exception (`T`) the gaps are scanned. -/
structure DefragStep (A Φ : Mark → Operation → Prop) (env : Env) (Fatal : Fault → Prop) (f : FileId)
    (s : Operation) (K T I : Operation → Prop) : Prop where
  shown : A (.defragIter f) s → Φ (.defragIter f) s
  popped : s.last = some f → A (.defragIter f) s →
    (A (.fePop f) s → Φ (.fePop f) s) ∧ K (s.fePopped f)
  go : s.last ≠ some f → K s
  idle : ∀ s, K s → I s
  moved : ∀ s n, K s → s.ge.best (s.fe.disp f).clusters none false = some n →
    Meets A Φ (moveFile env .defrag f (s.ge.node n)) s
      ⟨fun _ s' => I s', T, fun why _ => Fatal why, fun _ => False⟩
  scanned : ∀ s, T s → I s.scanned

theorem DefragStep.meets {f : FileId} {K T : Operation → Prop}
    (h : DefragStep A Φ env Fatal f s K T I) :
    Meets A Φ (defragBody env f) s (ends I Fatal) := by
  refine Meets.mark_bind h.shown fun hA => Meets.get_bind (Meets.ite_bind (K := K) ?_ ?_ h.go)
  · intro hlast hgap
    exact fePop_bind (h.popped hlast hA).1 fun _ => hgap _ (h.popped hlast hA).2
  · intro s hs
    refine Meets.get_bind ?_
    rcases hbest : s.ge.best (s.fe.disp f).clusters none false with _ | n
    · exact Meets.pure (h.idle s hs)
    · exact Meets.catching (h.moved s n hs hbest) (fun s' hs' => Meets.modify (h.scanned s' hs'))
        fun _ _ hs' => hs'

/-- The loop of `defrag` keeps what each iteration keeps, for the files still to come. -/
theorem defragLoop_meets {Q : List FileId → Operation → Prop}
    (htick : ∀ files s, Q files s → Q files s.tick)
    (hbody : ∀ f files s, Q (f :: files) s →
      Meets A Φ (defragBody env f) s (ends (Q files) Fatal)) :
    ∀ files s, Q files s → Meets A Φ (defragLoop env files) s
      (ends (fun s' => ∃ files', Q files' s') Fatal)
  | [], s, h => Meets.pure ⟨[], h⟩
  | f :: files, s, h => by
    refine terminated_bind (Meets.ite (fun _ => Meets.pure ⟨_, htick _ _ h⟩) fun _ => ?_)
    exact Meets.bind (hbody f files _ (htick _ _ h)) fun _ s' hs' =>
      defragLoop_meets htick hbody files s' hs'

theorem defrag_meets {Q : List FileId → Operation → Prop}
    (htick : ∀ files s, Q files s → Q files s.tick)
    (hbody : ∀ f files s, Q (f :: files) s →
      Meets A Φ (defragBody env f) s (ends (Q files) Fatal))
    (hstart : ∀ k files, files.Sublist (s.fe.buckets.map Prod.snd) →
      (∀ f ∈ files, 1 < (s.fe.disp f).fragments) → Q files { s with clock := k }) :
    Meets A Φ (defrag env) s (ends (fun s' => ∃ files, Q files s') Fatal) := by
  refine Meets.get_bind (Meets.bind (listFragmented_meets _ s) ?_)
  rintro files s' ⟨⟨k, rfl⟩, hsub, hfrag⟩
  exact defragLoop_meets htick hbody files _ (hstart k files hsub hfrag)

/-- The loop of `move_set` keeps what each move keeps, for the files and the target to come. -/
theorem moveSetLoop_meets {Q : List FileId → Region → Operation → Prop}
    {T : Operation → Prop}
    (htick : ∀ files r s, Q files r s → Q files r s.tick)
    (hmove : ∀ f files r s, Q (f :: files) r s →
      Meets A Φ (moveFile env .moveSet f r) s
        ⟨fun _ s' => Q files ⟨r.lcn + (s'.fe.disp f).clusters,
            subU64 r.length (s'.fe.disp f).clusters⟩ s',
          T, fun why _ => Fatal why, fun _ => False⟩) :
    ∀ files r s, Q files r s → Meets A Φ (moveSetLoop env files r) s
      ⟨fun _ s' => ∃ files' r', Q files' r' s', T, fun why _ => Fatal why, fun _ => False⟩
  | [], r, s, h => Meets.pure ⟨[], r, h⟩
  | f :: files, r, s, h => by
    refine terminated_bind (Meets.ite (fun _ => Meets.pure ⟨_, _, htick _ _ _ h⟩) fun _ => ?_)
    exact Meets.bind (hmove f files r _ (htick _ _ _ h)) fun _ s' hs' =>
      Meets.get_bind (moveSetLoop_meets htick hmove files _ s' hs')

theorem moveSet_meets {Q : List FileId → Region → Operation → Prop} {T : Operation → Prop}
    (htick : ∀ files r s, Q files r s → Q files r s.tick)
    (hmove : ∀ f files r s, Q (f :: files) r s →
      Meets A Φ (moveFile env .moveSet f r) s
        ⟨fun _ s' => Q files ⟨r.lcn + (s'.fe.disp f).clusters,
            subU64 r.length (s'.fe.disp f).clusters⟩ s',
          T, fun why _ => Fatal why, fun _ => False⟩)
    {files : List FileId} {r : Region} (h : Q files r s) :
    Meets A Φ (moveSet env files r) s
      ⟨fun moved s' => if moved then ∃ files' r', Q files' r' s' else T s', fun _ => False,
        fun why _ => Fatal why, fun _ => False⟩ := by
  refine Meets.catching (S := ⟨fun moved s' => moved = true ∧ ∃ files' r', Q files' r' s',
    T, fun why _ => Fatal why, fun _ => False⟩) ?_ ?_ ?_
  · exact Meets.bind (moveSetLoop_meets htick hmove files r s h) fun _ s' hs' =>
      Meets.pure ⟨rfl, hs'⟩
  · exact fun s' hs' => Meets.pure (by simpa using hs')
  · rintro moved s' ⟨rfl, hs'⟩
    simpa using hs'

/-- What a move of `widen_behind` has to meet, where `I` holds of its running gap and the state; an
exception (`T`) ends the loop. -/
structure WidenStep (A Φ : Mark → Operation → Prop) (env : Env) (opts : Options)
    (Fatal : Fault → Prop) (I : Region → Operation → Prop) (T : Operation → Prop) : Prop where
  tick : ∀ r s, I r s → I r s.tick
  found : ∀ r lcn s, I r s → I r { s with fe := (s.fe.findAt lcn).1 }
  shown : ∀ r s, I r s → A (.widened r) s → Φ (.widened r) s
  moved : ∀ r lcn s f target, I r s → lcn = (r.lcn + r.length) % 2 ^ 64 →
    (s.fe.findAt lcn).2 = some f →
    widenTarget opts s.ge r ((s.fe.findAt lcn).1.disp f).clusters = some target →
    Meets A Φ (moveFile env .widenBehind f (s.ge.deref target))
      { s with fe := (s.fe.findAt lcn).1 }
      ⟨fun _ s' => I (widenRegion target r (s'.fe.disp f).clusters) s', T,
        fun why _ => Fatal why, fun _ => False⟩

theorem WidenStep.meets {I : Region → Operation → Prop} {T : Operation → Prop}
    (h : WidenStep A Φ env opts Fatal I T) : ∀ left r moved movedlen s, I r s →
      Meets A Φ (widenLoop env opts left r moved movedlen) s
        ⟨fun widened s' => (∃ r', I r' s') ∨ widened = false ∧ T s', fun _ => False,
          fun why _ => Fatal why, fun _ => False⟩
  | 0, r, moved, movedlen, s, hs => Meets.pure (Or.inl ⟨r, hs⟩)
  | left + 1, r, moved, movedlen, s, hs => by
    unfold widenLoop
    refine Meets.ite (fun _ => Meets.pure (Or.inl ⟨r, hs⟩)) fun _ => ?_
    have hs := h.tick r s hs
    refine terminated_bind (Meets.ite (fun _ => Meets.pure (Or.inl ⟨r, hs⟩)) fun _ => ?_)
    refine Meets.ite (fun _ => Meets.pure (Or.inl ⟨r, hs⟩)) fun _ => ?_
    -- the lookup
    obtain ⟨lcn, hlcn⟩ : ∃ lcn, lcn = (r.lcn + r.length) % 2 ^ 64 := ⟨_, rfl⟩
    rw [← hlcn]
    have hfound := h.found r lcn _ hs
    refine feFindAt_bind ?_
    rcases hf : (s.tick.fe.findAt lcn).2 with _ | f
    · exact Meets.pure (Or.inl ⟨r, hfound⟩)
    refine Meets.get_bind ?_
    simp only
    rcases htarget : widenTarget opts s.tick.ge r ((s.tick.fe.findAt lcn).1.disp f).clusters
      with _ | target
    · exact Meets.pure (Or.inl ⟨r, hfound⟩)
    · refine Meets.bind (Q := ⟨fun ok s' => if ok then
          I (widenRegion target r (s'.fe.disp f).clusters) s' else T s', fun _ => False,
        fun why _ => Fatal why, fun _ => False⟩) ?_ fun ok s' hs' => ?_
      · refine Meets.catching (S := ⟨fun ok s' => ok = true
          ∧ I (widenRegion target r (s'.fe.disp f).clusters) s', T, fun why _ => Fatal why,
          fun _ => False⟩) ?_ (fun s' hs' => Meets.pure (by simpa using hs')) ?_
        · exact Meets.bind (h.moved r lcn s.tick f target hs hlcn hf htarget) fun _ s' hs' =>
            Meets.pure ⟨rfl, hs'⟩
        · rintro ok s' ⟨rfl, hs'⟩
          simpa using hs'
      · refine Meets.ite (fun hok => Meets.get_bind ?_) fun hok => ?_
        · have hs' : I (widenRegion target r (s'.fe.disp f).clusters) s' := by
            simpa [hok] using hs'
          exact Meets.mark_bind (h.shown _ s' hs') fun _ => h.meets left _ _ _ s' hs'
        · exact Meets.pure (Or.inr ⟨rfl, by simpa [hok] using hs'⟩)

/-- What is kept whatever the running gap is. -/
theorem WidenStep.ends (h : WidenStep A Φ env opts Fatal (fun _ => I) I) (r : Region) (n : ℕ)
    (hs : I s) : Meets A Φ (widenBehind env opts r n) s (ends I Fatal) :=
  (h.meets n r 0 0 s hs).mono fun _ _ hs' => hs'.elim (fun hr => hr.choose_spec) And.right

/-- What an iteration of `close_gaps` has to meet, from a state in which `I` holds: the gap is
dropped, filled (or the gaps are scanned, if that fails with `T`) or widened. -/
structure GapStep (A Φ : Mark → Operation → Prop) (env : Env) (opts : Options)
    (Fatal : Fault → Prop) (g : NodePtr) (p : Bool) (s : Operation) (T I : Operation → Prop) :
    Prop where
  inv : I s
  current : g.scan = s.ge.scans
  shown : A (.gapsIter p) s → Φ (.gapsIter p) s
  dropping : ∀ s, I s → A (.dropWidened g) s → Φ (.dropWidened g) s
  dropped : ∀ s ge, I s → s.ge.popRegion s.vol.winxGetFreeVolumeRegions g.node = .ok ge →
    I { s with ge := ge }
  breaks : Fatal .debugBreak
  dangles : Fatal .danglingRegion
  chosen : ∀ why,
    s.fe.findBest (s.ge.node g.node).lcn (s.ge.node g.node).length p = .error why → Fatal why
  moved : ∀ files,
    s.fe.findBest (s.ge.node g.node).lcn (s.ge.node g.node).length p = .ok files →
    Meets A Φ (moveSet env files (s.ge.node g.node)) s
      ⟨fun moved s' => if moved then I s' else T s', fun _ => False, fun why _ => Fatal why,
        fun _ => False⟩
  scanned : ∀ s, T s → I s.scanned
  widened : ∀ n, Meets A Φ (widenBehind env opts (s.ge.node g.node) n) s (ends I Fatal)

/-- The same for an iteration that may know more (`U`) when `widen_behind` has returned false. -/
structure GapRule (A Φ : Mark → Operation → Prop) (env : Env) (opts : Options)
    (Fatal : Fault → Prop) (g : NodePtr) (p : Bool) (s : Operation) (T U I : Operation → Prop) :
    Prop where
  current : g.scan = s.ge.scans
  shown : A (.gapsIter p) s → Φ (.gapsIter p) s
  dropping : ∀ s, U s → A (.dropWidened g) s → Φ (.dropWidened g) s
  skipped : ∀ ge, s.ge.popRegion s.vol.winxGetFreeVolumeRegions g.node = .ok ge →
    I { s with ge := ge }
  dropped : ∀ s ge, U s → s.ge.popRegion s.vol.winxGetFreeVolumeRegions g.node = .ok ge →
    I { s with ge := ge }
  breaks : Fatal .debugBreak
  dangles : Fatal .danglingRegion
  chosen : ∀ why,
    s.fe.findBest (s.ge.node g.node).lcn (s.ge.node g.node).length p = .error why → Fatal why
  moved : ∀ files,
    s.fe.findBest (s.ge.node g.node).lcn (s.ge.node g.node).length p = .ok files →
    Meets A Φ (moveSet env files (s.ge.node g.node)) s
      ⟨fun moved s' => if moved then I s' else T s', fun _ => False, fun why _ => Fatal why,
        fun _ => False⟩
  scanned : ∀ s, T s → I s.scanned
  widened : ∀ n, Meets A Φ (widenBehind env opts (s.ge.node g.node) n) s
    ⟨fun widened s' => I s' ∧ (widened = false → U s'), fun _ => False, fun why _ => Fatal why,
      fun _ => False⟩

theorem GapRule.meets {g : NodePtr} {p : Bool} {T U : Operation → Prop}
    (h : GapRule A Φ env opts Fatal g p s T U I) :
    Meets A Φ (closeGapsBody env opts g p) s (ends I Fatal) := by
  have hdropped : ∀ s b, (∀ ge, s.ge.popRegion s.vol.winxGetFreeVolumeRegions g.node = .ok ge →
      I { s with ge := ge }) → Meets A Φ (do gePopRegion g; pure b : M Bool) s
        (ends I Fatal) := fun s b hs =>
    gePopRegion_bind (fun ge hge => Meets.pure (hs ge hge))
      (fun why hwhy => GapEnumeration.popRegion_error hwhy ▸ h.breaks) fun _ => h.dangles
  refine Meets.mark_bind h.shown fun _ => readRegion_bind h.current ?_
  refine Meets.ite (fun _ => hdropped s p h.skipped) fun _ => Meets.get_bind ?_
  refine Meets.lift_bind (fun files hfiles => ?_) h.chosen
  refine Meets.ite (fun _ => ?_) fun _ => ?_
  · refine Meets.bind (h.moved files hfiles) fun moved s' hs' =>
      Meets.ite (fun hm => ?_) fun hm => ?_
    · exact Meets.pure (show I s' by simpa [hm] using hs')
    · exact Meets.modify_bind (Meets.pure (h.scanned s' (by simpa [hm] using hs')))
  · refine Meets.bind (h.widened _) fun widened s' hs' => Meets.ite (fun hw => ?_) fun _ => ?_
    · have hU := hs'.2 (by simp_all)
      exact Meets.mark_bind (h.dropping s' hU) fun _ => hdropped s' false fun ge =>
        h.dropped s' ge hU
    · exact Meets.pure hs'.1

theorem GapStep.meets {g : NodePtr} {p : Bool} {T : Operation → Prop}
    (h : GapStep A Φ env opts Fatal g p s T I) :
    Meets A Φ (closeGapsBody env opts g p) s (ends I Fatal) := by
  have hrule : GapRule A Φ env opts Fatal g p s T I I :=
    { current := h.current
      shown := h.shown
      dropping := h.dropping
      skipped := fun ge => h.dropped s ge h.inv
      dropped := h.dropped
      breaks := h.breaks
      dangles := h.dangles
      chosen := h.chosen
      moved := h.moved
      scanned := h.scanned
      widened := fun n => (h.widened n).mono fun _ _ hs' => ⟨hs', fun _ => hs'⟩ }
  exact hrule.meets

theorem nextGap_scan {g : NodePtr} (h : s.nextGap = some g) : g.scan = s.ge.scans := by
  unfold Operation.nextGap at h
  obtain ⟨n, -, rfl⟩ := Option.map_eq_some_iff.1 h
  rfl

theorem closeGaps_meets (htick : ∀ s, I s → I s.tick)
    (hclosed : ∀ s, I s → s.nextGap = none → Φ .gapsClosed s)
    (hbody : ∀ g p s, I s → s.nextGap = some g →
      Meets A Φ (closeGapsBody env opts g p) s (ends I Fatal)) :
    ∀ fuel p s, I s → Meets A Φ (closeGaps env opts fuel p) s (keeps I Fatal)
  | 0, _, _, _ => Meets.spent trivial
  | fuel + 1, p, s, h => by
    refine Meets.get_bind ?_
    rcases hg : s.nextGap with _ | g
    · exact Meets.mark fun _ => ⟨hclosed s h hg, h⟩
    · refine terminated_bind (Meets.ite (fun _ => Meets.pure (htick s h)) fun _ => ?_)
      exact Meets.bind (hbody g p _ (htick s h) hg) fun p' s' hs' =>
        closeGaps_meets htick hclosed hbody fuel p' s' hs'

/-- What `run` keeps: `O` whenever one of its iterations begins, `I` while `close_gaps` is at
work. -/
structure RunInvariant (A Φ : Mark → Operation → Prop) (env : Env) (opts : Options)
    (Fatal : Fault → Prop) (I O : Operation → Prop) : Prop where
  tick : ∀ s, O s → O s.tick
  tick_in : ∀ s, I s → I s.tick
  replaced : ∀ b s, O s → O { s with replaced := b }
  enter : ∀ s, O s → I s
  scanned : ∀ s, I s → O s.scanned
  closed : ∀ s, I s → s.nextGap = none → Φ .gapsClosed s
  body : ∀ g p s, I s → s.nextGap = some g →
    Meets A Φ (closeGapsBody env opts g p) s (ends I Fatal)
  defrag : ∀ s, O s → Meets A Φ (StopGap.defrag env) s (ends I Fatal)

theorem RunInvariant.meets (h : RunInvariant A Φ env opts Fatal I O) (fuel : ℕ) (hs : O s) :
    Meets A Φ (run env opts fuel) s (keeps O Fatal) := by
  have hgaps : ∀ s, O s → Meets A Φ (do
      modify fun s : Operation => { s with replaced := false }
      if opts.gaps then
        closeGaps env opts fuel false
        geScan : M Unit) s (keeps O Fatal) := fun s hs => by
    refine Meets.modify_bind (Meets.ite (fun _ => ?_) fun _ => Meets.pure (h.replaced _ s hs))
    exact Meets.bind (closeGaps_meets h.tick_in h.closed h.body fuel false _
        (h.enter _ (h.replaced _ s hs)))
      fun _ s' hs' => Meets.modify (h.scanned s' hs')
  have hrunBody : ∀ s, O s → Meets A Φ (runBody env opts fuel) s (keeps O Fatal) :=
    fun s hs => Meets.ite (fun _ => Meets.bind (h.defrag s hs) fun _ s' hs' =>
      Meets.modify_bind (hgaps _ (h.scanned s' hs'))) fun _ => hgaps s hs
  have hloop : ∀ n s, O s → Meets A Φ (runLoop env opts fuel n) s (keeps O Fatal) := by
    intro n
    induction n with
    | zero => exact fun s _ => Meets.spent trivial
    | succ n ih =>
      intro s hs
      refine terminated_bind (Meets.ite (fun _ => Meets.pure (h.tick s hs)) fun _ => ?_)
      refine Meets.get_bind (Meets.ite (fun _ => ?_) fun _ => Meets.pure (h.tick s hs))
      exact Meets.bind (hrunBody _ (h.tick s hs)) fun _ s' hs' => ih s' hs'
  refine Meets.modify_bind (Meets.bind (hloop fuel _ (h.replaced true s hs)) fun _ s' hs' => ?_)
  exact Meets.modify (h.scanned s' (h.enter s' hs'))

end Loops

end StopGap
