import StopGap.Proofs.FileIndex
import StopGap.Proofs.Moves
import StopGap.Proofs.GapSafety

/-!
# A request while the model offers free clusters only

Whatever the target, and with holes in the file: a granted request takes the clusters the file has
left into the model and the ones it has come to out of it, whether `pop` finds its regions or scans
anew (`Carried`). A refused one leaves the file's clusters in the model (`Failed`).
-/

namespace StopGap

open Exec Exec.Prog Runs GapEnumeration FileEnumeration

/-- The first request `move_file` issues for `f`. -/
def Operation.request (s : Operation) (f : FileId) (t : ℕ) : MoveFileDescriptor :=
  ⟨f, 0, t, min (s.fe.disp f).clusters maxChunk⟩

/-- The state when it is answered. -/
def Operation.replied (s : Operation) (f : FileId) (t : ℕ) (status : NtStatus) : Operation :=
  (s.fePopped f).tick.answered (s.request f t) status

variable {A Φ : Mark → Operation → Prop} {env : Env} {s s' : Operation} {f : FileId}
  {caller : Caller} {t : ℕ} {status : NtStatus}

theorem Operation.answered_ge (s : Operation) (d : MoveFileDescriptor) (status : NtStatus) :
    (s.answered d status).ge = s.ge := by
  unfold Operation.answered
  split_ifs <;> rfl

theorem Operation.answered_fe (s : Operation) (d : MoveFileDescriptor) (status : NtStatus) :
    (s.answered d status).fe = s.fe := by
  unfold Operation.answered
  split_ifs <;> rfl

@[simp] theorem Operation.replied_ge : (s.replied f t status).ge = s.ge :=
  (s.fePopped f).tick.answered_ge _ _

@[simp] theorem Operation.replied_fe : (s.replied f t status).fe = s.fe.pop f :=
  (s.fePopped f).tick.answered_fe _ _

theorem Operation.replied_vol (h : ntSuccess status = true) :
    (s.replied f t status).vol = s.vol.fsctlMoveFile (s.request f t) := by
  unfold Operation.replied
  rw [Operation.answered_of_success h]
  rfl

theorem accurate_redumped {v v' : Volume} {fe : FileEnumeration} {d : Disposition}
    (h : ∀ g, Accurate (v.map g) (fe.disp g)) (hv : ∀ g, g ≠ f → v'.map g = v.map g)
    (hd : Accurate (v'.map f) d) : ∀ g, Accurate (v'.map g) ((fe.redumped f d).disp g) := by
  intro g
  by_cases hg : g = f
  · rw [hg, redumped_disp_self]
    exact hd
  · rw [redumped_disp_of_ne hg, hv g hg]
    exact h g

/-! ## The stock -/

theorem clean_of_sound {v : Volume} {fe : FileEnumeration} (hs : v.Sound)
    (hacc : ∀ f, Accurate (v.map f) (fe.disp f)) (hst : fe.Stocked)
    (hnd : (fe.buckets.map Prod.snd).Nodup) : Clean fe := by
  refine ⟨?_, hst.map⟩
  have hstarts : fe.allStarts.map Prod.fst
      = fe.buckets.flatMap fun e => (fe.disp e.2).blockmap.map Block.lcn := by
    simp [allStarts, starts, List.map_flatMap, Function.comp_def]
  rw [hstarts, List.nodup_flatMap]
  constructor
  · intro e _
    have hap := (hacc e.2).apart (hs.nodup e.2)
    refine List.pairwise_map.2 (List.Pairwise.imp_of_mem (fun {a b} ha hb hab heq => ?_) hap)
    have h1 := (hacc e.2).pos a ha
    have h2 := (hacc e.2).pos b hb
    refine hab a.lcn ?_ ?_ <;> simp only [Run.mem_iff, Block.run] <;> omega
  · refine (List.pairwise_map.1 hnd).imp fun {e e'} hne c hc hc' => ?_
    obtain ⟨b, hb, rfl⟩ := List.mem_map.1 hc
    obtain ⟨b', hb', heq⟩ := List.mem_map.1 hc'
    exact hs.disjoint e.2 e'.2 hne b.lcn ((hacc e.2).lcn_mem hb) (heq ▸ (hacc e'.2).lcn_mem hb')

/-- The files are known, those in stock are there once, and the index of `findAt` is not built or
right. -/
structure Shelf (v : Volume) (fe : FileEnumeration) : Prop where
  sound : v.Sound
  accurate : ∀ f, Accurate (v.map f) (fe.disp f)
  stocked : fe.Stocked
  nodup : (fe.buckets.map Prod.snd).Nodup
  index : fe.lcns = [] ∨ fe.Exact

namespace Shelf

variable {v v' : Volume} {fe : FileEnumeration} {d : Disposition}

theorem clean (h : Shelf v fe) : Clean fe := clean_of_sound h.sound h.accurate h.stocked h.nodup

theorem findAt (h : Shelf v fe) (lcn : ℕ) : Shelf v (fe.findAt lcn).1 where
  sound := h.sound
  accurate := fun f => by
    rw [findAt_disp]
    exact h.accurate f
  stocked := h.stocked.congr (findAt_disp fe lcn) (findAt_buckets fe lcn)
  nodup := by
    rw [findAt_buckets]
    exact h.nodup
  index := Or.inr (findAt_exact h.clean h.index lcn)

/-- Also a file that is not in stock may be popped: nothing in the index is a block of it. -/
theorem pop (h : Shelf v fe) (f : FileId) : Shelf v (fe.pop f) where
  sound := h.sound
  accurate := h.accurate
  stocked := h.stocked.pop f
  nodup := nodup_pop h.nodup f
  index := by
    refine pop_exact_of (fun x => ?_) h.index
    obtain ⟨l, g⟩ := x
    rw [mem_allStarts_iff, mem_allStarts_iff]
    constructor
    · rintro ⟨⟨e, he, rfl⟩, b, hb, rfl⟩
      refine ⟨⟨⟨e, List.mem_of_mem_erase he, rfl⟩, b, hb, rfl⟩, fun hin => ?_⟩
      obtain ⟨b', hb', heq : b'.lcn = b.lcn⟩ := List.mem_map.1 hin
      exact h.sound.disjoint e.2 f (h.stocked.gone h.nodup f e he) b.lcn
        ((h.accurate e.2).lcn_mem hb) (heq ▸ (h.accurate f).lcn_mem hb')
    · rintro ⟨⟨⟨e, he, rfl⟩, b, hb, rfl⟩, hno⟩
      refine ⟨⟨e, (List.mem_erase_of_ne fun heq => hno ?_).2 he, rfl⟩, b, hb, rfl⟩
      rw [heq] at hb
      exact List.mem_map.2 ⟨b, hb, rfl⟩

theorem redumped (h : Shelf v fe) (hs : v'.Sound) (hv : ∀ g, g ≠ f → v'.map g = v.map g)
    (hd : Accurate (v'.map f) d) : Shelf v' (fe.redumped f d) where
  sound := hs
  accurate := accurate_redumped h.accurate hv hd
  stocked := (h.stocked.pop f).change (h.stocked.gone h.nodup f) d
  nodup := nodup_pop h.nodup f
  index := change_exact d (h.stocked.gone h.nodup f) (h.pop f).index

theorem push (h : Shelf v fe) (hgone : ∀ e ∈ fe.buckets, e.2 ≠ f)
    (hpos : 0 < (fe.disp f).clusters) : Shelf v (fe.push f) := by
  have hst := h.stocked.push hpos ((h.accurate f).map_ne_nil hpos)
  have hnd := nodup_push h.nodup hgone
  have hacc := accurate_push h.accurate f
  exact ⟨h.sound, hacc, hst, hnd, push_exact (clean_of_sound h.sound hacc hst hnd) h.index⟩

end Shelf

/-! ## Requests -/

/-- What a granted request to move `f` to `t` makes of `s`: the clusters `B` go to `t`, the clusters
`C` stay. -/
structure Carried (s s' : Operation) (f : FileId) (t : ℕ) (B C : List ℕ) : Prop where
  safe : Safe s'
  pos : 0 < (s.fe.disp f).clusters
  vol : s'.vol = s.vol.fsctlMoveFile (s.request f t)
  moved : Volume.Moved s.vol s'.vol f t B C
  size : B.length ≤ maxChunk
  solid : NoHoles (s.vol.map f) → (s.fe.disp f).clusters ≤ maxChunk → C = []
  target : ∀ c, t ≤ c → c < t + B.length → s.vol.Free c
  covers : ∀ c, c ∈ cover s.ge.gaps ∨ c ∈ lcns (s.vol.map f) → s'.vol.Free c →
    c ∈ cover s'.ge.gaps
  model : ∃ ge₁ d, s.ge.push (s.fe.disp f).blockmap = .ok ge₁
    ∧ ge₁.popBlocks s'.vol.winxGetFreeVolumeRegions d.blockmap = .ok s'.ge
    ∧ Accurate (s'.vol.map f) d ∧ blockLcns d.blockmap = lcns (s'.vol.map f)
    ∧ s'.fe = (s.fe.redumped f d).push f

namespace Carried

variable {B C : List ℕ}

theorem length_lcns (h : Carried s s' f t B C) :
    (lcns (s'.vol.map f)).length = (lcns (s.vol.map f)).length := by
  simp [h.moved.before, h.moved.after]

theorem clusters (h : Carried s s' f t B C) (hs : Sane s) :
    (s'.fe.disp f).clusters = (s.fe.disp f).clusters := by
  rw [(h.safe.sane.accurate f).clusters, (hs.accurate f).clusters, h.length_lcns]

/-- The file was nowhere in the target. -/
theorem clear (h : Carried s s' f t B C) (hs : Sane s) {c : ℕ} (hc : c ∈ lcns (s.vol.map f)) :
    ¬ (t ≤ c ∧ c < t + B.length) := fun ht =>
  hs.sound.not_free hc (h.target c ht.1 ht.2)

theorem one (h : Carried s s' f t B C) (hs : Sane s) (hC : C = []) :
    (s.fe.disp f).clusters ≤ maxChunk := by
  rw [(hs.accurate f).clusters, h.moved.before, hC, List.append_nil]
  exact h.size

theorem shelf (h : Carried s s' f t B C) (hs : Shelf s.vol s.fe) : Shelf s'.vol s'.fe := by
  obtain ⟨ge₁, d, -, -, hd, -, hfe⟩ := h.model
  rw [hfe]
  refine (hs.redumped h.safe.sane.sound h.moved.others hd).push (hs.stocked.gone hs.nodup f) ?_
  rw [redumped_disp_self, hd.clusters, h.length_lcns, ← (hs.accurate f).clusters]
  exact h.pos

end Carried

/-- What a refused one makes of it. -/
structure Failed (s s' : Operation) (f : FileId) : Prop where
  usable : Usable s'
  pos : 0 < (s.fe.disp f).clusters
  vol : s'.vol = s.vol
  model : s.ge.push (s.fe.disp f).blockmap = .ok s'.ge
  stock : ∃ d, Accurate (s.vol.map f) d
    ∧ (s'.fe = s.fe.redumped f d ∨ s'.fe = (s.fe.redumped f d).push f)

theorem Failed.shelf (h : Failed s s' f) (hs : Shelf s.vol s.fe) : Shelf s'.vol s'.fe := by
  obtain ⟨d, hd, hfe⟩ := h.stock
  have hredumped := hs.redumped hs.sound (fun _ _ => rfl) hd
  rw [h.vol]
  rcases hfe with hfe | hfe <;> rw [hfe]
  · exact hredumped
  · refine hredumped.push (hs.stocked.gone hs.nodup f) ?_
    rw [redumped_disp_self, hd.clusters, ← (hs.accurate f).clusters]
    exact h.pos

/-- The model offers free clusters only. -/
def Operation.Offers (s : Operation) : Prop :=
  ∀ r ∈ s.ge.gaps, ∀ c ∈ List.range' r.start r.length, s.vol.Free c

instance (s : Operation) : Decidable s.Offers := inferInstanceAs (Decidable (∀ r ∈ s.ge.gaps, _))

theorem Usable.safe (h : Usable s) (ho : s.Offers) : Safe s :=
  ⟨h.sane, h.tidy, fun c ⟨r, hr, hc⟩ => ho r hr c (List.mem_range'_1.2 hc)⟩

/-- What may be assumed of the first request once it is answered. -/
structure Asked (A : Mark → Operation → Prop) (caller : Caller) (f : FileId) (t : ℕ)
    (s : Operation) (status : NtStatus) : Prop where
  popped : A (.fePop f) s
  requested : A (.request caller (s.request f t)) (s.fePopped f).tick
  answered : A (.answered caller (s.request f t) status) (s.replied f t status)

/-- What `move_file` has to meet in a safe state, where one request is enough if it is granted. -/
structure OneMove (A Φ : Mark → Operation → Prop) (caller : Caller) (f : FileId) (t : ℕ)
    (s : Operation) (Q T : Operation → Prop) : Prop where
  quiet : ∀ m s, m.ofMove = true → (∀ h, m ≠ .gePush h) → Φ m s
  pushing : ∀ status, Asked A caller f t s status → Φ (.gePush f) (s.replied f t status)
  empty : (s.fe.disp f).clusters = 0 → Q ((s.fePopped f).movedFile f)
  shut : T (s.fePopped f).tick
  granted : ∀ status s' B C, Asked A caller f t s status → ntSuccess status = true →
    Carried s s' f t B C → (s.fe.disp f).clusters ≤ maxChunk ∧ Q s'
  refused : ∀ status s', Asked A caller f t s status → ¬ ntSuccess status = true →
    Failed s s' f → T s'

theorem Safe.carried {ge₁ ge₂ : GapEnumeration} {m' : List Extent} (h : Safe s)
    (hpos : 0 < (s.fe.disp f).clusters)
    (hfree : ∀ c, t ≤ c → c < t + allocated (s.vol.requested (s.request f t)) → s.vol.Free c)
    (hpush : s.ge.push (s.fe.disp f).blockmap = .ok ge₁)
    (htell : Tells ((s.vol.fsctlMoveFile (s.request f t)).map f) m')
    (hpop : ge₁.popBlocks (s.vol.fsctlMoveFile (s.request f t)).winxGetFreeVolumeRegions
      (winxFtwDumpFile (some m')).blockmap = .ok ge₂)
    (hvol : s'.vol = s.vol.fsctlMoveFile (s.request f t)) (hge : s'.ge = ge₂)
    (hfe : s'.fe = (s.fe.redumped f (winxFtwDumpFile (some m'))).push f) :
    ∃ B C, Carried s s' f t B C := by
  have hd := htell.accurate
  obtain ⟨C, hm, hsolid⟩ : ∃ C, Volume.Moved s.vol (s.vol.fsctlMoveFile (s.request f t)) f t
      (lcns (s.vol.requested (s.request f t))) C ∧ _ := s.vol.moved_fsctlMoveFile f t _
  rw [← length_lcns] at hfree
  obtain ⟨htidy, hfree', hkeep⟩ := h.granted hm hd hpush hpop
  have hsound := hm.sound h.sane.sound hfree
  have haccurate : ∀ g, Accurate (s'.vol.map g) (s'.fe.disp g) := by
    rw [hfe, hvol]
    exact accurate_push (accurate_redumped h.sane.accurate hm.others hd) f
  refine ⟨_, C, ⟨⟨hvol ▸ hsound, haccurate⟩, hge ▸ htidy, ?_⟩, hpos, hvol, hvol ▸ hm, ?_,
    fun hno hle => hsolid hno ?_, hfree, ?_, ge₁, _, hpush, ?_, hvol ▸ hd,
    hvol ▸ htell.blockLcns_eq, hfe⟩
  · rw [hge, hvol]
    exact hfree'
  · exact (length_lcns_takeVcn_le _ _).trans (min_le_right _ _)
  · rw [← (h.sane.accurate f).clusters]
    exact le_min le_rfl hle
  · intro c hc hcf
    rw [hvol] at hcf
    rw [hge]
    exact hkeep c (((h.pushed hpush).2 c).2 hc) hcf fun hin => hsound.not_free hin hcf
  · rw [hvol, hge]
    exact hpop

theorem Safe.failed {ge₁ : GapEnumeration} {d : Disposition} (h : Safe s)
    (hpos : 0 < (s.fe.disp f).clusters)
    (hpush : s.ge.push (s.fe.disp f).blockmap = .ok ge₁) (hd : Accurate (s.vol.map f) d)
    (hvol : s'.vol = s.vol) (hge : s'.ge = ge₁)
    (hfe : s'.fe = s.fe.redumped f d ∨ s'.fe = (s.fe.redumped f d).push f) : Failed s s' f := by
  have haccurate := accurate_redumped h.sane.accurate (fun _ _ => rfl) hd
  refine ⟨⟨⟨hvol ▸ h.sane.sound, fun g => ?_⟩, hge ▸ (h.pushed hpush).1⟩, hpos, hvol,
    hge ▸ hpush, d, hd, hfe⟩
  rw [hvol]
  rcases hfe with hfe | hfe <;> rw [hfe]
  · exact haccurate g
  · exact accurate_push haccurate f g

theorem OneMove.meets {g : Region} {Q T : Operation → Prop} (h : OneMove A Φ caller f g.lcn s Q T)
    (hs : Safe s) (htruth : env.Truthful) (hguard : env.Guarded) :
    Meets A Φ (moveFile env caller f g) s
      ⟨fun _ s' => Q s', T, fun _ _ => True, fun _ => False⟩ := by
  have hquiet : ∀ m s, m.ofMove = true → (∀ h, m ≠ .gePush h) → Φ m s := h.quiet
  refine fePop_bind (fun _ => hquiet _ _ rfl (by simp)) fun hpopped => Meets.get_bind ?_
  refine Meets.bind (Q := ⟨fun _ s' => Q (s'.movedFile f), T, fun _ _ => True, fun _ => False⟩)
    ?_ fun _ s' hs' => Meets.modify_bind (Meets.mark fun _ => ⟨hquiet _ _ rfl (by simp), hs'⟩)
  change Meets A Φ (moveChunks env caller f ((s.fe.disp f).clusters / maxChunk + 1)
    (s.fe.disp f).clusters g) (s.fePopped f) _
  rw [moveChunks]
  have hcur : min (s.fe.disp f).clusters maxChunk = 0 ↔ (s.fe.disp f).clusters = 0 := by
    unfold maxChunk
    omega
  refine Meets.ite (fun h0 => Meets.pure (h.empty (hcur.1 h0))) fun h0 => ?_
  have hpos : 0 < (s.fe.disp f).clusters := Nat.pos_of_ne_zero fun h0' => h0 (hcur.2 h0')
  refine openFile_bind (fun _ => ?_) fun _ => h.shut
  refine request_bind (fun _ => hquiet _ _ rfl (by simp)) fun status hst hreq hans =>
    ⟨hquiet _ _ rfl (by simp), ?_⟩
  have hasked : Asked A caller f g.lcn s status := ⟨hpopped, hreq, hans⟩
  refine gePush_bind (fun _ => h.pushing status hasked) (fun ge₁ hpush => ?_)
    fun _ _ => trivial
  rw [Operation.answered_ge, Operation.answered_fe] at hpush
  refine dumpFile_bind (Meets.mark_bind (fun _ => hquiet _ _ rfl (by simp)) fun _ => ?_)
  refine Meets.ite (fun hok => ?_) fun hok => ?_
  · rw [Operation.answered_of_success hok]
    obtain ⟨m', hm', htell⟩ := htruth (s.clock + 2)
      ((s.vol.fsctlMoveFile (s.request f g.lcn)).map f)
    have hfe : (Operation.dumped env f { (s.fePopped f).tick.tick with
        vol := s.vol.fsctlMoveFile (s.request f g.lcn), ge := ge₁ }).fe
          = s.fe.redumped f (winxFtwDumpFile (some m')) := by
      rw [← hm']
      rfl
    refine gePopFile_bind (fun ge₂ hpop => fePush_bind ?_) fun _ _ => trivial
    have hdisp := congrArg (fun fe => (fe.disp f).blockmap) hfe
    simp only [redumped_disp_self] at hdisp
    have hpop' : ge₁.popBlocks (s.vol.fsctlMoveFile (s.request f g.lcn)).winxGetFreeVolumeRegions
        (winxFtwDumpFile (some m')).blockmap = .ok ge₂ := hdisp ▸ hpop
    obtain ⟨B, C, hcarried⟩ : ∃ B C, Carried s (Operation.movedFile (Operation.fePushed
        { Operation.dumped env f { (s.fePopped f).tick.tick with
          vol := s.vol.fsctlMoveFile (s.request f g.lcn), ge := ge₁ } with ge := ge₂ } f) f)
        f g.lcn B C :=
      hs.carried hpos (hguard _ s.vol _ (hst ▸ hok)) hpush htell hpop' rfl rfl
        (congrArg (fun fe => fe.push f) hfe)
    obtain ⟨hone, hQ⟩ := h.granted status _ B C hasked hok hcarried
    have hleft : (s.fe.disp f).clusters - min (s.fe.disp f).clusters maxChunk = 0 := by omega
    rw [hleft, moveChunks_zero]
    exact Meets.pure hQ
  · rw [Operation.answered_of_failure hok]
    obtain ⟨m', hm', htell⟩ := htruth (s.clock + 2) (s.vol.map f)
    have hfe : (Operation.dumped env f { (s.fePopped f).tick.tick with ge := ge₁ }).fe
        = s.fe.redumped f (winxFtwDumpFile (some m')) := by
      rw [← hm']
      rfl
    refine Meets.ite (fun _ => fePush_bind (Meets.throw ?_)) fun _ => Meets.throw ?_
    · exact h.refused status _ hasked hok (hs.failed hpos hpush htell.accurate rfl rfl
        (Or.inr (congrArg (fun fe => fe.push f) hfe)))
    · exact h.refused status _ hasked hok (hs.failed hpos hpush htell.accurate rfl rfl
        (Or.inl hfe))

end StopGap
