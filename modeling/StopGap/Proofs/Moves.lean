import StopGap.Proofs.Mirror
import StopGap.Proofs.Stock
import StopGap.Proofs.Steps

/-!
# A move in the closed world

Where granted requests move whole files, `move_file` either puts the file on consecutive clusters
from the target on and the gap model still mirrors the volume (`Relocated`), or throws with the
volume as it was (`Refused`).
-/

namespace StopGap

open Exec Exec.Prog Runs FileEnumeration

/-- The volume is sound, and the enumeration is right about its files. Unless granted requests are
assumed to move whole files (`P`), files have no holes and are small enough for one request. -/
structure World (P : Prop) (v : Volume) (fe : FileEnumeration) : Prop where
  sound : v.Sound
  bounded : ∀ f, (lcns (v.map f)).length < 2 ^ 62
  whole : P ∨ ∀ f, NoHoles (v.map f) ∧ (lcns (v.map f)).length < maxChunk
  accurate : ∀ f, Accurate (v.map f) (fe.disp f)
  stocked : fe.Stocked
  nodup : (fe.buckets.map Prod.snd).Nodup

/-- A granted request has left its file in one piece at the target. -/
def Placed : Mark → Operation → Prop
  | .answered _ d status, s =>
    ntSuccess status → lcns (s.vol.map d.file)
      = List.range' d.targetLcn (lcns (s.vol.map d.file)).length
  | _, _ => True

instance (m : Mark) (s : Operation) : Decidable (Placed m s) :=
  match m with
  | .answered _ d status => inferInstanceAs (Decidable (ntSuccess status →
      lcns (s.vol.map d.file) = List.range' d.targetLcn (lcns (s.vol.map d.file)).length))
  | .fePop _ | .request _ _ | .gePush _ | .dumped _ _ | .moveReturned _ | .defragIter _
  | .gapsIter _ | .gapsClosed | .widened _ | .dropWidened _ => isTrue trivial

namespace World

variable {P : Prop} {v v' : Volume} {fe : FileEnumeration} {f : FileId} {d : Disposition}

theorem clusters_eq (h : World P v fe) (f : FileId) :
    (fe.disp f).clusters = (lcns (v.map f)).length := (h.accurate f).clusters

theorem gone (h : World P v fe) (f : FileId) : ∀ e ∈ (fe.pop f).buckets, e.2 ≠ f :=
  h.stocked.gone h.nodup f

theorem pop (h : World P v fe) (f : FileId) : World P v (fe.pop f) :=
  ⟨h.sound, h.bounded, h.whole, h.accurate, h.stocked.pop f, nodup_pop h.nodup f⟩

theorem change (h : World P v fe) (hf : ∀ e ∈ fe.buckets, e.2 ≠ f) (hs : v'.Sound)
    (hothers : ∀ g, g ≠ f → v'.map g = v.map g)
    (hlen : (lcns (v'.map f)).length = (lcns (v.map f)).length)
    (hsolid : NoHoles (v.map f) → NoHoles (v'.map f)) (hd : Accurate (v'.map f) d) :
    World P v' { fe with disp := Function.update fe.disp f d } := by
  have hall : ∀ {p : FileId → Prop}, p f → (∀ g, g ≠ f → p g) → ∀ g, p g := fun hpf hp g => by
    by_cases hg : g = f
    · exact hg ▸ hpf
    · exact hp g hg
  refine ⟨hs, hall (hlen ▸ h.bounded f) fun g hg => ?_,
    h.whole.imp_right fun hw => hall ⟨hsolid (hw f).1, hlen ▸ (hw f).2⟩ fun g hg => ?_,
    hall ?_ fun g hg => ?_, h.stocked.change hf d, h.nodup⟩
  · exact hothers g hg ▸ h.bounded g
  · exact hothers g hg ▸ hw g
  · simpa only [Function.update_self] using hd
  · simpa only [Function.update_of_ne hg, hothers g hg] using h.accurate g

theorem push (h : World P v fe) (hf : ∀ e ∈ fe.buckets, e.2 ≠ f)
    (hpos : 0 < (fe.disp f).clusters) : World P v (fe.push f) :=
  ⟨h.sound, h.bounded, h.whole, accurate_push h.accurate f,
    h.stocked.push hpos ((h.accurate f).map_ne_nil hpos), nodup_push h.nodup hf⟩

end World

/-- What holds whenever `defrag` or `close_gaps` is between two iterations. -/
structure Good (P : Prop) (opts : Options) (s : Operation) : Prop where
  world : World P s.vol s.fe
  mirrors : Mirrors s.vol s.ge
  -- the file moved last is in one piece
  last : ∀ f, s.last = some f → ∃ t n, lcns (s.vol.map f) = List.range' t n
  -- no file behind a dropped gap fits into it, unless it was dropped for its size
  given : ∀ r ∈ s.ge.dropped, (opts.aggressive = true ∨ r.length ≤ opts.maxSize) →
    ∀ e ∈ s.fe.buckets, (∀ c ∈ lcns (s.vol.map e.2), r.lcn + r.length ≤ c) → r.length < e.1

def Watched (P : Prop) (opts : Options) : Mark → Operation → Prop
  | .request _ d, s =>
    (∃ r ∈ s.ge.gaps, r.start ≤ d.targetLcn ∧ d.targetLcn + d.numVcns ≤ r.start + r.length)
      ∧ ∀ c, d.targetLcn ≤ c → c < d.targetLcn + d.numVcns → s.vol.Free c
  | .moveReturned _, s => Mirrors s.vol s.ge
  | .gapsIter _, s => Good P opts s
  | .gapsClosed, s => Good P opts s ∧ s.ge.gaps = []
  | _, _ => True

structure Ready (s : Operation) (f : FileId) (t : ℕ) : Prop where
  stocked : ∃ e ∈ s.fe.buckets, e.2 = f
  behind : ∀ r ∈ s.ge.dropped, ∀ c ∈ lcns (s.vol.map f), r.lcn + r.length < c
  target : ∀ c, t ≤ c → c < t + (s.fe.disp f).clusters → c ∈ cover s.ge.gaps

/-- The file is on the clusters from `t` on. -/
structure Relocated (P : Prop) (s s' : Operation) (f : FileId) (t : ℕ) : Prop where
  world : World P s'.vol s'.fe
  mirrors : Mirrors s'.vol s'.ge
  dropped : s'.ge.dropped = s.ge.dropped ∨ s'.ge.dropped = []
  moved : Volume.Moved s.vol s'.vol f t (lcns (s.vol.map f)) []
  buckets : s'.fe.buckets.Perm s.fe.buckets
  others : ∀ g, g ≠ f → s'.fe.disp g = s.fe.disp g
  last : s'.last = some f

/-- `f` opens, and the request to move it to `t` finds clusters of the target in use. -/
def Vanished (env : Env) (s : Operation) (f : FileId) (t : ℕ) : Prop :=
  env.opens s.clock = true
    ∧ env.status (s.clock + 1) s.vol ⟨f, 0, t, min (s.fe.disp f).clusters maxChunk⟩
      = statusAlreadyCommitted

/-- The move of `f` did not happen; the file is in stock again if the area vanished. -/
structure Refused (P : Prop) (env : Env) (s : Operation) (f : FileId) (t : ℕ) (s' : Operation) :
    Prop where
  world : World P s'.vol s'.fe
  vol : s'.vol = s.vol
  kept : Vanished env s f t → s'.fe.buckets.Perm s.fe.buckets
  lost : ¬ Vanished env s f t → s.fe.buckets.Perm (((s.fe.disp f).clusters, f) :: s'.fe.buckets)
  others : ∀ g, g ≠ f → s'.fe.disp g = s.fe.disp g
  last : s'.last = s.last
  replaced : s'.replaced = s.replaced

variable {P : Prop} {A : Mark → Operation → Prop} {env : Env} {opts : Options} {s : Operation}
  {f : FileId} {caller : Caller} {g : Region}

theorem regions_ne_nil {ge : GapEnumeration} {c : ℕ} (h : c ∈ cover ge.gaps) : ge.regions ≠ [] := by
  intro h0
  rw [GapEnumeration.gaps_eq, h0] at h
  simp at h

theorem World.moved {t : ℕ} {v' : Volume} (h : World P s.vol s.fe)
    (hfree : ∀ c, t ≤ c → c < t + (lcns (s.vol.map f)).length → s.vol.Free c)
    (hv' : v' = s.vol.fsctlMoveFile ⟨f, 0, t, min (s.fe.disp f).clusters maxChunk⟩)
    (hplaced : P → ∃ n, lcns (v'.map f) = List.range' t n) :
    (s.fe.disp f).clusters ≤ maxChunk
      ∧ Volume.Moved s.vol v' f t (lcns (s.vol.map f)) [] := by
  subst hv'
  obtain ⟨C, hm, hC⟩ := s.vol.moved_fsctlMoveFile f t (min (s.fe.disp f).clusters maxChunk)
  have hle := length_lcns_takeVcn_le (min (s.fe.disp f).clusters maxChunk)
    (dropVcn 0 (s.vol.map f))
  have hnil : C = [] := by
    rcases h.whole with hP | hw
    · obtain ⟨n, hn⟩ := hplaced hP
      exact hm.whole h.sound hfree hn
    · have := h.clusters_eq f
      refine hC (hw f).1 ?_
      have := (hw f).2
      omega
  have hB := hm.before
  rw [hnil, List.append_nil] at hB
  rw [hnil, ← hB] at hm
  refine ⟨?_, hm⟩
  have hlen := congrArg List.length hB
  rw [← h.clusters_eq f] at hlen
  unfold Volume.requested at hlen
  simp only at hlen
  omega

/-- The enumeration once `f` was popped and dumped as `d`. -/
def FileEnumeration.redumped (fe : FileEnumeration) (f : FileId) (d : Disposition) :
    FileEnumeration :=
  { fe.pop f with disp := Function.update fe.disp f d }

theorem redumped_disp_of_ne {fe : FileEnumeration} {d : Disposition} {g : FileId} (hg : g ≠ f) :
    (fe.redumped f d).disp g = fe.disp g := Function.update_of_ne hg _ _

@[simp] theorem redumped_disp_self {fe : FileEnumeration} {d : Disposition} :
    (fe.redumped f d).disp f = d := Function.update_self _ _ _

theorem Ready.pos (hw : World P s.vol s.fe) {t : ℕ} (hr : Ready s f t) :
    0 < (s.fe.disp f).clusters := by
  obtain ⟨e, he, rfl⟩ := hr.stocked
  exact hw.stocked.pos e he

/-- A file that is popped, dumped and pushed back with its cluster count is in stock as before. -/
theorem redumped_push_perm {fe : FileEnumeration} {d : Disposition} (hf : fe.Present f)
    (hd : d.clusters = (fe.disp f).clusters) :
    ((fe.redumped f d).push f).buckets.Perm fe.buckets := by
  refine (push_buckets_perm _ f).trans ?_
  rw [redumped_disp_self, hd]
  exact (pop_buckets_perm hf).symm

theorem Ready.free {t : ℕ} (hr : Ready s f t) (hw : World P s.vol s.fe) (hm : Mirrors s.vol s.ge) :
    ∀ c, t ≤ c → c < t + (lcns (s.vol.map f)).length → s.vol.Free c :=
  fun c h1 h2 => hm.free (hr.target c h1 (hw.clusters_eq f ▸ h2))

/-- A granted request, and what the model and the enumeration make of it. -/
theorem Ready.granted {t : ℕ} (hr : Ready s f t) (hw : World P s.vol s.fe) (hm : Mirrors s.vol s.ge)
    {v' : Volume} (hmv : Volume.Moved s.vol v' f t (lcns (s.vol.map f)) [])
    {m' : List Extent} (htell : Tells (v'.map f) m') :
    ∃ ge₁ ge₂, s.ge.push (s.fe.disp f).blockmap = .ok ge₁
      ∧ ge₁.popBlocks v'.winxGetFreeVolumeRegions (winxFtwDumpFile (some m')).blockmap = .ok ge₂
      ∧ ∀ s' : Operation, s'.vol = v' → s'.ge = ge₂ →
        s'.fe = (s.fe.redumped f (winxFtwDumpFile (some m'))).push f → s'.last = some f →
        Relocated P s s' f t := by
  have hpres := hw.stocked.present hr.stocked
  have hfree := hr.free hw hm
  have hne : s.ge.regions ≠ [] := by
    have := hr.pos hw
    exact regions_ne_nil (hr.target t le_rfl (by omega))
  have hacc := htell.accurate
  have hlen : (lcns (v'.map f)).length = (lcns (s.vol.map f)).length := by
    rw [hmv.after]
    simp
  have hclusters := hacc.clusters.trans (hlen.trans (hw.clusters_eq f).symm)
  have hworld : World P v' (s.fe.redumped f (winxFtwDumpFile (some m'))) :=
    (hw.pop f).change (hw.gone f) (hmv.sound hw.sound hfree) hmv.others hlen hmv.noHoles hacc
  obtain ⟨ge₁, ge₂, hpush, hpop, hmirror, hdrop⟩ :=
    hm.move hw.sound hmv hfree hne (hw.accurate f) hacc hr.behind
  refine ⟨ge₁, ge₂, hpush, hpop, fun s' hvol hge hfe hlast => ?_⟩
  refine ⟨?_, ?_, hge ▸ hdrop, hvol ▸ hmv, ?_, fun g hg => ?_, hlast⟩
  · rw [hvol, hfe]
    refine hworld.push (hw.gone f) ?_
    rw [redumped_disp_self, hclusters]
    exact hr.pos hw
  · rw [hvol, hge]
    exact hmirror
  · rw [hfe]
    exact redumped_push_perm hpres hclusters
  · rw [hfe, push_disp, if_neg hg, redumped_disp_of_ne hg]

/-- A request that failed, and what the enumeration makes of it. -/
theorem Ready.failed {t : ℕ} (hr : Ready s f t) (hw : World P s.vol s.fe) {m' : List Extent}
    (htell : Tells (s.vol.map f) m') {s' : Operation} (hvol : s'.vol = s.vol)
    (hlast : s'.last = s.last) (hreplaced : s'.replaced = s.replaced)
    (hkept : Vanished env s f t → s'.fe = (s.fe.redumped f (winxFtwDumpFile (some m'))).push f)
    (hlost : ¬ Vanished env s f t → s'.fe = s.fe.redumped f (winxFtwDumpFile (some m'))) :
    Refused P env s f t s' := by
  have hpres := hw.stocked.present hr.stocked
  have hacc := htell.accurate
  have hclusters := hacc.clusters.trans (hw.clusters_eq f).symm
  have hworld : World P s.vol (s.fe.redumped f (winxFtwDumpFile (some m'))) :=
    (hw.pop f).change (hw.gone f) hw.sound (fun _ _ => rfl) rfl id hacc
  by_cases hv : Vanished env s f t
  · have hfe := hkept hv
    refine ⟨?_, hvol, fun _ => ?_, fun h => absurd hv h, fun g hg => ?_, hlast, hreplaced⟩
    · rw [hvol, hfe]
      refine hworld.push (hw.gone f) ?_
      rw [redumped_disp_self, hclusters]
      exact hr.pos hw
    · rw [hfe]
      exact redumped_push_perm hpres hclusters
    · rw [hfe, push_disp, if_neg hg, redumped_disp_of_ne hg]
  · have hfe := hlost hv
    refine ⟨?_, hvol, fun h => absurd h hv, fun _ => ?_, fun g hg => ?_, hlast, hreplaced⟩
    · rw [hvol, hfe]
      exact hworld
    · rw [hfe]
      exact pop_buckets_perm hpres
    · rw [hfe, redumped_disp_of_ne hg]

theorem moveChunks_meets (hw : World P s.vol s.fe) (hm : Mirrors s.vol s.ge)
    (hr : Ready s f g.lcn) (htruth : env.Truthful)
    (hplaced : P → ∀ m s, A m s → Placed m s) :
    Meets A (Watched P opts)
      (moveChunks env caller f ((s.fe.disp f).clusters / maxChunk + 1) (s.fe.disp f).clusters g)
      (s.fePopped f)
      ⟨fun _ s' => Relocated P s (s'.movedFile f) f g.lcn ∧ ¬ Vanished env s f g.lcn,
        Refused P env s f g.lcn, fun _ _ => False, fun _ => False⟩ := by
  have hpres := hw.stocked.present hr.stocked
  have hpos := hr.pos hw
  rw [moveChunks]
  set cur := min (s.fe.disp f).clusters maxChunk with hcur
  have hcpos : 0 < cur := lt_min hpos (by unfold maxChunk; omega)
  have hcle : cur ≤ (s.fe.disp f).clusters := min_le_left _ _
  rw [if_neg hcpos.ne']
  refine openFile_bind (fun ho => ?_) fun ho => ?_
  swap
  · exact ⟨hw.pop f, rfl, fun h => absurd (h.1.symm.trans ho) (by decide),
      fun _ => pop_buckets_perm hpres, fun _ _ => rfl, rfl, rfl⟩
  refine request_bind (fun _ => ⟨?_, fun c h1 h2 => hm.free (hr.target c h1 ?_)⟩)
    fun status hst _ hA => ⟨trivial, ?_⟩
  · obtain ⟨r, hr', h1, h2⟩ := hm.tidy.spaced.inside hcpos fun c h1 h2 => hr.target c h1 (by omega)
    exact ⟨r, hr', h1, h2⟩
  · exact h2.trans_le (Nat.add_le_add_left hcle _)
  -- the answer to the request decides whether the area vanished
  have hvan : Vanished env s f g.lcn ↔ status = statusAlreadyCommitted :=
    ⟨fun h => hst.trans h.2, fun h => ⟨ho, hst.symm.trans h⟩⟩
  by_cases hok : ntSuccess status = true
  · rw [Operation.answered_of_success hok] at hA ⊢
    obtain ⟨hone, hmv⟩ := hw.moved (hr.free hw hm) rfl fun hP => ⟨_, hplaced hP _ _ hA hok⟩
    obtain ⟨m', hm', htell⟩ := htruth (s.clock + 2)
      ((s.vol.fsctlMoveFile ⟨f, 0, g.lcn, cur⟩).map f)
    obtain ⟨ge₁, ge₂, hpush, hpop, hdone⟩ := hr.granted hw hm hmv htell
    refine gePush_bind (fun _ => trivial) (fun ge hge => ?_) fun why hwhy => ?_
    swap
    · exact absurd (hpush.symm.trans hwhy) (by simp)
    obtain rfl := Except.ok.inj (hpush.symm.trans hge)
    refine dumpFile_bind (Meets.mark_bind (fun _ => trivial) fun _ => ?_)
    rw [if_pos hok]
    have hfe : (Operation.dumped env f { (s.fePopped f).tick.tick with
        vol := s.vol.fsctlMoveFile ⟨f, 0, g.lcn, cur⟩, ge := ge₁ }).fe
          = s.fe.redumped f (winxFtwDumpFile (some m')) := by
      rw [← hm']
      rfl
    have hdisp := congrArg (fun fe => (fe.disp f).blockmap) hfe
    simp only [redumped_disp_self] at hdisp
    have hleft : (s.fe.disp f).clusters - cur = 0 := by omega
    rw [hleft, moveChunks_zero]
    refine gePopFile_bind (fun ge hge => ?_) fun why hwhy => ?_
    · obtain rfl := Except.ok.inj (hpop.symm.trans (hdisp ▸ hge))
      refine fePush_bind (Meets.pure ⟨hdone _ rfl rfl ?_ rfl, fun h => ?_⟩)
      · exact congrArg (fun fe => fe.push f) hfe
      · rw [hvan.1 h] at hok
        exact absurd hok (by decide)
    · exact absurd (hpop.symm.trans (hdisp ▸ hwhy)) (by simp)
  · rw [Operation.answered_of_failure hok]
    obtain ⟨m', hm', htell⟩ := htruth (s.clock + 2) (s.vol.map f)
    have hne := regions_ne_nil (hr.target g.lcn le_rfl (by omega))
    obtain ⟨ge₁, hpush, -⟩ := GapEnumeration.push_spec hm.tidy le_rfl hne
      ((hw.accurate f).apart (hw.sound.nodup f)) fun c hc hcg =>
        hw.sound.not_free ((hw.accurate f).mem_cover.1 hc) (hm.free hcg)
    refine gePush_bind (fun _ => trivial) (fun ge hge => ?_) fun why hwhy => ?_
    swap
    · exact absurd (hpush.symm.trans hwhy) (by simp)
    refine dumpFile_bind (Meets.mark_bind (fun _ => trivial) fun _ => ?_)
    rw [if_neg hok]
    have hfe : (Operation.dumped env f { (s.fePopped f).tick.tick with ge := ge }).fe
        = s.fe.redumped f (winxFtwDumpFile (some m')) := by
      rw [← hm']
      rfl
    refine Meets.ite (fun hcom => fePush_bind (Meets.throw ?_)) fun hcom => Meets.throw ?_
    · exact hr.failed hw htell rfl rfl rfl (fun _ => congrArg (fun fe => fe.push f) hfe)
        fun h => absurd (hvan.2 hcom) h
    · exact hr.failed hw htell rfl rfl rfl (fun h => absurd (hvan.1 h) hcom) fun _ => hfe

/-- `move_file` puts the file to the target or changes nothing on the volume. -/
theorem moveFile_meets (hw : World P s.vol s.fe) (hm : Mirrors s.vol s.ge)
    (hr : Ready s f g.lcn) (htruth : env.Truthful)
    (hplaced : P → ∀ m s, A m s → Placed m s) :
    Meets A (Watched P opts) (moveFile env caller f g) s
      ⟨fun _ s' => Relocated P s s' f g.lcn ∧ ¬ Vanished env s f g.lcn, Refused P env s f g.lcn,
        fun _ _ => False, fun _ => False⟩ := by
  refine fePop_bind (fun _ => trivial) fun _ => Meets.get_bind ?_
  refine Meets.bind (moveChunks_meets hw hm hr htruth hplaced) fun _ s' hs' => ?_
  exact Meets.modify_bind (Meets.mark fun _ => ⟨hs'.1.mirrors, hs'⟩)

end StopGap
