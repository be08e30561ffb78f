import StopGap.Proofs.GapSafety

/-!
# What `move_file` asks for

A request is for virtual clusters, from the first on, and for as many as the file has clusters. So
what is granted is the whole file exactly if none of its clusters comes at a later virtual cluster,
that is if it has no hole before its last block.

The start of the request is never moved on, and the file is pushed after each request. So a file of
more clusters than one request may have is asked for from its first virtual cluster on again and
again, and one without clusters is popped and not pushed back.
-/

namespace StopGap

open Exec Exec.Prog Runs GapEnumeration

/-! ## One granted request -/

section Run

variable {env : Env} {s : Operation} {f : FileId}

theorem openFile_run (h : env.opens s.clock = true) : openFile env s = ⟨[], .ok () s.tick⟩ := by
  have heq : openFile env s = (if env.opens s.clock then pure () else throw : M Unit) s.tick := rfl
  rw [heq, h]
  rfl

theorem ntFsControlFile_run {caller : Caller} {d : MoveFileDescriptor} {status : NtStatus}
    (h : env.status s.clock s.vol d = status) : ntFsControlFile env caller d s
      = ⟨[(.request caller d, s), (.answered caller d status, s.answered d status)],
        .ok status (s.answered d status)⟩ := by
  subst h
  rfl

theorem gePush_run {ge : GapEnumeration} (h : s.ge.push (s.fe.disp f).blockmap = .ok ge) :
    gePush f s = ⟨[(.gePush f, s)], .ok () { s with ge := ge }⟩ := by
  have heq : gePush f s = (mark (.gePush f) >>= fun _ => lift (s.ge.push (s.fe.disp f).blockmap)
      >>= fun ge => modify fun s => { s with ge := ge } : M Unit) s := rfl
  rw [heq, bind_run rfl, bind_run (lift_run h s)]
  rfl

theorem gePopFile_run {ge : GapEnumeration}
    (h : s.ge.popBlocks s.vol.winxGetFreeVolumeRegions (s.fe.disp f).blockmap = .ok ge) :
    gePopFile f s = ⟨[], .ok () { s with ge := ge }⟩ := by
  have heq : gePopFile f s
      = (lift (s.ge.popBlocks s.vol.winxGetFreeVolumeRegions (s.fe.disp f).blockmap)
        >>= fun ge => modify fun s => { s with ge := ge } : M Unit) s := rfl
  rw [heq, bind_run (lift_run h s)]
  rfl

/-- `move_file` where one request is enough, is granted, and the model takes it. -/
theorem moveFile_run (caller : Caller) {g : Region} {n : ℕ} {status : NtStatus}
    {ge₁ ge₂ : GapEnumeration} {s₁ s₂ : Operation}
    (hn : (s.fe.disp f).clusters = n) (hpos : 0 < n) (hone : n ≤ maxChunk)
    (hopen : env.opens s.clock = true)
    (hstatus : env.status (s.clock + 1) s.vol ⟨f, 0, g.lcn, n⟩ = status)
    (hok : ntSuccess status = true)
    (hs₁ : (s.fePopped f).tick.answered ⟨f, 0, g.lcn, n⟩ status = s₁)
    (hpush : s₁.ge.push (s₁.fe.disp f).blockmap = .ok ge₁)
    (hs₂ : { s₁ with ge := ge₁ }.dumped env f = s₂)
    (hpop : s₂.ge.popBlocks s₂.vol.winxGetFreeVolumeRegions (s₂.fe.disp f).blockmap = .ok ge₂) :
    moveFile env caller f g s
      = ⟨[(.fePop f, s), (.request caller ⟨f, 0, g.lcn, n⟩, (s.fePopped f).tick),
          (.answered caller ⟨f, 0, g.lcn, n⟩ status, s₁), (.gePush f, s₁), (.dumped f status, s₂),
          (.moveReturned f, ({ s₂ with ge := ge₂ }.fePushed f).movedFile f)],
        .ok () (({ s₂ with ge := ge₂ }.fePushed f).movedFile f)⟩ := by
  have hmin : min n maxChunk = n := Nat.min_eq_left hone
  have hopen' : env.opens (s.fePopped f).clock = true := hopen
  have hstatus' : env.status (s.fePopped f).tick.clock (s.fePopped f).tick.vol ⟨f, 0, g.lcn, n⟩
      = status := hstatus
  have hdump : dumpFile env f { s₁ with ge := ge₁ } = ⟨[], .ok () s₂⟩ := by
    rw [← hs₂]
    rfl
  have hmark : (mark (.dumped f status) : M Unit) s₂ = ⟨[(.dumped f status, s₂)], .ok () s₂⟩ := rfl
  have hchunks : moveChunks env caller f (n / maxChunk + 1) n g (s.fePopped f)
      = ⟨[(.request caller ⟨f, 0, g.lcn, n⟩, (s.fePopped f).tick),
          (.answered caller ⟨f, 0, g.lcn, n⟩ status, s₁), (.gePush f, s₁), (.dumped f status, s₂)],
        .ok () ({ s₂ with ge := ge₂ }.fePushed f)⟩ := by
    rw [moveChunks]
    simp only [hmin, hpos.ne', if_false, Nat.sub_self, moveChunks_zero]
    rw [bind_run (openFile_run hopen'), bind_run (ntFsControlFile_run hstatus'), hs₁,
      bind_run (gePush_run hpush), bind_run hdump, bind_run hmark, if_pos hok,
      bind_run (gePopFile_run hpop)]
    rfl
  have hpopped : fePop f s = ⟨[(.fePop f, s)], .ok () (s.fePopped f)⟩ := rfl
  have hget : (get : M Operation) (s.fePopped f) = ⟨[], .ok (s.fePopped f) (s.fePopped f)⟩ := rfl
  have hn' : ((s.fePopped f).fe.disp f).clusters = n := hn
  unfold moveFile
  rw [bind_run hpopped, bind_run hget]
  simp only [hn']
  rw [bind_run hchunks]
  rfl

end Run

/-- `pop` of blocks that the model covers and the volume has in use never stops at the
breakpoint. -/
theorem popBlocks_ok {v : Volume} : ∀ {bm : List Block} {ge : GapEnumeration}, Tidy 1 ge →
    (∀ c ∈ cover (bm.map Block.run), c ∈ cover ge.gaps) → Apart bm → (∀ b ∈ bm, 0 < b.length) →
    (∀ b ∈ bm, ¬ v.Free b.lcn) → ∃ ge', ge.popBlocks v.winxGetFreeVolumeRegions bm = .ok ge'
  | [], ge, _, _, _, _, _ => ⟨ge, rfl⟩
  | b :: bm, ge, h, hcov, hap, hpos, hused => by
    obtain ⟨hb, hbm⟩ := List.pairwise_cons.1 hap
    have hbpos := hpos b (by simp)
    have hrest : ∀ ge₁, ge.pop v.winxGetFreeVolumeRegions b.lcn b.length = .ok ge₁ →
        (∃ ge', ge₁.popBlocks v.winxGetFreeVolumeRegions bm = .ok ge') →
        ∃ ge', ge.popBlocks v.winxGetFreeVolumeRegions (b :: bm) = .ok ge' := by
      rintro ge₁ heq ⟨ge', heq'⟩
      refine ⟨ge', ?_⟩
      unfold popBlocks at heq' ⊢
      rw [List.foldlM_cons, heq]
      exact heq'
    rcases pop_cases h v.winxGetFreeVolumeRegions b.lcn b.length with ⟨-, heq⟩ |
      ⟨r, hr, hs, hlt, -⟩ | ⟨r, hr, hs, hle, ge₁, heq, hp⟩
    · obtain ⟨ge', heq', -, -⟩ := popBlocks_of_mirrors bm (mirrors_scan v ge) (scan_dropped v ge)
        fun b' hb' => hused b' (by simp [hb'])
      exact hrest _ heq ⟨ge', heq'⟩
    · -- the block lies in one region, which starts where the block does
      refine absurd (h.spaced.le_length hr fun c h1 h2 => ?_) (not_le.2 hlt)
      exact hcov c ⟨b.run, by simp, by simp only [Run.mem_iff, Block.run]; omega⟩
    · refine hrest ge₁ heq (popBlocks_ok hp.tidy (fun c hc => (hp.covers c).2 ⟨?_, fun hcb => ?_⟩)
        hbm (fun b' hb' => hpos b' (by simp [hb'])) fun b' hb' => hused b' (by simp [hb']))
      · exact hcov c (by simp [hc])
      · obtain ⟨r', hr', hcr'⟩ := hc
        obtain ⟨b', hb', rfl⟩ := List.mem_map.1 hr'
        exact hb b' hb' c hcb hcr'

section Granted

variable {env : Env} {s : Operation} {f : FileId} {caller : Caller} {g : Region}

/-- The model takes a granted request whose target it covers. -/
theorem Safe.model_ok {v' : Volume} {t : ℕ} {B C : List ℕ} {d : Disposition} (h : Safe s)
    (hm : Volume.Moved s.vol v' f t B C) (hd : Accurate (v'.map f) d)
    (hne : s.ge.regions ≠ []) (htarget : ∀ c, t ≤ c → c < t + B.length → c ∈ cover s.ge.gaps) :
    ∃ ge₁ ge₂, s.ge.push (s.fe.disp f).blockmap = .ok ge₁
      ∧ ge₁.popBlocks v'.winxGetFreeVolumeRegions d.blockmap = .ok ge₂ := by
  have hsound := h.sane.sound
  have hacc := h.sane.accurate f
  have hsound' := hm.sound hsound fun c h1 h2 => h.free c (htarget c h1 h2)
  obtain ⟨ge₁, hpush, hp⟩ := push_spec h.tidy le_rfl hne (hacc.apart (hsound.nodup f))
    fun c hc hcg => hsound.not_free (hacc.mem_cover.1 hc) (h.free c hcg)
  have hcov : ∀ c ∈ cover (d.blockmap.map Block.run), c ∈ cover ge₁.gaps := fun c hc => by
    have hnew := hd.mem_cover.1 hc
    rw [hm.after, List.mem_append, List.mem_range'_1] at hnew
    rw [hp.covers]
    rcases hnew with hnew | hnew
    · exact Or.inl (htarget c hnew.1 hnew.2)
    · refine Or.inr (hacc.mem_cover.2 ?_)
      rw [hm.before]
      exact List.mem_append_right _ hnew
  obtain ⟨ge₂, hpop⟩ := popBlocks_ok hp.tidy hcov (hd.apart (hsound'.nodup f)) hd.pos
    fun b hb => hsound'.not_free (hd.lcn_mem hb)
  exact ⟨ge₁, ge₂, hpush, hpop⟩

def Mark.descriptor : Mark → Option MoveFileDescriptor
  | .request _ d => some d
  | _ => none

/-- The requests among the marks passed. -/
def requests (seen : List (Mark × Operation)) : List MoveFileDescriptor :=
  seen.filterMap fun m => m.1.descriptor

/-- What a granted move of a file that one request is enough for does. -/
structure MovedBy (env : Env) (s : Operation) (f : FileId) (t : ℕ) (s' : Operation) : Prop where
  vol : s'.vol = s.vol.fsctlMoveFile ⟨f, 0, t, (s.fe.disp f).clusters⟩
  accurate : Accurate (s'.vol.map f) (s'.fe.disp f)
  fragments : (s'.fe.disp f).blockmap ≠ [] → 0 < (s'.fe.disp f).fragments
  buckets : s'.fe.buckets.Perm (((s'.fe.disp f).clusters, f) :: (s.fe.pop f).buckets)

theorem moveFile_granted (caller : Caller) (h : Safe s) (hpos : 0 < (s.fe.disp f).clusters)
    (hone : (s.fe.disp f).clusters ≤ maxChunk)
    (htarget : ∀ c, g.lcn ≤ c → c < g.lcn + (s.fe.disp f).clusters → c ∈ cover s.ge.gaps)
    (htruth : env.Truthful) (hopen : env.opens s.clock = true)
    (hgrant : ntSuccess (env.status (s.clock + 1) s.vol
      ⟨f, 0, g.lcn, (s.fe.disp f).clusters⟩) = true) :
    ∃ seen s', moveFile env caller f g s = ⟨seen, .ok () s'⟩
      ∧ requests seen = [⟨f, 0, g.lcn, (s.fe.disp f).clusters⟩] ∧ MovedBy env s f g.lcn s' := by
  set n := (s.fe.disp f).clusters with hn
  obtain ⟨C, hm, -⟩ := s.vol.moved_fsctlMoveFile f g.lcn n
  obtain ⟨m', hm', htell⟩ := htruth (s.clock + 2) ((s.vol.fsctlMoveFile ⟨f, 0, g.lcn, n⟩).map f)
  have hlen : (lcns (s.vol.requested ⟨f, 0, g.lcn, n⟩)).length ≤ n := length_lcns_takeVcn_le _ _
  have hne : s.ge.regions ≠ [] := by
    intro h0
    have hc := htarget g.lcn le_rfl (by omega)
    rw [GapEnumeration.gaps_eq, h0] at hc
    simp at hc
  obtain ⟨ge₁, ge₂, hpush, hpop⟩ := h.model_ok hm htell.accurate hne fun c h1 h2 =>
    htarget c h1 (by omega)
  set v' := s.vol.fsctlMoveFile ⟨f, 0, g.lcn, n⟩
  set s₂ := Operation.dumped env f { (s.fePopped f).tick.tick with vol := v', ge := ge₁ } with hs₂
  have hdisp : s₂.fe.disp f = winxFtwDumpFile (some m') := by
    rw [← hm', hs₂]
    exact Function.update_self _ _ _
  have hpop' : s₂.ge.popBlocks s₂.vol.winxGetFreeVolumeRegions (s₂.fe.disp f).blockmap
      = .ok ge₂ := by
    rw [hdisp]
    exact hpop
  refine ⟨_, _, moveFile_run caller hn.symm hpos hone hopen rfl hgrant
    (Operation.answered_of_success hgrant) hpush hs₂.symm hpop', rfl, ⟨rfl, ?_, ?_, ?_⟩⟩
  · change Accurate (v'.map f) ((s₂.fe.push f).disp f)
    rw [FileEnumeration.push_disp, if_pos rfl, hdisp]
    exact htell.accurate.order
  · change ((s₂.fe.push f).disp f).blockmap ≠ [] → 0 < ((s₂.fe.push f).disp f).fragments
    rw [FileEnumeration.push_fragments, hdisp]
    intro hbm
    refine winxFtwDumpFile_fragments_pos fun h0 => hbm ?_
    have hperm := FileEnumeration.push_blockmap_perm s₂.fe f f
    rw [hdisp, h0] at hperm
    exact List.perm_nil.1 hperm
  · change (s₂.fe.push f).buckets.Perm _
    have hperm := FileEnumeration.push_buckets_perm s₂.fe f
    rw [← FileEnumeration.push_clusters] at hperm
    exact hperm

/-- The clusters that stay where they are. -/
theorem fsctlMoveFile_lcns (v : Volume) (f : FileId) (t n : ℕ) :
    ∃ B C, lcns (v.map f) = B ++ C ∧ C = lcns (dropVcn n (v.map f)) ∧ B.length ≤ n
      ∧ lcns ((v.fsctlMoveFile ⟨f, 0, t, n⟩).map f) = List.range' t B.length ++ C := by
  obtain ⟨C, hm, -⟩ := v.moved_fsctlMoveFile f t n
  refine ⟨_, C, hm.before, ?_, length_lcns_takeVcn_le _ _, hm.after⟩
  have hsplit := hm.before.symm.trans
    ((lcns_dropVcn_zero (v.map f)).symm.trans (lcns_takeVcn_append n _).symm)
  rw [← dropVcn_add, Nat.zero_add] at hsplit
  exact List.append_cancel_left hsplit

/-- A granted request moves the whole file, into one fragment, exactly if every virtual cluster of
the file that has a cluster is below the number of its clusters. -/
theorem move_whole_iff_no_hole_before (h : Safe s) (hpos : 0 < (s.fe.disp f).clusters)
    (hsmall : (s.fe.disp f).clusters ≤ maxChunk)
    (htarget : ∀ c, g.lcn ≤ c → c < g.lcn + (s.fe.disp f).clusters → c ∈ cover s.ge.gaps)
    (htruth : env.Truthful) (hopen : env.opens s.clock = true)
    (hgrant : ntSuccess (env.status (s.clock + 1) s.vol
      ⟨f, 0, g.lcn, (s.fe.disp f).clusters⟩) = true) :
    ∃ s', (moveFile env caller f g s).out = .ok () s'
      ∧ (((∀ c ∈ lcns (s'.vol.map f), g.lcn ≤ c ∧ c < g.lcn + (s.fe.disp f).clusters)
          ∧ (s'.fe.disp f).fragments = 1)
        ↔ ∀ vcn c, (expand (s.vol.map f))[vcn]? = some (some c) →
          vcn < (s.fe.disp f).clusters) := by
  obtain ⟨seen, s', hrun, -, hmoved⟩ :=
    moveFile_granted caller h hpos hsmall htarget htruth hopen hgrant
  refine ⟨s', by rw [hrun], ?_⟩
  have hclusters := (h.sane.accurate f).clusters
  set n := (s.fe.disp f).clusters with hn
  obtain ⟨B, C, hbefore, hC, hB, hafter⟩ := fsctlMoveFile_lcns s.vol f g.lcn n
  rw [hn, ← hmoved.vol] at hafter
  rw [← lcns_dropVcn_eq_nil_iff, ← hC]
  constructor
  · rintro ⟨hin, -⟩
    refine List.eq_nil_iff_forall_not_mem.2 fun c hc => ?_
    -- a cluster that stays is in use, and those of the target were free
    obtain ⟨hlo, hhi⟩ := hin c (by simp [hafter, hc])
    have hold : c ∈ lcns (s.vol.map f) := by simp [hbefore, hc]
    exact h.sane.sound.not_free hold (h.free c (htarget c hlo hhi))
  · intro hnil
    rw [hnil, List.append_nil] at hbefore hafter
    rw [hbefore] at hclusters
    refine ⟨fun c hc => ?_, ?_⟩
    · rw [hafter, List.mem_range'_1] at hc
      omega
    · have hne : (s'.fe.disp f).blockmap ≠ [] := by
        refine hmoved.accurate.map_ne_nil ?_
        rw [hmoved.accurate.clusters, hafter, List.length_range']
        omega
      have h1 := hmoved.fragments hne
      have h2 := hmoved.accurate.whole g.lcn B.length hafter
      omega

/-- A file of two blocks, with or without a hole between them. -/
def twoBlocks (hole : List Extent) : Volume :=
  .laid 12 [0] [⟨some 2, 1⟩ :: hole ++ [⟨some 5, 1⟩]]

theorem twoBlocks_gap {hole : List Extent} (h : lcns hole = []) {c : ℕ} (h1 : 8 ≤ c)
    (h2 : c < 10) :
    c ∈ cover
      (Operation.init (twoBlocks hole) [0] (twoBlocks hole).dumps fun _ => false).ge.gaps := by
  refine (mem_cover_scan _ _ c).2 ⟨h2.trans (show 10 < 12 by decide), ?_⟩
  simp only [twoBlocks, Volume.laid, List.flatMap_cons, List.flatMap_nil, List.append_nil,
    lcns_cons, lcns_append, h, lcns_nil, Extent.lcns]
  simp
  omega

theorem move_whole_iff_no_hole_before_two_blocks : ∃ s',
    (moveFile .granting .defrag 0 ⟨8, 4⟩
      (.init (twoBlocks []) [0] (twoBlocks []).dumps fun _ => false)).out = .ok () s'
    ∧ ((∀ c ∈ lcns (s'.vol.map 0), 8 ≤ c ∧ c < 8 + 2) ∧ (s'.fe.disp 0).fragments = 1
      ↔ ∀ vcn c, (expand ((twoBlocks []).map 0))[vcn]? = some (some c) → vcn < 2) := by
  have hworld : ClosedWorld .granting (twoBlocks []) [0] (twoBlocks []).dumps :=
    laid_closedWorld (by decide) (by decide) (by decide) (by decide) Env.granting_truthful
  exact move_whole_iff_no_hole_before (g := ⟨8, 4⟩) (init_safe (fun _ => false) hworld)
    (by decide) (by decide) (fun c h1 h2 => twoBlocks_gap rfl h1 (h2.trans_le (by decide)))
    Env.granting_truthful rfl (by decide)

/-- The block behind a hole stays on cluster 5. -/
theorem block_behind_hole_stays : ∃ s',
    (moveFile .granting .defrag 0 ⟨8, 4⟩
      (.init (twoBlocks [⟨none, 1⟩]) [0] (twoBlocks [⟨none, 1⟩]).dumps fun _ => false)).out
      = .ok () s'
    ∧ lcns (s'.vol.map 0) = [8, 5] ∧ (s'.fe.disp 0).fragments = 2 := ⟨_, rfl, by decide, by decide⟩

/-! ## Chunks -/

/-- Requests for `n` virtual clusters from the first on, to the `n` clusters from `t` on, each from
where the one before ends. -/
def Tiles (n t : ℕ) (ds : List MoveFileDescriptor) : Prop :=
  (ds.flatMap fun d => List.range' d.startVcn d.numVcns) = List.range n
    ∧ (ds.flatMap fun d => List.range' d.targetLcn d.numVcns) = List.range' t n

def FromTheFirst : Mark → Operation → Prop
  | .request _ d, _ => d.startVcn = 0 ∧ d.numVcns ≤ maxChunk
  | _, _ => True

theorem moveChunks_requests (env : Env) (caller : Caller) (f : FileId) : ∀ (fuel n : ℕ) (g : Region)
    (s : Operation), Meets (fun _ _ => True) FromTheFirst (moveChunks env caller f fuel n g) s
      ⟨fun _ _ => True, fun _ => True, fun _ _ => True, fun _ => True⟩
  | 0, _, _, _ => Meets.pure trivial
  | fuel + 1, n, g, s => by
    rw [moveChunks]
    refine Meets.ite (fun _ => Meets.pure trivial) fun _ => ?_
    refine openFile_bind (fun _ => ?_) fun _ => trivial
    refine request_bind (fun _ => ⟨rfl, min_le_right _ _⟩) fun status _ _ _ => ⟨trivial, ?_⟩
    refine gePush_bind (fun _ => trivial) (fun ge _ => ?_) fun _ _ => trivial
    refine dumpFile_bind (Meets.mark_bind (fun _ => trivial) fun _ => ?_)
    refine Meets.ite (fun _ => ?_) fun _ => Meets.ite (fun _ => ?_) fun _ => Meets.throw trivial
    · refine gePopFile_bind (fun ge _ => ?_) fun _ _ => trivial
      exact fePush_bind (moveChunks_requests env caller f fuel _ _ _)
    · exact fePush_bind (Meets.throw trivial)

theorem requests_from_first (env : Env) (caller : Caller) (f : FileId) (g : Region)
    (s : Operation) : ∀ d ∈ requests (moveFile env caller f g s).seen,
      d.startVcn = 0 ∧ d.numVcns ≤ maxChunk := by
  have hmeets : Meets (fun _ _ => True) FromTheFirst (moveFile env caller f g) s
      ⟨fun _ _ => True, fun _ => True, fun _ _ => True, fun _ => True⟩ := by
    refine fePop_bind (fun _ => trivial) fun _ => Meets.get_bind ?_
    refine Meets.bind (moveChunks_requests env caller f _ _ _ _) fun _ _ _ => ?_
    exact Meets.modify_bind (Meets.mark fun _ => ⟨trivial, trivial⟩)
  intro d hd
  obtain ⟨m, hm, hmd⟩ := List.mem_filterMap.1 hd
  have hΦ := (hmeets fun _ _ => trivial).1 m hm
  rcases hm1 : m.1 <;> rw [hm1] at hmd hΦ
  case request caller' d' =>
    obtain rfl := Option.some.inj hmd
    exact hΦ
  all_goals exact absurd hmd (by simp [Mark.descriptor])

/-- What one request cannot cover no number of them does. -/
theorem not_tiles_of_large {n t : ℕ} {ds : List MoveFileDescriptor} (hn : maxChunk < n)
    (hds : ∀ d ∈ ds, d.startVcn = 0 ∧ d.numVcns ≤ maxChunk) : ¬ Tiles n t ds := by
  rintro ⟨hvcns, -⟩
  have hlast : n - 1 ∈ List.range n := List.mem_range.2 (by omega)
  rw [← hvcns] at hlast
  obtain ⟨d, hd, hin⟩ := List.mem_flatMap.1 hlast
  obtain ⟨h0, hle⟩ := hds d hd
  rw [List.mem_range'_1] at hin
  omega

theorem moveFile_of_empty (h0 : (s.fe.disp f).clusters = 0) :
    (moveFile env caller f g s).out = .ok () ((s.fePopped f).movedFile f) := by
  have hpopped : fePop f s = ⟨[(.fePop f, s)], .ok () (s.fePopped f)⟩ := rfl
  have hget : (get : M Operation) (s.fePopped f) = ⟨[], .ok (s.fePopped f) (s.fePopped f)⟩ := rfl
  have h0' : ((s.fePopped f).fe.disp f).clusters = 0 := h0
  unfold moveFile
  rw [bind_run hpopped, bind_run hget]
  simp only [h0', moveChunks_zero]
  rfl

/-- The requests tile the file, and it is in stock once afterwards, exactly if it has clusters and
one request is enough for them. -/
theorem chunks_tile_iff_one_request (h : Safe s) (hpres : s.fe.Present f)
    (honce : (s.fe.buckets.countP fun e => e.2 = f) = 1)
    (htarget : ∀ c, g.lcn ≤ c → c < g.lcn + (s.fe.disp f).clusters → c ∈ cover s.ge.gaps)
    (htruth : env.Truthful) (hopen : ∀ k, env.opens k = true)
    (hgrant : ∀ k v d, ntSuccess (env.status k v d) = true) :
    (Tiles (s.fe.disp f).clusters g.lcn (requests (moveFile env caller f g s).seen)
        ∧ ∃ s', (moveFile env caller f g s).out = .ok () s'
          ∧ (s'.fe.buckets.countP fun e => e.2 = f) = 1)
      ↔ 0 < (s.fe.disp f).clusters ∧ (s.fe.disp f).clusters ≤ 2 ^ 32 - 11 := by
  have hgone : ((s.fe.pop f).buckets.countP fun e => e.2 = f) = 0 := by
    have hcount := (FileEnumeration.pop_buckets_perm hpres).countP_eq fun e => e.2 = f
    rw [honce, List.countP_cons_of_pos (by simp)] at hcount
    omega
  constructor
  · rintro ⟨htiles, s', hout, honce'⟩
    refine ⟨Nat.pos_of_ne_zero fun h0 => ?_, ?_⟩
    · rw [moveFile_of_empty h0] at hout
      obtain ⟨-, rfl⟩ := Outcome.ok.inj hout
      exact absurd (hgone.symm.trans honce') (by decide)
    · by_contra hlarge
      exact not_tiles_of_large (not_le.1 hlarge) (requests_from_first env caller f g s) htiles
  · rintro ⟨hpos, hone⟩
    obtain ⟨seen, s', hrun, hreq, hmoved⟩ :=
      moveFile_granted caller h hpos hone htarget htruth (hopen _) (hgrant _ _ _)
    rw [hrun]
    refine ⟨?_, s', rfl, ?_⟩
    · rw [hreq]
      simp [Tiles, List.range_eq_range']
    · rw [hmoved.buckets.countP_eq, List.countP_cons_of_pos (by simp), hgone]

theorem chunks_tile_iff_one_request_two_blocks :
    Tiles 2 8 (requests (moveFile (.answering 0) .defrag 0 ⟨8, 4⟩
      (.init (twoBlocks []) [0] (twoBlocks []).dumps fun _ => false)).seen) := by
  have hworld : ClosedWorld (.answering 0) (twoBlocks []) [0] (twoBlocks []).dumps :=
    laid_closedWorld (by decide) (by decide) (by decide) (by decide) (Env.answering_truthful 0)
  exact ((chunks_tile_iff_one_request (g := ⟨8, 4⟩) (init_safe (fun _ => false) hworld)
    (by decide) (by decide) (fun c h1 h2 => twoBlocks_gap rfl h1 (h2.trans_le (by decide)))
    (Env.answering_truthful 0) (fun _ => rfl) (fun _ _ _ => rfl)).2
      ⟨by decide, by decide⟩).1

/-- A file of `2 ^ 32` clusters, and as many free clusters behind it. -/
def largeVolume : Volume where
  total := 2 ^ 33
  used := fun c => decide (c < 2 ^ 32)
  map := fun f => if f = 0 then [⟨some 0, 2 ^ 32⟩] else []

theorem largeVolume_closedWorld :
    ClosedWorld (.answering 0) largeVolume [0] largeVolume.dumps := by
  have hlcns : ∀ f, lcns (largeVolume.map f) = if f = 0 then List.range' 0 (2 ^ 32) else [] := by
    intro f
    simp only [largeVolume]
    split_ifs <;> simp [lcns, Extent.lcns]
  refine ⟨⟨fun f => ?_, fun f g hfg c hc => ?_, fun f c hc => ?_⟩, by simp,
    fun f => Volume.reports_dumps fun e he => ?_, Env.answering_truthful 0⟩
  · rw [hlcns]
    split_ifs
    · exact List.nodup_range'
    · exact List.nodup_nil
  · rw [hlcns] at hc ⊢
    by_cases hf : f = 0
    · have hg : g ≠ 0 := fun hg => hfg (hf.trans hg.symm)
      simp [hg]
    · simp [hf] at hc
  · rw [hlcns] at hc
    split_ifs at hc
    · have hlt := (List.mem_range'_1.1 hc).2
      simp only [largeVolume, decide_eq_true_eq]
      omega
    · simp at hc
  · simp only [largeVolume] at he
    split_ifs at he
    · simp only [List.mem_singleton] at he
      simp [he]
    · simp at he

/-- All requests for the large file are for the same first virtual clusters. -/
theorem large_file_not_tiled :
    ClosedWorld (.answering 0) largeVolume [0] largeVolume.dumps
    ∧ NoHoles (largeVolume.map 0) ∧ (∀ c, 2 ^ 32 ≤ c → c < 2 ^ 32 + 2 ^ 32 → largeVolume.Free c)
    ∧ ((Operation.init largeVolume [0] largeVolume.dumps fun _ => false).fe.disp 0).clusters
      = 2 ^ 32
    ∧ ¬ Tiles (2 ^ 32) (2 ^ 32) (requests (moveFile (.answering 0) .defrag 0 ⟨2 ^ 32, 2 ^ 32⟩
      (.init largeVolume [0] largeVolume.dumps fun _ => false)).seen) := by
  refine ⟨largeVolume_closedWorld, by decide, fun c h1 h2 => ⟨by simpa [largeVolume] using h2, ?_⟩,
    by decide, not_tiles_of_large (by decide) (requests_from_first _ _ _ _ _)⟩
  simpa [largeVolume] using h1

end Granted

end StopGap
