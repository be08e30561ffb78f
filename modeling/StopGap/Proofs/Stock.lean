import StopGap.Proofs.Chooser
import StopGap.Proofs.Dump

/-!
# What is in stock

`pop` and `push` keep `buckets_` in the shape the chooser counts on, and `scan` sets it up.
-/

namespace StopGap

namespace FileEnumeration

variable {fe fe' : FileEnumeration} {f : FileId}

theorem pop_buckets_perm (h : fe.Present f) :
    fe.buckets.Perm (((fe.disp f).clusters, f) :: (fe.pop f).buckets) := List.perm_cons_erase h

theorem push_buckets_perm (fe : FileEnumeration) (f : FileId) :
    (fe.push f).buckets.Perm (((fe.disp f).clusters, f) :: fe.buckets) :=
  OrdMap.insertMulti_perm _ _

theorem push_disp (fe : FileEnumeration) (f g : FileId) :
    (fe.push f).disp g = if g = f then order (fe.disp g) else fe.disp g := by
  by_cases hg : g = f
  · subst hg
    simp [push]
  · simp [push, hg]

@[simp] theorem push_clusters (fe : FileEnumeration) (f g : FileId) :
    ((fe.push f).disp g).clusters = (fe.disp g).clusters := by
  rw [push_disp]
  split_ifs <;> rfl

@[simp] theorem push_fragments (fe : FileEnumeration) (f g : FileId) :
    ((fe.push f).disp g).fragments = (fe.disp g).fragments := by
  rw [push_disp]
  split_ifs <;> rfl

theorem push_blockmap_perm (fe : FileEnumeration) (f g : FileId) :
    ((fe.push f).disp g).blockmap.Perm (fe.disp g).blockmap := by
  rw [push_disp]
  split_ifs
  · exact order_blockmap_perm _
  · exact List.Perm.refl _

theorem nodup_pop (h : (fe.buckets.map Prod.snd).Nodup) (f : FileId) :
    ((fe.pop f).buckets.map Prod.snd).Nodup := h.sublist (List.erase_sublist.map _)

theorem nodup_push (h : (fe.buckets.map Prod.snd).Nodup) (hf : ∀ e ∈ fe.buckets, e.2 ≠ f) :
    ((fe.push f).buckets.map Prod.snd).Nodup := by
  refine ((push_buckets_perm fe f).map Prod.snd).nodup_iff.2 (List.nodup_cons.2 ⟨?_, h⟩)
  intro hmem
  obtain ⟨e, he, heq⟩ := List.mem_map.1 hmem
  exact hf e he heq

theorem findAt_disp (fe : FileEnumeration) (lcn : ℕ) : (fe.findAt lcn).1.disp = fe.disp := by
  unfold findAt
  split_ifs <;> rfl

theorem findAt_buckets (fe : FileEnumeration) (lcn : ℕ) :
    (fe.findAt lcn).1.buckets = fe.buckets := by
  unfold findAt
  split_ifs <;> rfl

theorem accurate_push {v : Volume} (h : ∀ g, Accurate (v.map g) (fe.disp g)) (f : FileId) :
    ∀ g, Accurate (v.map g) ((fe.push f).disp g) := fun g =>
  (h g).congr (push_clusters fe f g) (push_fragments fe f g) (push_blockmap_perm fe f g)

theorem accurate_dump {env : Env} (htruth : env.Truthful) {v v' : Volume} (f : FileId)
    (h : ∀ g, Accurate (v.map g) (fe.disp g)) (hv : ∀ g, g ≠ f → v'.map g = v.map g) (k : ℕ) :
    ∀ g, Accurate (v'.map g)
      (Function.update fe.disp f (winxFtwDumpFile (env.report k (v'.map f))) g) := fun g => by
  by_cases hg : g = f
  · subst hg
    obtain ⟨m', hm', htell⟩ := htruth k (v'.map g)
    rw [Function.update_self, hm']
    exact htell.accurate
  · rw [Function.update_of_ne hg, hv g hg]
    exact h g

namespace Stocked

theorem congr (h : Stocked fe) (hd : fe'.disp = fe.disp) (hb : fe'.buckets = fe.buckets) :
    Stocked fe' := by
  obtain ⟨h1, h2, h3, h4, h5⟩ := h
  constructor <;> rw [hb] <;> try rw [hd]
  exacts [h1, h2, h3, h4, h5]

theorem present (h : Stocked fe) (hf : ∃ e ∈ fe.buckets, e.2 = f) : fe.Present f := by
  obtain ⟨e, he, rfl⟩ := hf
  unfold Present
  rw [← h.key e he]
  exact he

theorem gone (h : Stocked fe) (hnd : (fe.buckets.map Prod.snd).Nodup) (f : FileId) :
    ∀ e ∈ (fe.pop f).buckets, e.2 ≠ f := by
  intro e he heq
  have hf := h.present ⟨e, List.mem_of_mem_erase he, heq⟩
  rw [((pop_buckets_perm hf).map Prod.snd).nodup_iff, List.map_cons, List.nodup_cons] at hnd
  exact hnd.1 (List.mem_map.2 ⟨e, he, heq⟩)

theorem pop (h : Stocked fe) (f : FileId) : Stocked (fe.pop f) where
  sorted := List.Pairwise.sublist List.erase_sublist h.sorted
  key := fun e he => h.key e (List.mem_of_mem_erase he)
  pos := fun e he => h.pos e (List.mem_of_mem_erase he)
  map := fun e he => h.map e (List.mem_of_mem_erase he)
  lowest := fun e he => h.lowest e (List.mem_of_mem_erase he)

theorem change (h : Stocked fe) (hf : ∀ e ∈ fe.buckets, e.2 ≠ f) (d : Disposition) :
    Stocked { fe with disp := Function.update fe.disp f d } where
  sorted := h.sorted
  key := fun e he => by simpa only [Function.update_of_ne (hf e he)] using h.key e he
  pos := fun e he => by simpa only [Function.update_of_ne (hf e he)] using h.pos e he
  map := fun e he => by simpa only [Function.update_of_ne (hf e he)] using h.map e he
  lowest := fun e he => by simpa only [Function.update_of_ne (hf e he)] using h.lowest e he

theorem push (h : Stocked fe) (hpos : 0 < (fe.disp f).clusters)
    (hmap : (fe.disp f).blockmap ≠ []) : Stocked (fe.push f) := by
  have hmem : ∀ e ∈ (fe.push f).buckets, e = ((fe.disp f).clusters, f) ∨ e ∈ fe.buckets :=
    fun e he => OrdMap.mem_insertMulti.1 he
  refine ⟨h.sorted.insertMulti _, fun e he => ?_, fun e he => ?_, fun e he => ?_, fun e he => ?_⟩
  · rw [push_clusters]
    rcases hmem e he with rfl | he
    · rfl
    · exact h.key e he
  · rw [push_clusters]
    rcases hmem e he with rfl | he
    · exact hpos
    · exact h.pos e he
  · intro h0
    have hnil := (push_blockmap_perm fe f e.2)
    rw [h0, List.nil_perm] at hnil
    rcases hmem e he with rfl | he
    · exact hmap hnil
    · exact h.map e he hnil
  · rw [push_disp]
    split_ifs with hef
    · exact fun b bm hbm => order_head hbm
    · rcases hmem e he with rfl | he
      · exact absurd rfl hef
      · exact h.lowest e he

end Stocked

/-- A file the chooser picks lies behind the cluster as a whole. -/
theorem Choice.lt {m : List Extent} {lcn : ℕ} (hf : fe.Choice lcn f) (h : Stocked fe)
    (hd : Accurate m (fe.disp f)) : ∀ c ∈ StopGap.lcns m, lcn < c := by
  obtain ⟨⟨e, he, rfl⟩, hbehind⟩ := hf
  intro c hc
  obtain ⟨r, hr, hcr⟩ := hd.mem_cover.2 hc
  obtain ⟨b, hb, rfl⟩ := List.mem_map.1 hr
  rcases hbm : (fe.disp e.2).blockmap with _ | ⟨b₀, bm⟩
  · exact absurd hbm (h.map e he)
  · have hlt := (behind_iff_blocks hbm (h.lowest e he b₀ bm hbm)).1 hbehind b hb
    exact hlt.trans_le hcr.1

/-- What `scan` has made of the files `done`. -/
structure Scanning (disp : FileId → Disposition) (done : List FileId) (fe : FileEnumeration) :
    Prop where
  stocked : Stocked fe
  disp_eq : ∀ f, fe.disp f = disp f ∨ fe.disp f = order (disp f)
  new : ∀ f, f ∉ done → fe.disp f = disp f
  done : ∀ e ∈ fe.buckets, e.2 ∈ done
  nodup : (fe.buckets.map Prod.snd).Nodup
  lcns : fe.lcns = []

theorem Scanning.step {disp : FileId → Disposition} {done : List FileId}
    {excluded : FileId → Bool} (h : Scanning disp done fe) (hf : f ∉ done)
    (hpos : (disp f).blockmap ≠ [] → 0 < (disp f).clusters) :
    Scanning disp (f :: done) (scanFile excluded fe f) := by
  obtain ⟨hst, hdisp, hnew, hdone, hnd, hlcns⟩ := h
  -- the count of fragmented files plays no part
  obtain ⟨fr, hfr⟩ : ∃ fr, (if 1 < (fe.disp f).fragments then
      { fe with fragmented := fe.fragmented + 1 } else fe) = { fe with fragmented := fr } := by
    split_ifs
    · exact ⟨_, rfl⟩
    · exact ⟨fe.fragmented, rfl⟩
  have hf' : ∀ e ∈ fe.buckets, e.2 ≠ f := fun e he heq => hf (heq ▸ hdone e he)
  unfold scanFile
  simp only [hfr]
  split_ifs with hskip
  · exact ⟨hst.congr rfl rfl, hdisp, fun g hg => hnew g fun hd => hg (by simp [hd]),
      fun e he => by simp [hdone e he], hnd, hlcns⟩
  · rw [not_or] at hskip
    have hpush : ∀ g, Function.update fe.disp f (order (fe.disp f)) g = (fe.push f).disp g :=
      fun _ => rfl
    have hmap : (fe.disp f).blockmap ≠ [] := hskip.1
    have hc : 0 < (fe.disp f).clusters := by
      rw [hnew f hf] at hmap ⊢
      exact hpos hmap
    refine ⟨(hst.push hc hmap).congr rfl rfl, fun g => ?_, fun g hg => ?_, fun e he => ?_, ?_,
      hlcns⟩
    · simp only [hpush, push_disp]
      split_ifs with hg
      · subst hg
        rw [hnew g hf]
        exact Or.inr rfl
      · exact hdisp g
    · simp only [List.mem_cons, not_or] at hg
      simp only [hpush, push_disp, if_neg hg.1]
      exact hnew g hg.2
    · rcases OrdMap.mem_insertMulti.1 he with rfl | he
      · simp
      · simp [hdone e he]
    · exact nodup_push hnd hf'

theorem Scanning.fold {disp : FileId → Disposition} {excluded : FileId → Bool} :
    ∀ (disk done : List FileId) (fe : FileEnumeration), Scanning disp done fe →
      (∀ f ∈ disk, f ∉ done) → disk.Nodup →
      (∀ f ∈ disk, (disp f).blockmap ≠ [] → 0 < (disp f).clusters) →
      ∃ done', Scanning disp done' (disk.foldl (scanFile excluded) fe)
  | [], done, _, h, _, _, _ => ⟨done, h⟩
  | f :: disk, done, fe, h, hnew, hnd, hpos => by
    obtain ⟨hf, hnd⟩ := List.nodup_cons.1 hnd
    refine Scanning.fold disk (f :: done) _ (h.step (hnew f (by simp)) (hpos f (by simp)))
      (fun g hg => ?_) hnd fun g hg => hpos g (by simp [hg])
    simp only [List.mem_cons, not_or]
    exact ⟨fun heq => hf (heq ▸ hg), hnew g (by simp [hg])⟩

theorem scan_scanning {disk : List FileId} {disp : FileId → Disposition}
    (excluded : FileId → Bool) (hnd : disk.Nodup)
    (hpos : ∀ f ∈ disk, (disp f).blockmap ≠ [] → 0 < (disp f).clusters) :
    ∃ done, Scanning disp done (scan disk disp excluded) := by
  refine Scanning.fold disk [] _ ⟨⟨List.Pairwise.nil, ?_, ?_, ?_, ?_⟩, fun f => Or.inl rfl,
    fun _ _ => rfl, ?_, List.nodup_nil, rfl⟩ (by simp) hnd hpos
  all_goals simp

theorem scan_accurate {env : Env} {v : Volume} {disk : List FileId} {disp : FileId → Disposition}
    (excluded : FileId → Bool) (hw : ClosedWorld env v disk disp) :
    (scan disk disp excluded).Stocked ∧ ((scan disk disp excluded).buckets.map Prod.snd).Nodup
      ∧ (scan disk disp excluded).lcns = []
      ∧ ∀ f, Accurate (v.map f) ((scan disk disp excluded).disp f) := by
  obtain ⟨done, hscan⟩ := scan_scanning excluded hw.disk
    fun f _ => (hw.dumps f).accurate.clusters_pos
  refine ⟨hscan.stocked, hscan.nodup, hscan.lcns, fun f => ?_⟩
  rcases hscan.disp_eq f with h | h
  · exact h ▸ (hw.dumps f).accurate
  · exact h ▸ (hw.dumps f).accurate.order

end FileEnumeration

end StopGap
