import StopGap.Proofs.Clusters
import StopGap.Proofs.GapRuns
import StopGap.Proofs.FileIndex
import Mathlib.Order.WellFounded

/-!
# What a dump says of a file

A dump of extents that tell the truth counts the clusters of the file and lists them in blocks
(`Accurate`), in one fragment if they are consecutive. Turning the map round changes nothing of it.
-/

namespace StopGap

open Runs GapEnumeration

def blockLcns (bm : List Block) : List ℕ := bm.flatMap fun b => List.range' b.lcn b.length

theorem mem_blockLcns {bm : List Block} {c : ℕ} :
    c ∈ blockLcns bm ↔ c ∈ cover (bm.map Block.run) := by
  simp [blockLcns, mem_cover, Run.mem_iff, Block.run, List.mem_range'_1]

theorem blockLcns_append (bm bm' : List Block) :
    blockLcns (bm ++ bm') = blockLcns bm ++ blockLcns bm' := List.flatMap_append

theorem length_blockLcns (bm : List Block) :
    (blockLcns bm).length = (bm.map Block.length).sum := by
  simp [blockLcns, List.length_flatMap]

theorem apart_of_nodup {bm : List Block} (h : (blockLcns bm).Nodup) : Apart bm := by
  refine (List.nodup_flatMap.1 h).2.imp fun {a b} hab c ha hb => ?_
  rw [Run.mem_iff] at ha hb
  exact hab (List.mem_range'_1.2 ha) (List.mem_range'_1.2 hb)

/-- Consecutive clusters, of which the last ones are known. -/
theorem range'_of_append_eq {xs : List ℕ} {a k t n : ℕ} (hk : 0 < k)
    (h : xs ++ List.range' a k = List.range' t n) :
    xs = List.range' t xs.length ∧ a = t + xs.length := by
  have hlen := congrArg List.length h
  simp only [List.length_append, List.length_range'] at hlen
  rw [← hlen, ← List.range'_append_1] at h
  obtain ⟨h1, h2⟩ := List.append_inj h (by simp)
  refine ⟨h1, ?_⟩
  obtain ⟨k, rfl⟩ := Nat.exists_eq_succ_of_ne_zero hk.ne'
  rw [List.range'_succ, List.range'_succ] at h2
  exact (List.cons.inj h2).1

/-- Consecutive clusters, of which the first ones are known. -/
theorem range'_of_eq_append {ys : List ℕ} {a k t n : ℕ} (hk : 0 < k)
    (h : List.range' a k ++ ys = List.range' t n) :
    a = t ∧ k ≤ n ∧ ys = List.range' (t + k) (n - k) := by
  have hlen := congrArg List.length h
  simp only [List.length_append, List.length_range'] at hlen
  obtain ⟨j, rfl⟩ : ∃ j, n = k + j := ⟨ys.length, hlen.symm⟩
  rw [← List.range'_append_1] at h
  obtain ⟨h1, h2⟩ := List.append_inj h (by simp)
  obtain ⟨k, rfl⟩ := Nat.exists_eq_succ_of_ne_zero hk.ne'
  rw [List.range'_succ, List.range'_succ] at h1
  exact ⟨(List.cons.inj h1).1, Nat.le_add_right _ _, by rw [h2, Nat.add_sub_cancel_left]⟩

/-- What the loop of a dump has made of the virtual clusters before `v`, which lie on `ls`. -/
structure Built (v : ℕ) (d : Disposition) (ls : List ℕ) : Prop where
  clusters : d.clusters = ls.length
  blocks : blockLcns d.blockmap = ls
  pos : ∀ b ∈ d.blockmap, 0 < b.length
  below : ∀ b ∈ d.blockmap, b.vcn < v
  vcns : d.blockmap.Pairwise fun a b => a.vcn < b.vcn
  empty : d.blockmap = [] → d.fragments = 0
  whole : ∀ t n, ls = List.range' t n → d.fragments ≤ 1

namespace Built

variable {v : ℕ} {d : Disposition} {ls : List ℕ}

theorem zero : Built 0 .zero [] :=
  ⟨rfl, rfl, by simp [Disposition.zero], by simp [Disposition.zero], by simp [Disposition.zero],
    fun _ => rfl, fun _ _ _ => by simp [Disposition.zero]⟩

theorem hole (h : Built v d ls) (n : ℕ) : Built (v + n) d ls :=
  { h with below := fun b hb => (h.below b hb).trans_le (Nat.le_add_right v n) }

theorem addBlock (h : Built v d ls) (l : ℕ) {n : ℕ} (hn : 0 < n) :
    Built (v + n) (d.addBlock ⟨v, l, n⟩) (ls ++ List.range' l n) where
  clusters := by simp [Disposition.addBlock, h.clusters]
  blocks := by
    simp only [Disposition.addBlock, blockLcns_append, h.blocks]
    simp [blockLcns]
  pos := by
    intro b hb
    rcases List.mem_append.1 hb with hb | hb
    · exact h.pos b hb
    · rw [List.mem_singleton.1 hb]
      exact hn
  below := by
    intro b hb
    rcases List.mem_append.1 hb with hb | hb
    · exact (h.below b hb).trans_le (Nat.le_add_right v n)
    · rw [List.mem_singleton.1 hb]
      exact Nat.lt_add_of_pos_right hn
  vcns := by
    refine List.pairwise_append.2 ⟨h.vcns, by simp, fun a ha b hb => ?_⟩
    rw [List.mem_singleton.1 hb]
    exact h.below a ha
  empty := by simp [Disposition.addBlock]
  whole := by
    intro t k hk
    obtain ⟨hls, hl⟩ := range'_of_append_eq hn hk
    rcases hbm : d.blockmap.getLast? with _ | prev
    · have hnil := List.getLast?_eq_none_iff.1 hbm
      simp [Disposition.addBlock, hnil, h.empty hnil]
    · -- the clusters so far end where the last block does
      obtain ⟨bm, hbm'⟩ := List.getLast?_eq_some_iff.1 hbm
      have hprev : l = prev.lcn + prev.length := by
        have hb := h.blocks
        rw [hbm', blockLcns_append] at hb
        simp only [blockLcns, List.flatMap_cons, List.flatMap_nil, List.append_nil] at hb
        rw [hls] at hb
        have hpos := h.pos prev (by simp [hbm'])
        obtain ⟨-, hp⟩ := range'_of_append_eq hpos hb
        have hlen := congrArg List.length hb
        simp only [List.length_append, List.length_range'] at hlen
        omega
      simp only [Disposition.addBlock, hbm, hprev, if_true]
      exact h.whole t ls.length hls

theorem validateBlockmap (h : Built v d ls) : validateBlockmap d = d := by
  unfold StopGap.validateBlockmap
  split
  · rename_i b₁ b₂ _ hbm
    have := h.vcns
    rw [hbm, List.pairwise_cons] at this
    rw [if_neg (this.1 b₂ (by simp)).ne]
  · rfl

theorem dumpPairs : ∀ (m : List Extent) {v : ℕ} {d : Disposition} {ls : List ℕ}, Built v d ls →
    (∀ e ∈ m, 0 < e.length) →
    ∃ v' d', dumpPairs v (retrievalPairs v m) d = some d' ∧ Built v' d' (ls ++ lcns m)
  | [], v, d, ls, h, _ => ⟨v, d, rfl, by simpa using h⟩
  | ⟨none, n⟩ :: m, v, d, ls, h, hm => by
    obtain ⟨v', d', heq, hb⟩ := dumpPairs m (h.hole n) fun e he => hm e (by simp [he])
    exact ⟨v', d', heq, by simpa [Extent.lcns] using hb⟩
  | ⟨some l, n⟩ :: m, v, d, ls, h, hm => by
    have hn : 0 < n := hm ⟨some l, n⟩ (by simp)
    obtain ⟨v', d', heq, hb⟩ := dumpPairs m (h.addBlock l hn) fun e he => hm e (by simp [he])
    refine ⟨v', d', ?_, by simpa [Extent.lcns] using hb⟩
    simp only [StopGap.retrievalPairs, StopGap.dumpPairs, if_neg (Nat.add_pos_right v hn).ne',
      Nat.add_sub_cancel_left]
    exact heq

end Built

theorem dump_built {m : List Extent} (hm : ∀ e ∈ m, 0 < e.length) :
    ∃ v, Built v (winxFtwDumpFile (some m)) (lcns m) := by
  obtain ⟨v, d, heq, hb⟩ := Built.zero.dumpPairs m hm
  refine ⟨v, ?_⟩
  simp only [winxFtwDumpFile, heq, hb.validateBlockmap]
  simpa using hb

theorem dumpPairs_fragments_pos : ∀ {ps : List RetrievalPair} {v : ℕ} {d d' : Disposition},
    dumpPairs v ps d = some d' → (d.blockmap ≠ [] → 0 < d.fragments) →
    d'.blockmap ≠ [] → 0 < d'.fragments
  | [], _, d, d', h, hd => by
    obtain rfl := Option.some.inj h
    exact hd
  | ⟨vcn, none⟩ :: ps, v, d, d', h, hd => by
    have hrest : dumpPairs vcn ps d = some d' := h
    exact dumpPairs_fragments_pos hrest hd
  | ⟨vcn, some lcn⟩ :: ps, v, d, d', h, hd => by
    simp only [dumpPairs] at h
    split_ifs at h
    refine dumpPairs_fragments_pos h fun _ => ?_
    rcases hlast : d.blockmap.getLast? with _ | prev
    · simp [Disposition.addBlock, hlast]
    · have hne : d.blockmap ≠ [] := fun h0 => by simp [h0] at hlast
      simp only [Disposition.addBlock, hlast]
      split_ifs
      · exact hd hne
      · exact Nat.succ_pos _

/-- A file with a map has a fragment. -/
theorem winxFtwDumpFile_fragments_pos {report : Option (List Extent)}
    (h : (winxFtwDumpFile report).blockmap ≠ []) : 0 < (winxFtwDumpFile report).fragments := by
  rcases report with _ | m
  · exact absurd rfl h
  · unfold winxFtwDumpFile at h ⊢
    rcases hd : dumpPairs 0 (retrievalPairs 0 m) .zero with _ | d <;> simp only [hd] at h ⊢
    · exact absurd rfl h
    · have hpos := dumpPairs_fragments_pos hd (by simp [Disposition.zero])
      unfold validateBlockmap at h ⊢
      split at h
      · split_ifs at h ⊢
        · exact absurd rfl h
        · exact hpos h
      · exact hpos h

/-- The disposition is right about a file on `m`. -/
structure Accurate (m : List Extent) (d : Disposition) : Prop where
  clusters : d.clusters = (lcns m).length
  blocks : (blockLcns d.blockmap).Perm (lcns m)
  pos : ∀ b ∈ d.blockmap, 0 < b.length
  whole : ∀ t n, lcns m = List.range' t n → d.fragments ≤ 1

/-- A dump lists the clusters in the order of the file. -/
theorem Tells.blockLcns_eq {m m' : List Extent} (h : Tells m m') :
    blockLcns (winxFtwDumpFile (some m')).blockmap = lcns m := by
  obtain ⟨v, hb⟩ := dump_built h.pos
  rw [hb.blocks, h.lcns_eq]

theorem Tells.accurate {m m' : List Extent} (h : Tells m m') :
    Accurate m (winxFtwDumpFile (some m')) := by
  obtain ⟨v, hb⟩ := dump_built h.pos
  rw [h.lcns_eq] at hb
  exact ⟨hb.clusters, List.Perm.of_eq hb.blocks, hb.pos, hb.whole⟩

namespace Accurate

variable {m : List Extent} {d d' : Disposition}

theorem congr (h : Accurate m d) (hc : d'.clusters = d.clusters) (hf : d'.fragments = d.fragments)
    (hb : d'.blockmap.Perm d.blockmap) : Accurate m d' where
  clusters := hc.trans h.clusters
  blocks := (hb.flatMap_right _).trans h.blocks
  pos := fun b hbm => h.pos b (hb.mem_iff.1 hbm)
  whole := fun t n hn => hf ▸ h.whole t n hn

theorem order (h : Accurate m d) : Accurate m (order d) :=
  h.congr (order_clusters d) (order_fragments d) (order_blockmap_perm d)

theorem mem_cover (h : Accurate m d) {c : ℕ} :
    c ∈ cover (d.blockmap.map Block.run) ↔ c ∈ lcns m := by
  rw [← mem_blockLcns, h.blocks.mem_iff]

theorem apart (h : Accurate m d) (hm : (lcns m).Nodup) : Apart d.blockmap :=
  apart_of_nodup (h.blocks.nodup_iff.2 hm)

theorem lcn_mem (h : Accurate m d) {b : Block} (hb : b ∈ d.blockmap) : b.lcn ∈ lcns m := by
  refine h.mem_cover.1 ⟨b.run, List.mem_map.2 ⟨b, hb, rfl⟩, ?_⟩
  have := h.pos b hb
  simp only [Run.mem_iff, Block.run]
  omega

theorem clusters_pos (h : Accurate m d) (hb : d.blockmap ≠ []) : 0 < d.clusters := by
  obtain ⟨b, hb⟩ := List.exists_mem_of_ne_nil _ hb
  rw [h.clusters]
  exact List.length_pos_of_mem (h.lcn_mem hb)

theorem map_ne_nil (h : Accurate m d) (hpos : 0 < d.clusters) : d.blockmap ≠ [] := by
  intro h0
  have hlen := h.blocks.length_eq
  rw [h0, ← h.clusters] at hlen
  simp only [blockLcns, List.flatMap_nil, List.length_nil] at hlen
  omega

end Accurate

theorem Volume.reports_dumps {v : Volume} {f : FileId} (h : ∀ e ∈ v.map f, 0 < e.length) :
    Reports (v.map f) (v.dumps f) :=
  ⟨v.map f, 0, ⟨rfl, h⟩, by rw [List.rotate_zero]; rfl⟩

theorem tells_filter (m : List Extent) : Tells m (m.filter fun e => 0 < e.length) := by
  refine ⟨?_, fun e he => by simpa using (List.mem_filter.1 he).2⟩
  induction m with
  | nil => rfl
  | cons e m ih =>
    rw [List.filter_cons]
    split_ifs with he
    · simp only [expand, List.flatMap_cons] at ih ⊢
      rw [ih]
    · have h0 : e.expand = [] := by
        unfold Extent.expand
        simp only [decide_eq_true_eq, Nat.not_lt, Nat.le_zero] at he
        split <;> simp [he]
      simpa only [expand, List.flatMap_cons, h0, List.nil_append] using ih

theorem Env.answering_truthful (status : NtStatus) : (Env.answering status).Truthful :=
  fun _ m => ⟨_, rfl, tells_filter m⟩

theorem Env.granting_truthful : Env.granting.Truthful := fun _ m => ⟨_, rfl, tells_filter m⟩

theorem Env.granting_guarded : Env.granting.Guarded := by
  intro k v d hok c h1 h2
  unfold Env.granting at hok
  simp only at hok
  split_ifs at hok with hfree
  · rw [List.all_eq_true] at hfree
    have := hfree c (List.mem_range'_1.2 ⟨h1, h2⟩)
    simp only [Bool.and_eq_true, decide_eq_true_eq, Bool.not_eq_true'] at this
    exact this
  · exact absurd hok (by decide)

theorem laid_closedWorld {env : Env} {total : ℕ} {fixed : List ℕ} {maps : List (List Extent)}
    {disk : List FileId} (hnd : (maps.flatMap lcns).Nodup)
    (hlt : ∀ c ∈ maps.flatMap lcns, c < total) (hpos : ∀ m ∈ maps, ∀ e ∈ m, 0 < e.length)
    (hdisk : disk.Nodup) (htruth : env.Truthful) :
    ClosedWorld env (.laid total fixed maps) disk (Volume.laid total fixed maps).dumps :=
  ⟨Volume.laid_sound hnd hlt, hdisk, fun f => Volume.reports_dumps
    (Volume.laid_forall (p := fun m => ∀ e ∈ m, 0 < e.length) (by simp) hpos f), htruth⟩

theorem Reports.accurate {m : List Extent} {d : Disposition} (h : Reports m d) : Accurate m d := by
  obtain ⟨m', n, ht, rfl⟩ := h
  exact ht.accurate.congr rfl rfl (List.rotate_perm _ _)

theorem order_head {d : Disposition} {b : Block} {rest : List Block}
    (h : (order d).blockmap = b :: rest) : ∀ b' ∈ rest, b.lcn ≤ b'.lcn := by
  have hne : d.blockmap ≠ [] := by
    rintro h0
    simp [order, h0] at h
  obtain ⟨b₀, hb₀, hmin⟩ := (measure Block.lcn).wf.has_min {b | b ∈ d.blockmap}
    (List.exists_mem_of_ne_nil _ hne)
  have hlt : minElement d.blockmap < d.blockmap.length := by
    refine List.findIdx_lt_length_of_exists ⟨b₀, hb₀, ?_⟩
    simpa using fun b' hb' => Nat.le_of_not_lt (hmin b' hb')
  have hhead : d.blockmap[minElement d.blockmap]? = some b := by
    rw [← List.head?_rotate hlt]
    exact congrArg List.head? h
  obtain ⟨hlt', hb⟩ := List.getElem?_eq_some_iff.1 hhead
  have hall := List.findIdx_getElem (w := hlt')
  intro b' hb'
  have hmem : b' ∈ d.blockmap := (order_blockmap_perm d).mem_iff.1 (h ▸ by simp [hb'])
  simp only [List.all_eq_true, decide_eq_true_eq] at hall
  have := hall b' hmem
  rwa [← hb]

end StopGap
