import StopGap.Proofs.Dump

/-!
# The gap model and the volume

`Mirrors v ge`: the regions dropped since the last scan and the ones still in `regions_` are
together what a scan of `v` would find, the dropped ones first. A move takes the file's old blocks
into the model and its new ones out, one by one; a block that starts no region makes `pop` rescan,
and from then on every further block does.
-/

namespace StopGap

open Runs GapEnumeration

/-- The dropped regions, and then the ones in the model, are the free runs of the volume. -/
structure Mirrors (v : Volume) (ge : GapEnumeration) : Prop where
  indexed : Indexed ge
  spaced : Spaced 1 (ge.dropped.map Region.run ++ ge.gaps)
  covers : ∀ c, c ∈ cover (ge.dropped.map Region.run ++ ge.gaps) ↔ v.Free c

variable {v v' : Volume} {ge ge' : GapEnumeration} {bm : List Block} {f : FileId} {t : ℕ}

theorem scan_tidy (v : Volume) (ge : GapEnumeration) :
    Tidy 1 (ge.scan v.winxGetFreeVolumeRegions) := (scan_of_spaced ge v.freeRegions_spaced).1

theorem scan_gaps (v : Volume) (ge : GapEnumeration) :
    (ge.scan v.winxGetFreeVolumeRegions).gaps = v.winxGetFreeVolumeRegions.map Region.run :=
  (scan_of_spaced ge v.freeRegions_spaced).2

theorem scan_dropped (v : Volume) (ge : GapEnumeration) :
    (ge.scan v.winxGetFreeVolumeRegions).dropped = [] := by
  have h := v.freeRegions_spaced
  refine (scan_spec ge (fun r hr => h.pos r.run (List.mem_map.2 ⟨r, hr, rfl⟩)) ?_).dropped
  refine (List.pairwise_map.1 h.apart).imp fun {a b} hab c ha hb => ?_
  rw [Run.mem_iff] at ha hb
  omega

theorem mem_cover_scan (v : Volume) (ge : GapEnumeration) (c : ℕ) :
    c ∈ cover (ge.scan v.winxGetFreeVolumeRegions).gaps ↔ v.Free c := by
  rw [scan_gaps, v.mem_cover_freeRegions]

theorem mirrors_scan (v : Volume) (ge : GapEnumeration) :
    Mirrors v (ge.scan v.winxGetFreeVolumeRegions) := by
  refine ⟨(scan_tidy v ge).indexed, ?_, fun c => ?_⟩
  · simpa [scan_dropped] using (scan_tidy v ge).spaced
  · simpa [scan_dropped] using mem_cover_scan v ge c

namespace Mirrors

theorem tidy (h : Mirrors v ge) : Tidy 1 ge := ⟨h.indexed, (Spaced.append_iff.1 h.spaced).2.1⟩

theorem free (h : Mirrors v ge) {c : ℕ} (hc : c ∈ cover ge.gaps) : v.Free c :=
  (h.covers c).1 (by simp [hc])

theorem gaps_eq (h : Mirrors v ge) :
    v.winxGetFreeVolumeRegions.map Region.run = ge.dropped.map Region.run ++ ge.gaps :=
  v.freeRegions_spaced.eq_of_cover h.spaced fun c => by rw [v.mem_cover_freeRegions, h.covers]

theorem gaps_eq_filter (h : Mirrors v ge) :
    ge.gaps = (v.winxGetFreeVolumeRegions.map Region.run).filter
      fun r => r ∉ ge.dropped.map Region.run := by
  have hnd := h.spaced.nodup
  rw [h.gaps_eq, List.filter_append, List.filter_eq_nil_iff.2 (by simp), List.nil_append,
    List.filter_eq_self.2 fun r hr => ?_]
  rw [List.nodup_append] at hnd
  exact decide_eq_true fun hd => hnd.2.2 r hd r hr rfl

end Mirrors

theorem Mirrors.popRegion {n : ℕ} {rest : List Run} (h : Mirrors v ge)
    (hgaps : ge.gaps = (ge.node n).run :: rest) (free : List Region) :
    ∃ ge', ge.popRegion free n = .ok ge' ∧ ge'.gaps = rest
      ∧ ge'.dropped = ge.dropped ++ [ge.node n] ∧ Mirrors v ge' := by
  have hT := h.tidy
  have hmem : (ge.node n).run ∈ ge.gaps := by simp [hgaps]
  rcases pop_cases hT free (ge.node n).lcn (ge.node n).length with ⟨hno, -⟩ | ⟨r, hr, hs, hlt, -⟩ |
    ⟨r, hr, hs, -, ge', heq, hp⟩
  · exact absurd rfl (hno _ hmem)
  · rw [hT.spaced.eq_of_start hr hmem hs] at hlt
    exact absurd hlt (lt_irrefl _)
  · have hS := hT.spaced
    rw [hgaps] at hS
    have hrest : ge'.gaps = rest := by
      refine hp.tidy.spaced.eq_of_cover (Spaced.cons_iff.1 hS).2.2 fun c => ?_
      have hoff : c ∈ cover rest → c ∉ (ge.node n).run := fun hc =>
        Spaced.not_mem_middle (A := []) hS (Or.inr hc)
      rw [hp.covers, hgaps, mem_cover_cons]
      change (c ∈ (ge.node n).run ∨ c ∈ cover rest) ∧ ¬ c ∈ (ge.node n).run ↔ c ∈ cover rest
      grind
    have hfind : (OrdMap.find (ge.node n).lcn ge.regions).isSome = true := by
      obtain ⟨e, he, hen⟩ := mem_gapsOf.1 hmem
      refine OrdMap.find_isSome_iff.2 ⟨e, he, ?_⟩
      rw [h.indexed.views.lcn_eq e he]
      exact congrArg Run.start hen
    refine ⟨{ ge' with dropped := ge'.dropped ++ [ge.node n] }, ?_, hrest, by rw [hp.dropped],
      ⟨⟨hp.tidy.indexed.views, hp.tidy.indexed.info, hp.tidy.indexed.fresh⟩, ?_, ?_⟩⟩
    · simp only [GapEnumeration.popRegion, hfind, if_true, heq]
      rfl
    all_goals
      change ge'.gaps = rest at hrest
      simp only [hp.dropped, List.map_append, List.map_cons, List.map_nil, List.append_assoc,
        List.cons_append, List.nil_append]
    · change Spaced 1 (_ ++ (ge.node n).run :: ge'.gaps)
      rw [hrest, ← hgaps]
      exact h.spaced
    · change ∀ c, c ∈ cover (_ ++ (ge.node n).run :: ge'.gaps) ↔ v.Free c
      rw [hrest, ← hgaps]
      exact h.covers

/-- The model still covers the blocks `bm`, which are not free, besides the free clusters. -/
structure Owes (v : Volume) (ge : GapEnumeration) (bm : List Block) : Prop where
  indexed : Indexed ge
  spaced : Spaced 1 (ge.dropped.map Region.run ++ ge.gaps)
  covers : ∀ c, c ∈ cover (ge.dropped.map Region.run ++ ge.gaps)
    ↔ v.Free c ∨ c ∈ cover (bm.map Block.run)
  apart : Apart bm
  pos : ∀ b ∈ bm, 0 < b.length
  used : ∀ c ∈ cover (bm.map Block.run), ¬ v.Free c

theorem Block.lcn_mem_cover {b : Block} (hb : b ∈ bm) (hpos : 0 < b.length) :
    b.lcn ∈ cover (bm.map Block.run) := by
  refine ⟨b.run, List.mem_map.2 ⟨b, hb, rfl⟩, ?_⟩
  simp only [Run.mem_iff, Block.run]
  omega

/-- Once the model was scanned anew, no region starts where a used block does. -/
theorem popBlocks_of_mirrors : ∀ (bm : List Block) {ge : GapEnumeration}, Mirrors v ge →
    ge.dropped = [] → (∀ b ∈ bm, ¬ v.Free b.lcn) →
    ∃ ge', ge.popBlocks v.winxGetFreeVolumeRegions bm = .ok ge' ∧ Mirrors v ge' ∧ ge'.dropped = []
  | [], ge, h, hd, _ => ⟨ge, rfl, h, hd⟩
  | b :: bm, ge, h, hd, hused => by
    have hno : ∀ r ∈ ge.gaps, r.start ≠ b.lcn := fun r hr heq => by
      have hpos := h.tidy.spaced.pos r hr
      exact hused b (by simp) (h.free ⟨r, hr, by rw [Run.mem_iff]; omega⟩)
    rcases pop_cases h.tidy v.winxGetFreeVolumeRegions b.lcn b.length with ⟨-, heq⟩ |
      ⟨r, hr, hs, -⟩ | ⟨r, hr, hs, -⟩
    · obtain ⟨ge', heq', h', hd'⟩ := popBlocks_of_mirrors bm
        (mirrors_scan v ge) (scan_dropped v ge) fun b' hb' => hused b' (by simp [hb'])
      refine ⟨ge', ?_, h', hd'⟩
      unfold popBlocks at heq' ⊢
      rw [List.foldlM_cons, heq]
      exact heq'
    · exact absurd hs (hno r hr)
    · exact absurd hs (hno r hr)

/-- A block the model covers lies in one of its regions, so `pop` never finds too short a region. -/
theorem Owes.pop {b : Block} (h : Owes v ge (b :: bm)) :
    ge.pop v.winxGetFreeVolumeRegions b.lcn b.length
        = .ok (ge.scan v.winxGetFreeVolumeRegions)
      ∨ ∃ ge', ge.pop v.winxGetFreeVolumeRegions b.lcn b.length = .ok ge'
        ∧ ge'.dropped = ge.dropped ∧ Owes v ge' bm := by
  obtain ⟨hI, hS, hcov, hap, hpos, hused⟩ := h
  obtain ⟨hSD, hSG, -⟩ := Spaced.append_iff.1 hS
  obtain ⟨hb, hbm⟩ := List.pairwise_cons.1 hap
  have hbpos := hpos b (by simp)
  rcases pop_cases ⟨hI, hSG⟩ v.winxGetFreeVolumeRegions b.lcn b.length with ⟨-, heq⟩ |
    ⟨r, hr, hs, hlt, -⟩ | ⟨r, hr, hs, hle, ge', heq, hp⟩
  · exact Or.inl heq
  · refine absurd (hS.le_length (List.mem_append_right _ hr) fun c h1 h2 => ?_) (not_le.2 hlt)
    exact (hcov c).2 (Or.inr ⟨b.run, by simp, by simp only [Run.mem_iff, Block.run]; omega⟩)
  · refine Or.inr ⟨ge', heq, hp.dropped, hp.tidy.indexed, ?_, fun c => ?_, hbm,
      fun b' hb' => hpos b' (by simp [hb']), fun c hc => hused c (by simp [hc])⟩
    · rw [hp.dropped]
      refine Spaced.append_of_cover hSD hp.tidy.spaced fun c hc => ?_
      exact hS.le_of_mem_cover ((hp.covers c).1 hc).1
    · -- the block is in `r`, so it leaves the dropped regions alone
      have hD : c ∈ cover (ge.dropped.map Region.run) → c ∉ b.run := fun hc hcb => by
        obtain ⟨d, hd, hcd⟩ := hc
        have h1 := (Spaced.append_iff.1 hS).2.2 d hd r hr
        simp only [Run.mem_iff, Block.run] at hcd hcb
        omega
      have hF : v.Free c → c ∉ b.run := fun hf hcb => hused c ⟨b.run, by simp, hcb⟩ hf
      have hB : c ∈ cover (bm.map Block.run) → c ∉ b.run := fun hc hcb => by
        obtain ⟨r', hr', hcr'⟩ := hc
        obtain ⟨b', hb', rfl⟩ := List.mem_map.1 hr'
        exact hb b' hb' c hcb hcr'
      have hc := hcov c
      have hp' := hp.covers c
      change c ∈ cover ge'.gaps ↔ c ∈ cover ge.gaps ∧ c ∉ b.run at hp'
      rw [hp.dropped, mem_cover_append, hp']
      rw [mem_cover_append, List.map_cons, mem_cover_cons] at hc
      by_cases hcb : c ∈ b.run
      · have h1 : c ∉ cover (ge.dropped.map Region.run) := fun h => hD h hcb
        have h2 : ¬ v.Free c := fun h => hF h hcb
        have h3 : c ∉ cover (bm.map Block.run) := fun h => hB h hcb
        simp [h1, h2, h3, hcb]
      · simpa [hcb] using hc

/-- After all blocks are popped, the model mirrors the volume. -/
theorem Owes.popBlocks : ∀ {bm : List Block} {ge : GapEnumeration}, Owes v ge bm →
    ∃ ge', ge.popBlocks v.winxGetFreeVolumeRegions bm = .ok ge' ∧ Mirrors v ge'
      ∧ (ge'.dropped = ge.dropped ∨ ge'.dropped = [])
  | [], ge, h => ⟨ge, rfl, ⟨h.indexed, h.spaced, fun c => by simpa using h.covers c⟩, Or.inl rfl⟩
  | b :: bm, ge, h => by
    rcases h.pop with heq | ⟨ge₁, heq, hd, h₁⟩
    · obtain ⟨ge', heq', h', hd'⟩ := popBlocks_of_mirrors bm (mirrors_scan v ge)
        (scan_dropped v ge) fun b' hb' =>
          h.used _ (Block.lcn_mem_cover (by simp [hb']) (h.pos b' (by simp [hb'])))
      refine ⟨ge', ?_, h', Or.inr hd'⟩
      unfold GapEnumeration.popBlocks at heq' ⊢
      rw [List.foldlM_cons, heq]
      exact heq'
    · obtain ⟨ge', heq', h', hd'⟩ := Owes.popBlocks h₁
      refine ⟨ge', ?_, h', hd ▸ hd'⟩
      unfold GapEnumeration.popBlocks at heq' ⊢
      rw [List.foldlM_cons, heq]
      exact heq'

/-- A granted move, seen by the model: `push` of the old blocks and `pop` of the new ones lead from
a mirror of the volume before to one of the volume after. -/
theorem Mirrors.move {B C : List ℕ} {d d' : Disposition} (h : Mirrors v ge) (hs : v.Sound)
    (hm : Volume.Moved v v' f t B C) (hfree : ∀ c, t ≤ c → c < t + B.length → v.Free c)
    (hne : ge.regions ≠ [])
    (hold : Accurate (v.map f) d) (hnew : Accurate (v'.map f) d')
    (hbehind : ∀ r ∈ ge.dropped, ∀ c ∈ lcns (v.map f), r.lcn + r.length < c) :
    ∃ ge₁ ge₂, ge.push d.blockmap = .ok ge₁
      ∧ ge₁.popBlocks v'.winxGetFreeVolumeRegions d'.blockmap = .ok ge₂
      ∧ Mirrors v' ge₂ ∧ (ge₂.dropped = ge.dropped ∨ ge₂.dropped = []) := by
  have hs' := hm.sound hs hfree
  obtain ⟨ge₁, heq₁, hp⟩ := push_spec h.tidy le_rfl hne (hold.apart (hs.nodup f))
    fun c hc hcg => hs.not_free (hold.mem_cover.1 hc) (h.free hcg)
  have howes : Owes v' ge₁ d'.blockmap := by
    refine ⟨hp.tidy.indexed, ?_, fun c => ?_, hnew.apart (hs'.nodup f), hnew.pos,
      fun c hc => hs'.not_free (hnew.mem_cover.1 hc)⟩
    · rw [hp.dropped]
      refine Spaced.append_of_cover (Spaced.append_iff.1 h.spaced).1 hp.tidy.spaced fun c hc => ?_
      rcases (hp.covers c).1 hc with hc | hc
      · exact h.spaced.le_of_mem_cover hc
      · intro r hr
        obtain ⟨r', hr', rfl⟩ := List.mem_map.1 hr
        exact hbehind r' hr' c (hold.mem_cover.1 hc)
    · have hF := h.covers c
      have hT := hfree c
      rw [mem_cover_append] at hF
      rw [hp.dropped, mem_cover_append, hp.covers, hold.mem_cover, hm.before, List.mem_append,
        ← or_assoc, hF, hm.free hs, hnew.mem_cover, hm.after, List.mem_append, List.mem_range'_1]
      by_cases ht : t ≤ c ∧ c < t + B.length
      · simp [ht, hT ht.1 ht.2]
      · simp [ht, or_assoc]
  obtain ⟨ge₂, heq₂, h₂, hd⟩ := howes.popBlocks
  exact ⟨ge₁, ge₂, heq₁, heq₂, h₂, hp.dropped ▸ hd⟩

end StopGap
