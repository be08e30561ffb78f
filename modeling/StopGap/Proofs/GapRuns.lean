import StopGap.Proofs.GapIndex

/-!
# What push and pop do to the gaps

With the indexes in order and the regions spaced, `push` adds a block to what the regions cover and
keeps them spaced, and `pop` takes one out; spaced by one, they are the maximal runs of what they
cover, so both are determined by that alone.
-/

namespace StopGap

open Runs

namespace GapEnumeration

/-- The indexes are in order, and the regions non-empty and `d` apart. -/
structure Tidy (d : ℕ) (ge : GapEnumeration) : Prop where
  indexed : Indexed ge
  spaced : Spaced d ge.gaps

variable {d : ℕ} {ge : GapEnumeration} {b : Block} {L R : List (ℕ × ℕ)}

/-- Which region `push` merges a block with on the left. -/
theorem prev_cases (hS : Spaced 0 (gapsOf ge.node L))
    (hL : ∀ x ∈ L, (ge.node x.2).lcn + (ge.node x.2).length ≤ b.lcn) :
    (L.getLast?.filter (ge.mergesPrev b) = none
        ∧ ∀ x ∈ L, (ge.node x.2).lcn + (ge.node x.2).length < b.lcn)
      ∨ ∃ L' p, L = L' ++ [p] ∧ L.getLast?.filter (ge.mergesPrev b) = some p
        ∧ (ge.node p.2).lcn + (ge.node p.2).length = b.lcn := by
  rcases List.eq_nil_or_concat L with rfl | ⟨L', p, rfl⟩
  · exact Or.inl ⟨rfl, by simp⟩
  rw [List.concat_eq_append] at hS hL ⊢
  rw [List.getLast?_concat]
  by_cases hp : (ge.node p.2).lcn + (ge.node p.2).length = b.lcn
  · exact Or.inr ⟨L', p, rfl, by simp [Option.filter, mergesPrev, hp], hp⟩
  · refine Or.inl ⟨by simp [Option.filter, mergesPrev, hp], fun x hx => ?_⟩
    have hle := hL x hx
    rcases List.mem_append.1 hx with hx | hx
    · -- a region before the last one ends before the last one starts
      rw [gapsOf_append, Spaced.append_iff] at hS
      have h1 := hS.2.2 _ (mem_gapsOf.2 ⟨x, hx, rfl⟩) _ (mem_gapsOf.2 ⟨p, by simp, rfl⟩)
      have h2 := hS.2.1.pos _ (mem_gapsOf.2 ⟨p, by simp, rfl⟩)
      have h3 := hL p (by simp)
      simp only [Region.run] at h1 h2
      omega
    · obtain rfl := List.mem_singleton.1 hx
      omega

theorem next_cases (hm : OrdMap.Strict (L ++ R)) (hL : ∀ x ∈ L, x.1 < b.lcn)
    (hR : ∀ x ∈ R, b.lcn + b.length ≤ x.1) :
    (OrdMap.find (b.lcn + b.length) (L ++ R) = none ∧ ∀ x ∈ R, b.lcn + b.length < x.1)
      ∨ ∃ n R', R = n :: R' ∧ OrdMap.find (b.lcn + b.length) (L ++ R) = some n
        ∧ n.1 = b.lcn + b.length := by
  have hL' : ∀ x ∈ L, x.1 ≠ b.lcn + b.length := fun x hx => by
    have := hL x hx
    omega
  rcases R with _ | ⟨n, R'⟩
  · exact Or.inl ⟨OrdMap.find_eq_none_iff.2 (by simpa using hL'), by simp⟩
  have hsR := (OrdMap.strict_append.1 hm).2.1
  have hn := hR n (by simp)
  rw [OrdMap.find_append_cons hL' hsR hn]
  by_cases hk : n.1 = b.lcn + b.length
  · exact Or.inr ⟨n, R', rfl, by simp [hk], hk⟩
  · refine Or.inl ⟨by simp [hk], fun x hx => ?_⟩
    rcases List.mem_cons.1 hx with rfl | hx
    · omega
    · have := (OrdMap.strict_cons.1 hsR).1 x hx
      omega

/-- Both indexes once the entries `M` are taken out and node `n` is put in their place with the
values of `r`. -/
theorem indexed_place {ge' : GapEnumeration} {M sizes : List (ℕ × ℕ)} {n : ℕ} {r : Region}
    (hI : Indexed ge) (hreg : ge.regions = L ++ M ++ R) (hV : Views ge.node (L ++ R) sizes)
    (hn : n ∉ (L ++ R).map Prod.snd) (hL : ∀ x ∈ L, x.1 < r.lcn) (hR : ∀ x ∈ R, r.lcn < x.1)
    (hnode : ge'.node = Function.update ge.node n r)
    (hreg' : ge'.regions = L ++ (r.lcn, n) :: R)
    (hsizes : ge'.sizes = OrdMap.insertMulti (r.length, n) sizes)
    (hinfo : ∀ x ∈ ge'.info, x < ge'.fresh) (hsub : ge.info ⊆ ge'.info) (hmem : n ∈ ge'.info) :
    Indexed ge' ∧ ge'.gaps = gapsOf ge.node L ++ r.run :: gapsOf ge.node R := by
  refine ⟨⟨?_, fun x hx => ?_, hinfo⟩, ?_⟩
  · rw [hnode, hreg', hsizes]
    exact hV.insert hn hL hR
  · rw [hreg'] at hx
    rcases List.mem_cons.1 (List.perm_middle.mem_iff.1 hx) with rfl | hx
    · exact hmem
    · refine hsub (hI.info x (hreg ▸ ?_))
      rcases List.mem_append.1 hx with hx | hx <;> simp [hx]
  · rw [gaps_eq, hnode, hreg']
    exact gapsOf_insert hn

/-- What a pushed block leaves: itself and what it merged with, `M`, as one region. -/
structure Merged (ge ge' : GapEnumeration) (b : Run) (A M B : List Run) (m : Run) : Prop where
  before : ge.gaps = A ++ M ++ B
  after : Indexed ge' ∧ ge'.gaps = A ++ m :: B
  covers : ∀ c, c ∈ m ↔ c ∈ cover M ∨ c ∈ b
  left : (∀ a ∈ A, a.start + a.length < m.start) ∨ ∃ p M', M = p :: M' ∧ p.start = m.start
  right : (∀ a ∈ B, m.start + m.length < a.start)
    ∨ ∃ n M', M = M' ++ [n] ∧ n.start + n.length = m.start + m.length
  scans : ge'.scans = ge.scans
  dropped : ge'.dropped = ge.dropped

theorem pushBlock_merged (h : Tidy 0 ge) (hne : ge.regions ≠ []) (hb : 0 < b.length)
    (hdis : ∀ c ∈ b.run, c ∉ cover ge.gaps) :
    ∃ ge' A M B m, ge.pushBlock b = .ok ge' ∧ Merged ge ge' b.run A M B m := by
  obtain ⟨hI, hS⟩ := h
  obtain ⟨L, R, hLR, hL, hR, hbef⟩ := OrdMap.split_at hI.views.strict.sorted b.lcn
  have hV := hI.views
  have hgaps : ge.gaps = gapsOf ge.node L ++ gapsOf ge.node R := by
    rw [gaps_eq, hLR, gapsOf_append]
  have hlcn : ∀ x ∈ L ++ R, x.1 = (ge.node x.2).lcn := fun x hx => hV.lcn_eq x (hLR ▸ hx)
  -- the block touches no region, so each lies on one side of it
  have hclear : ∀ x ∈ L ++ R, ∀ c ∈ b.run, ¬ c ∈ (ge.node x.2).run := fun x hx c hc hcx =>
    hdis c hc ⟨_, mem_gapsOf.2 ⟨x, hLR ▸ hx, rfl⟩, hcx⟩
  simp only [Run.mem_iff, Region.run, Block.run] at hclear
  have hL' : ∀ x ∈ L, (ge.node x.2).lcn + (ge.node x.2).length ≤ b.lcn := fun x hx => by
    have h1 := hL x hx
    have h2 := hlcn x (by simp [hx])
    have h3 := hclear x (by simp [hx]) b.lcn
    omega
  have hR' : ∀ x ∈ R, b.lcn + b.length ≤ x.1 := fun x hx => by
    have h1 := hR x hx
    have h2 := hlcn x (by simp [hx])
    have h3 := hclear x (by simp [hx]) x.1
    have h4 := hS.pos _ (mem_gapsOf.2 ⟨x, hLR ▸ (by simp [hx]), rfl⟩)
    simp only [Region.run] at h4
    omega
  have hSL : Spaced 0 (gapsOf ge.node L) := by
    rw [hgaps, Spaced.append_iff] at hS
    exact hS.1
  rw [hLR] at hV
  rcases prev_cases hSL hL' with ⟨hp, hpl⟩ | ⟨L', p, rfl, hp, hpl⟩ <;>
    rcases next_cases hV.strict hL hR' with ⟨hn, hnr⟩ | ⟨n, R', rfl, hn, hnr⟩ <;>
    rw [← hbef] at hp <;> rw [← hLR] at hn
  · -- a new region between its neighbours
    have hfresh : ge.fresh ∉ (L ++ R).map Prod.snd := fun hf => by
      obtain ⟨x, hx, hxf⟩ := List.mem_map.1 hf
      exact (hI.fresh _ (hI.info x (hLR ▸ hx))).ne hxf
    have hinfo : ge.info ≠ [] := fun h0 => by
      obtain ⟨x, hx⟩ := List.exists_mem_of_ne_nil _ hne
      simpa [h0] using hI.info x hx
    obtain ⟨item, hitem⟩ : ∃ item,
        (OrdMap.before b.lcn ge.regions).or ge.regions.getLast? = some item := by
      rcases OrdMap.before b.lcn ge.regions with _ | item
      · rw [Option.none_or]
        exact ⟨_, List.getLast?_eq_some_getLast hne⟩
      · exact ⟨item, rfl⟩
    have hlt : ∀ x ∈ R, b.lcn < x.1 := fun x hx => by
      have := hR' x hx
      omega
    refine ⟨_, gapsOf ge.node L, [], gapsOf ge.node R, b.run, by
      simp only [pushBlock, hb.ne', hp, hn, hinfo, if_false, hitem]; rfl, ?_⟩
    refine ⟨by simp [hgaps], ?_, by simp, Or.inl fun a ha => ?_, Or.inl fun a ha => ?_, rfl, rfl⟩
    · refine indexed_place (M := []) (r := ⟨b.lcn, b.length⟩) hI (by simp [hLR]) hV hfresh hL hlt
        rfl ?_ rfl (fun x hx => ?_) (fun x hx => mem_insertAfter.2 (Or.inr hx))
        (mem_insertAfter.2 (Or.inl rfl))
      · rw [hLR]
        exact OrdMap.insert_split hL hlt
      · rcases mem_insertAfter.1 hx with rfl | hx
        · exact Nat.lt_succ_self _
        · exact (hI.fresh x hx).trans (Nat.lt_succ_self _)
    · obtain ⟨x, hx, rfl⟩ := mem_gapsOf.1 ha
      exact hpl x hx
    · obtain ⟨x, hx, rfl⟩ := mem_gapsOf.1 ha
      have h1 := hnr x hx
      have h2 := hlcn x (by simp [hx])
      simp only [Region.run, Block.run]
      omega
  · -- the region behind grows down to the block
    have hlt : ∀ x ∈ R', b.lcn < x.1 := fun x hx => by
      have := hR' x (by simp [hx])
      omega
    have hk := hlcn n (by simp)
    refine ⟨_, gapsOf ge.node L, [(ge.node n.2).run], gapsOf ge.node R',
      ⟨b.lcn, (ge.node n.2).length + b.length⟩, by
        simp only [pushBlock, hb.ne', hp, hn, if_false]; rfl, ?_⟩
    refine ⟨by simp [hgaps], ?_, fun c => ?_, Or.inl fun a ha => ?_, Or.inr ⟨_, [], rfl, ?_⟩, rfl,
      rfl⟩
    · refine indexed_place (M := [n]) (r := ⟨b.lcn, (ge.node n.2).length + b.length⟩) hI
        (by simp [hLR]) hV.remove hV.not_mem_of_middle hL hlt rfl ?_ rfl hI.fresh
        (List.Subset.refl _) (hI.info n (hLR ▸ by simp))
      rw [hLR, OrdMap.erase_split hV.strict]
      exact OrdMap.insert_split hL hlt
    · simp only [mem_cover_cons, not_mem_cover_nil, or_false, Run.mem_iff, Region.run, Block.run]
      omega
    · obtain ⟨x, hx, rfl⟩ := mem_gapsOf.1 ha
      exact hpl x hx
    · simp only [Region.run]
      omega
  · -- the region in front grows up to the end of the block
    rw [List.append_assoc, List.singleton_append] at hV hLR
    have hk := hlcn p (by simp)
    have hltL : ∀ x ∈ L', x.1 < (ge.node p.2).lcn := fun x hx => by
      rw [← hk]
      exact (OrdMap.strict_append.1 hV.strict).2.2 x hx p (by simp)
    have hltR : ∀ x ∈ R, (ge.node p.2).lcn < x.1 := fun x hx => by
      rw [← hk]
      exact (OrdMap.strict_cons.1 (OrdMap.strict_append.1 hV.strict).2.1).1 x hx
    refine ⟨_, gapsOf ge.node L', [(ge.node p.2).run], gapsOf ge.node R,
      ⟨(ge.node p.2).lcn, (ge.node p.2).length + b.length⟩, by
        simp only [pushBlock, hb.ne', hp, hn, if_false]; rfl, ?_⟩
    refine ⟨by simp [hgaps], ?_, fun c => ?_, Or.inr ⟨_, [], rfl, rfl⟩, Or.inl fun a ha => ?_, rfl,
      rfl⟩
    · refine indexed_place (M := [p])
        (r := ⟨(ge.node p.2).lcn, (ge.node p.2).length + b.length⟩) hI
        (by simp [hLR]) hV.remove hV.not_mem_of_middle hltL hltR rfl ?_ rfl hI.fresh
        (List.Subset.refl _) (hI.info p (hLR ▸ by simp))
      rw [hLR, ← hk]
    · simp only [mem_cover_cons, not_mem_cover_nil, or_false, Run.mem_iff, Region.run, Block.run]
      omega
    · obtain ⟨x, hx, rfl⟩ := mem_gapsOf.1 ha
      have h1 := hnr x hx
      have h2 := hlcn x (by simp [hx])
      simp only [Region.run]
      omega
  · -- the block closes the space between two regions
    rw [List.append_assoc, List.singleton_append] at hV hLR
    have hk := hlcn p (by simp)
    have hk' := hlcn n (by simp)
    have hVn : Views ge.node (L' ++ p :: R') (ge.sizes.erase ((ge.node n.2).length, n.2)) := by
      rw [List.append_cons] at hV ⊢
      exact hV.remove
    have hltL : ∀ x ∈ L', x.1 < (ge.node p.2).lcn := fun x hx => by
      rw [← hk]
      exact (OrdMap.strict_append.1 hV.strict).2.2 x hx p (by simp)
    have hltR : ∀ x ∈ R', (ge.node p.2).lcn < x.1 := fun x hx => by
      rw [← hk]
      exact (OrdMap.strict_cons.1 (OrdMap.strict_append.1 hVn.strict).2.1).1 x hx
    refine ⟨_, gapsOf ge.node L', [(ge.node p.2).run, (ge.node n.2).run], gapsOf ge.node R',
      ⟨(ge.node p.2).lcn, (ge.node p.2).length + (b.length + (ge.node n.2).length)⟩, by
        simp only [pushBlock, hb.ne', hp, hn, if_false]; rfl, ?_⟩
    refine ⟨by simp [hgaps], ?_, fun c => ?_, Or.inr ⟨_, [(ge.node n.2).run], rfl, rfl⟩,
      Or.inr ⟨_, [(ge.node p.2).run], rfl, ?_⟩, rfl, rfl⟩
    · refine indexed_place (M := [p, n])
        (r := ⟨(ge.node p.2).lcn, (ge.node p.2).length + (b.length + (ge.node n.2).length)⟩) hI
        (by simp [hLR]) hVn.remove hVn.not_mem_of_middle hltL hltR rfl ?_ ?_ hI.fresh
        (List.Subset.refl _) (hI.info p (hLR ▸ by simp))
      · have : ge.regions = (L' ++ [p]) ++ n :: R' := by simp [hLR]
        rw [this, OrdMap.erase_split (this ▸ hI.views.strict), ← hk]
        simp
      · simp only [List.erase_comm]
    · simp only [mem_cover_cons, not_mem_cover_nil, or_false, Run.mem_iff, Region.run, Block.run]
      omega
    · simp only [Region.run]
      omega

/-- What `push` leaves: `rs` more is covered. -/
structure Pushed (d : ℕ) (ge ge' : GapEnumeration) (rs : List Run) : Prop where
  tidy : Tidy d ge'
  covers : ∀ c, c ∈ cover ge'.gaps ↔ c ∈ cover ge.gaps ∨ c ∈ cover rs
  nonempty : ge'.regions ≠ []
  scans : ge'.scans = ge.scans
  dropped : ge'.dropped = ge.dropped

theorem Merged.pushed {ge' : GapEnumeration} {r m : Run} {A M B : List Run}
    (hm : Merged ge ge' r A M B m) (h : Tidy d ge) (hd : d ≤ 1) (hr : 0 < r.length) :
    Pushed d ge ge' [r] := by
  obtain ⟨hbefore, ⟨hindexed, hafter⟩, hcovers, hleft, hright, hscans, hdropped⟩ := hm
  have hS := h.spaced
  rw [hbefore] at hS
  obtain ⟨hSAM, -, hSB⟩ := Spaced.append_iff.1 hS
  have hSA := (Spaced.append_iff.1 hSAM).2.2
  have hpos : 0 < m.length := by
    have := (hcovers r.start).2 (Or.inr (by rw [Run.mem_iff]; omega))
    rw [Run.mem_iff] at this
    omega
  have hA : ∀ a ∈ A, a.start + a.length + d ≤ m.start := fun a ha => by
    rcases hleft with hlt | ⟨p, M', rfl, hp⟩
    · have := hlt a ha
      omega
    · exact hp ▸ hSA a ha p (by simp)
  have hB : ∀ b ∈ B, m.start + m.length + d ≤ b.start := fun b hb => by
    rcases hright with hlt | ⟨n, M', rfl, hn⟩
    · have := hlt b hb
      omega
    · exact hn ▸ hSB n (by simp) b hb
  refine ⟨⟨hindexed, hafter ▸ hS.splice hpos hA hB⟩, fun c => ?_, fun h0 => ?_, hscans, hdropped⟩
  · rw [hafter, hbefore]
    simp only [mem_cover_append, mem_cover_cons, not_mem_cover_nil, hcovers]
    grind
  · rw [gaps_eq, h0] at hafter
    simp at hafter

theorem pushBlock_spec (h : Tidy d ge) (hd : d ≤ 1) (hne : ge.regions ≠ [])
    (hdis : ∀ c ∈ b.run, c ∉ cover ge.gaps) :
    ∃ ge', ge.pushBlock b = .ok ge' ∧ Pushed d ge ge' [b.run] := by
  rcases Nat.eq_zero_or_pos b.length with hb | hb
  · refine ⟨ge, by simp [pushBlock, hb], h, fun c => ?_, hne, rfl, rfl⟩
    have : ¬ c ∈ b.run := by
      simp only [Run.mem_iff, Block.run]
      omega
    simp [this]
  · obtain ⟨ge', A, M, B, m, heq, hm⟩ :=
      pushBlock_merged ⟨h.indexed, h.spaced.weaken (Nat.zero_le d)⟩ hne hb hdis
    exact ⟨ge', heq, hm.pushed h hd hb⟩

def Apart (bm : List Block) : Prop := bm.Pairwise fun a b => ∀ c ∈ a.run, c ∉ b.run

theorem push_spec : ∀ {bm : List Block} {ge : GapEnumeration}, Tidy d ge → d ≤ 1 →
    ge.regions ≠ [] → Apart bm → (∀ c ∈ cover (bm.map Block.run), c ∉ cover ge.gaps) →
    ∃ ge', ge.push bm = .ok ge' ∧ Pushed d ge ge' (bm.map Block.run)
  | [], ge, h, _, hne, _, _ => ⟨ge, rfl, h, by simp, hne, rfl, rfl⟩
  | b :: bm, ge, h, hd, hne, hap, hdis => by
    obtain ⟨hb, hbm⟩ := List.pairwise_cons.1 hap
    obtain ⟨ge₁, heq₁, h₁⟩ := pushBlock_spec (b := b) h hd hne fun c hc =>
      hdis c (by simp [hc])
    obtain ⟨ge₂, heq₂, h₂⟩ := push_spec h₁.tidy hd h₁.nonempty hbm fun c hc hc₁ => by
      rcases (h₁.covers c).1 hc₁ with hc₁ | hc₁
      · exact hdis c (by simp [hc]) hc₁
      · obtain ⟨r, hr, hcr⟩ := hc
        obtain ⟨b', hb', rfl⟩ := List.mem_map.1 hr
        exact hb b' hb' c (by simpa using hc₁) hcr
    refine ⟨ge₂, ?_, h₂.tidy, fun c => ?_, h₂.nonempty, h₂.scans.trans h₁.scans,
      h₂.dropped.trans h₁.dropped⟩
    · unfold push at heq₂ ⊢
      rw [List.foldlM_cons, heq₁]
      exact heq₂
    · rw [h₂.covers, h₁.covers]
      simp only [List.map_cons, mem_cover_cons, not_mem_cover_nil, or_false]
      grind

theorem find_region (h : Tidy d ge) {lcn n k : ℕ} (hf : OrdMap.find lcn ge.regions = some (k, n)) :
    ∃ L R, ge.regions = L ++ (k, n) :: R ∧ k = lcn ∧ (ge.node n).lcn = lcn
      ∧ ge.gaps = gapsOf ge.node L ++ (ge.node n).run :: gapsOf ge.node R := by
  obtain ⟨L, R, hreg, hk, -, -⟩ := OrdMap.find_split h.indexed.views.strict hf
  refine ⟨L, R, hreg, hk, ?_, by rw [gaps_eq, hreg, gapsOf_append, gapsOf_cons]⟩
  have := h.indexed.views.lcn_eq (k, n) (hreg ▸ by simp)
  exact this.symm.trans hk

/-- What `pop` leaves where it finds a region long enough: `r` less is covered. -/
structure Popped (d : ℕ) (ge ge' : GapEnumeration) (r : Run) : Prop where
  tidy : Tidy d ge'
  covers : ∀ c, c ∈ cover ge'.gaps ↔ c ∈ cover ge.gaps ∧ c ∉ r
  info : ge'.info = ge.info
  scans : ge'.scans = ge.scans
  dropped : ge'.dropped = ge.dropped

theorem popped_cut {ge' : GapEnumeration} {A B : List Run} {r : Run} {length : ℕ} (h : Tidy d ge)
    (hgaps : ge.gaps = A ++ r :: B) (hlt : length < r.length)
    (hge' : Indexed ge' ∧ ge'.gaps = A ++ ⟨r.start + length, r.length - length⟩ :: B)
    (hinfo : ge'.info = ge.info) (hscans : ge'.scans = ge.scans)
    (hdropped : ge'.dropped = ge.dropped) : Popped d ge ge' ⟨r.start, length⟩ := by
  obtain ⟨hI, hgaps'⟩ := hge'
  have hS := h.spaced
  rw [hgaps] at hS
  obtain ⟨-, hrB, hArB⟩ := Spaced.append_iff.1 hS
  obtain ⟨-, hB, -⟩ := Spaced.cons_iff.1 hrB
  refine ⟨⟨hI, ?_⟩, fun c => ?_, hinfo, hscans, hdropped⟩
  · rw [hgaps']
    refine Spaced.splice (M := [r]) (by simpa using hS) (Nat.sub_pos_of_lt hlt) (fun a ha => ?_)
      fun b hb => ?_
    · have := hArB a ha r (by simp)
      simp only
      omega
    · have := hB b hb
      simp only
      omega
  · have hoff : c ∈ cover A ∨ c ∈ cover B → ¬ c ∈ r := hS.not_mem_middle
    rw [hgaps', hgaps]
    simp only [mem_cover_append, mem_cover_cons, Run.mem_iff] at hoff ⊢
    by_cases hc : c ∈ cover A ∨ c ∈ cover B
    · have := hoff hc
      constructor
      · exact fun _ => ⟨by grind, by omega⟩
      · exact fun _ => by grind
    · constructor
      · rintro (hA | hr | hB)
        · exact absurd (Or.inl hA) hc
        · exact ⟨Or.inr (Or.inl (by omega)), by omega⟩
        · exact absurd (Or.inr hB) hc
      · rintro ⟨hA | hr | hB, hn⟩
        · exact absurd (Or.inl hA) hc
        · exact Or.inr (Or.inl (by omega))
        · exact absurd (Or.inr hB) hc

theorem popped_whole {ge' : GapEnumeration} {A B : List Run} {r : Run} (h : Tidy d ge)
    (hgaps : ge.gaps = A ++ r :: B) (hge' : Indexed ge' ∧ ge'.gaps = A ++ B)
    (hinfo : ge'.info = ge.info) (hscans : ge'.scans = ge.scans)
    (hdropped : ge'.dropped = ge.dropped) : Popped d ge ge' r := by
  obtain ⟨hI, hgaps'⟩ := hge'
  have hS := h.spaced
  rw [hgaps] at hS
  obtain ⟨hA, hrB, hArB⟩ := Spaced.append_iff.1 hS
  obtain ⟨-, -, hB⟩ := Spaced.cons_iff.1 hrB
  refine ⟨⟨hI, ?_⟩, fun c => ?_, hinfo, hscans, hdropped⟩
  · rw [hgaps']
    exact Spaced.append_iff.2 ⟨hA, hB, fun a ha b hb => hArB a ha b (by simp [hb])⟩
  · have hoff : c ∈ cover A ∨ c ∈ cover B → ¬ c ∈ r := hS.not_mem_middle
    rw [hgaps', hgaps]
    simp only [mem_cover_append, mem_cover_cons]
    grind

theorem pop_spec (h : Tidy d ge) {free : List Region} {lcn length n k : ℕ}
    (hf : OrdMap.find lcn ge.regions = some (k, n)) (hle : length ≤ (ge.node n).length) :
    ∃ ge', ge.pop free lcn length = .ok ge' ∧ Popped d ge ge' ⟨lcn, length⟩ := by
  obtain ⟨L, R, hreg, rfl, rfl, hgaps⟩ := find_region h hf
  have hV := h.indexed.views
  rw [hreg] at hV
  have herase := OrdMap.erase_split hV.strict
  rcases hle.lt_or_eq with hlt | rfl
  · have hL : ∀ x ∈ L, x.1 < (ge.node n).lcn + length := fun x hx => by
      have := (OrdMap.strict_append.1 hV.strict).2.2 x hx ((ge.node n).lcn, n) (by simp)
      simp only at this
      omega
    have hR : ∀ x ∈ R, (ge.node n).lcn + length < x.1 := fun x hx => by
      have hS := h.spaced
      rw [hgaps, Spaced.append_iff, Spaced.cons_iff] at hS
      have h1 := hS.2.1.2.1 _ (mem_gapsOf.2 ⟨x, hx, rfl⟩)
      have h2 := hV.lcn_eq x (by simp [hx])
      simp only [Region.run] at h1
      omega
    refine ⟨_, by simp only [pop, hf, if_pos hlt]; rfl, ?_⟩
    refine popped_cut h hgaps hlt ?_ rfl rfl rfl
    refine indexed_place (M := [((ge.node n).lcn, n)])
      (r := ⟨(ge.node n).lcn + length, (ge.node n).length - length⟩) h.indexed (by simp [hreg])
      hV.remove hV.not_mem_of_middle hL hR rfl ?_ rfl h.indexed.fresh (List.Subset.refl _)
      (h.indexed.info _ (hreg ▸ List.mem_append_right _ (List.mem_cons_self)))
    rw [hreg, herase]
    exact OrdMap.insert_split hL hR
  · refine ⟨_, by simp only [pop, hf, lt_irrefl, if_false]; rfl, ?_⟩
    refine popped_whole h hgaps ⟨⟨?_, fun e he => ?_, h.indexed.fresh⟩, ?_⟩ rfl rfl rfl
    · rw [hreg, herase]
      exact hV.remove
    · exact h.indexed.info e (OrdMap.erase_sublist.subset he)
    · rw [gaps_eq, hreg, herase, gapsOf_append]

/-- What `pop` does: it rescans, breaks into the debugger or takes the clusters out. -/
theorem pop_cases (h : Tidy d ge) (free : List Region) (lcn length : ℕ) :
    ((∀ r ∈ ge.gaps, r.start ≠ lcn) ∧ ge.pop free lcn length = .ok (ge.scan free))
      ∨ (∃ r ∈ ge.gaps, r.start = lcn ∧ r.length < length
        ∧ ge.pop free lcn length = .error .debugBreak)
      ∨ ∃ r ∈ ge.gaps, r.start = lcn ∧ length ≤ r.length
        ∧ ∃ ge', ge.pop free lcn length = .ok ge' ∧ Popped d ge ge' ⟨lcn, length⟩ := by
  rcases hf : OrdMap.find lcn ge.regions with _ | ⟨k, n⟩
  · refine Or.inl ⟨fun r hr => ?_, by simp only [pop, hf]⟩
    obtain ⟨e, he, rfl⟩ := mem_gapsOf.1 hr
    simp only [Region.run, ← h.indexed.views.lcn_eq e he]
    exact OrdMap.find_none hf e he
  · obtain ⟨L, R, -, -, hlcn, hgaps⟩ := find_region h hf
    have hmem : (ge.node n).run ∈ ge.gaps := by simp [hgaps]
    rcases Nat.lt_or_ge (ge.node n).length length with hlt | hle
    · refine Or.inr (Or.inl ⟨_, hmem, hlcn, hlt, ?_⟩)
      simp only [pop, hf, if_neg hlt.le.not_gt, if_pos hlt]
    · exact Or.inr (Or.inr ⟨_, hmem, hlcn, hle, pop_spec h hf hle⟩)

theorem filterNode_views {n : ℕ} (h : Views ge.node ge.regions ge.sizes)
    (hn : n ∉ ge.regions.map Prod.snd) (hk : ∀ e ∈ ge.regions, e.1 ≠ (ge.node n).lcn) :
    Views ge.node (ge.filterNode n).regions (ge.filterNode n).sizes
      ∧ ((ge.filterNode n).regions.map Prod.snd).Perm (ge.regions.map Prod.snd ++ [n]) := by
  obtain ⟨L, R, hLR, hL, hR, -⟩ := OrdMap.split_at h.strict.sorted (ge.node n).lcn
  have hR' : ∀ x ∈ R, (ge.node n).lcn < x.1 := fun x hx =>
    lt_of_le_of_ne (hR x hx) (hk x (hLR ▸ by simp [hx])).symm
  have hins : (ge.filterNode n).regions = L ++ ((ge.node n).lcn, n) :: R := by
    simp only [filterNode, hLR]
    exact OrdMap.insert_split hL hR'
  rw [hLR] at h hn
  constructor
  · rw [hins]
    have := h.insert hn hL hR'
    rwa [Function.update_eq_self] at this
  · rw [hins, hLR]
    simp only [List.map_append, List.map_cons, List.append_assoc]
    exact List.Perm.append_left _ (List.perm_append_singleton _ _).symm

theorem filter_fold : ∀ (ns : List ℕ) (ge : GapEnumeration), Views ge.node ge.regions ge.sizes →
    (ge.regions.map Prod.snd ++ ns).Nodup →
    (ge.regions.map Prod.snd ++ ns).Pairwise (fun a b => (ge.node a).lcn ≠ (ge.node b).lcn) →
    ∃ regions sizes, ns.foldl filterNode ge = { ge with regions := regions, sizes := sizes }
      ∧ Views ge.node regions sizes
      ∧ (regions.map Prod.snd).Perm (ge.regions.map Prod.snd ++ ns)
  | [], ge, h, _, _ => ⟨ge.regions, ge.sizes, rfl, h, by simp⟩
  | n :: ns, ge, h, hnd, hlcn => by
    have hn : n ∉ ge.regions.map Prod.snd := fun hn =>
      (List.nodup_append.1 hnd).2.2 n hn n (by simp) rfl
    have hk : ∀ e ∈ ge.regions, e.1 ≠ (ge.node n).lcn := fun e he => by
      rw [h.lcn_eq e he]
      exact (List.pairwise_append.1 hlcn).2.2 e.2 (List.mem_map.2 ⟨e, he, rfl⟩) n (by simp)
    obtain ⟨hV, hp⟩ := filterNode_views h hn hk
    rw [List.append_cons] at hnd hlcn
    have hp' := hp.append_right ns
    obtain ⟨regions, sizes, heq, hV', hperm⟩ := filter_fold ns (ge.filterNode n) hV
      (hp'.nodup_iff.2 hnd) ((hp'.pairwise_iff fun {_ _} hab => hab.symm).2 hlcn)
    exact ⟨regions, sizes, heq, hV', by simpa using hperm.trans hp'⟩

/-- What `scan` leaves, where the regions it reads share no cluster. -/
structure Scanned (free : List Region) (ge ge' : GapEnumeration) : Prop where
  tidy : Tidy 0 ge'
  perm : ge'.gaps.Perm (free.map Region.run)
  scans : ge'.scans = ge.scans + 1
  dropped : ge'.dropped = []

theorem scan_spec (ge : GapEnumeration) {free : List Region} (hpos : ∀ r ∈ free, 0 < r.length)
    (hdis : free.Pairwise fun a b => ∀ c ∈ a.run, c ∉ b.run) :
    Scanned free ge (ge.scan free) := by
  have hlcn : (List.range free.length).Pairwise
      fun a b => (free.getD a ⟨0, 0⟩).lcn ≠ (free.getD b ⟨0, 0⟩).lcn := by
    rw [List.pairwise_iff_getElem]
    intro i j hi hj hij
    simp only [List.length_range] at hi hj
    simp only [List.getElem_range, List.getD_eq_getElem?_getD, List.getElem?_eq_getElem hi,
      List.getElem?_eq_getElem hj, Option.getD_some]
    intro heq
    have h1 := List.pairwise_iff_getElem.1 hdis i j hi hj hij (free[i]).lcn
    have h2 := hpos _ (List.getElem_mem hi)
    have h3 := hpos _ (List.getElem_mem hj)
    simp only [Run.mem_iff, Region.run] at h1
    omega
  obtain ⟨regions, sizes, heq, hV, hp⟩ := filter_fold (List.range free.length)
    { info := List.range free.length
      node := fun n => free.getD n ⟨0, 0⟩
      fresh := free.length
      regions := []
      sizes := []
      scans := ge.scans + 1
      dropped := [] } Views.nil (by simpa using List.nodup_range) (by simpa using hlcn)
  have hscan : ge.scan free = _ := heq
  rw [hscan]
  simp only [List.map_nil, List.nil_append] at hp hV
  have hperm : (gapsOf (fun n => free.getD n ⟨0, 0⟩) regions).Perm (free.map Region.run) := by
    have := hp.map fun n => (free.getD n ⟨0, 0⟩).run
    rw [List.map_map] at this
    refine this.trans (List.Perm.of_eq (List.ext_getElem (by simp) fun i hi hi' => ?_))
    simp only [List.length_map, List.length_range] at hi
    simp [hi]
  refine ⟨⟨⟨hV, fun e he => ?_, by simp⟩, ?_⟩, hperm, rfl, rfl⟩
  · exact hp.mem_iff.1 (List.mem_map.2 ⟨e, he, rfl⟩)
  · have hS : OrdMap.Strict regions := hV.strict
    refine Spaced.of_disjoint (fun r hr => ?_) ?_ ?_
    · obtain ⟨r', hr', rfl⟩ := List.mem_map.1 (hperm.mem_iff.1 hr)
      exact hpos r' hr'
    · refine List.pairwise_map.2 (hS.imp_of_mem fun {a b} ha hb hab => ?_)
      rw [hV.lcn_eq a ha, hV.lcn_eq b hb] at hab
      exact hab
    · refine (hperm.pairwise_iff fun {a b} hab c hb ha => hab c ha hb).2 ?_
      exact List.pairwise_map.2 hdis

theorem scan_of_spaced (ge : GapEnumeration) {free : List Region}
    (h : Spaced 1 (free.map Region.run)) :
    Tidy 1 (ge.scan free) ∧ (ge.scan free).gaps = free.map Region.run := by
  have hdis : free.Pairwise fun a b => ∀ c ∈ a.run, c ∉ b.run := by
    refine (List.pairwise_map.1 h.apart).imp fun {a b} hab c ha hb => ?_
    simp only [Run.mem_iff] at ha hb
    omega
  have hs := scan_spec ge
    (fun r hr => h.pos r.run (List.mem_map.2 ⟨r, hr, rfl⟩)) hdis
  have heq := hs.tidy.spaced.eq_of_perm (h.weaken (Nat.zero_le 1)) hs.perm
  exact ⟨⟨hs.tidy.indexed, heq ▸ h⟩, heq⟩

/-- `push` and `pop` leave the maximal runs of the free set they make, in both indexes, whatever the
order of the blocks. -/
theorem push_pop_canonical (h : Tidy 1 ge) :
    (∀ bm : List Block, ge.info ≠ [] → ge.regions ≠ [] → Apart bm →
        (∀ c ∈ cover (bm.map Block.run), c ∉ cover ge.gaps) →
        ∃ ge', ge.push bm = .ok ge' ∧ Indexed ge'
          ∧ RunsOf (cover ge.gaps ∪ cover (bm.map Block.run)) ge'.gaps
          ∧ ge'.sizeGaps.Perm ge'.gaps
          ∧ ∀ bm', bm'.Perm bm → ∃ ge₂, ge.push bm' = .ok ge₂ ∧ ge₂.gaps = ge'.gaps)
      ∧ ∀ (free : List Region) (r : Run) (length : ℕ), r ∈ ge.gaps → length ≤ r.length →
        ∃ ge', ge.pop free r.start length = .ok ge' ∧ Indexed ge'
          ∧ RunsOf (cover ge.gaps \ {c | r.start ≤ c ∧ c < r.start + length}) ge'.gaps
          ∧ ge'.sizeGaps.Perm ge'.gaps := by
  refine ⟨fun bm _ hne hap hdis => ?_, fun free r length hr hle => ?_⟩
  · obtain ⟨ge', heq, hp⟩ := push_spec h le_rfl hne hap hdis
    have hcov : cover ge'.gaps = cover ge.gaps ∪ cover (bm.map Block.run) := Set.ext hp.covers
    refine ⟨ge', heq, hp.tidy.indexed, hcov ▸ hp.tidy.spaced.runsOf,
      sizeGaps_perm hp.tidy.indexed, fun bm' hperm => ?_⟩
    -- the cover is the same in any order, and determines the list
    have hmem : ∀ c, c ∈ cover (bm'.map Block.run) ↔ c ∈ cover (bm.map Block.run) := fun c => by
      simp only [mem_cover, (hperm.map Block.run).mem_iff]
    obtain ⟨ge₂, heq₂, hp₂⟩ := push_spec h le_rfl hne
      ((hperm.pairwise_iff fun {a b} hab c hb ha => hab c ha hb).2 hap)
      fun c hc => hdis c ((hmem c).1 hc)
    refine ⟨ge₂, heq₂, hp₂.tidy.spaced.eq_of_cover hp.tidy.spaced fun c => ?_⟩
    rw [hp₂.covers, hp.covers, hmem]
  · rcases pop_cases h free r.start length with ⟨hno, -⟩ | ⟨r', hr', hs, hlt, -⟩ |
      ⟨-, -, -, -, ge', heq, hp⟩
    · exact absurd rfl (hno r hr)
    · rw [h.spaced.eq_of_start hr' hr hs] at hlt
      omega
    · have hcov : cover ge'.gaps = cover ge.gaps \ {c | r.start ≤ c ∧ c < r.start + length} :=
        Set.ext hp.covers
      exact ⟨ge', heq, hp.tidy.indexed, hcov ▸ hp.tidy.spaced.runsOf,
        sizeGaps_perm hp.tidy.indexed⟩

theorem push_pop_canonical_bridge :
    ∃ ge', (empty.scan [⟨1, 2⟩, ⟨5, 3⟩]).push [⟨0, 3, 1⟩, ⟨1, 4, 1⟩] = .ok ge'
      ∧ RunsOf (cover [⟨1, 2⟩, ⟨5, 3⟩] ∪ cover [⟨3, 1⟩, ⟨4, 1⟩]) ge'.gaps := by
  have hS : Spaced 1 (([⟨1, 2⟩, ⟨5, 3⟩] : List Region).map Region.run) := ⟨by decide, by decide⟩
  obtain ⟨hT, hgaps⟩ := scan_of_spaced empty hS
  have hdis : ∀ c ∈ cover ([⟨0, 3, 1⟩, ⟨1, 4, 1⟩].map Block.run),
      c ∉ cover (empty.scan [⟨1, 2⟩, ⟨5, 3⟩]).gaps := fun c => by
    simp only [hgaps, List.map_cons, List.map_nil, mem_cover_cons, not_mem_cover_nil, or_false,
      Run.mem_iff, Block.run, Region.run]
    omega
  have hap : Apart [⟨0, 3, 1⟩, ⟨1, 4, 1⟩] := by
    refine List.pairwise_pair.2 fun c => ?_
    simp only [Run.mem_iff, Block.run]
    omega
  obtain ⟨ge', heq, -, hruns, -⟩ :=
    (push_pop_canonical hT).1 [⟨0, 3, 1⟩, ⟨1, 4, 1⟩] (by decide) (by decide) hap hdis
  exact ⟨ge', heq, by simpa [hgaps, Region.run, Block.run] using hruns⟩

end GapEnumeration

end StopGap
