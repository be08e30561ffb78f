import StopGap.Gaps

/-!
# The two indexes

`regions_` and `sizes_` are two views of one set of nodes (`Views`). Every branch of `push` and
`pop` takes some entries out of both and puts at most one back under its new keys, so two lemmas
carry all of them: `Views.remove` and `Views.insert`.
-/

namespace StopGap

open Runs

namespace GapEnumeration

/-- The same nodes in both indexes, each once, under the keys its node has. -/
structure Views (node : ℕ → Region) (regions sizes : List (ℕ × ℕ)) : Prop where
  strict : OrdMap.Strict regions
  sorted : OrdMap.Sorted sizes
  lcn_eq : ∀ e ∈ regions, e.1 = (node e.2).lcn
  length_eq : ∀ e ∈ sizes, e.1 = (node e.2).length
  same : (regions.map Prod.snd).Perm (sizes.map Prod.snd)
  nodup : (regions.map Prod.snd).Nodup

namespace Views

variable {node : ℕ → Region} {regions sizes L R : List (ℕ × ℕ)} {e : ℕ × ℕ} {n : ℕ}

theorem nil : Views node [] [] :=
  ⟨List.Pairwise.nil, List.Pairwise.nil, by simp, by simp, by simp, by simp⟩

theorem mem_sizes (h : Views node regions sizes) (he : e ∈ regions) :
    ((node e.2).length, e.2) ∈ sizes := by
  obtain ⟨x, hx, hxe⟩ := List.mem_map.1
    ((h.same.mem_iff).1 (List.mem_map.2 ⟨e, he, rfl⟩))
  have hk := h.length_eq x hx
  rw [hxe] at hk
  rwa [← hk, ← hxe]

theorem remove (h : Views node (L ++ e :: R) sizes) :
    Views node (L ++ R) (sizes.erase ((node e.2).length, e.2)) := by
  have hsub : (L ++ R).Sublist (L ++ e :: R) := by simp
  have hmem := h.mem_sizes (e := e) (by simp)
  refine ⟨List.Pairwise.sublist hsub h.strict, List.Pairwise.sublist List.erase_sublist h.sorted,
    fun x hx => h.lcn_eq x (hsub.subset hx), fun x hx => h.length_eq x (List.mem_of_mem_erase hx),
    ?_, (h.nodup).sublist (hsub.map _)⟩
  have h1 : ((L ++ e :: R).map Prod.snd).Perm (e.2 :: (L ++ R).map Prod.snd) :=
    (List.perm_middle (a := e)).map Prod.snd
  have h2 : (sizes.map Prod.snd).Perm
      (e.2 :: (sizes.erase ((node e.2).length, e.2)).map Prod.snd) :=
    (List.perm_cons_erase hmem).map Prod.snd
  exact ((h1.symm.trans h.same).trans h2).cons_inv

theorem not_mem_of_middle (h : Views node (L ++ e :: R) sizes) :
    e.2 ∉ (L ++ R).map Prod.snd := by
  have := h.nodup
  rw [((List.perm_middle : (L ++ e :: R).Perm (e :: (L ++ R))).map Prod.snd).nodup_iff,
    List.map_cons, List.nodup_cons] at this
  exact this.1

theorem insert {r : Region} (h : Views node (L ++ R) sizes)
    (hn : n ∉ (L ++ R).map Prod.snd) (hL : ∀ x ∈ L, x.1 < r.lcn) (hR : ∀ x ∈ R, r.lcn < x.1) :
    Views (Function.update node n r) (L ++ (r.lcn, n) :: R)
      (OrdMap.insertMulti (r.length, n) sizes) := by
  have hp : (L ++ (r.lcn, n) :: R).Perm ((r.lcn, n) :: (L ++ R)) := List.perm_middle
  have hps := OrdMap.insertMulti_perm (r.length, n) sizes
  have hne : ∀ x ∈ L ++ R, x.2 ≠ n := fun x hx hxn =>
    hn (List.mem_map.2 ⟨x, hx, hxn⟩)
  have hne' : ∀ x ∈ sizes, x.2 ≠ n := fun x hx hxn =>
    hn ((h.same.mem_iff).2 (List.mem_map.2 ⟨x, hx, hxn⟩))
  obtain ⟨hsL, hsR, hLR⟩ := OrdMap.strict_append.1 h.strict
  refine ⟨?_, h.sorted.insertMulti _, fun x hx => ?_, fun x hx => ?_, ?_, ?_⟩
  · refine OrdMap.strict_append.2 ⟨hsL, OrdMap.strict_cons.2 ⟨hR, hsR⟩, fun a ha b hb => ?_⟩
    rcases List.mem_cons.1 hb with rfl | hb
    · exact hL a ha
    · exact hLR a ha b hb
  · rcases List.mem_cons.1 (hp.mem_iff.1 hx) with rfl | hx
    · simp
    · rw [Function.update_of_ne (hne x hx)]
      exact h.lcn_eq x hx
  · rcases OrdMap.mem_insertMulti.1 hx with rfl | hx
    · simp
    · rw [Function.update_of_ne (hne' x hx)]
      exact h.length_eq x hx
  · exact ((hp.map Prod.snd).trans (h.same.cons n)).trans (hps.map Prod.snd).symm
  · rw [(hp.map Prod.snd).nodup_iff, List.map_cons, List.nodup_cons]
    exact ⟨hn, h.nodup⟩

end Views

/-- The indexes, with every node in the list and the next address unused. -/
structure Indexed (ge : GapEnumeration) : Prop where
  views : Views ge.node ge.regions ge.sizes
  info : ∀ e ∈ ge.regions, e.2 ∈ ge.info
  fresh : ∀ n ∈ ge.info, n < ge.fresh

def gapsOf (node : ℕ → Region) (regions : List (ℕ × ℕ)) : List Run :=
  regions.map fun e => (node e.2).run

theorem gaps_eq (ge : GapEnumeration) : ge.gaps = gapsOf ge.node ge.regions := rfl

@[simp] theorem gapsOf_nil (node : ℕ → Region) : gapsOf node [] = [] := rfl

@[simp] theorem gapsOf_cons (node : ℕ → Region) (e : ℕ × ℕ) (R : List (ℕ × ℕ)) :
    gapsOf node (e :: R) = (node e.2).run :: gapsOf node R := rfl

@[simp] theorem gapsOf_append (node : ℕ → Region) (L R : List (ℕ × ℕ)) :
    gapsOf node (L ++ R) = gapsOf node L ++ gapsOf node R := List.map_append

theorem gapsOf_update {node : ℕ → Region} {L : List (ℕ × ℕ)} {n : ℕ} {r : Region}
    (h : n ∉ L.map Prod.snd) : gapsOf (Function.update node n r) L = gapsOf node L := by
  refine List.map_congr_left fun e he => ?_
  rw [Function.update_of_ne fun hn => h (List.mem_map.2 ⟨e, he, hn⟩)]

theorem mem_gapsOf {node : ℕ → Region} {L : List (ℕ × ℕ)} {r : Run} :
    r ∈ gapsOf node L ↔ ∃ e ∈ L, (node e.2).run = r := List.mem_map

theorem gapsOf_insert {node : ℕ → Region} {L R : List (ℕ × ℕ)} {n k : ℕ} {r : Region}
    (h : n ∉ (L ++ R).map Prod.snd) :
    gapsOf (Function.update node n r) (L ++ (k, n) :: R)
      = gapsOf node L ++ r.run :: gapsOf node R := by
  rw [List.map_append, List.mem_append, not_or] at h
  rw [gapsOf_append, gapsOf_cons, gapsOf_update h.1, gapsOf_update h.2]
  simp

theorem sizeGaps_perm {ge : GapEnumeration} (h : Indexed ge) : ge.sizeGaps.Perm ge.gaps := by
  have : ∀ m : List (ℕ × ℕ), (m.map fun e => (ge.node e.2).run)
      = (m.map Prod.snd).map fun n => (ge.node n).run := by simp
  unfold sizeGaps gaps
  rw [this, this]
  exact (h.views.same.map _).symm

theorem mem_insertAfter {item new n : ℕ} : ∀ {l : List ℕ},
    n ∈ insertAfter item new l ↔ n = new ∨ n ∈ l
  | [] => by simp [insertAfter]
  | x :: xs => by
    unfold insertAfter
    split_ifs
    · simp only [List.mem_cons]
      grind
    · simp only [List.mem_cons, mem_insertAfter (l := xs)]
      grind

/-! ## Faults -/

section Faults

variable {ge : GapEnumeration} {why : Fault}

theorem pop_error {free : List Region} {lcn length : ℕ}
    (h : ge.pop free lcn length = .error why) : why = .debugBreak := by
  unfold pop at h
  split at h
  · simp at h
  · simp only at h
    split_ifs at h
    exact (Except.error.inj h).symm

theorem popRegion_error {free : List Region} {n : ℕ} (h : ge.popRegion free n = .error why) :
    why = .debugBreak := by
  rcases hpop : ge.pop free (ge.node n).lcn (ge.node n).length with e | ge'
  · unfold popRegion at h
    simp only [hpop, Except.map, ite_self] at h
    exact Except.error.inj h ▸ pop_error hpop
  · unfold popRegion at h
    simp only [hpop, Except.map] at h
    split_ifs at h

theorem popBlocks_error {free : List Region} : ∀ {bm : List Block} {ge : GapEnumeration},
    ge.popBlocks free bm = .error why → why = .debugBreak
  | [], _, h => by simp [popBlocks, pure, Except.pure] at h
  | b :: bm, ge, h => by
    unfold popBlocks at h
    rw [List.foldlM_cons] at h
    rcases hb : ge.pop free b.lcn b.length with e | ge₁ <;> rw [hb] at h
    · exact Except.error.inj h ▸ pop_error hb
    · exact popBlocks_error h

/-- `push` stops at its own breakpoint or for want of a region. -/
theorem pushBlock_error {b : Block} (h : ge.pushBlock b = .error why) : why ≠ .nullBlockmap := by
  by_cases hb : b.length = 0
  · simp [pushBlock, hb] at h
  simp only [pushBlock, if_neg hb] at h
  split at h
  · simp at h
  · simp at h
  · simp at h
  · by_cases hi : ge.info = []
    · rw [if_pos hi] at h
      exact Except.error.inj h ▸ by decide
    · rw [if_neg hi] at h
      split at h
      · exact Except.error.inj h ▸ by decide
      · simp at h

theorem push_error : ∀ {bm : List Block} {ge : GapEnumeration},
    ge.push bm = .error why → why ≠ .nullBlockmap
  | [], _, h => by simp [push, pure, Except.pure] at h
  | b :: bm, ge, h => by
    unfold push at h
    rw [List.foldlM_cons] at h
    rcases hb : ge.pushBlock b with e | ge₁ <;> rw [hb] at h
    · exact Except.error.inj h ▸ pushBlock_error hb
    · exact push_error h

end Faults

end GapEnumeration

end StopGap
