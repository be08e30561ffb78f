import StopGap.Files
import Mathlib.Data.List.Perm.Basic

/-!
# The start-cluster index

`lcns_` is built when `findAt` first needs it and kept by `pop` and `push` from then on. That it is
empty stands for "not built"; when the last file is popped it falls back to that.
-/

namespace StopGap

theorem order_blockmap_perm (d : Disposition) : (order d).blockmap.Perm d.blockmap :=
  List.rotate_perm _ _

@[simp] theorem order_clusters (d : Disposition) : (order d).clusters = d.clusters := rfl

@[simp] theorem order_fragments (d : Disposition) : (order d).fragments = d.fragments := rfl

namespace FileEnumeration

/-- The starts of the blocks of all files in `buckets_`, each with its file. -/
def allStarts (fe : FileEnumeration) : List (ℕ × FileId) :=
  fe.buckets.flatMap fun e => fe.starts e.2

variable {fe : FileEnumeration} {f : FileId} {x : ℕ × FileId}

theorem mem_starts : x ∈ fe.starts f ↔ x.2 = f ∧ ∃ b ∈ (fe.disp f).blockmap, b.lcn = x.1 := by
  rcases x with ⟨l, g⟩
  simp only [starts, List.mem_map, Prod.mk.injEq]
  constructor
  · rintro ⟨b, hb, hl, hf⟩
    exact ⟨hf.symm, b, hb, hl⟩
  · rintro ⟨hf, b, hb, hl⟩
    exact ⟨b, hb, hl, hf.symm⟩

theorem mem_allStarts : x ∈ fe.allStarts ↔ (∃ e ∈ fe.buckets, e.2 = x.2) ∧ x ∈ fe.starts x.2 := by
  simp only [allStarts, List.mem_flatMap]
  constructor
  · rintro ⟨e, he, hx⟩
    obtain ⟨hf, -⟩ := mem_starts.1 hx
    exact ⟨⟨e, he, hf.symm⟩, hf ▸ hx⟩
  · rintro ⟨⟨e, he, hf⟩, hx⟩
    exact ⟨e, he, hf ▸ hx⟩

theorem starts_push_perm (fe : FileEnumeration) (f g : FileId) :
    ((fe.push f).starts g).Perm (fe.starts g) := by
  unfold starts push
  by_cases hg : g = f
  · subst hg
    simp only [Function.update_self]
    exact (order_blockmap_perm _).map _
  · simp only [Function.update_of_ne hg]
    exact List.Perm.refl _

theorem allStarts_push_perm (fe : FileEnumeration) (f : FileId) :
    (fe.push f).allStarts.Perm (fe.starts f ++ fe.allStarts) := by
  have hb : (fe.push f).buckets.Perm (((fe.disp f).clusters, f) :: fe.buckets) :=
    OrdMap.insertMulti_perm _ _
  refine (hb.flatMap_right _).trans ?_
  rw [List.flatMap_cons]
  refine (starts_push_perm fe f f).append (List.Perm.flatMap_left _ fun e _ => ?_)
  exact starts_push_perm fe f e.2

theorem allStarts_pop_perm (h : fe.Present f) :
    (fe.starts f ++ (fe.pop f).allStarts).Perm fe.allStarts := by
  have hb : (((fe.disp f).clusters, f) :: (fe.pop f).buckets).Perm fe.buckets :=
    (List.perm_cons_erase h).symm
  exact hb.flatMap_right fun e => fe.starts e.2

/-- No two blocks of files in `buckets_` start at one cluster, and each such file has a block. -/
structure Clean (fe : FileEnumeration) : Prop where
  nodup : (fe.allStarts.map Prod.fst).Nodup
  nonempty : ∀ e ∈ fe.buckets, (fe.disp e.2).blockmap ≠ []

/-- `lcns_` is the map from the start of every block of every file in `buckets_` to that file. -/
structure Exact (fe : FileEnumeration) : Prop where
  strict : OrdMap.Strict fe.lcns
  mem : ∀ x, x ∈ fe.lcns ↔ x ∈ fe.allStarts

/-- What a run of `findAt`, `pop` and `push` leads to, with any change to the map of a file while it
is not in `buckets_`. -/
inductive Reach : FileEnumeration → Prop
  | start {fe : FileEnumeration} : fe.lcns = [] → Clean fe → Reach fe
  | findAt {fe : FileEnumeration} (lcn : ℕ) : Reach fe → Reach (fe.findAt lcn).1
  | pop {fe : FileEnumeration} {f : FileId} : Reach fe → fe.Present f → Reach (fe.pop f)
  | change {fe : FileEnumeration} {f : FileId} (d : Disposition) : Reach fe →
      (∀ e ∈ fe.buckets, e.2 ≠ f) → Reach { fe with disp := Function.update fe.disp f d }
  | push {fe : FileEnumeration} {f : FileId} : Reach fe → Clean (fe.push f) → Reach (fe.push f)

theorem findAt_exact (hc : Clean fe) (h : fe.lcns = [] ∨ Exact fe) (lcn : ℕ) :
    Exact (fe.findAt lcn).1 := by
  by_cases hl : fe.lcns = []
  · simp only [FileEnumeration.findAt, hl, if_true]
    refine ⟨OrdMap.Strict.foldl_insert List.Pairwise.nil _, fun x => ?_⟩
    exact (OrdMap.mem_foldl_insert (m := []) hc.nodup).trans (by simp [allStarts, starts])
  · simp only [FileEnumeration.findAt, hl, if_false]
    exact h.resolve_left hl

/-- An index that is not built has nothing to erase. -/
theorem pop_lcns (fe : FileEnumeration) (f : FileId) : (fe.pop f).lcns
    = ((fe.disp f).blockmap.map Block.lcn).foldl (fun m k => OrdMap.erase k m) fe.lcns := by
  rw [List.foldl_map]
  unfold FileEnumeration.pop
  split_ifs with hl
  · rw [hl]
    exact (List.foldl_fixed' (fun _ => rfl) _).symm
  · rfl

/-- What is erased from the index has to be what is no longer in stock. -/
theorem pop_exact_of (hstarts : ∀ x, x ∈ (fe.pop f).allStarts ↔
      x ∈ fe.allStarts ∧ x.1 ∉ (fe.disp f).blockmap.map Block.lcn)
    (h : fe.lcns = [] ∨ Exact fe) : (fe.pop f).lcns = [] ∨ Exact (fe.pop f) := by
  by_cases hl : fe.lcns = []
  · exact Or.inl (by simp [FileEnumeration.pop, hl])
  have hE := h.resolve_left hl
  have hlcns := pop_lcns fe f
  refine Or.inr ⟨hlcns ▸ hE.strict.foldl_erase _, fun x => ?_⟩
  rw [hlcns, OrdMap.mem_foldl_erase hE.strict, hE.mem, hstarts]

theorem pop_exact (hc : Clean fe) (hf : fe.Present f) (h : fe.lcns = [] ∨ Exact fe) :
    (fe.pop f).lcns = [] ∨ Exact (fe.pop f) := by
  have hp := allStarts_pop_perm hf
  have hnd := ((hp.map Prod.fst).nodup_iff).2 hc.nodup
  rw [List.map_append, List.nodup_append] at hnd
  have hkeys : (fe.starts f).map Prod.fst = (fe.disp f).blockmap.map Block.lcn := by
    simp [starts, Function.comp_def]
  refine pop_exact_of (fun x => ?_) h
  rw [← hp.mem_iff, ← hkeys, List.mem_append]
  constructor
  · exact fun hx => ⟨Or.inr hx, fun hk => hnd.2.2 x.1 hk x.1 (List.mem_map.2 ⟨x, hx, rfl⟩) rfl⟩
  · rintro ⟨hx | hx, hne⟩
    · exact absurd (List.mem_map.2 ⟨x, hx, rfl⟩) hne
    · exact hx

theorem push_exact (hc : Clean (fe.push f)) (h : fe.lcns = [] ∨ Exact fe) :
    (fe.push f).lcns = [] ∨ Exact (fe.push f) := by
  by_cases hl : fe.lcns = []
  · exact Or.inl (by simp [FileEnumeration.push, hl])
  have hE := h.resolve_left hl
  have hp := allStarts_push_perm fe f
  have hlcns : (fe.push f).lcns = (fe.starts f).foldl (fun m e => OrdMap.insert e m) fe.lcns := by
    simp only [FileEnumeration.push, hl, if_false]
  have hnd : (fe.lcns.map Prod.fst ++ (fe.starts f).map Prod.fst).Nodup := by
    have h1 := ((hp.map Prod.fst).nodup_iff).1 hc.nodup
    rw [List.map_append, List.nodup_append] at h1
    refine List.nodup_append.2 ⟨?_, h1.1, fun a ha b hb hab => ?_⟩
    · exact List.pairwise_map.2 (hE.strict.imp fun {_ _} hab => hab.ne)
    · obtain ⟨x, hx, rfl⟩ := List.mem_map.1 ha
      exact h1.2.2 b hb x.1 (List.mem_map.2 ⟨x, (hE.mem x).1 hx, rfl⟩) hab.symm
  refine Or.inr ⟨hlcns ▸ hE.strict.foldl_insert _, fun x => ?_⟩
  rw [hlcns, OrdMap.mem_foldl_insert hnd, hE.mem, hp.mem_iff, List.mem_append]
  exact or_comm

theorem starts_change (d : Disposition) {g : FileId} (hg : g ≠ f) :
    ({ fe with disp := Function.update fe.disp f d } : FileEnumeration).starts g = fe.starts g := by
  simp only [starts, Function.update_of_ne hg]

theorem allStarts_change (d : Disposition) (hf : ∀ e ∈ fe.buckets, e.2 ≠ f) :
    ({ fe with disp := Function.update fe.disp f d } : FileEnumeration).allStarts
      = fe.allStarts :=
  List.flatMap_congr fun e he => starts_change d (hf e he)

theorem change_exact (d : Disposition) (hf : ∀ e ∈ fe.buckets, e.2 ≠ f)
    (h : fe.lcns = [] ∨ Exact fe) :
    fe.lcns = [] ∨ Exact { fe with disp := Function.update fe.disp f d } := by
  refine h.imp id fun hE => ⟨hE.strict, fun x => ?_⟩
  rw [allStarts_change d hf]
  exact hE.mem x

theorem Reach.clean (h : Reach fe) : Clean fe := by
  induction h with
  | start _ hc => exact hc
  | findAt lcn _ ih =>
    unfold FileEnumeration.findAt
    split_ifs
    · exact ⟨ih.nodup, ih.nonempty⟩
    · exact ih
  | @pop fe f _ hf ih =>
    refine ⟨?_, fun e he => ih.nonempty e (List.mem_of_mem_erase he)⟩
    have := (((allStarts_pop_perm hf).map Prod.fst).nodup_iff).2 ih.nodup
    rw [List.map_append, List.nodup_append] at this
    exact this.2.1
  | change d _ hf ih =>
    refine ⟨allStarts_change d hf ▸ ih.nodup, fun e he => ?_⟩
    simp only [Function.update_of_ne (hf e he)]
    exact ih.nonempty e he
  | push _ hc _ => exact hc

theorem Reach.exact (h : Reach fe) : fe.lcns = [] ∨ Exact fe := by
  induction h with
  | start hl _ => exact Or.inl hl
  | findAt lcn hr ih => exact Or.inr (findAt_exact hr.clean ih lcn)
  | pop hr hf ih => exact pop_exact hr.clean hf ih
  | change d _ hf ih => exact change_exact d hf ih
  | push _ hc ih => exact push_exact hc ih

theorem mem_allStarts_iff {lcn : ℕ} : (lcn, f) ∈ fe.allStarts ↔
    (∃ e ∈ fe.buckets, e.2 = f) ∧ ∃ b ∈ (fe.disp f).blockmap, b.lcn = lcn := by
  simp [mem_allStarts, mem_starts]

/-- An index that is not built or exact leads to the file whose block starts there. -/
theorem findAt_iff (hc : Clean fe) (h : fe.lcns = [] ∨ Exact fe) {lcn : ℕ} :
    (fe.findAt lcn).2 = some f ↔
      (∃ e ∈ fe.buckets, e.2 = f) ∧ ∃ b ∈ (fe.disp f).blockmap, b.lcn = lcn := by
  have hE := findAt_exact hc h lcn
  have hsame : (fe.findAt lcn).1.allStarts = fe.allStarts := by
    unfold FileEnumeration.findAt
    split_ifs <;> rfl
  have hfind : (fe.findAt lcn).2 = (OrdMap.find lcn (fe.findAt lcn).1.lcns).map Prod.snd := rfl
  rw [← mem_allStarts_iff, ← hsame, ← hE.mem, hfind]
  constructor
  · intro hs
    obtain ⟨⟨k, g⟩, hg, rfl⟩ := Option.map_eq_some_iff.1 hs
    obtain ⟨hin, rfl⟩ := OrdMap.find_some hg
    exact hin
  · intro hin
    rw [hE.strict.find_eq hin]
    rfl

/-- The index is not built or exact, so `findAt` answers with the file whose block starts there. -/
theorem findAt_never_stale (h : Reach fe) :
    (fe.lcns = [] ∨ OrdMap.Strict fe.lcns ∧ ∀ lcn f, (lcn, f) ∈ fe.lcns ↔
        (∃ e ∈ fe.buckets, e.2 = f) ∧ ∃ b ∈ (fe.disp f).blockmap, b.lcn = lcn)
      ∧ ∀ lcn f, (fe.findAt lcn).2 = some f ↔
        (∃ e ∈ fe.buckets, e.2 = f) ∧ ∃ b ∈ (fe.disp f).blockmap, b.lcn = lcn := by
  refine ⟨h.exact.imp id fun hE => ⟨hE.strict, fun lcn f => ?_⟩, fun lcn f => ?_⟩
  · rw [hE.mem, mem_allStarts_iff]
  · exact findAt_iff h.clean h.exact

def twoFiles : FileEnumeration where
  disp := fun f => if f = 0 then ⟨2, 1, [⟨0, 5, 2⟩]⟩ else ⟨1, 1, [⟨0, 7, 1⟩]⟩
  buckets := [(1, 1), (2, 0)]
  lcns := []
  unmovable := []
  fragmented := 0
  unprocessable := 0

theorem findAt_never_stale_moved :
    let fe := (twoFiles.findAt 7).1.pop 0
    let fe' : FileEnumeration :=
      { fe with disp := Function.update fe.disp 0 ⟨2, 1, [⟨0, 9, 2⟩]⟩ }
    ((fe'.push 0).findAt 9).2 = some 0 ∧ ((fe'.push 0).findAt 5).2 ≠ some 0 := by
  have hstart : Reach twoFiles := .start rfl ⟨by decide, by decide⟩
  have hpop := Reach.pop (Reach.findAt 7 hstart) (f := 0) (by decide)
  have hpush := Reach.push (Reach.change ⟨2, 1, [⟨0, 9, 2⟩]⟩ hpop (f := 0) (by decide)) (f := 0)
    ⟨by decide, by decide⟩
  refine ⟨((findAt_never_stale hpush).2 9 0).2 (by decide), fun h => ?_⟩
  exact absurd (((findAt_never_stale hpush).2 5 0).1 h) (by decide)

end FileEnumeration

end StopGap
