import StopGap.LinkedList

/-!
# The lists in memory are the lists of the models

Each function on the pointers does to a ring what the models do to the list of its entries, and
leaves all other memory alone. So a list that is worked on by these functions is never read after
it is freed and never lost (`run_refines_lists`). The loops that remove streams take the next entry
before they free the one at hand and know the end by the head as it was; they leave the entries that
are to stay, in their order (`remove_streams_refines`).
-/

namespace StopGap

namespace LinkedList

open Ring

variable {α : Type} [DecidableEq α] {m : Heap α} {l as bs : List α} {a p new : α}

/-- An entry in front of the head becomes the head; it stands behind the last entry, which the head
points back to. -/
theorem winxListInsert_head (h : IsRing m l) (hnew : new ∉ l) :
    ∃ m', winxListInsert m l.head? none new = some (m', some new) ∧ IsRing m' (new :: l)
      ∧ ∀ b ∉ new :: l, m' b = m b := by
  rcases List.eq_nil_or_concat' l with rfl | ⟨as, p, rfl⟩
  · refine ⟨_, rfl, isRing_singleton m new, fun b hb => ?_⟩
    rw [Function.update_of_ne fun h0 => hb (by simp [h0])]
  · obtain ⟨x, hx⟩ : ∃ x, (as ++ [p]).head? = some x := by
      rcases as with _ | ⟨x, as⟩
      · exact ⟨p, rfl⟩
      · exact ⟨x, rfl⟩
    have hprev : (as ++ [p]).formPerm.symm x = p := by
      have hhead := head?_behind h.nodup
      rw [List.nil_append, hx] at hhead
      rw [Option.some.inj hhead, Equiv.symm_apply_apply]
    obtain ⟨m', hrun, hring, hframe⟩ := h.insertAfter hnew
    refine ⟨m', ?_, ?_, fun b hb => hframe b fun hb' => hb ?_⟩
    · simp only [hx, winxListInsert, h.links x (List.mem_of_head? hx), hprev, hrun,
        Option.bind_eq_bind, Option.bind_some, Option.pure_def]
    · have hrot := hring.rotate (as ++ [p]).length
      rwa [show as ++ [p, new] = as ++ [p] ++ [new] by simp, List.rotate_append_length_eq] at hrot
    · simp only [List.mem_append, List.mem_cons] at hb' ⊢
      tauto

theorem winxListInsert_after (h : IsRing m (as ++ p :: bs)) (hnew : new ∉ as ++ p :: bs) :
    ∃ m', winxListInsert m (as ++ p :: bs).head? (some p) new
        = some (m', (as ++ p :: new :: bs).head?)
      ∧ IsRing m' (as ++ p :: new :: bs) ∧ ∀ b ∉ as ++ p :: new :: bs, m' b = m b := by
  obtain ⟨m', hrun, hring, hframe⟩ := h.insertAfter hnew
  refine ⟨m', ?_, hring, hframe⟩
  rcases as with _ | ⟨x, as⟩ <;>
    simp only [List.nil_append, List.cons_append, List.head?_cons, winxListInsert, hrun,
      Option.bind_eq_bind, Option.bind_some, Option.pure_def]

theorem free_eq (h : (m a).isSome) : free m a = some (Function.update m a none) := by
  obtain ⟨x, hx⟩ := Option.isSome_iff_exists.1 h
  rw [free, hx, Option.map_some]

theorem winxListRemove_ring (h : IsRing m (as ++ a :: bs)) :
    ∃ m', winxListRemove m (as ++ a :: bs).head? a = some (m', (as ++ bs).head?)
      ∧ IsRing m' (as ++ bs) ∧ m' a = none ∧ ∀ b ∉ as ++ a :: bs, m' b = m b := by
  obtain ⟨x, hx, hnext⟩ := h.next_eq
  have hnot : a ∉ as ++ bs := by
    have hperm : (as ++ a :: bs).Perm (a :: (as ++ bs)) := List.perm_middle
    exact (List.nodup_cons.1 (hperm.nodup_iff.1 h.nodup)).1
  by_cases hne : as ++ bs = []
  · -- the only entry
    obtain ⟨rfl, rfl⟩ := List.append_eq_nil_iff.1 hne
    have hself : a = x.next := Option.some.inj hnext
    refine ⟨Function.update m a none, ?_, isRing_nil _, Function.update_self .., fun b hb => ?_⟩
    · simp only [List.nil_append, List.head?_cons, winxListRemove, hx, ← hself, and_self, if_true,
        Option.bind_eq_bind, Option.bind_some, free, Option.map_some, Option.pure_def,
        List.head?_nil]
    · exact Function.update_of_ne (fun h0 => hb (by simp [h0])) _ _
  obtain ⟨m₁, hrun, hring, hframe⟩ := h.unlink hne
  have hm₁ : (m₁ a).isSome := by
    rw [hframe a hnot, hx]
    rfl
  refine ⟨Function.update m₁ a none, ?_, hring.congr fun b hb => ?_, Function.update_self ..,
    fun b hb => ?_⟩
  · rcases as with _ | ⟨y, as⟩
    · -- the head
      rcases bs with _ | ⟨z, bs⟩
      · exact absurd rfl hne
      have hz : z = x.next := Option.some.inj hnext
      have hza : z ≠ a := by
        rintro rfl
        simp at hnot
      simp only [List.nil_append, List.head?_cons, winxListRemove, hx, ← hz, hza, and_false,
        if_false, if_true, Option.map_some, Option.bind_eq_bind, Option.bind_some, hrun,
        free_eq hm₁, Option.pure_def]
    · have hya : a ≠ y := by
        rintro rfl
        simp at hnot
      simp only [List.cons_append, List.head?_cons, winxListRemove, hx, hya, false_and, if_false,
        Option.bind_eq_bind, Option.bind_some, hrun, free_eq hm₁, Option.pure_def]
  · have hba : b ≠ a := fun h0 => hnot (h0 ▸ hb)
    exact Function.update_of_ne hba _ _
  · rw [Function.update_of_ne fun h0 => hb (by simp [h0])]
    refine hframe b fun hb' => hb ?_
    simp only [List.mem_append, List.mem_cons] at hb' ⊢
    tauto

/-- The entry behind is the next of the list, or the head from the last one. -/
theorem next_cases {x : Links α} (h : IsRing m (as ++ a :: bs)) (hx : m a = some x) :
    (bs = [] ∧ some x.next = (as ++ a :: bs).head?)
      ∨ ∃ cs, bs = x.next :: cs ∧ some x.next ≠ (as ++ a :: bs).head? := by
  obtain ⟨y, hy, hnext⟩ := h.next_eq
  obtain rfl : x = y := Option.some.inj (hx.symm.trans hy)
  rcases bs with _ | ⟨c, cs⟩
  · exact .inl ⟨rfl, hnext.symm⟩
  · obtain rfl : c = x.next := Option.some.inj hnext
    refine .inr ⟨cs, rfl, fun hhead => ?_⟩
    have hnd := h.nodup
    rcases as with _ | ⟨b, as⟩
    · have : x.next = a := Option.some.inj hhead
      simp [this] at hnd
    · have : x.next = b := Option.some.inj hhead
      simp [this] at hnd

/-! ### The loops -/

section Loops

variable {head : α}

/-- An iterator comes to each entry once, in order. -/
theorem iterate_eq : ∀ {bs as : List α} {p : α} {fuel : ℕ}, IsRing m (as ++ p :: bs) →
    (as ++ p :: bs).head? = some head → bs.length < fuel →
    iterate head fuel m p = some (p :: bs)
  | _, _, _, 0, _, _, hfuel => absurd hfuel (Nat.not_lt_zero _)
  | bs, as, p, fuel + 1, h, hhead, hfuel => by
    obtain ⟨x, hx, -⟩ := h.next_eq
    simp only [iterate, hx, Option.bind_eq_bind, Option.bind_some]
    rcases next_cases h hx with ⟨rfl, hnext⟩ | ⟨cs, rfl, hnext⟩
    · rw [hhead] at hnext
      rw [if_pos (Option.some.inj hnext)]
      rfl
    · rw [hhead] at hnext
      have h' : IsRing m (as ++ [p] ++ x.next :: cs) := by simpa using h
      rw [if_neg fun h0 => hnext (congrArg some h0), iterate_eq h' (by simpa using hhead)
        (by simpa using hfuel)]
      rfl

theorem entries_eq {fuel : ℕ} (h : IsRing m l) (hfuel : l.length ≤ fuel) :
    entries fuel m l.head? = some l := by
  rcases l with _ | ⟨a, l⟩
  · rfl
  · exact @iterate_eq α _ m a l [] a fuel h rfl hfuel

/-- The pointer to the next entry is read before an entry is freed. -/
theorem destroyLoop_frees {m₀ : Heap α} : ∀ {bs as : List α} {p : α} {fuel : ℕ} {m : Heap α},
    IsRing m₀ (as ++ p :: bs) → (∀ b ∈ p :: bs, m b = m₀ b) →
    (as ++ p :: bs).head? = some head → bs.length < fuel →
    ∃ m', destroyLoop head fuel m p = some m' ∧ (∀ b ∈ p :: bs, m' b = none)
      ∧ ∀ b ∉ p :: bs, m' b = m b
  | _, _, _, 0, _, _, _, _, hfuel => absurd hfuel (Nat.not_lt_zero _)
  | bs, as, p, fuel + 1, m, h, hsame, hhead, hfuel => by
    obtain ⟨x, hx, -⟩ := h.next_eq
    have hp : m p = some x := by rw [hsame p List.mem_cons_self, hx]
    simp only [destroyLoop, hp, Option.bind_eq_bind, Option.bind_some, free, Option.map_some]
    rcases next_cases h hx with ⟨rfl, hnext⟩ | ⟨cs, rfl, hnext⟩
    · rw [hhead] at hnext
      rw [if_pos (Option.some.inj hnext)]
      refine ⟨_, rfl, fun b hb => ?_, fun b hb => ?_⟩
      · rw [List.mem_singleton.1 hb, Function.update_self]
      · exact Function.update_of_ne (fun h0 => hb (by simp [h0])) _ _
    · rw [hhead] at hnext
      have h' : IsRing m₀ (as ++ [p] ++ x.next :: cs) := by simpa using h
      have hnot : p ∉ x.next :: cs := by
        have := (List.nodup_append.1 h.nodup).2.1
        exact (List.nodup_cons.1 this).1
      have hsame' : ∀ b ∈ x.next :: cs, Function.update m p none b = m₀ b := by
        intro b hb
        have hbp : b ≠ p := fun h0 => hnot (h0 ▸ hb)
        rw [Function.update_of_ne hbp, hsame b (List.mem_cons_of_mem _ hb)]
      obtain ⟨m', hrun, hfreed, hframe⟩ := @destroyLoop_frees m₀ cs (as ++ [p]) x.next fuel
        (Function.update m p none) h' hsame' (by simpa using hhead) (by simpa using hfuel)
      rw [if_neg fun h0 => hnext (congrArg some h0)]
      refine ⟨m', hrun, List.forall_mem_cons.2 ⟨?_, hfreed⟩, fun b hb => ?_⟩
      · rw [hframe p hnot, Function.update_self]
      · rw [hframe b fun hb' => hb (List.mem_cons_of_mem _ hb')]
        exact Function.update_of_ne (fun h0 => hb (by simp [h0])) _ _

theorem winxListDestroy_frees {fuel : ℕ} (h : IsRing m l) (hfuel : l.length ≤ fuel) :
    ∃ m', winxListDestroy fuel m l.head? = some (m', none) ∧ (∀ b ∈ l, m' b = none)
      ∧ ∀ b ∉ l, m' b = m b := by
  rcases l with _ | ⟨a, l⟩
  · exact ⟨m, rfl, by simp, fun _ _ => rfl⟩
  · obtain ⟨m', hrun, hfreed, hframe⟩ := @destroyLoop_frees α _ a m l [] a fuel m h
      (fun _ _ => rfl) rfl hfuel
    exact ⟨m', by simp [winxListDestroy, hrun], hfreed, hframe⟩

/-- The loop is at `f`, the entries in front of it stay. -/
theorem removeLoop_filters {drop : α → Bool} :
    ∀ {rest kept : List α} {f : α} {fuel : ℕ} {m : Heap α}, IsRing m (kept ++ f :: rest) →
      rest.length < fuel →
      ∃ m', removeLoop drop fuel m (kept ++ f :: rest).head? f
          = some (m', (kept ++ (f :: rest).filter fun b => !drop b).head?)
        ∧ IsRing m' (kept ++ (f :: rest).filter fun b => !drop b)
        ∧ (∀ b ∈ f :: rest, drop b = true → m' b = none)
        ∧ ∀ b ∉ kept ++ f :: rest, m' b = m b
  | _, _, _, 0, _, _, hfuel => absurd hfuel (Nat.not_lt_zero _)
  | rest, kept, f, fuel + 1, m, h, hfuel => by
    obtain ⟨x, hx, -⟩ := h.next_eq
    rcases hd : drop f with _ | _
    · -- it stays
      rw [List.filter_cons_of_pos (by simp [hd])]
      simp only [removeLoop, hx, hd, Option.bind_eq_bind, Option.bind_some, Bool.false_eq_true,
        if_false]
      rcases next_cases h hx with ⟨rfl, hnext⟩ | ⟨cs, rfl, hnext⟩
      · rw [if_pos (.inr hnext)]
        exact ⟨m, rfl, h, by simp [hd], fun _ _ => rfl⟩
      · have h' : IsRing m (kept ++ [f] ++ x.next :: cs) := by simpa using h
        obtain ⟨m', hrun, hring, hfreed, hframe⟩ :=
          @removeLoop_filters drop cs (kept ++ [f]) x.next fuel m h' (by simpa using hfuel)
        rw [if_neg (not_or.2 ⟨by simp, hnext⟩)]
        simp only [List.append_assoc, List.singleton_append] at hrun hring hframe
        exact ⟨m', hrun, hring, List.forall_mem_cons.2 ⟨by simp [hd], hfreed⟩, hframe⟩
    · rw [List.filter_cons_of_neg (by simp [hd])]
      obtain ⟨m₁, hremove, hring₁, hnone, hframe₁⟩ := winxListRemove_ring h
      simp only [removeLoop, hx, hd, hremove, Option.bind_eq_bind, Option.bind_some, if_true]
      rcases next_cases h hx with ⟨rfl, hnext⟩ | ⟨cs, rfl, hnext⟩
      · rw [if_pos (.inr hnext)]
        exact ⟨m₁, rfl, hring₁, by simp [hnone], hframe₁⟩
      · obtain ⟨m', hrun, hring, hfreed, hframe⟩ :=
          @removeLoop_filters drop cs kept x.next fuel m₁ hring₁ (by simpa using hfuel)
        have hnot : f ∉ kept ++ x.next :: cs := by
          have hperm : (kept ++ f :: x.next :: cs).Perm (f :: (kept ++ x.next :: cs)) :=
            List.perm_middle
          exact (List.nodup_cons.1 (hperm.nodup_iff.1 h.nodup)).1
        rw [if_neg (not_or.2 ⟨by simp, hnext⟩)]
        refine ⟨m', hrun, hring, List.forall_mem_cons.2 ⟨fun _ => ?_, hfreed⟩, fun b hb => ?_⟩
        · rw [hframe f hnot, hnone]
        · rw [hframe b fun hb' => hb ?_, hframe₁ b hb]
          simp only [List.mem_append, List.mem_cons] at hb' ⊢
          tauto

theorem removeStreams_ring {drop : α → Bool} {fuel : ℕ} (h : IsRing m l) (hfuel : l.length ≤ fuel) :
    ∃ m', removeStreams drop fuel m l.head? = some (m', (l.filter fun b => !drop b).head?)
      ∧ IsRing m' (l.filter fun b => !drop b) ∧ (∀ b ∈ l, drop b = true → m' b = none)
      ∧ ∀ b ∉ l, m' b = m b := by
  rcases l with _ | ⟨f, rest⟩
  · exact ⟨m, rfl, h, by simp, fun _ _ => rfl⟩
  · exact @removeLoop_filters α _ drop rest [] f fuel m h hfuel

end Loops

/-- What `winx_scan_disk` does to the file list at its end: the entries of the files that are handed
over stay linked in their order, all others are freed, and nothing else is touched. -/
theorem remove_streams_refines {info : α → Mft.FileInfo} {fuel : ℕ} (h : IsRing m l)
    (hfuel : l.length ≤ fuel) :
    ∃ m' l', ((ftwRemoveResidentStreams info fuel m l.head?).bind fun s =>
          ftwRemoveInvalidStreams info fuel s.1 s.2) = some (m', l'.head?)
      ∧ IsRing m' l'
      ∧ l' = (l.filter fun a => (info a).disp.fragments ≠ 0 ∧ (info a).path.getD [] ≠ [])
      ∧ l'.map info = Mft.ftwRemoveInvalidStreams (Mft.ftwRemoveResidentStreams (l.map info))
      ∧ (∀ b ∈ l, b ∉ l' → m' b = none) ∧ ∀ b ∉ l, m' b = m b := by
  obtain ⟨m₁, hrun₁, hring₁, hfreed₁, hframe₁⟩ :=
    @removeStreams_ring α _ m l (fun a => (info a).disp.fragments = 0) fuel h hfuel
  have hfuel₁ := (List.length_filter_le (fun b => !decide ((info b).disp.fragments = 0)) l).trans
    hfuel
  obtain ⟨m₂, hrun₂, hring₂, hfreed₂, hframe₂⟩ :=
    @removeStreams_ring α _ m₁ _ (fun a => (info a).path.getD [] = []) fuel hring₁ hfuel₁
  refine ⟨m₂, _, ?_, hring₂, ?_, ?_, fun b hb hnot => ?_, fun b hb => ?_⟩
  · rw [ftwRemoveResidentStreams, hrun₁, Option.bind_some]
    exact hrun₂
  · rw [List.filter_filter]
    refine List.filter_congr fun a _ => ?_
    simp only [ne_eq, Bool.decide_and, decide_not, Bool.and_comm]
  · rw [Mft.ftwRemoveInvalidStreams, Mft.ftwRemoveResidentStreams, List.filter_map,
      List.filter_map]
    simp only [Function.comp_def, decide_not]
  · by_cases hfirst : (info b).disp.fragments = 0
    · have hgone : b ∉ l.filter fun b => !decide ((info b).disp.fragments = 0) := by
        simp [hfirst]
      rw [hframe₂ b hgone, hfreed₁ b hb (by simp [hfirst])]
    · have hleft : b ∈ l.filter fun b => !decide ((info b).disp.fragments = 0) := by
        simp [hb, hfirst]
      refine hfreed₂ b hleft ?_
      by_contra hno
      exact hnot (List.mem_filter.2 ⟨hleft, by simpa using hno⟩)
  · rw [hframe₂ b fun hb' => hb (List.mem_of_mem_filter hb'), hframe₁ b hb]

/-- A resident stream, a file and one without a path. -/
def threeFiles (a : ℕ) : Mft.FileInfo :=
  ⟨[], if a = 2 then none else some [1], 0, a, 0, if a = 0 then .zero else ⟨1, 1, [⟨0, a, 1⟩]⟩⟩

def threeLinks : Heap ℕ
  | 0 => some ⟨2, 1⟩
  | 1 => some ⟨0, 2⟩
  | 2 => some ⟨1, 0⟩
  | _ => none

theorem remove_streams_refines_three :
    ∃ m' l', ((ftwRemoveResidentStreams threeFiles 3 threeLinks (some 0)).bind fun s =>
          ftwRemoveInvalidStreams threeFiles 3 s.1 s.2) = some (m', l'.head?)
      ∧ IsRing m' l'
      ∧ l' = ([0, 1, 2].filter fun a =>
        (threeFiles a).disp.fragments ≠ 0 ∧ (threeFiles a).path.getD [] ≠ [])
      ∧ l'.map threeFiles = Mft.ftwRemoveInvalidStreams
        (Mft.ftwRemoveResidentStreams ([0, 1, 2].map threeFiles))
      ∧ (∀ b ∈ [0, 1, 2], b ∉ l' → m' b = none) ∧ ∀ b ∉ [0, 1, 2], m' b = threeLinks b :=
  @remove_streams_refines ℕ _ threeLinks [0, 1, 2] threeFiles 3
    ⟨by decide, by decide⟩ (by decide)

/-! ### Whole runs -/

/-- What is done to a list: an entry is put in front of the head or behind another, or removed, the
head is moved to an entry (`FileEnumeration::order`), the list is destroyed. -/
inductive Op (α : Type) where
  | push (new : α)
  | insert (prev new : α)
  | remove (a : α)
  | turn (a : α)
  | clear
deriving DecidableEq, Repr

namespace Op

/-- On the pointers. -/
def exec (fuel : ℕ) (s : Heap α × Option α) : Op α → Option (Heap α × Option α)
  | push new => winxListInsert s.1 s.2 none new
  | insert prev new => winxListInsert s.1 s.2 (some prev) new
  | remove a => winxListRemove s.1 s.2 a
  | turn a => some (s.1, some a)
  | clear => winxListDestroy fuel s.1 s.2

def putBehind (prev new : α) : List α → List α
  | [] => []
  | a :: l => if a = prev then a :: new :: l else a :: putBehind prev new l

/-- On the list of entries. -/
def apply (l : List α) : Op α → List α
  | push new => new :: l
  | insert prev new => putBehind prev new l
  | remove a => l.erase a
  | turn a => l.rotate (l.idxOf a)
  | clear => []

/-- New entries are free memory, others are on the list. -/
def Allowed (other : Heap α) (l : List α) : Op α → Prop
  | push new => new ∉ l ∧ other new = none
  | insert prev new => prev ∈ l ∧ new ∉ l ∧ other new = none
  | remove a => a ∈ l
  | turn a => a ∈ l
  | clear => True

def AllowedRun (other : Heap α) : List (Op α) → List α → Prop
  | [], _ => True
  | op :: ops, l => op.Allowed other l ∧ AllowedRun other ops (op.apply l)

def run (fuel : ℕ) : List (Op α) → Heap α × Option α → Option (Heap α × Option α)
  | [], s => some s
  | op :: ops, s => (op.exec fuel s).bind (run fuel ops)

end Op

/-- The memory is `other` but for the ring. -/
structure Holds (other m : Heap α) (l : List α) : Prop where
  ring : IsRing m l
  apart : ∀ b ∈ l, other b = none
  outside : ∀ b ∉ l, m b = other b

theorem putBehind_eq {prev : α} : ∀ {l : List α}, prev ∈ l →
    ∃ as bs, l = as ++ prev :: bs ∧ Op.putBehind prev new l = as ++ prev :: new :: bs
  | a :: l, h => by
    by_cases ha : a = prev
    · exact ⟨[], l, by simp [ha], by simp [Op.putBehind, ha]⟩
    · obtain ⟨as, bs, rfl, heq⟩ := putBehind_eq (List.mem_of_ne_of_mem (Ne.symm ha) h)
      exact ⟨a :: as, bs, rfl, by simp [Op.putBehind, ha, heq]⟩

omit [DecidableEq α] in
theorem notMem_of_nodup_append (h : (as ++ a :: bs).Nodup) : a ∉ as :=
  fun ha => (List.nodup_append.1 h).2.2 a ha a List.mem_cons_self rfl

/-- One operation on the pointers is the same one on the list. -/
theorem Op.exec_refines {other : Heap α} {fuel : ℕ} {op : Op α} (h : Holds other m l)
    (hop : op.Allowed other l) (hfuel : l.length ≤ fuel) :
    ∃ m', op.exec fuel (m, l.head?) = some (m', (op.apply l).head?)
      ∧ Holds other m' (op.apply l) := by
  cases op with
  | push new =>
    obtain ⟨hnew, hfree⟩ := hop
    obtain ⟨m', hrun, hring, hframe⟩ := winxListInsert_head h.ring hnew
    refine ⟨m', hrun, hring, List.forall_mem_cons.2 ⟨hfree, h.apart⟩, fun b hb => ?_⟩
    rw [hframe b hb, h.outside b fun hb' => hb (List.mem_cons_of_mem _ hb')]
  | insert prev new =>
    obtain ⟨hprev, hnew, hfree⟩ := hop
    obtain ⟨as, bs, rfl, heq⟩ := @putBehind_eq α _ new prev l hprev
    obtain ⟨m', hrun, hring, hframe⟩ := winxListInsert_after h.ring hnew
    rw [Op.apply, heq]
    refine ⟨m', hrun, hring, fun b hb => ?_, fun b hb => ?_⟩
    · by_cases hbn : b = new
      · rw [hbn, hfree]
      · refine h.apart b ?_
        simp only [List.mem_append, List.mem_cons] at hb ⊢
        tauto
    · rw [hframe b hb]
      refine h.outside b fun hb' => hb ?_
      simp only [List.mem_append, List.mem_cons] at hb' ⊢
      tauto
  | remove a =>
    obtain ⟨as, bs, rfl⟩ := List.append_of_mem hop
    have hnot := notMem_of_nodup_append h.ring.nodup
    have herase : (as ++ a :: bs).erase a = as ++ bs := by
      rw [List.erase_append_right _ hnot, List.erase_cons_head]
    obtain ⟨m', hrun, hring, hnone, hframe⟩ := winxListRemove_ring h.ring
    rw [Op.apply, herase]
    refine ⟨m', hrun, hring, fun b hb => h.apart b ?_, fun b hb => ?_⟩
    · simp only [List.mem_append, List.mem_cons] at hb ⊢
      tauto
    · by_cases hba : b = a
      · rw [hba, hnone, h.apart a (by simp)]
      · have hb' : b ∉ as ++ a :: bs := by
          simp only [List.mem_append, List.mem_cons] at hb ⊢
          tauto
        rw [hframe b hb', h.outside b hb']
  | turn a =>
    obtain ⟨as, bs, rfl⟩ := List.append_of_mem hop
    have hidx : (as ++ a :: bs).idxOf a = as.length := by
      rw [List.idxOf_append_of_notMem (notMem_of_nodup_append h.ring.nodup), List.idxOf_cons_self,
        Nat.add_zero]
    have hhead : (Op.apply (as ++ a :: bs) (.turn a)).head? = some a := by
      rw [Op.apply, hidx, List.rotate_append_length_eq]
      rfl
    refine ⟨m, by rw [hhead, Op.exec], h.ring.rotate _, fun b hb => ?_, fun b hb => ?_⟩
    · exact h.apart b (List.mem_rotate.1 hb)
    · exact h.outside b fun hb' => hb (List.mem_rotate.2 hb')
  | clear =>
    obtain ⟨m', hrun, hfreed, hframe⟩ := winxListDestroy_frees h.ring hfuel
    refine ⟨m', hrun, isRing_nil m', by simp [Op.apply], fun b _ => ?_⟩
    by_cases hb : b ∈ l
    · rw [hfreed b hb, h.apart b hb]
    · rw [hframe b hb, h.outside b hb]

theorem Op.length_apply_le (op : Op α) (l : List α) : (op.apply l).length ≤ l.length + 1 := by
  cases op with
  | push => simp [Op.apply]
  | insert prev new =>
    induction l with
    | nil => simp [Op.apply, Op.putBehind]
    | cons a l ih =>
      simp only [Op.apply, Op.putBehind] at ih ⊢
      split_ifs
      · simp
      · simpa using ih
  | remove a => exact (List.length_erase_le ..).trans (Nat.le_succ _)
  | turn a => simp [Op.apply]
  | clear => simp [Op.apply]

/-- A run of operations on the pointers of a list never reads or frees what is not allocated. At its
end the list is that of the same run on the list of entries, an iterator comes to its entries in
order, all entries that were removed are free, and the rest of the memory is as it was. -/
theorem run_refines_lists {other : Heap α} {fuel : ℕ} :
    ∀ {ops : List (Op α)} {l : List α} {m : Heap α}, Holds other m l →
      Op.AllowedRun other ops l → l.length + ops.length ≤ fuel →
      ∃ m', Op.run fuel ops (m, l.head?) = some (m', (ops.foldl Op.apply l).head?)
        ∧ Holds other m' (ops.foldl Op.apply l)
        ∧ entries fuel m' (ops.foldl Op.apply l).head? = some (ops.foldl Op.apply l)
  | [], l, m, h, _, hfuel => ⟨m, rfl, h, entries_eq h.ring hfuel⟩
  | op :: ops, l, m, h, hallowed, hfuel => by
    rw [List.length_cons] at hfuel
    obtain ⟨m₁, hrun, h₁⟩ := Op.exec_refines h hallowed.1 (by omega : l.length ≤ fuel)
    have hlen := op.length_apply_le l
    obtain ⟨m', hrun', h', hentries⟩ := @run_refines_lists other fuel ops _ m₁ h₁ hallowed.2
      (by omega)
    exact ⟨m', by rw [Op.run, hrun, Option.bind_some, hrun', List.foldl_cons], h', hentries⟩

/-- Three blocks of a map, the second of which becomes the head; the first is removed. -/
theorem run_refines_lists_three :
    ∃ m', Op.run 5 [.push 0, .insert 0 1, .insert 1 2, .turn 1, .remove 0] (fun _ => none, none)
        = some (m', some 1)
      ∧ Holds (fun _ => none) m' [1, 2] ∧ entries 5 m' (some 1) = some [1, 2] :=
  @run_refines_lists ℕ _ (fun _ => none) 5
    [.push 0, .insert 0 1, .insert 1 2, .turn 1, .remove 0] [] (fun _ => none)
    ⟨isRing_nil _, by simp, fun _ _ => rfl⟩
    ⟨by simp [Op.Allowed], by simp [Op.Allowed, Op.apply],
      by simp [Op.Allowed, Op.apply, Op.putBehind],
      by simp [Op.Allowed, Op.apply, Op.putBehind],
      by simp [Op.Allowed, Op.apply, Op.putBehind], trivial⟩ (by decide)

end LinkedList

end StopGap
