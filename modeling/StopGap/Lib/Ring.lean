import Mathlib.GroupTheory.Perm.List

/-!
# Circular lists in memory

The entries of a list, each with a pointer to the one behind it and to the one in front, the last
and the first being neighbours. So the pointers are the permutation `formPerm` of the list and its
inverse, whichever entry one starts from (`IsRing.rotate`). A load from or a store to an entry that
is not allocated fails. An entry is put behind another, or taken out, by two stores to its
neighbours (`IsRing.insertAfter`, `IsRing.unlink`).
-/

namespace Ring

structure Links (α : Type*) where
  prev : α
  next : α
deriving DecidableEq, Repr

/-- The pointers in the entries that are allocated. -/
abbrev Heap (α : Type*) := α → Option (Links α)

variable {α : Type*} [DecidableEq α]

def setNext (m : Heap α) (a b : α) : Option (Heap α) :=
  (m a).map fun l => Function.update m a (some { l with next := b })

def setPrev (m : Heap α) (a b : α) : Option (Heap α) :=
  (m a).map fun l => Function.update m a (some { l with prev := b })

def free (m : Heap α) (a : α) : Option (Heap α) := (m a).map fun _ => Function.update m a none

/-- Put the entry `new` behind `p`. -/
def insertAfter (m : Heap α) (p new : α) : Option (Heap α) := do
  let l ← m p
  let m ← setNext (Function.update m new (some ⟨p, l.next⟩)) p new
  let l ← m new
  setPrev m l.next new

/-- Make the neighbours of `a` neighbours of each other. -/
def unlink (m : Heap α) (a : α) : Option (Heap α) := do
  let l ← m a
  let m ← setNext m l.prev l.next
  let l ← m a
  setPrev m l.next l.prev

structure IsRing (m : Heap α) (l : List α) : Prop where
  nodup : l.Nodup
  links : ∀ a ∈ l, m a = some ⟨l.formPerm.symm a, l.formPerm a⟩

theorem isRing_nil (m : Heap α) : IsRing m [] := ⟨List.nodup_nil, by simp⟩

theorem isRing_singleton (m : Heap α) (a : α) :
    IsRing (Function.update m a (some ⟨a, a⟩)) [a] := by
  refine ⟨List.nodup_singleton a, fun b hb => ?_⟩
  rw [List.mem_singleton.1 hb, Function.update_self, List.formPerm_singleton]
  rfl

section Perm

variable {as bs : List α} {p a new : α}

/-- The list, entered at the entry behind `p`. -/
theorem formPerm_behind (hnd : (as ++ p :: bs).Nodup) :
    (as ++ p :: bs).formPerm = (bs ++ (as ++ [p])).formPerm := by
  refine List.formPerm_eq_of_isRotated hnd ?_
  have := @List.isRotated_append α (as ++ [p]) bs
  rwa [List.append_assoc] at this

theorem head?_behind (hnd : (as ++ p :: bs).Nodup) :
    (bs ++ (as ++ [p])).head? = some ((as ++ p :: bs).formPerm p) := by
  have hlast : ∀ h, (bs ++ (as ++ [p])).getLast h = p := fun h => by simp
  rcases hL : bs ++ (as ++ [p]) with _ | ⟨x, rest⟩
  · simp at hL
  · have hx := List.formPerm_apply_getLast x rest
    simp only [← hL, hlast] at hx
    rw [List.head?_cons, formPerm_behind hnd, hx]

omit [DecidableEq α] in
theorem nodup_insert (hnd : (as ++ p :: bs).Nodup) (hnew : new ∉ as ++ p :: bs) :
    (as ++ p :: new :: bs).Nodup := by
  have hperm : (as ++ p :: new :: bs).Perm (new :: (as ++ p :: bs)) := by
    have := @List.perm_middle α new (as ++ [p]) bs
    simpa using this
  exact hperm.nodup_iff.2 (List.nodup_cons.2 ⟨hnew, hnd⟩)

theorem formPerm_insert (hnd : (as ++ p :: bs).Nodup) (hnew : new ∉ as ++ p :: bs) :
    (as ++ p :: new :: bs).formPerm
      = Equiv.swap new ((as ++ p :: bs).formPerm p) * (as ++ p :: bs).formPerm := by
  have hhead := head?_behind hnd
  have hadd : (as ++ p :: new :: bs).formPerm = (new :: (bs ++ (as ++ [p]))).formPerm := by
    refine List.formPerm_eq_of_isRotated (nodup_insert hnd hnew) ?_
    have := @List.isRotated_append α (as ++ [p]) (new :: bs)
    rwa [List.append_assoc] at this
  rw [hadd, formPerm_behind hnd] at *
  rcases hL : bs ++ (as ++ [p]) with _ | ⟨x, rest⟩
  · simp at hL
  · rw [hL, List.head?_cons] at hhead
    rw [List.formPerm_cons_cons, ← Option.some.inj hhead]

theorem formPerm_erase (hnd : (as ++ a :: bs).Nodup) :
    (as ++ bs).formPerm = Equiv.swap a ((as ++ a :: bs).formPerm a) * (as ++ a :: bs).formPerm := by
  have hall : (as ++ a :: bs).formPerm = (a :: (bs ++ as)).formPerm :=
    List.formPerm_eq_of_isRotated hnd List.isRotated_append
  have hrest : (as ++ bs).formPerm = (bs ++ as).formPerm :=
    List.formPerm_eq_of_isRotated (hnd.sublist (by simp)) List.isRotated_append
  have hnd' : (a :: (bs ++ as)).Nodup := (@List.isRotated_append α as (a :: bs)).nodup_iff.1 hnd
  rw [hall, hrest]
  rcases hL : bs ++ as with _ | ⟨y, rest⟩
  · rw [List.formPerm_singleton, List.formPerm_nil, Equiv.Perm.one_apply, Equiv.swap_self]
    rfl
  · rw [hL] at hnd'
    rw [List.formPerm_apply_head a y rest hnd', List.formPerm_cons_cons, Equiv.swap_mul_self_mul]

end Perm

/-! ### The two ways a permutation changes -/

section Swap

variable {σ : Equiv.Perm α} {p a b new : α}

theorem swap_mul_apply (hfix : σ new = new) :
    (Equiv.swap new (σ p) * σ) b = if b = p then new else if b = new then σ p else σ b := by
  rw [Equiv.Perm.mul_apply]
  split_ifs with hp hn
  · rw [hp, Equiv.swap_apply_right]
  · rw [hn, hfix, Equiv.swap_apply_left]
  · refine Equiv.swap_apply_of_ne_of_ne (fun h => hn ?_) fun h => hp (σ.injective h)
    exact σ.injective (h.trans hfix.symm)

theorem swap_mul_symm_apply (hfix : σ new = new) (hne : p ≠ new) :
    (Equiv.swap new (σ p) * σ).symm b
      = if b = σ p then new else if b = new then p else σ.symm b := by
  rw [Equiv.symm_apply_eq, swap_mul_apply hfix]
  by_cases hb : b = σ p
  · rw [if_pos hb, if_neg hne.symm, if_pos rfl, hb]
  by_cases hn : b = new
  · rw [if_neg hb, if_pos hn, if_pos rfl, hn]
  · have hp : σ.symm b ≠ p := fun h => hb ((Equiv.symm_apply_eq σ).1 h)
    have hn' : σ.symm b ≠ new := fun h => hn (((Equiv.symm_apply_eq σ).1 h).trans hfix)
    rw [if_neg hb, if_neg hn, if_neg hp, if_neg hn', Equiv.apply_symm_apply]

theorem swap_mul_apply_of_ne (hne : b ≠ a) :
    (Equiv.swap a (σ a) * σ) b = if b = σ.symm a then σ a else σ b := by
  rw [Equiv.Perm.mul_apply]
  split_ifs with h
  · rw [h, Equiv.apply_symm_apply, Equiv.swap_apply_left]
  · refine Equiv.swap_apply_of_ne_of_ne (fun h' => h ?_) fun h' => hne (σ.injective h')
    rw [← h', Equiv.symm_apply_apply]

theorem swap_mul_symm_apply_of_ne (hne : b ≠ a) :
    (Equiv.swap a (σ a) * σ).symm b = if b = σ a then σ.symm a else σ.symm b := by
  rw [Equiv.symm_apply_eq, Equiv.Perm.mul_apply]
  split_ifs with h
  · rw [h, Equiv.apply_symm_apply, Equiv.swap_apply_left]
  · rw [Equiv.apply_symm_apply, Equiv.swap_apply_of_ne_of_ne hne h]

end Swap

/-! ### Rings -/

namespace IsRing

variable {m : Heap α} {l as bs : List α} {p a new : α}

theorem rotate (h : IsRing m l) (n : ℕ) : IsRing m (l.rotate n) := by
  refine ⟨List.nodup_rotate.2 h.nodup, fun a ha => ?_⟩
  rw [List.formPerm_rotate l h.nodup]
  exact h.links a (List.mem_rotate.1 ha)

/-- What happens outside a ring does not touch it. -/
theorem congr {m' : Heap α} (h : IsRing m l) (heq : ∀ a ∈ l, m' a = m a) : IsRing m' l :=
  ⟨h.nodup, fun a ha => (heq a ha).trans (h.links a ha)⟩

/-- The entry behind `a`. -/
theorem next_eq (h : IsRing m (as ++ a :: bs)) :
    ∃ x, m a = some x ∧ (bs ++ (as ++ [a])).head? = some x.next :=
  ⟨_, h.links a (by simp), head?_behind h.nodup⟩

theorem insertAfter (h : IsRing m (as ++ p :: bs)) (hnew : new ∉ as ++ p :: bs) :
    ∃ m', Ring.insertAfter m p new = some m' ∧ IsRing m' (as ++ p :: new :: bs)
      ∧ ∀ b ∉ as ++ p :: new :: bs, m' b = m b := by
  have hp : p ∈ as ++ p :: bs := by simp
  have hfix := List.formPerm_apply_of_notMem hnew
  have hnewp : p ≠ new := fun h => hnew (h ▸ hp)
  have hq : (as ++ p :: bs).formPerm p ∈ as ++ p :: bs := List.formPerm_apply_mem_of_mem hp
  have hnewq : (as ++ p :: bs).formPerm p ≠ new := fun h => hnew (h ▸ hq)
  have hperm := formPerm_insert h.nodup hnew
  have hlinks := h.links
  generalize (as ++ p :: bs).formPerm = σ at hfix hq hnewq hperm hlinks
  -- what is read on the way
  have h1 : Function.update m new (some ⟨p, σ p⟩) p = some ⟨σ.symm p, σ p⟩ := by
    rw [Function.update_of_ne hnewp, hlinks p hp]
  have h2 : Function.update (Function.update m new (some ⟨p, σ p⟩)) p (some ⟨σ.symm p, new⟩) new
      = some ⟨p, σ p⟩ := by
    rw [Function.update_of_ne hnewp.symm, Function.update_self]
  have h3 : Function.update (Function.update m new (some ⟨p, σ p⟩)) p (some ⟨σ.symm p, new⟩) (σ p)
      = some ⟨p, if σ p = p then new else σ (σ p)⟩ := by
    by_cases hqp : σ p = p
    · rw [if_pos hqp, hqp, Function.update_self, (Equiv.symm_apply_eq σ).2 hqp.symm]
    · rw [if_neg hqp, Function.update_of_ne hqp, Function.update_of_ne hnewq, hlinks _ hq,
        Equiv.symm_apply_apply]
  have hrun : Ring.insertAfter m p new = some (Function.update (Function.update
      (Function.update m new (some ⟨p, σ p⟩)) p (some ⟨σ.symm p, new⟩)) (σ p)
      (some ⟨new, if σ p = p then new else σ (σ p)⟩)) := by
    simp only [Ring.insertAfter, hlinks p hp, Option.bind_eq_bind, Option.bind_some, setNext, h1,
      Option.map_some, setPrev, h2, h3]
  refine ⟨_, hrun, ⟨nodup_insert h.nodup hnew, fun b hb => ?_⟩, fun b hb => ?_⟩
  · rw [hperm, swap_mul_apply hfix, swap_mul_symm_apply hfix hnewp]
    by_cases hbq : b = σ p
    · subst hbq
      rw [Function.update_self, if_pos rfl, if_neg hnewq]
    rw [Function.update_of_ne hbq, if_neg hbq]
    by_cases hbp : b = p
    · subst hbp
      rw [Function.update_self, if_pos rfl, if_neg hnewp]
    rw [Function.update_of_ne hbp, if_neg hbp]
    by_cases hbn : b = new
    · rw [hbn, Function.update_self, if_pos rfl, if_pos rfl]
    · rw [Function.update_of_ne hbn, if_neg hbn, if_neg hbn]
      refine hlinks b ?_
      simp only [List.mem_append, List.mem_cons] at hb ⊢
      tauto
  · have hbq : b ≠ σ p := by
      rintro rfl
      simp only [List.mem_append, List.mem_cons] at hb hq
      tauto
    have hbp : b ≠ p := by
      rintro rfl
      simp at hb
    have hbn : b ≠ new := by
      rintro rfl
      simp at hb
    rw [Function.update_of_ne hbq, Function.update_of_ne hbp, Function.update_of_ne hbn]

theorem unlink (h : IsRing m (as ++ a :: bs)) (hne : as ++ bs ≠ []) :
    ∃ m', Ring.unlink m a = some m' ∧ IsRing m' (as ++ bs) ∧ ∀ b ∉ as ++ bs, m' b = m b := by
  have ha : a ∈ as ++ a :: bs := by simp
  have hrest : ∀ b, b ∈ as ++ bs ↔ b ∈ as ++ a :: bs ∧ b ≠ a := by
    have hperm : (as ++ a :: bs).Perm (a :: (as ++ bs)) := List.perm_middle
    intro b
    have hnot := (List.nodup_cons.1 (hperm.nodup_iff.1 h.nodup)).1
    rw [hperm.mem_iff, List.mem_cons]
    constructor
    · exact fun hb => ⟨.inr hb, fun h0 => hnot (h0 ▸ hb)⟩
    · exact fun hb => hb.1.resolve_left hb.2
  have hmoved : (as ++ a :: bs).formPerm a ≠ a := by
    rw [List.formPerm_apply_mem_ne_self_iff _ h.nodup a ha]
    have := List.length_pos_iff.2 hne
    simp only [List.length_append, List.length_cons] at this ⊢
    omega
  have hin : ∀ b ∈ as ++ a :: bs, (as ++ a :: bs).formPerm b ∈ as ++ a :: bs
      ∧ (as ++ a :: bs).formPerm.symm b ∈ as ++ a :: bs := fun b hb =>
    ⟨List.formPerm_apply_mem_of_mem hb,
      List.formPerm_mem_iff_mem.1 (by rwa [Equiv.apply_symm_apply])⟩
  have hperm := formPerm_erase h.nodup
  have hlinks := h.links
  generalize (as ++ a :: bs).formPerm = σ at hmoved hin hperm hlinks
  have hu : σ.symm a ≠ a := fun h0 => hmoved ((Equiv.symm_apply_eq σ).1 h0).symm
  -- what is read on the way
  have h1 : m (σ.symm a) = some ⟨σ.symm (σ.symm a), a⟩ := by
    rw [hlinks _ (hin a ha).2, Equiv.apply_symm_apply]
  have h2 : Function.update m (σ.symm a) (some ⟨σ.symm (σ.symm a), σ a⟩) a
      = some ⟨σ.symm a, σ a⟩ := by
    rw [Function.update_of_ne hu.symm, hlinks a ha]
  have h3 : ∃ p, Function.update m (σ.symm a) (some ⟨σ.symm (σ.symm a), σ a⟩) (σ a)
      = some ⟨p, if σ a = σ.symm a then σ a else σ (σ a)⟩ := by
    by_cases huv : σ a = σ.symm a
    · exact ⟨_, by rw [if_pos huv, ← huv, Function.update_self]⟩
    · exact ⟨_, by rw [if_neg huv, Function.update_of_ne huv, hlinks _ (hin a ha).1]⟩
  obtain ⟨p, h3⟩ := h3
  have hrun : Ring.unlink m a = some (Function.update (Function.update m (σ.symm a)
      (some ⟨σ.symm (σ.symm a), σ a⟩)) (σ a)
      (some ⟨σ.symm a, if σ a = σ.symm a then σ a else σ (σ a)⟩)) := by
    simp only [Ring.unlink, hlinks a ha, Option.bind_eq_bind, Option.bind_some, setNext, h1,
      Option.map_some, setPrev, h2, h3]
  refine ⟨_, hrun, ⟨h.nodup.sublist (by simp), fun b hb => ?_⟩, fun b hb => ?_⟩
  · obtain ⟨hb, hba⟩ := (hrest b).1 hb
    rw [hperm, swap_mul_apply_of_ne hba, swap_mul_symm_apply_of_ne hba]
    by_cases hbv : b = σ a
    · rw [hbv, Function.update_self, if_pos rfl]
    rw [Function.update_of_ne hbv, if_neg hbv]
    by_cases hbu : b = σ.symm a
    · rw [hbu, Function.update_self, if_pos rfl]
    · rw [Function.update_of_ne hbu, if_neg hbu]
      exact hlinks b hb
  · have hbv : b ≠ σ a := fun h0 => hb ((hrest b).2 ⟨h0 ▸ (hin a ha).1, h0 ▸ hmoved⟩)
    have hbu : b ≠ σ.symm a := fun h0 => hb ((hrest b).2 ⟨h0 ▸ (hin a ha).2, h0 ▸ hu⟩)
    rw [Function.update_of_ne hbv, Function.update_of_ne hbu]

end IsRing

end Ring
