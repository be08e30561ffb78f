import Mathlib.Data.List.Sort
import Mathlib.Data.List.TakeWhile
import Mathlib.Order.OrderDual
import Mathlib.Tactic.Common

/-!
# Ordered maps and multimaps as sorted lists

An ordered container is the list of its entries in key order: strictly ascending keys for a map
(`Strict`), ascending keys for a multimap (`Sorted`). Where a lookup succeeds it splits the list
at the entry it finds (`find_split`, `split_at`), and an insertion or a removal at such a
place is list surgery there (`insert_split`, `erase_split`).
-/

namespace OrdMap

variable {κ β : Type*} [LinearOrder κ]

/-- A multimap's entries: keys ascend. -/
def Sorted (m : List (κ × β)) : Prop := m.Pairwise fun a b => a.1 ≤ b.1

/-- A map's entries: keys ascend strictly. -/
def Strict (m : List (κ × β)) : Prop := m.Pairwise fun a b => a.1 < b.1

def find (k : κ) (m : List (κ × β)) : Option (κ × β) := m.find? fun e => e.1 = k

/-- The entry before the first one not below `k`. -/
def before (k : κ) (m : List (κ × β)) : Option (κ × β) := (m.takeWhile fun e => e.1 < k).getLast?

def equalRange (k : κ) (m : List (κ × β)) : List (κ × β) := m.filter fun e => e.1 = k

/-- Insertion into a multimap: after the entries with the same key. -/
def insertMulti (e : κ × β) (m : List (κ × β)) : List (κ × β) :=
  m.orderedInsert (fun a b => a.1 < b.1) e

/-- Insertion into a map: nothing happens when the key is taken. -/
def insert (e : κ × β) (m : List (κ × β)) : List (κ × β) :=
  if (find e.1 m).isSome then m else insertMulti e m

def erase (k : κ) (m : List (κ × β)) : List (κ × β) := m.eraseP fun e => e.1 = k

variable {m L R : List (κ × β)} {e x : κ × β} {k : κ}

theorem Strict.sorted (h : Strict m) : Sorted m := h.imp fun {_ _} hab => hab.le

theorem strict_append : Strict (L ++ R) ↔
    Strict L ∧ Strict R ∧ ∀ a ∈ L, ∀ b ∈ R, a.1 < b.1 := List.pairwise_append

theorem strict_cons : Strict (e :: m) ↔ (∀ b ∈ m, e.1 < b.1) ∧ Strict m := List.pairwise_cons

theorem Strict.eq_of_key (h : Strict m) {a b : κ × β} (ha : a ∈ m) (hb : b ∈ m)
    (hk : a.1 = b.1) : a = b := by
  induction m with
  | nil => simp at ha
  | cons e m ih =>
    obtain ⟨he, hm⟩ := strict_cons.1 h
    rcases List.mem_cons.1 ha with rfl | ha' <;> rcases List.mem_cons.1 hb with rfl | hb'
    · rfl
    · exact absurd hk (he b hb').ne
    · exact absurd hk (he a ha').ne'
    · exact ih hm ha' hb'

/-! ## Lookup -/

theorem find_none (h : find k m = none) : ∀ e ∈ m, e.1 ≠ k := by
  intro e he
  simpa using List.find?_eq_none.1 h e he

theorem find_some (h : find k m = some e) : e ∈ m ∧ e.1 = k := by
  refine ⟨List.mem_of_find?_eq_some h, ?_⟩
  simpa using List.find?_some h

theorem find_eq_none_iff : find k m = none ↔ ∀ e ∈ m, e.1 ≠ k := by
  simp [find, List.find?_eq_none]

theorem find_isSome_iff : (find k m).isSome ↔ ∃ e ∈ m, e.1 = k := by
  simp [find]

theorem Strict.find_eq (h : Strict m) (he : e ∈ m) : find e.1 m = some e := by
  rcases hf : find e.1 m with _ | x
  · exact absurd rfl (find_none hf e he)
  · obtain ⟨hx, hk⟩ := find_some hf
    rw [h.eq_of_key hx he hk]

theorem find_split (hm : Strict m) (h : find k m = some e) :
    ∃ L R, m = L ++ e :: R ∧ e.1 = k ∧ (∀ x ∈ L, x.1 < k) ∧ ∀ x ∈ R, k < x.1 := by
  obtain ⟨he, rfl⟩ := find_some h
  obtain ⟨L, R, rfl⟩ := List.append_of_mem he
  obtain ⟨-, hR, hLR⟩ := strict_append.1 hm
  exact ⟨L, R, rfl, rfl, fun x hx => hLR x hx e (by simp), (strict_cons.1 hR).1⟩

/-- The container splits at `k`; the entry before `k` is the last one of the front. -/
theorem split_at (hm : Sorted m) (k : κ) :
    ∃ L R, m = L ++ R ∧ (∀ x ∈ L, x.1 < k) ∧ (∀ x ∈ R, k ≤ x.1) ∧ before k m = L.getLast? := by
  refine ⟨m.takeWhile fun e => e.1 < k, m.dropWhile fun e => e.1 < k, by simp, fun x hx => ?_,
    fun x hx => ?_, rfl⟩
  · have := List.all_takeWhile (p := fun e : κ × β => decide (e.1 < k)) (l := m)
    rw [List.all_eq_true] at this
    simpa using this x hx
  · -- the first entry past the front is not below `k`, and keys ascend from there
    rcases hd : m.dropWhile fun e => e.1 < k with _ | ⟨y, ys⟩ <;> rw [hd] at hx
    · simp at hx
    have hy : k ≤ y.1 := by
      have := List.head?_dropWhile_not (fun e : κ × β => decide (e.1 < k)) m
      rw [hd] at this
      simpa using this
    have hs : Sorted (y :: ys) := hd ▸ List.Pairwise.sublist (List.dropWhile_sublist _) hm
    rcases List.mem_cons.1 hx with rfl | hx
    · exact hy
    · exact hy.trans ((List.pairwise_cons.1 hs).1 x hx)

/-- Past keys below `k`, a lookup of `k` is at the first entry or nowhere. -/
theorem find_append_cons (hL : ∀ x ∈ L, x.1 ≠ k) (hR : Strict (e :: R)) (he : k ≤ e.1) :
    find k (L ++ e :: R) = if e.1 = k then some e else none := by
  unfold find
  rw [List.find?_append, List.find?_eq_none.2 (by simpa using hL), Option.none_or,
    List.find?_cons]
  split_ifs with hk
  · simp [hk]
  · simp only [hk, decide_false]
    refine List.find?_eq_none.2 fun x hx => ?_
    simpa using (he.trans_lt ((strict_cons.1 hR).1 x hx)).ne'

/-! ## Insertion and removal -/

theorem insertMulti_perm (e : κ × β) (m : List (κ × β)) : (insertMulti e m).Perm (e :: m) :=
  List.perm_orderedInsert _ _ _

@[simp] theorem mem_insertMulti : x ∈ insertMulti e m ↔ x = e ∨ x ∈ m := by
  rw [(insertMulti_perm e m).mem_iff, List.mem_cons]

theorem length_equalRange_insertMulti (k : κ) (e : κ × β) (m : List (κ × β)) :
    (equalRange k (insertMulti e m)).length
      = (equalRange k m).length + if e.1 = k then 1 else 0 := by
  unfold equalRange
  rw [((insertMulti_perm e m).filter _).length_eq, List.filter_cons]
  split_ifs <;> simp_all

/-- An order of the entries is kept if the new one stands to each as its key does. -/
theorem Sorted.pairwise_insertMulti {r : κ × β → κ × β → Prop} (h : Sorted m) (hr : m.Pairwise r)
    (hbefore : ∀ x ∈ m, x.1 ≤ e.1 → r x e) (hafter : ∀ x ∈ m, e.1 < x.1 → r e x) :
    (OrdMap.insertMulti e m).Pairwise r := by
  induction m with
  | nil => exact List.pairwise_singleton _ _
  | cons y ys ih =>
    obtain ⟨hy, hys⟩ := List.pairwise_cons.1 h
    obtain ⟨hry, hrys⟩ := List.pairwise_cons.1 hr
    unfold OrdMap.insertMulti
    rw [List.orderedInsert_cons]
    split_ifs with hlt
    · refine List.pairwise_cons.2 ⟨fun b hb => hafter b hb ?_, hr⟩
      rcases List.mem_cons.1 hb with rfl | hb
      · exact hlt
      · exact hlt.trans_le (hy b hb)
    · refine List.pairwise_cons.2 ⟨fun b hb => ?_, ih hys hrys
        (fun x hx => hbefore x (by simp [hx])) fun x hx => hafter x (by simp [hx])⟩
      rcases mem_insertMulti.1 hb with rfl | hb
      · exact hbefore y (by simp) (not_lt.1 hlt)
      · exact hry b hb

theorem Sorted.insertMulti (h : Sorted m) (e : κ × β) : Sorted (insertMulti e m) :=
  h.pairwise_insertMulti h (fun _ _ hx => hx) fun _ _ hx => hx.le

theorem insertMulti_split (hL : ∀ x ∈ L, x.1 ≤ e.1) (hR : ∀ x ∈ R, e.1 < x.1) :
    insertMulti e (L ++ R) = L ++ e :: R := by
  induction L with
  | nil =>
    rcases R with _ | ⟨y, ys⟩
    · rfl
    · exact List.orderedInsert_cons_of_le _ _ (hR y (by simp))
  | cons y ys ih =>
    unfold insertMulti
    rw [List.cons_append, List.orderedInsert_cons, if_neg (not_lt.2 (hL y (by simp)))]
    exact congrArg _ (ih fun x hx => hL x (by simp [hx]))

theorem insert_of_ne (h : ∀ x ∈ m, x.1 ≠ e.1) : insert e m = insertMulti e m := by
  unfold insert
  rw [find_eq_none_iff.2 h]
  rfl

theorem insert_split (hL : ∀ x ∈ L, x.1 < e.1) (hR : ∀ x ∈ R, e.1 < x.1) :
    insert e (L ++ R) = L ++ e :: R := by
  rw [insert_of_ne, insertMulti_split (fun x hx => (hL x hx).le) hR]
  intro x hx
  rcases List.mem_append.1 hx with hx | hx
  · exact (hL x hx).ne
  · exact (hR x hx).ne'

theorem mem_insert (hx : x ∈ insert e m) : x = e ∨ x ∈ m := by
  unfold insert at hx
  split_ifs at hx
  · exact Or.inr hx
  · exact mem_insertMulti.1 hx

theorem mem_insert_of_mem (hx : x ∈ m) : x ∈ insert e m := by
  unfold insert
  split_ifs
  · exact hx
  · exact mem_insertMulti.2 (Or.inr hx)

theorem Strict.insert (h : Strict m) (e : κ × β) : Strict (insert e m) := by
  unfold OrdMap.insert
  split_ifs with hf
  · exact h
  · have hne : ∀ x ∈ m, x.1 ≠ e.1 := fun x hx hk => hf (find_isSome_iff.2 ⟨x, hx, hk⟩)
    have hs := h.sorted.insertMulti e
    have hnd : ((OrdMap.insertMulti e m).map Prod.fst).Nodup := by
      rw [((insertMulti_perm e m).map Prod.fst).nodup_iff, List.map_cons, List.nodup_cons]
      refine ⟨fun hm => ?_, ?_⟩
      · obtain ⟨x, hx, hk⟩ := List.mem_map.1 hm
        exact hne x hx hk
      · exact List.pairwise_map.2 (h.imp fun {_ _} hab => hab.ne)
    exact hs.and (List.pairwise_map.1 hnd) |>.imp fun {_ _} hab => lt_of_le_of_ne hab.1 hab.2

theorem erase_split (hm : Strict (L ++ e :: R)) : erase e.1 (L ++ e :: R) = L ++ R := by
  obtain ⟨-, -, hLR⟩ := strict_append.1 hm
  unfold erase
  rw [List.eraseP_append_right _ fun x hx => by simpa using (hLR x hx e (by simp)).ne,
    List.eraseP_cons_of_pos (by simp)]

theorem erase_sublist : (erase k m).Sublist m := List.eraseP_sublist

theorem Strict.erase (h : Strict m) (k : κ) : Strict (erase k m) :=
  List.Pairwise.sublist erase_sublist h

theorem mem_erase (hm : Strict m) : x ∈ erase k m ↔ x ∈ m ∧ x.1 ≠ k := by
  constructor
  · intro hx
    refine ⟨erase_sublist.subset hx, ?_⟩
    rintro rfl
    obtain ⟨L, R, rfl⟩ := List.append_of_mem (erase_sublist.subset hx)
    have hnd := hm
    rw [erase_split hm] at hx
    obtain ⟨-, hR, hLR⟩ := strict_append.1 hnd
    rcases List.mem_append.1 hx with hx | hx
    · exact (hLR x hx x (by simp)).ne rfl
    · exact ((strict_cons.1 hR).1 x hx).ne rfl
  · rintro ⟨hx, hk⟩
    exact (List.mem_eraseP_of_neg (by simpa using hk)).2 hx

section Scans

variable {α : Type*} {l : List α} {p : α → Bool} {y z : α}

/-- Where `p` holds up to some place of the list, `takeWhile` keeps all for which it does. -/
theorem mem_takeWhile_iff (h : l.Pairwise fun a b => p b = true → p a = true) :
    y ∈ l.takeWhile p ↔ y ∈ l ∧ p y = true := by
  refine ⟨fun hy => ⟨(List.takeWhile_sublist p).subset hy, List.mem_takeWhile_imp hy⟩, ?_⟩
  rintro ⟨hy, hpy⟩
  induction l with
  | nil => simp at hy
  | cons a l ih =>
    obtain ⟨ha, hl⟩ := List.pairwise_cons.1 h
    have hpa : p a = true := by
      rcases List.mem_cons.1 hy with rfl | hy
      · exact hpy
      · exact ha y hy hpy
    rw [List.takeWhile_cons_of_pos hpa]
    rcases List.mem_cons.1 hy with rfl | hy
    · exact List.mem_cons_self
    · exact List.mem_cons_of_mem _ (ih hl hy)

theorem mem_dropWhile_iff (h : l.Pairwise fun a b => p b = true → p a = true) :
    y ∈ l.dropWhile p ↔ y ∈ l ∧ p y = false := by
  induction l with
  | nil => simp
  | cons a l ih =>
    obtain ⟨ha, hl⟩ := List.pairwise_cons.1 h
    rcases hpa : p a
    · rw [List.dropWhile_cons_of_neg (by simp [hpa])]
      refine ⟨fun hy => ⟨hy, ?_⟩, And.left⟩
      rcases List.mem_cons.1 hy with rfl | hy
      · exact hpa
      · exact Bool.eq_false_iff.2 fun hpy => Bool.eq_false_iff.1 hpa (ha y hy hpy)
    · rw [List.dropWhile_cons_of_pos hpa, ih hl, List.mem_cons]
      refine ⟨fun hy => ⟨Or.inr hy.1, hy.2⟩, fun hy => ⟨hy.1.resolve_left ?_, hy.2⟩⟩
      rintro rfl
      exact Bool.eq_false_iff.1 hy.2 hpa

/-- What `find?` returns comes before everything else it could have. -/
theorem find?_first {r : α → α → Prop} (h : l.Pairwise r) (hfind : l.find? p = some z)
    (hy : y ∈ l) (hpy : p y = true) : y = z ∨ r z y := by
  obtain ⟨-, as, bs, rfl, has⟩ := List.find?_eq_some_iff_append.1 hfind
  rcases List.mem_append.1 hy with hy | hy
  · have := has y hy
    simp [hpy] at this
  · rcases List.mem_cons.1 hy with rfl | hy
    · exact Or.inl rfl
    · exact Or.inr (List.rel_of_pairwise_cons (List.pairwise_append.1 h).2.1 hy)

end Scans

theorem Sorted.mem_takeWhile (h : Sorted m) (hx : x ∈ m) (hk : x.1 ≤ k) :
    x ∈ m.takeWhile fun e => e.1 ≤ k := by
  refine (mem_takeWhile_iff (List.Pairwise.imp (fun {a b} hab => ?_) h)).2 ⟨hx, by simpa using hk⟩
  simpa using hab.trans

/-- What stands before `upper_bound(k)`. -/
theorem Sorted.takeWhile_eq_filter (h : Sorted m) (k : κ) :
    (m.takeWhile fun e => e.1 ≤ k) = m.filter fun e => e.1 ≤ k := by
  induction m with
  | nil => rfl
  | cons y ys ih =>
    obtain ⟨hy, hys⟩ := List.pairwise_cons.1 h
    by_cases hk : y.1 ≤ k
    · rw [List.takeWhile_cons_of_pos (by simpa using hk),
        List.filter_cons_of_pos (by simpa using hk), ih hys]
    · rw [List.takeWhile_cons_of_neg (by simpa using hk)]
      refine (List.filter_eq_nil_iff.2 fun x hx => ?_).symm
      rcases List.mem_cons.1 hx with rfl | hx
      · simpa using hk
      · simpa using (not_le.1 hk).trans_le (hy x hx)

/-- What a search from `upper_bound(k)` on meets. -/
theorem Sorted.mem_dropWhile_iff (h : Sorted m) :
    (x ∈ m.dropWhile fun e => e.1 ≤ k) ↔ x ∈ m ∧ k < x.1 := by
  rw [OrdMap.mem_dropWhile_iff (List.Pairwise.imp (fun {a b} hab => ?_) h)]
  · simp
  · simpa using hab.trans

/-- What a search from the end down to `k` meets. -/
theorem Sorted.mem_reverse_takeWhile_iff (h : Sorted m) :
    (x ∈ m.reverse.takeWhile fun e => k ≤ e.1) ↔ x ∈ m ∧ k ≤ x.1 := by
  rw [mem_takeWhile_iff (List.Pairwise.imp (fun {a b} hab => ?_) (List.pairwise_reverse.2 h))]
  · simp
  · simpa using fun hk => le_trans hk hab

theorem mem_insert_of_ne (h : ∀ y ∈ m, y.1 ≠ e.1) : x ∈ insert e m ↔ x = e ∨ x ∈ m := by
  rw [insert_of_ne h, mem_insertMulti]

section Folds

theorem Strict.foldl_insert (h : Strict m) (es : List (κ × β)) :
    Strict (es.foldl (fun m e => OrdMap.insert e m) m) := by
  induction es generalizing m with
  | nil => exact h
  | cons e es ih => exact ih (h.insert e)

theorem mem_of_mem_foldl_insert {es : List (κ × β)}
    (hx : x ∈ es.foldl (fun m e => insert e m) m) : x ∈ m ∨ x ∈ es := by
  induction es generalizing m with
  | nil => exact Or.inl hx
  | cons e es ih =>
    rcases ih hx with hx | hx
    · rcases mem_insert hx with rfl | hx
      · exact Or.inr (by simp)
      · exact Or.inl hx
    · exact Or.inr (by simp [hx])

theorem mem_foldl_insert : ∀ {es m : List (κ × β)},
    (m.map Prod.fst ++ es.map Prod.fst).Nodup →
    (x ∈ es.foldl (fun m e => insert e m) m ↔ x ∈ m ∨ x ∈ es)
  | [], _, _ => by simp
  | e :: es, m, hnd => by
    have hne : ∀ y ∈ m, y.1 ≠ e.1 := fun y hy =>
      (List.nodup_append.1 hnd).2.2 y.1 (List.mem_map.2 ⟨y, hy, rfl⟩) e.1 (by simp)
    have hp : ((insert e m).map Prod.fst ++ es.map Prod.fst).Perm
        (m.map Prod.fst ++ (e :: es).map Prod.fst) := by
      rw [insert_of_ne hne]
      exact (((insertMulti_perm e m).map Prod.fst).append_right _).trans List.perm_middle.symm
    rw [List.foldl_cons, mem_foldl_insert (hp.nodup_iff.2 hnd), mem_insert_of_ne hne,
      List.mem_cons]
    grind

theorem Strict.foldl_erase (h : Strict m) (ks : List κ) :
    Strict (ks.foldl (fun m k => OrdMap.erase k m) m) := by
  induction ks generalizing m with
  | nil => exact h
  | cons k ks ih => exact ih (h.erase k)

theorem mem_foldl_erase : ∀ {ks : List κ} {m : List (κ × β)}, Strict m →
    (x ∈ ks.foldl (fun m k => erase k m) m ↔ x ∈ m ∧ x.1 ∉ ks)
  | [], _, _ => by simp
  | k :: ks, m, h => by
    rw [List.foldl_cons, mem_foldl_erase (h.erase k), mem_erase h]
    simp only [List.mem_cons, not_or, and_assoc]

end Folds

end OrdMap
