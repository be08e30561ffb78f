import Mathlib.Data.List.Infix
import Mathlib.Data.Nat.Find
import Mathlib.Tactic.Common

/-!
# Searching a text

`find` is the position at which a pattern first occurs in a text. The text is compared through a
function `f` of its characters, as a search that ignores case does; `FirstAt` says where the text
is parted then. The second half is about texts that are entries joined by a separator, with a
pattern that does not contain the separator: the search passes an entry or stops in it.
-/

namespace Text

variable {α β : Type*}

/-- The position of the first occurrence of `pat`. -/
def find [BEq α] (pat text : List α) : Option ℕ :=
  (text.dropInfix? pat).map fun parts => parts.1.length

/-- The text without the `len` characters from `pos` on. -/
def cut (text : List α) (pos len : ℕ) : List α := text.take pos ++ text.drop (pos + len)

/-- `mid` is where `pat` first occurs in `text`, seen through `f`. -/
structure FirstAt (f : α → β) (pat : List β) (text pre mid post : List α) : Prop where
  eq : text = pre ++ mid ++ post
  map : mid.map f = pat
  least : ∀ pre' mid' post', text = pre' ++ mid' ++ post' → mid'.map f = pat →
    pre.length ≤ pre'.length

/-- `pat` does not occur in `text`, seen through `f`. -/
def Absent (f : α → β) (pat : List β) (text : List α) : Prop :=
  ∀ pre mid post, text = pre ++ mid ++ post → mid.map f ≠ pat

section Find

variable {f : α → β} {pat : List β} {text pre mid post : List α}

theorem FirstAt.cut_eq (h : FirstAt f pat text pre mid post) :
    cut text pre.length pat.length = pre ++ post := by
  have hlen : mid.length = pat.length := by rw [← h.map, List.length_map]
  simp [cut, h.eq, ← hlen]

theorem absent_iff : Absent f pat text ↔ ¬ pat <:+: text.map f := by
  constructor
  · rintro h ⟨a, b, hab⟩
    obtain ⟨ab, post, rfl, hab, -⟩ := List.map_eq_append_iff.1 hab.symm
    obtain ⟨pre, mid, rfl, -, hmid⟩ := List.map_eq_append_iff.1 hab
    exact h pre mid post rfl hmid
  · rintro h pre mid post rfl rfl
    exact h ⟨pre.map f, post.map f, by simp⟩

/-- What occurs at all occurs first somewhere. -/
theorem exists_firstAt (h : pat <:+: text.map f) :
    ∃ pre mid post, FirstAt f pat text pre mid post := by
  classical
  have hex : ∃ n, ∃ pre mid post, text = pre ++ mid ++ post ∧ mid.map f = pat ∧ pre.length = n := by
    by_contra hnone
    push Not at hnone
    exact absent_iff.1 (fun pre mid post heq hmid => hnone _ pre mid post heq hmid rfl) h
  obtain ⟨pre, mid, post, heq, hmid, hlen⟩ := Nat.find_spec hex
  refine ⟨pre, mid, post, heq, hmid, fun pre' mid' post' heq' hmid' => ?_⟩
  rw [hlen]
  exact Nat.find_min' hex ⟨pre', mid', post', heq', hmid', rfl⟩

variable [BEq β] [LawfulBEq β]

theorem FirstAt.find_eq (h : FirstAt f pat text pre mid post) :
    find pat (text.map f) = some pre.length := by
  have : (text.map f).dropInfix? pat = some (pre.map f, post.map f) := by
    refine List.dropInfix?_eq_some_iff.2 ⟨⟨pat, ?_, BEq.rfl⟩, fun a b c habc hb => ?_⟩
    · rw [h.eq, List.map_append, List.map_append, h.map]
    · obtain ⟨ab, post', rfl, hab, -⟩ := List.map_eq_append_iff.1 habc
      obtain ⟨pre', mid', rfl, rfl, rfl⟩ := List.map_eq_append_iff.1 hab
      simpa using h.least pre' mid' post' rfl (eq_of_beq hb)
  simp [find, this]

theorem find_eq_none_iff : find pat (text.map f) = none ↔ ¬ pat <:+: text.map f := by
  constructor
  · intro hnone hin
    obtain ⟨pre, mid, post, h⟩ := exists_firstAt hin
    rw [h.find_eq] at hnone
    cases hnone
  · intro hnot
    rw [find, Option.map_eq_none_iff, Option.eq_none_iff_forall_ne_some]
    rintro ⟨a, c⟩ hsome
    obtain ⟨⟨b, habc, hb⟩, -⟩ := List.dropInfix?_eq_some_iff.1 hsome
    exact hnot ⟨a, c, by rw [habc, eq_of_beq hb]⟩

end Find

/-! ## Entries joined by a separator -/

/-- The entries with `x` between each and the next. -/
def join (x : α) (es : List (List α)) : List α := [x].intercalate es

@[simp] theorem join_nil {x : α} : join x [] = [] := rfl

@[simp] theorem join_singleton {x : α} {e : List α} : join x [e] = e := List.intercalate_singleton

@[simp] theorem join_cons_cons {x : α} {e e' : List α} {es : List (List α)} :
    join x (e :: e' :: es) = e ++ x :: join x (e' :: es) := by
  simp [join, List.intercalate_cons_cons]

/-- The entries of a text; the empty text has none. -/
def split [BEq α] (x : α) (text : List α) : List (List α) :=
  if text.isEmpty then [] else text.splitOn x

theorem join_cons_of_ne_nil {x : α} {e : List α} {es : List (List α)} (h : es ≠ []) :
    join x (e :: es) = e ++ x :: join x es := by
  obtain ⟨e', es', rfl⟩ := List.exists_cons_of_ne_nil h
  exact join_cons_cons

theorem join_concat {x : α} {e : List α} : ∀ {es : List (List α)}, es ≠ [] →
    join x (es ++ [e]) = join x es ++ x :: e
  | [a], _ => by simp
  | a :: b :: es, _ => by
    rw [List.cons_append, join_cons_of_ne_nil (by simp), join_concat (by simp), join_cons_cons]
    simp

theorem infix_join_of_mem {x : α} {e : List α} : ∀ {es : List (List α)}, e ∈ es →
    e <:+: join x es
  | [a], h => by simp_all
  | a :: b :: es, h => by
    rw [join_cons_cons]
    rcases List.mem_cons.1 h with rfl | h
    · exact (List.prefix_append _ _).isInfix
    · exact (infix_join_of_mem h).trans
        ((List.suffix_cons _ _).trans (List.suffix_append _ _)).isInfix

theorem join_append_cons {x : α} {a e : List α} : ∀ {es : List (List α)},
    join x ((a ++ e) :: es) = a ++ join x (e :: es)
  | [] => by simp
  | _ :: _ => by simp

theorem join_concat_append {x : α} {u v : List α} : ∀ {A : List (List α)},
    join x (A ++ [u ++ v]) = join x (A ++ [u]) ++ v
  | [] => by simp
  | a :: A => by
    rw [List.cons_append, List.cons_append, join_cons_of_ne_nil (by simp),
      join_cons_of_ne_nil (by simp), join_concat_append]
    simp

theorem join_concat_join {x : α} {es : List (List α)} (h : es ≠ []) : ∀ {A : List (List α)},
    join x (A ++ [join x es]) = join x (A ++ es)
  | [] => by simp
  | a :: A => by
    rw [List.cons_append, List.cons_append, join_cons_of_ne_nil (by simp),
      join_cons_of_ne_nil (by simp [h]), join_concat_join h]

section Split

variable [BEq α] [LawfulBEq α] {x : α}

@[simp] theorem join_split {text : List α} : join x (split x text) = text := by
  unfold split
  split_ifs with h
  · simpa using (List.isEmpty_iff.1 h).symm
  · exact List.intercalate_splitOn x

theorem notMem_of_mem_splitOn {text e : List α} (h : e ∈ text.splitOn x) : x ∉ e := by
  by_cases hx : x ∈ text
  · obtain ⟨a, b, htext, ha⟩ := List.eq_append_cons_of_mem hx
    rw [htext, List.splitOn_append_cons_self_of_not_mem ha] at h
    rcases List.mem_cons.1 h with rfl | h
    · exact ha
    · exact notMem_of_mem_splitOn h
  · rw [List.splitOn_eq_singleton hx, List.mem_singleton] at h
    exact h ▸ hx
termination_by text.length
decreasing_by
  rw [htext, List.length_append, List.length_cons]
  omega

theorem notMem_of_mem_split {text e : List α} (h : e ∈ split x text) : x ∉ e := by
  unfold split at h
  split_ifs at h
  · cases h
  · exact notMem_of_mem_splitOn h

/-- Separator-free entries can be read back. -/
theorem join_inj {es es' : List (List α)} (hne : es ≠ []) (hne' : es' ≠ [])
    (hx : ∀ e ∈ es, x ∉ e) (hx' : ∀ e ∈ es', x ∉ e) (h : join x es = join x es') : es = es' := by
  rw [← List.splitOn_intercalate x hx hne, ← List.splitOn_intercalate x hx' hne']
  exact congrArg (List.splitOn x) h

end Split

section Separator

variable {x : α} {e t u v w s : List α}

theorem eq_of_append_cons_eq (hx : x ∉ e) (h : e ++ x :: t = u ++ x :: s) :
    u = e ∧ t = s ∨ ∃ u', u = e ++ x :: u' ∧ t = u' ++ x :: s := by
  rcases List.append_eq_append_iff.1 h with ⟨a, rfl, ha⟩ | ⟨b, rfl, hb⟩
  · rcases List.cons_eq_append_iff.1 ha with ⟨rfl, hs⟩ | ⟨u', rfl, rfl⟩
    · obtain ⟨-, rfl⟩ := List.cons.inj hs
      exact .inl ⟨by simp, rfl⟩
    · exact .inr ⟨u', rfl, rfl⟩
  · rcases List.cons_eq_append_iff.1 hb with ⟨rfl, hs⟩ | ⟨b', rfl, rfl⟩
    · obtain ⟨-, rfl⟩ := List.cons.inj hs
      exact .inl ⟨by simp, rfl⟩
    · exact absurd hx (by simp)

theorem eq_of_append_eq_append_cons (hx : x ∉ w) (h : u ++ w = e ++ x :: t) :
    ∃ u', u = e ++ x :: u' ∧ t = u' ++ w := by
  rcases List.append_eq_append_iff.1 h with ⟨a, -, rfl⟩ | ⟨b, rfl, hb⟩
  · exact absurd hx (by simp)
  · rcases List.cons_eq_append_iff.1 hb with ⟨-, rfl⟩ | ⟨u', rfl, rfl⟩
    · exact absurd hx (by simp)
    · exact ⟨u', rfl, rfl⟩

/-- A part without the separator lies on one side of each separator. -/
theorem eq_of_append_cons_eq_append (hx : x ∉ w) (h : e ++ x :: t = u ++ w ++ s) :
    (∃ s', e = u ++ w ++ s' ∧ s = s' ++ x :: t) ∨ ∃ u', u = e ++ x :: u' ∧ t = u' ++ w ++ s := by
  rcases List.append_eq_append_iff.1 h with ⟨a, ha, hs⟩ | ⟨b, rfl, rfl⟩
  · rcases List.cons_eq_append_iff.1 hs with ⟨rfl, rfl⟩ | ⟨a', rfl, rfl⟩
    · exact .inl ⟨[], by simpa using ha.symm, rfl⟩
    · obtain ⟨u', rfl, rfl⟩ := eq_of_append_eq_append_cons hx ha
      exact .inr ⟨u', rfl, by simp⟩
  · exact .inl ⟨b, rfl, rfl⟩

end Separator

/-! ## The first entry of a kind -/

section First

variable {p : α → Prop} {A A' B B' es : List α} {e e' : α}

theorem exists_first (p : α → Prop) (es : List α) :
    (∃ A e B, es = A ++ e :: B ∧ (∀ d ∈ A, ¬ p d) ∧ p e) ∨ ∀ d ∈ es, ¬ p d := by
  classical
  cases h : es.find? (fun d => decide (p d)) with
  | none => exact .inr (by simpa using h)
  | some e =>
    obtain ⟨he, A, B, heq, hA⟩ := List.find?_eq_some_iff_append.1 h
    exact .inl ⟨A, e, B, heq, by simpa using hA, by simpa using he⟩

/-- An element of the kind is the first one or stands behind it. -/
theorem eq_first_or_behind (h : A ++ e :: B = A' ++ e' :: B') (hA : ∀ d ∈ A, ¬ p d)
    (he' : p e') : (A' = A ∧ e' = e ∧ B' = B) ∨ ∃ C, A' = A ++ e :: C ∧ B = C ++ e' :: B' := by
  rcases List.append_eq_append_iff.1 h with ⟨as, rfl, has⟩ | ⟨bs, rfl, hbs⟩
  · rcases List.cons_eq_append_iff.1 has with ⟨rfl, heq⟩ | ⟨C, rfl, hC⟩
    · obtain ⟨rfl, rfl⟩ := List.cons.inj heq
      exact .inl ⟨by simp, rfl, rfl⟩
    · exact .inr ⟨C, rfl, hC⟩
  · rcases List.cons_eq_append_iff.1 hbs with ⟨rfl, heq⟩ | ⟨bs', rfl, -⟩
    · obtain ⟨rfl, rfl⟩ := List.cons.inj heq
      exact .inl ⟨by simp, rfl, rfl⟩
    · exact absurd he' (hA e' (by simp))

theorem first_unique (h : A ++ e :: B = A' ++ e' :: B') (hA : ∀ d ∈ A, ¬ p d)
    (hA' : ∀ d ∈ A', ¬ p d) (he : p e) (he' : p e') : A' = A ∧ e' = e ∧ B' = B := by
  rcases eq_first_or_behind h hA he' with heq | ⟨C, rfl, -⟩
  · exact heq
  · exact absurd he (hA' e (by simp))

end First

/-! ## The search passes an entry or stops in it -/

section Search

variable {f : α → α} {x : α} {P pat : List α} {e t : List α}

/-- No occurrence of `pat` in `e ++ x :: t` begins before `t`. -/
def Passes (f : α → α) (x : α) (pat e t : List α) : Prop :=
  ∀ pre mid post, e ++ x :: t = pre ++ mid ++ post → mid.map f = pat →
    ∃ pre', pre = e ++ x :: pre' ∧ t = pre' ++ mid ++ post

theorem Passes.firstAt {pre mid post : List α} (hpass : Passes f x pat e t)
    (h : FirstAt f pat t pre mid post) :
    FirstAt f pat (e ++ x :: t) (e ++ x :: pre) mid post := by
  refine ⟨by simp [h.eq], h.map, fun pre' mid' post' heq hmid => ?_⟩
  obtain ⟨pre'', rfl, ht⟩ := hpass pre' mid' post' heq hmid
  have := h.least pre'' mid' post' ht hmid
  simpa using this

theorem Passes.absent (hpass : Passes f x pat e t) (h : Absent f pat t) :
    Absent f pat (e ++ x :: t) := by
  intro pre mid post heq hmid
  obtain ⟨pre', -, ht⟩ := hpass pre mid post heq hmid
  exact h pre' mid post ht hmid

/-- The search passes the entries `A`: what it finds in the rest is found behind them. -/
theorem FirstAt.behind {es : List (List α)} {pre mid post : List α} (hes : es ≠ [])
    (h : FirstAt f pat (join x es) pre mid post) : ∀ {A : List (List α)},
    (∀ B a C, A = B ++ a :: C → Passes f x pat a (join x (C ++ es))) →
    FirstAt f pat (join x (A ++ es)) (join x (A ++ [pre])) mid post
  | [], _ => by simpa using h
  | a :: A, hpass => by
    have htail := FirstAt.behind hes h (A := A)
      fun B b C hA => hpass (a :: B) b C (by rw [hA, List.cons_append])
    rw [List.cons_append, List.cons_append, join_cons_of_ne_nil (by simp [hes]),
      join_cons_of_ne_nil (by simp)]
    exact (hpass [] a A rfl).firstAt htail

variable (hf : ∀ c, f c = x ↔ c = x) (hP : x ∉ P)
include hf hP

theorem notMem_of_map_eq {w : List α} (hw : w.map f = P) : x ∉ w := by
  intro hx
  exact hP (hw ▸ List.mem_map.2 ⟨x, hx, (hf x).2 rfl⟩)

/-- An occurrence of `P` with the separator behind it. -/
theorem eq_concat_of_map_eq {mid : List α} (h : mid.map f = P ++ [x]) :
    ∃ w, mid = w ++ [x] ∧ w.map f = P ∧ x ∉ w := by
  obtain ⟨w, l, rfl, hw, hl⟩ := List.map_eq_append_iff.1 h
  obtain ⟨c, rfl, hc⟩ := List.map_eq_singleton_iff.1 hl
  exact ⟨w, by rw [(hf c).1 hc], hw, notMem_of_map_eq hf hP hw⟩

/-- An occurrence of `P` with the separator before it. -/
theorem eq_cons_of_map_eq {mid : List α} (h : mid.map f = x :: P) :
    ∃ w, mid = x :: w ∧ w.map f = P ∧ x ∉ w := by
  obtain ⟨c, w, rfl, hc, hw⟩ := List.map_eq_cons_iff.1 h
  exact ⟨w, by rw [(hf c).1 hc], hw, notMem_of_map_eq hf hP hw⟩

theorem passes_of_not_ends (he : x ∉ e) (h : ¬ P <:+ e.map f) : Passes f x (P ++ [x]) e t := by
  intro pre mid post heq hmid
  obtain ⟨w, rfl, rfl, hw⟩ := eq_concat_of_map_eq hf hP hmid
  rcases eq_of_append_cons_eq he (u := pre ++ w) (s := post) (by simpa using heq) with
    ⟨hu, -⟩ | ⟨u', hu, rfl⟩
  · exact absurd ⟨pre.map f, by rw [← hu, List.map_append]⟩ h
  · obtain ⟨pre', rfl, rfl⟩ := eq_of_append_eq_append_cons hw hu
    exact ⟨pre', rfl, by simp⟩

theorem firstAt_of_ends {a w : List α} (he : x ∉ a ++ w) (hw : w.map f = P) :
    FirstAt f (P ++ [x]) (a ++ w ++ x :: t) a (w ++ [x]) t := by
  refine ⟨by simp, by simp [hw, (hf x).2 rfl], fun pre mid post heq hmid => ?_⟩
  obtain ⟨w', rfl, hw', -⟩ := eq_concat_of_map_eq hf hP hmid
  have hlen : w'.length = w.length := by rw [← List.length_map f, hw', ← hw, List.length_map]
  rcases eq_of_append_cons_eq he (u := pre ++ w') (s := post) (by simpa using heq) with
    ⟨hu, -⟩ | ⟨u', hu, rfl⟩
  · have := congrArg List.length hu
    simp only [List.length_append] at this
    omega
  · have := congrArg List.length hu
    simp only [List.length_append, List.length_cons] at this
    omega

theorem passes_of_not_begins (he : x ∉ e) (h : ¬ P <+: t.map f) : Passes f x (x :: P) e t := by
  intro pre mid post heq hmid
  obtain ⟨w, rfl, rfl, -⟩ := eq_cons_of_map_eq hf hP hmid
  rcases eq_of_append_cons_eq he (u := pre) (s := w ++ post) (by simpa using heq) with
    ⟨-, rfl⟩ | ⟨pre', rfl, rfl⟩
  · exact absurd ⟨post.map f, by rw [List.map_append]⟩ h
  · exact ⟨pre', rfl, by simp⟩

theorem firstAt_of_begins {w post : List α} (he : x ∉ e) (hw : w.map f = P) :
    FirstAt f (x :: P) (e ++ x :: (w ++ post)) e (x :: w) post := by
  refine ⟨by simp, by simp [hw, (hf x).2 rfl], fun pre mid post' heq hmid => ?_⟩
  obtain ⟨w', rfl, -, -⟩ := eq_cons_of_map_eq hf hP hmid
  rcases eq_of_append_cons_eq he (u := pre) (s := w' ++ post') (by simpa using heq) with
    ⟨rfl, -⟩ | ⟨pre', rfl, -⟩
  · exact le_rfl
  · simp

theorem passes_of_absent (h : Absent f P e) : Passes f x P e t := by
  intro pre mid post heq hmid
  rcases eq_of_append_cons_eq_append (notMem_of_map_eq hf hP hmid) heq with
    ⟨s', he, -⟩ | hpre
  · exact absurd hmid (h pre mid s' he)
  · exact hpre

theorem FirstAt.append_cons {pre mid post : List α} (h : FirstAt f P e pre mid post) :
    FirstAt f P (e ++ x :: t) pre mid (post ++ x :: t) := by
  refine ⟨by simp [h.eq], h.map, fun pre' mid' post' heq hmid => ?_⟩
  rcases eq_of_append_cons_eq_append (notMem_of_map_eq hf hP hmid) heq with
    ⟨s', he, -⟩ | ⟨u', rfl, -⟩
  · exact h.least pre' mid' s' he hmid
  · simp only [h.eq, List.length_append]
    omega

/-- A separator-free pattern at the head of a joined text is at the head of its first entry. -/
theorem prefix_join_iff : ∀ {es : List (List α)},
    P <+: (join x (e :: es)).map f ↔ P <+: e.map f
  | [] => by simp
  | e' :: es => by
    rw [join_cons_cons]
    refine ⟨fun ⟨s, hs⟩ => ?_, fun ⟨s, hs⟩ => ⟨s ++ (x :: join x (e' :: es)).map f, ?_⟩⟩
    · obtain ⟨w, post, heq, hw, -⟩ := List.map_eq_append_iff.1 hs.symm
      rcases eq_of_append_cons_eq_append (u := []) (notMem_of_map_eq hf hP hw)
        (by simpa using heq) with ⟨s', rfl, -⟩ | ⟨u', hu, -⟩
      · exact ⟨s'.map f, by simp [hw]⟩
      · simp at hu
    · rw [List.map_append, ← hs, List.append_assoc]

/-- Nothing is found if no entry but the last ends with the pattern. -/
theorem absent_of_not_ends : ∀ {es : List (List α)}, (∀ e ∈ es, x ∉ e) →
    (∀ e ∈ es.dropLast, ¬ P <:+ e.map f) → Absent f (P ++ [x]) (join x es)
  | [], _, _ => by
    intro pre mid post heq hmid
    simp_all
  | [e], hx, _ => by
    intro pre mid post heq hmid
    obtain ⟨w, rfl, -, -⟩ := eq_concat_of_map_eq hf hP hmid
    exact hx e (by simp) (by rw [← join_singleton (x := x) (e := e), heq]; simp)
  | e :: e' :: es, hx, hes => by
    rw [join_cons_cons]
    refine (passes_of_not_ends hf hP (hx e (by simp)) (hes e (by simp))).absent ?_
    exact absent_of_not_ends (fun d hd => hx d (by simp [hd])) fun d hd => hes d (by simp [hd])

/-- Nothing is found if no entry but the first begins with the pattern. -/
theorem absent_of_not_begins : ∀ {es : List (List α)}, (∀ e ∈ es, x ∉ e) →
    (∀ e ∈ es.tail, ¬ P <+: e.map f) → Absent f (x :: P) (join x es)
  | [], _, _ => by
    intro pre mid post heq hmid
    simp_all
  | [e], hx, _ => by
    intro pre mid post heq hmid
    obtain ⟨w, rfl, -, -⟩ := eq_cons_of_map_eq hf hP hmid
    exact hx e (by simp) (by rw [← join_singleton (x := x) (e := e), heq]; simp)
  | e :: e' :: es, hx, hes => by
    rw [join_cons_cons]
    refine (passes_of_not_begins hf hP (hx e (by simp)) ?_).absent ?_
    · rw [prefix_join_iff hf hP]
      exact hes e' (by simp)
    · exact absent_of_not_begins (fun d hd => hx d (by simp [hd]))
        fun d hd => hes d (by simp_all)

/-- Nothing is found if no entry contains the pattern. -/
theorem absent_of_not_contains (hne : P ≠ []) : ∀ {es : List (List α)},
    (∀ e ∈ es, ¬ P <:+: e.map f) → Absent f P (join x es)
  | [], _ => by
    intro pre mid post heq hmid
    simp_all
  | [e], hes => by
    rw [join_singleton]
    exact absent_iff.2 (hes e (by simp))
  | e :: e' :: es, hes => by
    rw [join_cons_cons]
    refine (passes_of_absent hf hP (absent_iff.2 (hes e (by simp)))).absent ?_
    exact absent_of_not_contains hne fun d hd => hes d (by simp [hd])

end Search

end Text
