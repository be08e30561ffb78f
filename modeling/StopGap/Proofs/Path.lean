import StopGap.Path

/-!
# What registering a directory does to the entries

The functions search the whole text of `PATH`, not its entries. The search of `unregisterPath`
stops in the first entry but the last that ends with the directory; if there is none, in the
first entry but the first that begins with it; if there is none either, in the first that
contains it. What is left is computed for each of these, and compared with taking an entry out.
-/

namespace StopGap

open Text

/-- The entries of a `PATH` value. -/
def entries (str : WString) : List WString := split semicolon str

@[simp] theorem join_entries (str : WString) : join semicolon (entries str) = str := join_split

theorem notMem_of_mem_entries {str e : WString} (h : e ∈ entries str) : semicolon ∉ e :=
  notMem_of_mem_split h

namespace System

variable {sys : System} {path str val : WString}

/-- The same text but for case. -/
def Same (sys : System) (e path : WString) : Prop := sys.toupper e = sys.toupper path

instance {e : WString} : Decidable (sys.Same e path) :=
  inferInstanceAs (Decidable (sys.toupper e = sys.toupper path))

/-- The calls on the registry succeed, and `val` is read. -/
structure Serves (sys : System) (val : WString) : Prop where
  opens : sys.opens = true
  writes : sys.writes = true
  reads : sys.regGetValue (some val) = .success val

/-- The directory of the program is `path`, a non-empty text without a semicolon, and the case
mapping neither makes nor takes away a semicolon. -/
structure InstalledIn (sys : System) (path : WString) : Prop where
  dir : sys.getModuleDir = .ok path
  ne : path ≠ []
  plain : semicolon ∉ path
  upper : ∀ c, sys.towupper c = semicolon ↔ c = semicolon

/-- `str'` is `str` with `path` as a new last entry, or `str` itself if it has the entry. -/
structure Registers (sys : System) (path str str' : WString) : Prop where
  add : (∀ e ∈ entries str, ¬ sys.Same e path) →
    str' = join semicolon (entries str ++ [path])
  keep : (∃ e ∈ entries str, sys.Same e path) → str' = str

/-- `str'` is `str` without one entry that is `path`, or `str` itself if it has none. -/
structure Unregisters (sys : System) (path str str' : WString) : Prop where
  remove : (∃ e ∈ entries str, sys.Same e path) → ∃ A e B, entries str = A ++ e :: B ∧
    sys.Same e path ∧ str' = join semicolon (A ++ B)
  keep : (∀ e ∈ entries str, ¬ sys.Same e path) → str' = str

/-- Where `unregisterPath` looks first, it comes to an entry that is `path`. -/
structure Clear (sys : System) (path str : WString) : Prop where
  /-- The first entry but the last that ends with `path` is `path`, or the next one repeats
  its end. -/
  ends : ∀ A e e' B, entries str = A ++ e :: e' :: B →
    (∀ d ∈ A, ¬ sys.toupper path <:+ sys.toupper d) → sys.toupper path <:+ sys.toupper e →
    sys.Same e path ∨ e' = e.drop (e.length - path.length)
  /-- If none does, the first entry but the first that begins with `path` is `path`. -/
  begins : (∀ d ∈ (entries str).dropLast, ¬ sys.toupper path <:+ sys.toupper d) →
    ∀ A a e B, entries str = A ++ a :: e :: B →
    (∀ d ∈ (A ++ [a]).tail, ¬ sys.toupper path <+: sys.toupper d) →
    sys.toupper path <+: sys.toupper e → sys.Same e path
  /-- If none does that either, no entry contains `path` but `path` itself. -/
  contains : (∀ d ∈ (entries str).dropLast, ¬ sys.toupper path <:+ sys.toupper d) →
    (∀ d ∈ (entries str).tail, ¬ sys.toupper path <+: sys.toupper d) →
    ∀ e ∈ entries str, sys.toupper path <:+: sys.toupper e → sys.Same e path

theorem Same.length {e : WString} (h : sys.Same e path) : e.length = path.length := by
  simpa [toupper] using congrArg List.length h

/-- Nothing stands before a text that is the whole. -/
theorem Same.left_nil {a w : WString} (h : sys.Same (a ++ w) path) (hw : sys.Same w path) :
    a = [] := by
  have := h.length
  rw [List.length_append, hw.length] at this
  exact List.length_eq_zero_iff.1 (by omega)

theorem Same.right_nil {w b : WString} (h : sys.Same (w ++ b) path) (hw : sys.Same w path) :
    b = [] := by
  have := h.length
  rw [List.length_append, hw.length] at this
  exact List.length_eq_zero_iff.1 (by omega)

theorem Same.ends {e : WString} (h : sys.Same e path) :
    sys.toupper path <:+ sys.toupper e := h ▸ List.suffix_rfl

theorem Same.begins {e : WString} (h : sys.Same e path) :
    sys.toupper path <+: sys.toupper e := h ▸ List.prefix_rfl

theorem Same.contains {e : WString} (h : sys.Same e path) :
    sys.toupper path <:+: sys.toupper e := h.ends.isInfix

namespace InstalledIn

variable (hi : sys.InstalledIn path)
include hi

theorem notMem_toupper : semicolon ∉ sys.toupper path := by
  intro h
  obtain ⟨c, hc, hup⟩ := List.mem_map.1 h
  exact hi.plain ((hi.upper c).1 hup ▸ hc)

theorem toupper_concat : sys.toupper (path ++ [semicolon]) = sys.toupper path ++ [semicolon] := by
  simp [toupper, (hi.upper semicolon).2 rfl]

theorem toupper_ne : sys.toupper path ≠ [] := by
  simpa [toupper] using hi.ne

/-- The directory occurs in a value if and only if it occurs in an entry. -/
theorem contains_iff : sys.toupper path <:+: sys.toupper str ↔
    ∃ e ∈ entries str, sys.toupper path <:+: sys.toupper e := by
  constructor
  · intro h
    by_contra hnone
    push Not at hnone
    have := absent_of_not_contains hi.upper hi.notMem_toupper hi.toupper_ne hnone
    rw [join_entries] at this
    exact absent_iff.1 this h
  · rintro ⟨e, he, h⟩
    have := (infix_join_of_mem (x := semicolon) he).map sys.towupper
    rw [join_entries] at this
    exact h.trans this

end InstalledIn

theorem append_eq_join (path str : WString) :
    (if str.isEmpty then str else str ++ [semicolon]) ++ path =
      join semicolon (entries str ++ [path]) := by
  by_cases h : str = []
  · simp [h, entries, split]
  · have hne : entries str ≠ [] := by simp [entries, split, h, List.splitOn_ne_nil]
    rw [join_concat hne, join_entries]
    simp [h]

theorem registerPath_eq (hi : sys.InstalledIn path) (hs : sys.Serves str) :
    sys.registerPath (some str) =
      if (Text.find (sys.toupper path) (sys.toupper str)).isSome then
        (some str, some PathError.alreadyPresent.what)
      else (some (join semicolon (entries str ++ [path])), none) := by
  simp only [registerPath, addPath, hi.dir, hs.opens, hs.reads, regSetValueEx, hs.writes,
    append_eq_join, Bool.not_true, Bool.false_eq_true, if_false, if_true, bind, Except.bind]
  split_ifs <;> rfl

theorem registerPath_of_contains (hi : sys.InstalledIn path) (hs : sys.Serves str)
    (h : sys.toupper path <:+: sys.toupper str) :
    sys.registerPath (some str) = (some str, some PathError.alreadyPresent.what) := by
  rw [registerPath_eq hi hs, if_pos]
  rw [← Option.ne_none_iff_isSome]
  exact fun hnone => find_eq_none_iff.1 hnone h

theorem registerPath_of_not_contains (hi : sys.InstalledIn path) (hs : sys.Serves str)
    (h : ¬ sys.toupper path <:+: sys.toupper str) :
    sys.registerPath (some str) = (some (join semicolon (entries str ++ [path])), none) := by
  have hnone : Text.find (sys.toupper path) (sys.toupper str) = none := find_eq_none_iff.2 h
  rw [registerPath_eq hi hs, hnone, if_neg (by simp)]

theorem unregisterPath_eq (hi : sys.InstalledIn path) (hs : sys.Serves str) :
    sys.unregisterPath (some str) =
      match sys.findPath path str with
      | some (pos, path) => (some (cut str pos path.length), none)
      | none => (some str, some PathError.notPresent.what) := by
  simp only [unregisterPath, removePath, hi.dir, hs.opens, hs.reads, regSetValueEx, hs.writes,
    Bool.not_true, Bool.false_eq_true, if_false, if_true, bind, Except.bind]
  cases sys.findPath path str <;> rfl

/-! ## Where the search stops -/

section Search

variable {A B : List WString} {a b e w : WString} (hi : sys.InstalledIn path)
  (hs : sys.Serves str)
include hi hs

theorem unregisterPath_first {pre mid post : WString}
    (h : FirstAt sys.towupper (sys.toupper path ++ [semicolon]) str pre mid post) :
    sys.unregisterPath (some str) = (some (pre ++ post), none) := by
  have hfind : Text.find (sys.toupper (path ++ [semicolon])) (sys.toupper str) =
      some pre.length := by
    rw [hi.toupper_concat]
    exact h.find_eq
  have hcut := h.cut_eq
  rw [unregisterPath_eq hi hs]
  simp only [findPath, hfind]
  simpa [toupper] using hcut

theorem unregisterPath_second {pre mid post : WString}
    (hnot : Absent sys.towupper (sys.toupper path ++ [semicolon]) str)
    (h : FirstAt sys.towupper (semicolon :: sys.toupper path) str pre mid post) :
    sys.unregisterPath (some str) = (some (pre ++ post), none) := by
  have hnone : Text.find (sys.toupper path ++ [semicolon]) (sys.toupper str) = none :=
    find_eq_none_iff.2 (absent_iff.1 hnot)
  have hfind : Text.find (semicolon :: sys.toupper path) (sys.toupper str) = some pre.length :=
    h.find_eq
  have hcut := h.cut_eq
  rw [unregisterPath_eq hi hs]
  simp only [findPath, hi.toupper_concat, hnone, List.dropLast_concat, hfind]
  simpa [toupper] using hcut

theorem unregisterPath_third {pre mid post : WString}
    (hnot : Absent sys.towupper (sys.toupper path ++ [semicolon]) str)
    (hnot' : Absent sys.towupper (semicolon :: sys.toupper path) str)
    (h : FirstAt sys.towupper (sys.toupper path) str pre mid post) :
    sys.unregisterPath (some str) = (some (pre ++ post), none) := by
  have hnone : Text.find (sys.toupper path ++ [semicolon]) (sys.toupper str) = none :=
    find_eq_none_iff.2 (absent_iff.1 hnot)
  have hnone' : Text.find (semicolon :: sys.toupper path) (sys.toupper str) = none :=
    find_eq_none_iff.2 (absent_iff.1 hnot')
  have hfind : Text.find (sys.toupper path) (sys.toupper str) = some pre.length := h.find_eq
  have hcut := h.cut_eq
  rw [unregisterPath_eq hi hs]
  simp only [findPath, hi.toupper_concat, hnone, List.dropLast_concat, hnone', List.tail_cons,
    hfind]
  simpa [toupper] using hcut

theorem unregisterPath_of_not_contains
    (h : ∀ d ∈ entries str, ¬ sys.toupper path <:+: sys.toupper d) :
    sys.unregisterPath (some str) = (some str, some PathError.notPresent.what) := by
  have hnot : ¬ sys.toupper path <:+: sys.toupper str := fun hin => by
    obtain ⟨e, he, hin⟩ := hi.contains_iff.1 hin
    exact h e he hin
  have hnone : Text.find (sys.toupper path ++ [semicolon]) (sys.toupper str) = none :=
    find_eq_none_iff.2 fun hin => hnot ((List.prefix_append _ _).isInfix.trans hin)
  have hnone' : Text.find (semicolon :: sys.toupper path) (sys.toupper str) = none :=
    find_eq_none_iff.2 fun hin => hnot ((List.suffix_cons _ _).isInfix.trans hin)
  have hnone'' : Text.find (sys.toupper path) (sys.toupper str) = none := find_eq_none_iff.2 hnot
  rw [unregisterPath_eq hi hs]
  simp only [findPath, hi.toupper_concat, hnone, List.dropLast_concat, hnone', List.tail_cons,
    hnone'']

/-- An entry that ends with the directory is joined to the next one without its end. -/
theorem unregisterPath_of_ends (h : entries str = A ++ (a ++ w) :: e :: B)
    (hA : ∀ d ∈ A, ¬ sys.toupper path <:+ sys.toupper d) (hw : sys.Same w path) :
    sys.unregisterPath (some str) = (some (join semicolon (A ++ (a ++ e) :: B)), none) := by
  have hplain : ∀ d ∈ A ++ (a ++ w) :: e :: B, semicolon ∉ d :=
    fun d hd => notMem_of_mem_entries (h ▸ hd)
  have hstop : FirstAt sys.towupper (sys.toupper path ++ [semicolon])
      (join semicolon ((a ++ w) :: e :: B)) a (w ++ [semicolon]) (join semicolon (e :: B)) := by
    rw [join_cons_cons]
    exact firstAt_of_ends hi.upper hi.notMem_toupper (hplain _ (by simp)) hw
  have hall := hstop.behind (A := A) (by simp) fun C d D hC =>
    passes_of_not_ends hi.upper hi.notMem_toupper (hplain d (by simp [hC])) (hA d (by simp [hC]))
  rw [← h, join_entries] at hall
  rw [unregisterPath_first hi hs hall, ← join_concat_append, ← join_append_cons,
    join_concat_join (by simp)]

/-- An entry that begins with the directory is joined to the one before without its head. -/
theorem unregisterPath_of_begins
    (hends : ∀ d ∈ (entries str).dropLast, ¬ sys.toupper path <:+ sys.toupper d)
    (h : entries str = A ++ a :: (w ++ b) :: B)
    (hA : ∀ d ∈ (A ++ [a]).tail, ¬ sys.toupper path <+: sys.toupper d) (hw : sys.Same w path) :
    sys.unregisterPath (some str) = (some (join semicolon (A ++ (a ++ b) :: B)), none) := by
  have hplain : ∀ d ∈ A ++ a :: (w ++ b) :: B, semicolon ∉ d :=
    fun d hd => notMem_of_mem_entries (h ▸ hd)
  have hstop : FirstAt sys.towupper (semicolon :: sys.toupper path)
      (join semicolon (a :: (w ++ b) :: B)) a (semicolon :: w) (join semicolon (b :: B)) := by
    rw [join_cons_cons, join_append_cons]
    exact firstAt_of_begins hi.upper hi.notMem_toupper (hplain _ (by simp)) hw
  have hall := hstop.behind (A := A) (by simp) fun C d D hC => by
    refine passes_of_not_begins hi.upper hi.notMem_toupper (hplain d (by simp [hC])) ?_
    -- the entry behind `d` is one of those before the one the search stops at
    obtain ⟨d', D', hD⟩ : ∃ d' D', D ++ [a] = d' :: D' :=
      List.exists_cons_of_ne_nil (by simp)
    have hmem : d' ∈ (A ++ [a]).tail := by
      rw [hC, List.append_assoc, List.cons_append, hD]
      cases C <;> simp
    have heq : D ++ a :: (w ++ b) :: B = d' :: (D' ++ (w ++ b) :: B) := by
      rw [← List.cons_append, ← hD]
      simp
    rw [heq, prefix_join_iff hi.upper hi.notMem_toupper]
    exact hA d' hmem
  rw [← h, join_entries] at hall
  have hnot := absent_of_not_ends hi.upper hi.notMem_toupper
    (fun d hd => notMem_of_mem_entries hd) hends
  rw [join_entries] at hnot
  rw [unregisterPath_second hi hs hnot hall, ← join_concat_append, ← join_append_cons,
    join_concat_join (by simp)]

/-- Elsewhere the directory is cut out of the first entry that contains it. -/
theorem unregisterPath_of_contains
    (hends : ∀ d ∈ (entries str).dropLast, ¬ sys.toupper path <:+ sys.toupper d)
    (hbegins : ∀ d ∈ (entries str).tail, ¬ sys.toupper path <+: sys.toupper d)
    (h : entries str = A ++ e :: B)
    (hA : ∀ d ∈ A, ¬ sys.toupper path <:+: sys.toupper d)
    (he : FirstAt sys.towupper (sys.toupper path) e a w b) :
    sys.unregisterPath (some str) = (some (join semicolon (A ++ (a ++ b) :: B)), none) := by
  have hstop : ∃ post, FirstAt sys.towupper (sys.toupper path) (join semicolon (e :: B)) a w post ∧
      a ++ post = join semicolon ((a ++ b) :: B) := by
    cases B with
    | nil => exact ⟨b, by simpa using he, by simp⟩
    | cons d B =>
      refine ⟨b ++ semicolon :: join semicolon (d :: B), ?_, by simp⟩
      rw [join_cons_cons]
      exact he.append_cons hi.upper hi.notMem_toupper
  obtain ⟨post, hstop, hpost⟩ := hstop
  have hall := hstop.behind (A := A) (by simp) fun C d D hC =>
    passes_of_absent hi.upper hi.notMem_toupper (absent_iff.2 (hA d (by simp [hC])))
  rw [← h, join_entries] at hall
  have hnot := absent_of_not_ends hi.upper hi.notMem_toupper
    (fun d hd => notMem_of_mem_entries hd) hends
  have hnot' := absent_of_not_begins hi.upper hi.notMem_toupper
    (fun d hd => notMem_of_mem_entries hd) hbegins
  rw [join_entries] at hnot hnot'
  rw [unregisterPath_third hi hs hnot hnot' hall, ← join_concat_append, hpost,
    join_concat_join (by simp)]

end Search

/-! ## Taking an entry out -/

section Remove

variable {A B : List WString} {a b d e w : WString}

theorem plain_of_subset {es es' : List WString} (h : entries str = es) (hsub : es' ⊆ es) :
    ∀ e ∈ es', semicolon ∉ e :=
  fun _ he => notMem_of_mem_entries (h ▸ hsub he)

/-- A value with one entry less is reached only by taking out an entry that is the directory. -/
theorem Unregisters.eq_removed {es : List WString}
    (hun : sys.Unregisters path str (join semicolon es)) (hne : es ≠ [])
    (hplain : ∀ e ∈ es, semicolon ∉ e) (hlen : es.length + 1 = (entries str).length) :
    ∃ A d B, entries str = A ++ d :: B ∧ sys.Same d path ∧ es = A ++ B := by
  by_cases hex : ∃ d ∈ entries str, sys.Same d path
  · obtain ⟨A, d, B, hsplit, hd, heq⟩ := hun.remove hex
    refine ⟨A, d, B, hsplit, hd, join_inj hne ?_ hplain (plain_of_subset hsplit (by simp)) heq⟩
    have := List.length_pos_iff.2 hne
    rw [hsplit] at hlen
    rw [← List.length_pos_iff]
    simp only [List.length_append, List.length_cons] at hlen ⊢
    omega
  · have heq := hun.keep (by simpa using hex)
    rw [← join_entries str] at heq
    have hall := join_inj hne (by rw [← List.length_pos_iff]; omega) hplain
      (plain_of_subset rfl (List.Subset.refl _)) heq
    rw [hall] at hlen
    omega

theorem unregisters_iff_of_ends (h : entries str = A ++ (a ++ w) :: e :: B)
    (hA : ∀ d ∈ A, ¬ sys.toupper path <:+ sys.toupper d) (hw : sys.Same w path) :
    sys.Unregisters path str (join semicolon (A ++ (a ++ e) :: B)) ↔
      sys.Same (a ++ w) path ∨ e = w := by
  have hplain : ∀ d ∈ A ++ (a ++ e) :: B, semicolon ∉ d := by
    have hx : ∀ d ∈ A ++ (a ++ w) :: e :: B, semicolon ∉ d := plain_of_subset h (by simp)
    simp only [List.forall_mem_append, List.forall_mem_cons] at hx ⊢
    simp only [List.mem_append, not_or] at hx ⊢
    exact ⟨hx.1, ⟨hx.2.1.1, hx.2.2.1⟩, hx.2.2.2⟩
  constructor
  · intro hun
    obtain ⟨A', d, B', hsplit, hd, hrest⟩ := hun.eq_removed (by simp) hplain (by simp [h]; omega)
    rcases eq_first_or_behind (h.symm.trans hsplit) hA hd.ends with ⟨-, rfl, -⟩ | ⟨C, rfl, -⟩
    · exact .inl hd
    · simp only [List.append_assoc, List.append_cancel_left_eq, List.cons_append,
        List.cons.injEq] at hrest
      exact .inr hrest.1
  · rintro (hsame | rfl)
    · obtain rfl := hsame.left_nil hw
      refine ⟨fun _ => ⟨A, _, e :: B, h, hsame, by simp⟩, fun hnone => ?_⟩
      exact absurd hsame (hnone _ (by simp [h]))
    · refine ⟨fun _ => ⟨A ++ [a ++ e], e, B, by simp [h], hw, by simp⟩, fun hnone => ?_⟩
      exact absurd hw (hnone e (by simp [h]))

theorem clear_iff_of_ends (h : entries str = A ++ (a ++ w) :: e :: B)
    (hA : ∀ d ∈ A, ¬ sys.toupper path <:+ sys.toupper d) (hw : sys.Same w path) :
    sys.Clear path str ↔ sys.Same (a ++ w) path ∨ e = w := by
  have hends : sys.toupper path <:+ sys.toupper (a ++ w) :=
    hw.ends.trans ⟨sys.toupper a, by simp [toupper]⟩
  have hdrop : (a ++ w).drop ((a ++ w).length - path.length) = w := by
    rw [List.length_append, hw.length, Nat.add_sub_cancel, List.drop_left]
  have hmem : a ++ w ∈ (entries str).dropLast := by
    rw [h, List.dropLast_append_of_ne_nil (by simp)]
    simp
  constructor
  · intro hc
    simpa only [hdrop] using hc.ends A (a ++ w) e B h hA hends
  · intro hor
    refine ⟨fun A' e' e'' B' h' hA' he' => ?_, fun hnone => absurd hends (hnone _ hmem),
      fun hnone => absurd hends (hnone _ hmem)⟩
    obtain ⟨rfl, rfl, hB⟩ := first_unique (h.symm.trans h') hA hA' hends he'
    obtain ⟨rfl, rfl⟩ := List.cons.inj hB
    rwa [hdrop]

/-- If no entry but the last ends with the directory, only the last can be it. -/
theorem eq_nil_of_not_ends
    (hends : ∀ d ∈ (entries str).dropLast, ¬ sys.toupper path <:+ sys.toupper d)
    (h : entries str = A ++ d :: B) (hd : sys.Same d path) : B = [] := by
  by_contra hne
  refine hends d ?_ hd.ends
  rw [h, List.dropLast_append_of_ne_nil (by simp), List.dropLast_cons_of_ne_nil hne]
  simp

theorem unregisters_iff_of_begins
    (hends : ∀ d ∈ (entries str).dropLast, ¬ sys.toupper path <:+ sys.toupper d)
    (h : entries str = A ++ a :: (w ++ b) :: B) (hw : sys.Same w path) :
    sys.Unregisters path str (join semicolon (A ++ (a ++ b) :: B)) ↔ sys.Same (w ++ b) path := by
  have hplain : ∀ d ∈ A ++ (a ++ b) :: B, semicolon ∉ d := by
    have hx : ∀ d ∈ A ++ a :: (w ++ b) :: B, semicolon ∉ d := plain_of_subset h (by simp)
    simp only [List.forall_mem_append, List.forall_mem_cons] at hx ⊢
    simp only [List.mem_append, not_or] at hx ⊢
    exact ⟨hx.1, ⟨hx.2.1, hx.2.2.1.2⟩, hx.2.2.2⟩
  constructor
  · intro hun
    obtain ⟨A', d, B', hsplit, hd, hrest⟩ := hun.eq_removed (by simp) hplain (by simp [h]; omega)
    -- the last entry is out, so the one that was joined stands as before: nothing was added to it
    obtain rfl := eq_nil_of_not_ends hends hsplit hd
    have hall := h.symm.trans hsplit
    rw [List.append_nil] at hrest
    rw [← hrest, List.append_assoc, List.append_cancel_left_eq, List.cons_append,
      List.cons.injEq, List.self_eq_append_right] at hall
    obtain rfl := hall.1
    simpa using hw
  · intro hsame
    obtain rfl := hsame.right_nil hw
    refine ⟨fun _ => ⟨A ++ [a], _, B, by simp [h], hsame, by simp⟩, fun hnone => ?_⟩
    exact absurd hsame (hnone _ (by simp [h]))

theorem clear_iff_of_begins
    (hends : ∀ d ∈ (entries str).dropLast, ¬ sys.toupper path <:+ sys.toupper d)
    (h : entries str = A ++ a :: (w ++ b) :: B)
    (hA : ∀ d ∈ (A ++ [a]).tail, ¬ sys.toupper path <+: sys.toupper d) (hw : sys.Same w path) :
    sys.Clear path str ↔ sys.Same (w ++ b) path := by
  have hbegins : sys.toupper path <+: sys.toupper (w ++ b) :=
    hw.begins.trans ⟨sys.toupper b, by simp [toupper]⟩
  have htail : ∀ {A : List WString} {a e : WString} {B : List WString},
      entries str = A ++ a :: e :: B → (entries str).tail = (A ++ [a]).tail ++ e :: B := by
    intro A a e B h
    rw [h, ← List.tail_append_of_ne_nil (by simp)]
    simp
  constructor
  · exact fun hc => hc.begins hends A a (w ++ b) B h hA hbegins
  · intro hsame
    refine ⟨fun A' e e' B' h' _ he => ?_, fun _ A' a' e B' h' hA' he => ?_, fun _ hnone => ?_⟩
    · refine absurd he (hends e ?_)
      rw [h', List.dropLast_append_of_ne_nil (by simp)]
      simp
    · obtain ⟨-, rfl, -⟩ := first_unique ((htail h).symm.trans (htail h')) hA hA' hbegins he
      exact hsame
    · exact absurd hbegins (hnone _ (by rw [htail h]; simp))

theorem unregisters_iff_of_contains (hne : path ≠ [])
    (hends : ∀ d ∈ (entries str).dropLast, ¬ sys.toupper path <:+ sys.toupper d)
    (hbegins : ∀ d ∈ (entries str).tail, ¬ sys.toupper path <+: sys.toupper d)
    (h : entries str = A ++ (a ++ w ++ b) :: B) (hw : sys.Same w path) :
    sys.Unregisters path str (join semicolon (A ++ (a ++ b) :: B)) ↔
      ∀ d ∈ entries str, sys.toupper path <:+: sys.toupper d → sys.Same d path := by
  have hplain : ∀ d ∈ A ++ (a ++ b) :: B, semicolon ∉ d := by
    have hx : ∀ d ∈ A ++ (a ++ w ++ b) :: B, semicolon ∉ d := plain_of_subset h (by simp)
    simp only [List.forall_mem_append, List.forall_mem_cons] at hx ⊢
    simp only [List.mem_append, not_or] at hx ⊢
    exact ⟨hx.1, ⟨hx.2.1.1.1, hx.2.1.2⟩, hx.2.2⟩
  -- an entry that is the directory is the only one
  have honly : ∀ {A' d B'}, entries str = A' ++ d :: B' → sys.Same d path → A' = [] ∧ B' = [] := by
    intro A' d B' hsplit hd
    refine ⟨?_, eq_nil_of_not_ends hends hsplit hd⟩
    by_contra hA'
    refine hbegins d ?_ hd.begins
    rw [hsplit, List.tail_append_of_ne_nil hA']
    simp
  constructor
  · intro hun
    by_cases hex : ∃ d ∈ entries str, sys.Same d path
    · obtain ⟨A', d, B', hsplit, hd, -⟩ := hun.remove hex
      obtain ⟨rfl, rfl⟩ := honly hsplit hd
      intro e he _
      rw [hsplit, List.nil_append, List.mem_singleton] at he
      exact he ▸ hd
    · -- the value is shorter than it was
      have heq := hun.keep (by simpa using hex)
      rw [← join_entries str, h] at heq
      have hrest := join_inj (by simp) (by simp) hplain (plain_of_subset h (by simp)) heq
      simp only [List.append_cancel_left_eq, List.cons.injEq, List.append_assoc, and_true,
        List.self_eq_append_left] at hrest
      exact absurd (List.length_eq_zero_iff.1 (by rw [← hw.length, hrest, List.length_nil])) hne
  · intro hall
    have hsame : sys.Same (a ++ w ++ b) path := by
      refine hall _ (by simp [h]) (hw.contains.trans ⟨sys.toupper a, sys.toupper b, ?_⟩)
      simp [toupper]
    obtain ⟨rfl, rfl⟩ := honly h hsame
    have := hsame.length
    simp only [List.length_append, hw.length] at this
    obtain rfl : a = [] := List.length_eq_zero_iff.1 (by omega)
    obtain rfl : b = [] := List.length_eq_zero_iff.1 (by omega)
    refine ⟨fun _ => ⟨[], _, [], h, hsame, by simp⟩, fun hnone => ?_⟩
    exact absurd hsame (hnone _ (by simp [h]))

end Remove

/-! ## The two functions -/

/-- A system with the program in `C:\\sg` and the case mapping of ASCII letters. -/
def inSg : System where
  moduleFileName := some (wide "C:\\sg\\stopgap.exe")
  splitpath := fun _ => some (wide "C:", wide "\\sg\\")
  towupper := fun c => if 97 ≤ c ∧ c ≤ 122 then c - 32 else c
  opens := true
  reads := true
  writes := true

theorem inSg_installedIn : inSg.InstalledIn (wide "C:\\sg") where
  dir := by decide
  ne := by decide
  plain := by decide
  upper := by
    intro c
    simp only [inSg, semicolon]
    split_ifs with h
    · have hle : (97 : ℕ) ≤ c.toNat := UInt16.le_iff_toNat_le.1 h.1
      have hsub : (c - 32).toNat = c.toNat - 32 :=
        UInt16.toNat_sub_of_le c 32 (UInt16.le_iff_toNat_le.2 (Nat.le_trans (by decide) hle))
      have hsemi : (59 : WChar).toNat = 59 := rfl
      rw [← UInt16.toNat_inj, ← UInt16.toNat_inj, hsub, hsemi]
      omega
    · rfl

theorem inSg_serves (val : WString) (h : val.length < 100) : inSg.Serves val := by
  refine ⟨rfl, rfl, ?_⟩
  rw [regGetValue, if_pos (by rfl), if_neg (by omega)]

theorem registers_iff (hi : sys.InstalledIn path) (hs : sys.Serves str) :
    ∃ r, (sys.registerPath (some str)).1 = some r ∧ (sys.Registers path str r ↔
      ((∃ e ∈ entries str, sys.toupper path <:+: sys.toupper e) →
        ∃ e ∈ entries str, sys.Same e path)) := by
  by_cases hin : sys.toupper path <:+: sys.toupper str
  · refine ⟨str, by rw [registerPath_of_contains hi hs hin], fun hreg _ => ?_, fun h => ?_⟩
    · by_contra hnone
      have heq := congrArg List.length (hreg.add (by simpa using hnone))
      have := List.length_pos_iff.2 hi.ne
      rw [← append_eq_join] at heq
      split_ifs at heq <;> simp only [List.length_append] at heq <;> omega
    · obtain ⟨e, he, hsame⟩ := h (hi.contains_iff.1 hin)
      exact ⟨fun hnone => absurd hsame (hnone e he), fun _ => rfl⟩
  · have hnone : ¬ ∃ e ∈ entries str, sys.Same e path := fun ⟨e, he, hsame⟩ =>
      hin (hi.contains_iff.2 ⟨e, he, hsame.contains⟩)
    refine ⟨_, by rw [registerPath_of_not_contains hi hs hin], fun _ h => ?_, fun _ => ?_⟩
    · exact absurd (hi.contains_iff.2 h) hin
    · exact ⟨fun _ => rfl, fun h => absurd h hnone⟩

/-- The text of an entry that ends with the directory. -/
theorem exists_append_of_ends {e : WString} (h : sys.toupper path <:+ sys.toupper e) :
    ∃ a w, e = a ++ w ∧ sys.Same w path := by
  obtain ⟨s, hs⟩ := h
  obtain ⟨a, w, rfl, -, hw⟩ := List.map_eq_append_iff.1 hs.symm
  exact ⟨a, w, rfl, hw⟩

theorem exists_append_of_begins {e : WString} (h : sys.toupper path <+: sys.toupper e) :
    ∃ w b, e = w ++ b ∧ sys.Same w path := by
  obtain ⟨s, hs⟩ := h
  obtain ⟨w, b, rfl, hw, -⟩ := List.map_eq_append_iff.1 hs.symm
  exact ⟨w, b, rfl, hw⟩

theorem unregisters_iff (hi : sys.InstalledIn path) (hs : sys.Serves str) :
    ∃ u, (sys.unregisterPath (some str)).1 = some u ∧
      (sys.Unregisters path str u ↔ sys.Clear path str) := by
  -- the cases are those of the three searches
  rcases exists_first (fun d => sys.toupper path <:+ sys.toupper d) (entries str).dropLast with
    ⟨A, e, B, hsplit, hA, he⟩ | hends
  · have hne : entries str ≠ [] := by
      rintro h
      simp [h] at hsplit
    obtain ⟨a, w, rfl, hw⟩ := exists_append_of_ends he
    obtain ⟨e', B', hlast⟩ : ∃ e' B', B ++ [(entries str).getLast hne] = e' :: B' :=
      List.exists_cons_of_ne_nil (by simp)
    have h : entries str = A ++ (a ++ w) :: e' :: B' := by
      rw [← hlast, ← List.cons_append, ← List.append_assoc, ← hsplit,
        List.dropLast_concat_getLast]
    exact ⟨_, by rw [unregisterPath_of_ends hi hs h hA hw],
      (unregisters_iff_of_ends h hA hw).trans (clear_iff_of_ends h hA hw).symm⟩
  rcases exists_first (fun d => sys.toupper path <+: sys.toupper d) (entries str).tail with
    ⟨A, e, B, hsplit, hA, he⟩ | hbegins
  · obtain ⟨w, b, rfl, hw⟩ := exists_append_of_begins he
    obtain ⟨c, t, hct⟩ := List.exists_cons_of_ne_nil (l := entries str) (by
      rintro h
      simp [h] at hsplit)
    obtain ⟨A', a, hAa⟩ : ∃ A' a, c :: A = A' ++ [a] :=
      ⟨(c :: A).dropLast, (c :: A).getLast (by simp), (List.dropLast_concat_getLast _).symm⟩
    have h : entries str = A' ++ a :: (w ++ b) :: B := by
      rw [hct, List.tail_cons] at hsplit
      rw [hct, hsplit, ← List.cons_append, hAa]
      simp
    have htail : ∀ d ∈ (A' ++ [a]).tail, ¬ sys.toupper path <+: sys.toupper d := by
      rw [← hAa]
      exact hA
    exact ⟨_, by rw [unregisterPath_of_begins hi hs hends h htail hw],
      (unregisters_iff_of_begins hends h hw).trans (clear_iff_of_begins hends h htail hw).symm⟩
  rcases exists_first (fun d => sys.toupper path <:+: sys.toupper d) (entries str) with
    ⟨A, e, B, h, hA, he⟩ | hnone
  · obtain ⟨a, w, b, hfirst⟩ := exists_firstAt he
    refine ⟨_, by rw [unregisterPath_of_contains hi hs hends hbegins h hA hfirst], ?_⟩
    rw [hfirst.eq] at h
    rw [unregisters_iff_of_contains hi.ne hends hbegins h hfirst.map]
    refine ⟨fun hall => ⟨fun A' d d' B' h' _ hd => ?_, fun _ A' d d' B' h' _ hd => ?_,
      fun _ _ => hall⟩, fun hc => hc.contains hends hbegins⟩
    · exact .inl (hall d (by simp [h']) hd.isInfix)
    · exact hall d' (by simp [h']) hd.isInfix
  · refine ⟨str, by rw [unregisterPath_of_not_contains hi hs hnone], ?_⟩
    refine iff_of_true ⟨fun ⟨e, he, hsame⟩ => absurd hsame.contains (hnone e he), fun _ => rfl⟩
      ⟨fun A d d' B h _ hd => ?_, fun _ A d d' B h _ hd => ?_, fun _ _ d hd hin => ?_⟩
    · exact absurd hd.isInfix (hnone d (by simp [h]))
    · exact absurd hd.isInfix (hnone d' (by simp [h]))
    · exact absurd hin (hnone d hd)

/-- `registerPath` appends the directory where it is no entry, and only there, if and only if it
occurs in no entry but one that is it. `unregisterPath` takes one such entry out, and nothing
else, if and only if its search comes to one. -/
theorem registerPath_and_unregisterPath_iff (hi : sys.InstalledIn path) (hs : sys.Serves str) :
    ∃ r u, (sys.registerPath (some str)).1 = some r ∧
      (sys.unregisterPath (some str)).1 = some u ∧
      (sys.Registers path str r ↔
        ((∃ e ∈ entries str, sys.toupper path <:+: sys.toupper e) →
          ∃ e ∈ entries str, sys.Same e path)) ∧
      (sys.Unregisters path str u ↔ sys.Clear path str) := by
  obtain ⟨r, hr, hriff⟩ := registers_iff hi hs
  obtain ⟨u, hu, huiff⟩ := unregisters_iff hi hs
  exact ⟨r, u, hr, hu, hriff, huiff⟩

theorem registerPath_and_unregisterPath_entry :
    ∃ r u, (inSg.registerPath (some (wide "c:\\SG;D:\\bin"))).1 = some r ∧
      (inSg.unregisterPath (some (wide "c:\\SG;D:\\bin"))).1 = some u ∧
      inSg.Registers (wide "C:\\sg") (wide "c:\\SG;D:\\bin") r ∧
      inSg.Unregisters (wide "C:\\sg") (wide "c:\\SG;D:\\bin") u := by
  obtain ⟨r, u, hr, hu, hriff, huiff⟩ := registerPath_and_unregisterPath_iff inSg_installedIn
    (inSg_serves (wide "c:\\SG;D:\\bin") (by decide))
  have hsame : inSg.Same (wide "c:\\SG") (wide "C:\\sg") := by decide
  have h : entries (wide "c:\\SG;D:\\bin") =
      [] ++ ([] ++ wide "c:\\SG") :: wide "D:\\bin" :: [] := by decide
  exact ⟨r, u, hr, hu, hriff.2 fun _ => ⟨_, by simp [h], hsame⟩,
    huiff.2 ((clear_iff_of_ends h (by simp) hsame).2 (.inl hsame))⟩

/-- Neither function goes by the entries: with `C:\\sg2` in the value, `C:\\sg` is not added, and
it is cut out of that entry. -/
theorem registerPath_and_unregisterPath_part :
    inSg.InstalledIn (wide "C:\\sg") ∧ inSg.Serves (wide "C:\\sg2;D:\\bin") ∧
    inSg.registerPath (some (wide "C:\\sg2;D:\\bin")) =
      (some (wide "C:\\sg2;D:\\bin"), some PathError.alreadyPresent.what) ∧
    inSg.unregisterPath (some (wide "C:\\sg2;D:\\bin")) = (some (wide "2;D:\\bin"), none) ∧
    ¬ inSg.Registers (wide "C:\\sg") (wide "C:\\sg2;D:\\bin") (wide "C:\\sg2;D:\\bin") ∧
    ¬ inSg.Unregisters (wide "C:\\sg") (wide "C:\\sg2;D:\\bin") (wide "2;D:\\bin") := by
  have hnone : ∀ e ∈ entries (wide "C:\\sg2;D:\\bin"), ¬ inSg.Same e (wide "C:\\sg") := by decide
  refine ⟨inSg_installedIn, inSg_serves _ (by decide), by decide, by decide, fun h => ?_,
    fun h => ?_⟩
  · exact absurd (h.add hnone) (by decide)
  · exact absurd (h.keep hnone) (by decide)

theorem entries_join {es : List WString} (hne : join semicolon es ≠ []) (hes : es ≠ [])
    (hplain : ∀ e ∈ es, semicolon ∉ e) : entries (join semicolon es) = es := by
  simp only [entries, split, List.isEmpty_iff, hne, if_false]
  exact List.splitOn_intercalate semicolon hplain hes

/-- Where `registerPath` adds the directory, `unregisterPath` restores the value. -/
theorem unregisterPath_registerPath (hi : sys.InstalledIn path) (hs : sys.Serves str)
    (hs' : ∀ val, (sys.registerPath (some str)).1 = some val → sys.Serves val)
    (hnew : (sys.registerPath (some str)).2 ≠ some PathError.alreadyPresent.what) :
    sys.unregisterPath (sys.registerPath (some str)).1 = (some str, none) := by
  have hnot : ¬ sys.toupper path <:+: sys.toupper str := fun hin =>
    hnew (by rw [registerPath_of_contains hi hs hin])
  rw [registerPath_of_not_contains hi hs hnot] at hs' ⊢
  have hserves := hs' _ rfl
  have hnone : ∀ e ∈ entries str, ¬ sys.toupper path <:+: sys.toupper e :=
    fun e he hin => hnot (hi.contains_iff.2 ⟨e, he, hin⟩)
  have hentries : entries (join semicolon (entries str ++ [path])) = entries str ++ [path] := by
    refine entries_join ?_ (by simp) ?_
    · rw [← append_eq_join]
      simp [hi.ne]
    · rw [List.forall_mem_append]
      exact ⟨fun e he => notMem_of_mem_entries he, by simpa using hi.plain⟩
  have hends : ∀ d ∈ (entries (join semicolon (entries str ++ [path]))).dropLast,
      ¬ sys.toupper path <:+ sys.toupper d := by
    rw [hentries, List.dropLast_concat]
    exact fun d hd h => hnone d hd h.isInfix
  rcases List.eq_nil_or_concat (entries str) with hnil | ⟨A, a, hconcat⟩
  · -- the value was empty: the third search comes to the directory itself
    have hpath : FirstAt sys.towupper (sys.toupper path) path [] path [] :=
      ⟨by simp, rfl, fun _ _ _ _ _ => Nat.zero_le _⟩
    have hstr : str = [] := by rw [← join_entries str, hnil, join_nil]
    rw [hnil] at hentries hends hserves ⊢
    rw [unregisterPath_of_contains hi hserves (A := []) (B := []) hends
      (by rw [hentries]; simp) hentries (by simp) hpath]
    simp [hstr]
  · have hlast : entries (join semicolon (entries str ++ [path])) =
        A ++ a :: (path ++ []) :: [] := by
      rw [hentries, hconcat]
      simp
    rw [unregisterPath_of_begins hi hserves hends hlast ?_ rfl]
    · rw [List.append_nil, ← List.concat_eq_append, ← hconcat, join_entries]
    · intro d hd hpre
      refine hnone d ?_ hpre.isInfix
      rw [hconcat, List.concat_eq_append]
      exact List.mem_of_mem_tail hd

theorem unregisterPath_registerPath_entries :
    inSg.registerPath (some (wide "D:\\bin;E:\\x"))
        = (some (wide "D:\\bin;E:\\x;C:\\sg"), none) ∧
      inSg.unregisterPath (inSg.registerPath (some (wide "D:\\bin;E:\\x"))).1
        = (some (wide "D:\\bin;E:\\x"), none) := by
  have hreg : inSg.registerPath (some (wide "D:\\bin;E:\\x"))
      = (some (wide "D:\\bin;E:\\x;C:\\sg"), none) := by decide
  refine ⟨hreg, unregisterPath_registerPath inSg_installedIn (inSg_serves _ (by decide)) ?_ ?_⟩
  · rw [hreg]
    rintro _ ⟨rfl⟩
    exact inSg_serves _ (by decide)
  · rw [hreg]
    decide

end System

end StopGap
