import StopGap.Mft
import Mathlib.Tactic.Common

/-!
# The name of a file

A file may have several names: one for each hard link, and a short one beside a long one. The
scanner goes through them with `update_file_name` and keeps one name, but the directory of the last
one (`addNames_eq`): a file with links in two directories can end up with a path that is none of its
own.
-/

namespace StopGap

namespace Mft

/-- The name that is kept: the first that is no short one, unless it is for Win32 alone and a POSIX
name follows. Of short names alone the last one. -/
def preferred (names : List FileName) : Option FileName :=
  match names.dropWhile fun fn => fn.type = filenameDos with
  | [] => names.getLast?
  | fn :: rest =>
    if fn.type = filenameWin32 then (rest.find? fun fn => fn.type = filenamePosix).or (some fn)
    else some fn

/-- The name of a file that is its own directory is passed over, but for the root directory. -/
def Counts (id : ℕ) (fn : FileName) : Prop := ¬ (fn.parentMftId = id ∧ id ≠ fileRoot)

instance (id : ℕ) : DecidablePred (Counts id) := fun fn =>
  inferInstanceAs (Decidable (¬ (fn.parentMftId = id ∧ id ≠ fileRoot)))

/-- Whether a further name replaces the one that is kept. -/
def Replaces (kept fn : FileName) : Prop :=
  kept.type = filenameDos ∨ (kept.type = filenameWin32 ∧ fn.type = filenamePosix)

theorem preferred_concat {names : List FileName} {kept : FileName} (h : preferred names = some kept)
    (fn : FileName) : (Replaces kept fn → preferred (names ++ [fn]) = some fn)
      ∧ (¬ Replaces kept fn → preferred (names ++ [fn]) = some kept) := by
  unfold preferred at h ⊢
  rcases hdrop : names.dropWhile (fun fn => decide (fn.type = filenameDos)) with _ | ⟨first, rest⟩
  · -- short names only
    simp only [hdrop] at h
    have hdos : ∀ fn ∈ names, fn.type = filenameDos := by simpa using hdrop
    have hkept : kept.type = filenameDos := hdos kept (List.mem_of_getLast? h)
    refine ⟨fun _ => ?_, fun hno => absurd (.inl hkept) hno⟩
    rw [List.dropWhile_append, hdrop]
    by_cases hfn : fn.type = filenameDos
    · simp [hfn]
    · simp [hfn]
  · simp only [hdrop] at h
    have hfirst : first.type ≠ filenameDos := by
      have := List.head_dropWhile_not (fun fn : FileName => decide (fn.type = filenameDos))
        (l := names) (by rw [hdrop]; simp)
      simpa [hdrop] using this
    have happend : (names ++ [fn]).dropWhile (fun fn => decide (fn.type = filenameDos))
        = first :: (rest ++ [fn]) := by
      rw [List.dropWhile_append, hdrop]
      rfl
    simp only [happend]
    by_cases hwin : first.type = filenameWin32
    · simp only [hwin, if_true, List.find?_append] at h ⊢
      rcases hfind : rest.find? (fun fn => decide (fn.type = filenamePosix)) with _ | posix
      · simp only [hfind, Option.none_or, Option.some.injEq] at h ⊢
        subst h
        constructor
        · intro hrep
          have hposix := (hrep.resolve_left hfirst).2
          simp [hposix]
        · intro hrep
          have hposix : fn.type ≠ filenamePosix := fun hp => hrep (.inr ⟨hwin, hp⟩)
          simp [hposix]
      · simp only [hfind, Option.some_or, Option.some.injEq] at h ⊢
        subst h
        have hposix : posix.type = filenamePosix := by simpa using List.find?_some hfind
        refine ⟨fun hrep => ?_, fun _ => rfl⟩
        rcases hrep with hdos | ⟨hwin', -⟩
        · exact absurd (hposix.symm.trans hdos) (by decide)
        · exact absurd (hposix.symm.trans hwin') (by decide)
    · simp only [hwin, if_false, Option.some.injEq] at h ⊢
      subst h
      refine ⟨fun hrep => ?_, fun _ => rfl⟩
      rcases hrep with hdos | ⟨hwin', -⟩
      · exact absurd hdos hfirst
      · exact absurd hwin' hwin

theorem preferred_singleton (fn : FileName) : preferred [fn] = some fn := by
  by_cases h : fn.type = filenameDos
  · simp [preferred, h]
  · simp [preferred, h]

/-- What is known after some of the names. -/
theorem addNames_cases {mfi : FileInformation} (hnew : mfi.name = []) (names : List FileName)
    (hne : ∀ fn ∈ names, fn.name ≠ []) :
    (names.filter (Counts mfi.baseMftId) = [] ∧ names.foldl FileInformation.addName mfi = mfi)
      ∨ ∃ kept last, kept ∈ names ∧ preferred (names.filter (Counts mfi.baseMftId)) = some kept
        ∧ (names.filter (Counts mfi.baseMftId)).getLast? = some last
        ∧ names.foldl FileInformation.addName mfi
          = { mfi with
              parentDirectoryMftId := last.parentMftId
              nameType := kept.type
              name := kept.name } := by
  induction names using List.reverseRecOn with
  | nil => exact .inl ⟨rfl, rfl⟩
  | append_singleton names fn ih =>
    rw [List.foldl_append, List.foldl_cons, List.foldl_nil, List.filter_append]
    have ih := ih fun fn' h => hne fn' (List.mem_append_left _ h)
    by_cases hcount : Counts mfi.baseMftId fn
    · have hfilter : [fn].filter (Counts mfi.baseMftId) = [fn] := by simp [hcount]
      rw [hfilter]
      right
      rcases ih with ⟨hnil, heq⟩ | ⟨kept, last, hmem, hkept, -, heq⟩
      · -- the first one that counts
        refine ⟨fn, fn, by simp, by rw [hnil]; exact preferred_singleton fn, by simp, ?_⟩
        rw [heq, FileInformation.addName, if_neg hcount, if_pos (.inl hnew)]
      · have hname : kept.name ≠ [] := hne kept (List.mem_append_left _ hmem)
        obtain ⟨hrep, hstay⟩ := preferred_concat hkept fn
        rw [heq, FileInformation.addName, if_neg hcount]
        by_cases h : Replaces kept fn
        · refine ⟨fn, fn, by simp, hrep h, by simp, ?_⟩
          exact if_pos (.inr h)
        · refine ⟨kept, fn, List.mem_append_left _ hmem, hstay h, by simp, ?_⟩
          exact if_neg (not_or.2 ⟨hname, h⟩)
    · have hfilter : [fn].filter (Counts mfi.baseMftId) = [] := by simp [hcount]
      rw [hfilter, List.append_nil]
      have hskip := not_not.1 hcount
      rcases ih with ⟨hnil, heq⟩ | ⟨kept, last, hmem, hkept, hlast, heq⟩
      · exact .inl ⟨hnil, by rw [heq, FileInformation.addName, if_pos hskip]⟩
      · refine .inr ⟨kept, last, List.mem_append_left _ hmem, hkept, hlast, ?_⟩
        rw [heq, FileInformation.addName, if_pos hskip]

/-- Of several names the preferred one is kept, and the directory of the last. -/
theorem addNames_eq {mfi : FileInformation} (hnew : mfi.name = []) {names : List FileName}
    (hne : ∀ fn ∈ names, fn.name ≠ []) {kept last : FileName}
    (hkept : preferred (names.filter (Counts mfi.baseMftId)) = some kept)
    (hlast : (names.filter (Counts mfi.baseMftId)).getLast? = some last) :
    names.foldl FileInformation.addName mfi
      = { mfi with
          parentDirectoryMftId := last.parentMftId
          nameType := kept.type
          name := kept.name } := by
  rcases addNames_cases hnew names hne with ⟨hnil, -⟩ | ⟨kept', last', -, hkept', hlast', heq⟩
  · rw [hnil] at hlast
    cases hlast
  · rw [hkept] at hkept'
    rw [hlast] at hlast'
    cases hkept'
    cases hlast'
    exact heq

/-- A long name in directory 6, its short one, and a link in directory 7. -/
theorem addNames_links :
    ([⟨6, 1, [97]⟩, ⟨6, 2, [98]⟩, ⟨7, 1, [99]⟩] : List FileName).foldl FileInformation.addName
        ⟨8, fileRoot, 0, filenamePosix, []⟩
      = ⟨8, 7, 0, filenameWin32, [97]⟩ :=
  addNames_eq rfl (by decide) (by decide : _ = some ⟨6, 1, [97]⟩)
    (by decide : _ = some ⟨7, 1, [99]⟩)

end Mft

end StopGap
