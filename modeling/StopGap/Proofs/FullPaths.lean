import StopGap.Proofs.MftOrder

/-!
# The paths of the files

`build_full_paths` keeps the paths it has built and takes them up again when it comes to the
directory from below. Where every stream has its directories up to the root on the list, each path
is the names of the directories and the name, whatever the order of the list; wherever a text was
cut on the way, the path is the whole one cut at its end (`full_paths_of_ancestors`). The walk up
from a directory comes back exactly if it meets the root, a directory whose path is known, or one
that is missing (`parentLoop_returns_iff`): directories that contain each other keep it going for
ever.
-/

namespace StopGap

namespace Mft

open Exec Exec.Prog

/-- The name of a directory, and the record of the directory it is in. -/
def directory (files : List FileInfo) (id : ℕ) : Option (WString × ℕ) :=
  (findLinear files id).map fun d => (d.name, d.parentDirectoryMftId)

/-- The names of the directories from the root down to record `id`. -/
inductive Ancestors (dir : ℕ → Option (WString × ℕ)) : ℕ → List WString → Prop
  | root : Ancestors dir fileRoot []
  | under {id parent : ℕ} {name : WString} {names : List WString} (hne : id ≠ fileRoot)
      (hdir : dir id = some (name, parent)) (h : Ancestors dir parent names) :
      Ancestors dir id (names ++ [name])

/-- The names, with backslashes. -/
def joined (names : List WString) (name : WString) : WString :=
  names.foldr (fun n path => n ++ backslash :: path) name

/-- A stream without its path. -/
def FileInfo.bare (f : FileInfo) : FileInfo := { f with path := none }

theorem Ancestors.unique {dir : ℕ → Option (WString × ℕ)} {id : ℕ} {names names' : List WString}
    (h : Ancestors dir id names) (h' : Ancestors dir id names') : names = names' := by
  induction h generalizing names' with
  | root =>
    cases h' with
    | root => rfl
    | under hne => exact absurd rfl hne
  | under hne hdir _ ih =>
    cases h' with
    | root => exact absurd rfl hne
    | under _ hdir' h' =>
      obtain ⟨rfl, rfl⟩ := Prod.mk.inj (Option.some.inj (hdir.symm.trans hdir'))
      rw [ih h']

theorem joined_concat (names : List WString) (n path : WString) :
    joined (names ++ [n]) path = joined names (n ++ backslash :: path) := by
  simp [joined]

theorem joined_append (path path' : WString) : ∀ names : List WString,
    joined names (path ++ path') = joined names path ++ path'
  | [] => rfl
  | n :: names => by
    have ih := joined_append path path' names
    simp only [joined, List.foldr_cons] at ih ⊢
    rw [ih]
    simp

theorem snwprintf_append (s t : WString) : snwprintf (s ++ snwprintf t) = snwprintf (s ++ t) := by
  simp [snwprintf, List.take_append, List.take_take]

theorem snwprintf_prefix (s t : WString) : snwprintf (snwprintf s ++ t) = snwprintf (s ++ t) := by
  rcases Nat.lt_or_ge s.length (maxPath - 1) with h | h
  · rw [snwprintf, snwprintf, List.take_of_length_le h.le]
    rfl
  · simp [snwprintf, List.take_append, h]

theorem snwprintf_getElem_one (s : WString) : (snwprintf s)[1]? = s[1]? :=
  List.getElem?_take_of_lt (by decide)

/-! ### Directories -/

/-- What a lookup of directories sees of a stream. -/
def FileInfo.place (f : FileInfo) : ℕ × WString × ℕ :=
  (f.baseMftId, f.name, f.parentDirectoryMftId)

theorem directory_eq (files : List FileInfo) (id : ℕ) :
    directory files id = ((files.map FileInfo.place).find? fun p =>
      p.1 = id && (Text.find (wide ":$") p.2.1).isNone).map Prod.snd := by
  rw [List.find?_map, Option.map_map]
  rfl

theorem directory_congr {files files' : List FileInfo}
    (h : files'.map FileInfo.place = files.map FileInfo.place) :
    directory files' = directory files := by
  funext id
  rw [directory_eq, h, ← directory_eq]

theorem places_congr {files files' : List FileInfo}
    (h : files'.map FileInfo.bare = files.map FileInfo.bare) :
    files'.map FileInfo.place = files.map FileInfo.place := by
  have hplace : ∀ l : List FileInfo,
      l.map FileInfo.place = (l.map FileInfo.bare).map FileInfo.place := by
    intro l
    rw [List.map_map]
    rfl
  rw [hplace, h, ← hplace]

theorem keys_congr {files files' : List FileInfo}
    (h : files'.map FileInfo.bare = files.map FileInfo.bare) :
    files'.map FileInfo.key = files.map FileInfo.key := by
  have hkey : ∀ l : List FileInfo, l.map FileInfo.key = (l.map FileInfo.bare).map FileInfo.key := by
    intro l
    rw [List.map_map]
    rfl
  rw [hkey, h, ← hkey]

section Build

variable {env : Env} {files : List FileInfo}

/-- The path of a stream is that of its directories and its name, cut at the end. -/
def Pathed (env : Env) (files : List FileInfo) (f : FileInfo) : Prop :=
  ∃ names, Ancestors (directory files) f.parentDirectoryMftId names
    ∧ f.path = some (snwprintf (rootPath env ++ joined names f.name))

/-- Every stream has its directories up to the root, fewer than `depth` of them. A question mark as
the second character would pass for that of the root path. -/
def Rooted (depth : ℕ) (files : List FileInfo) : Prop :=
  ∀ f ∈ files, ∃ names, Ancestors (directory files) f.parentDirectoryMftId names
    ∧ names.length < depth ∧ (joined names f.name)[1]? ≠ some questionMark

/-- While the paths are built, for the first `i` streams at least. -/
structure Building (env : Env) (files : List FileInfo) (i : ℕ) (s : State) : Prop where
  calm : s.errors = 0
  bare : s.filelist.map FileInfo.bare = files.map FileInfo.bare
  right : ∀ f ∈ s.filelist, f.path = none ∨ Pathed env files f
  built : ∀ j f, j < i → s.filelist[j]? = some f → f.path.isSome

theorem checkForTermination_calm {s : State} (hstay : ∀ k, env.terminator k = false)
    (hs : s.errors = 0) : Returns (checkForTermination env) s
      fun stop s' => stop = false ∧ s' = { s with clock := s.clock + 1 } := by
  refine Returns.get_bind (.ite (fun h => ?_) fun _ => returns_ask_bind (.pure ⟨hstay _, rfl⟩))
  simp [hs] at h

theorem findDirectoryByMftId_eq {s : State} {i : ℕ} (hs : Building env files i s)
    (hsorted : files.Pairwise fun f g => f.baseMftId ≤ g.baseMftId) (id : ℕ) :
    findDirectoryByMftId env s.filelist id = findLinear s.filelist id := by
  unfold findDirectoryByMftId
  split_ifs
  · refine bisect_eq_findLinear ?_
    rw [keys_congr hs.bare]
    exact List.pairwise_map.2 hsorted
  · rfl

/-- The walk up: what it returns is the names down from the root, or the whole path if it has met a
directory with one, cut at the end. -/
theorem parentLoop_returns {i : ℕ} (hstay : ∀ k, env.terminator k = false)
    (hsorted : files.Pairwise fun f g => f.baseMftId ≤ g.baseMftId) {id : ℕ}
    {names : List WString} (h : Ancestors (directory files) id names) :
    ∀ {fuel : ℕ} {child : WString} {s : State}, Building env files i s → names.length < fuel →
      Returns (parentLoop env fuel id (snwprintf child)) s
        fun r s' => (∃ k, s' = { s with clock := k }) ∧ ∃ path, r = some (snwprintf path)
          ∧ (path = joined names child ∨ path = rootPath env ++ joined names child) := by
  induction h with
  | root =>
    rintro (_ | fuel) child s hs hfuel
    · simp at hfuel
    · exact .ite (fun _ => .pure ⟨⟨s.clock, rfl⟩, child, rfl, .inl rfl⟩) fun hne => absurd rfl hne
  | @under id parent name names hne hdir h ih =>
    rintro (_ | fuel) child s hs hfuel
    · simp at hfuel
    rw [List.length_append, List.length_singleton] at hfuel
    rw [joined_concat]
    refine .ite (fun h => absurd h hne) fun _ =>
      (checkForTermination_calm hstay hs.calm).bind fun stop s₁ ⟨hstop, hs₁⟩ => ?_
    subst hstop hs₁
    refine .ite (fun h => by simp at h) fun _ => ?_
    -- the directory is found, as it is on the list
    have hdir' := hdir
    rw [← directory_congr (places_congr hs.bare)] at hdir'
    obtain ⟨d, hd, heq⟩ := Option.map_eq_some_iff.1 hdir'
    obtain ⟨rfl, rfl⟩ := Prod.mk.inj heq
    have hfind := (findDirectoryByMftId_eq hs hsorted id).trans hd
    refine Returns.bind (Q := fun r s' => r = ⟨some (d.path.getD d.name), d.parentDirectoryMftId,
        d.path.isSome⟩ ∧ s' = { s with clock := s.clock + 1 }) ?_ fun r s₁ ⟨hr, hs₁⟩ => ?_
    · refine Returns.get_bind ?_
      simp only [hfind]
      exact .pure ⟨rfl, rfl⟩
    subst hr hs₁
    have hcut : ∀ parent : WString, snwprintf (parent ++ backslash :: snwprintf child)
        = snwprintf (parent ++ backslash :: child) := by
      intro parent
      simpa using snwprintf_append (parent ++ [backslash]) child
    rcases hs.right d (List.mem_of_find?_eq_some hd) with hpath | ⟨names', hnames', hpath⟩
    · -- without a path the walk goes on
      simp only [hpath, Option.getD_none, Option.getD_some, Option.isSome_none, hcut]
      refine .ite (fun h => by simp at h) fun _ => ?_
      exact @ih fuel (d.name ++ backslash :: child) { s with clock := s.clock + 1 }
        ⟨hs.calm, hs.bare, hs.right, hs.built⟩ (by omega)
    · -- with one it ends here
      obtain rfl := h.unique hnames'
      have hwhole : rootPath env ++ joined names d.name ++ backslash :: child
          = rootPath env ++ joined names (d.name ++ backslash :: child) := by
        rw [joined_append, List.append_assoc]
      simp only [hpath, Option.getD_some, Option.isSome_some, hcut, snwprintf_prefix, hwhole]
      exact .ite (fun _ => .pure ⟨⟨_, rfl⟩, _, rfl, .inr rfl⟩) fun h => absurd trivial h

theorem nativePath_joined {path : WString} (hmark : path[1]? ≠ some questionMark) :
    nativePath env (snwprintf path) = snwprintf (rootPath env ++ path) := by
  rw [nativePath, snwprintf_getElem_one, if_neg hmark, snwprintf_append]

theorem nativePath_root (path : WString) :
    nativePath env (snwprintf (rootPath env ++ path)) = snwprintf (rootPath env ++ path) := by
  have hmark : (rootPath env ++ path)[1]? = some questionMark := rfl
  rw [nativePath, snwprintf_getElem_one, if_pos hmark]

theorem Building.origin {s : State} {i : ℕ} (hs : Building env files i s) {f : FileInfo}
    (hf : f ∈ s.filelist) :
    ∃ f₀ ∈ files, f₀.name = f.name ∧ f₀.parentDirectoryMftId = f.parentDirectoryMftId := by
  have hmem : f.bare ∈ files.map FileInfo.bare := hs.bare ▸ List.mem_map_of_mem hf
  obtain ⟨f₀, hf₀, heq⟩ := List.mem_map.1 hmem
  exact ⟨f₀, hf₀, (congrArg FileInfo.name heq :), (congrArg FileInfo.parentDirectoryMftId heq :)⟩

theorem Building.next {s : State} {i : ℕ} (hs : Building env files i s) {f : FileInfo}
    {path : WString} (hf : s.filelist[i]? = some f)
    (hpath : Pathed env files { f with path := some path }) :
    Building env files (i + 1)
      { s with filelist := s.filelist.modify i fun f => { f with path := some path } } where
  calm := hs.calm
  bare := (map_modify_of_eq (g := fun f : FileInfo => { f with path := some path }) (fun _ => rfl)
    s.filelist i).trans hs.bare
  right := by
    intro g hg
    rcases mem_modify hg with hg | ⟨f', hf', rfl⟩
    · exact hs.right g hg
    · obtain rfl := Option.some.inj (hf.symm.trans hf')
      exact .inr hpath
  built := by
    intro j g hj hg
    rw [List.getElem?_modify] at hg
    obtain ⟨g', hg', rfl⟩ := Option.map_eq_some_iff.1 hg
    by_cases hij : i = j
    · simp [hij]
    · simpa [hij] using hs.built j g' (by omega) hg'

/-- One path: whatever has been built before, it is that of the directories. -/
theorem buildFilePath_returns {depth i : ℕ} {s : State} {f : FileInfo}
    (hstay : ∀ k, env.terminator k = false)
    (hsorted : files.Pairwise fun f g => f.baseMftId ≤ g.baseMftId)
    (hroot : Rooted depth files) (hs : Building env files i s) (hf : s.filelist[i]? = some f) :
    Returns (buildFilePath env depth i f) s fun _ => Building env files (i + 1) := by
  obtain ⟨f₀, hf₀, hname, hparent⟩ := hs.origin (List.mem_of_getElem? hf)
  obtain ⟨names, hnames, hdepth, hmark⟩ := hroot f₀ hf₀
  rw [hname] at hmark
  rw [hparent] at hnames
  refine (parentLoop_returns hstay hsorted hnames hs hdepth).bind
    fun r s' ⟨⟨k, hk⟩, child, hr, hchild⟩ => ?_
  subst hr hk
  have hpath : nativePath env (snwprintf child)
      = snwprintf (rootPath env ++ joined names f.name) := by
    rcases hchild with rfl | rfl
    · exact nativePath_joined hmark
    · exact nativePath_root _
  refine Returns.modify ?_
  rw [hpath]
  exact Building.next (s := { s with clock := k }) ⟨hs.calm, hs.bare, hs.right, hs.built⟩ hf
    ⟨names, hnames, rfl⟩

theorem buildFullPaths_returns {depth : ℕ} (hstay : ∀ k, env.terminator k = false)
    (hsorted : files.Pairwise fun f g => f.baseMftId ≤ g.baseMftId)
    (hroot : Rooted depth files) : ∀ {left i : ℕ} {s : State}, i + left = files.length →
    Building env files i s →
    Returns (buildFullPaths env depth left i) s fun _ => Building env files files.length
  | 0, i, s, hi, hs => by
    rw [Nat.add_zero] at hi
    exact .pure (hi ▸ hs)
  | left + 1, i, s, hi, hs => by
    refine (checkForTermination_calm hstay hs.calm).bind fun stop s₁ ⟨hstop, hs₁⟩ => ?_
    subst hstop hs₁
    refine .ite (fun h => by simp at h) fun _ => .get_bind ?_
    have hlength : s.filelist.length = files.length := by
      simpa using congrArg List.length hs.bare
    obtain ⟨f, hf⟩ : ∃ f, s.filelist[i]? = some f := ⟨_, List.getElem?_eq_getElem (by omega)⟩
    simp only [hf]
    refine (buildFilePath_returns (s := { s with clock := s.clock + 1 }) hstay hsorted hroot
      ⟨hs.calm, hs.bare, hs.right, hs.built⟩ hf).bind fun _ s₂ hs₂ => ?_
    exact buildFullPaths_returns hstay hsorted hroot (by omega) hs₂

/-- Where every stream has its directories, each gets their names and its own as its path. -/
theorem full_paths_of_ancestors {depth : ℕ} {s : State} (hstay : ∀ k, env.terminator k = false)
    (hcalm : s.errors = 0) (hnew : ∀ f ∈ s.filelist, f.path = none)
    (hsorted : s.filelist.Pairwise fun f g => f.baseMftId ≤ g.baseMftId)
    (hroot : Rooted depth s.filelist) :
    Returns (buildFullPaths env depth s.filelist.length 0) s fun _ s' => s'.errors = 0
      ∧ s'.filelist.map FileInfo.bare = s.filelist
      ∧ ∀ f ∈ s'.filelist, Pathed env s.filelist f := by
  have hs : Building env s.filelist 0 s :=
    ⟨hcalm, rfl, fun f hf => .inl (hnew f hf), fun _ _ hj => absurd hj (Nat.not_lt_zero _)⟩
  refine (buildFullPaths_returns hstay hsorted hroot (Nat.zero_add _) hs).mono fun _ s' hs' => ?_
  have hbare : s.filelist.map FileInfo.bare = s.filelist := by
    conv_rhs => rw [← List.map_id s.filelist]
    refine List.map_congr_left fun f hf => ?_
    rw [FileInfo.bare, ← hnew f hf]
    rfl
  refine ⟨hs'.calm, hs'.bare.trans hbare, fun f hf => ?_⟩
  obtain ⟨j, hj⟩ := List.mem_iff_getElem?.1 hf
  have hlt : j < s.filelist.length := by
    have := congrArg List.length hs'.bare
    simp only [List.length_map] at this
    obtain ⟨hlt, -⟩ := List.getElem?_eq_some_iff.1 hj
    omega
  rcases hs'.right f hf with hnone | hpath
  · have := hs'.built j f hlt hj
    simp [hnone] at this
  · exact hpath

/-! ### The end of the walk -/

/-- The walk up from record `id` has an end. -/
inductive Arrives (env : Env) (files : List FileInfo) : ℕ → Prop
  | root : Arrives env files fileRoot
  | missing {id : ℕ} (hne : id ≠ fileRoot) (h : findDirectoryByMftId env files id = none) :
      Arrives env files id
  | known {id : ℕ} {d : FileInfo} (hne : id ≠ fileRoot)
      (h : findDirectoryByMftId env files id = some d) (hpath : d.path.isSome) :
      Arrives env files id
  | up {id : ℕ} {d : FileInfo} (hne : id ≠ fileRoot)
      (h : findDirectoryByMftId env files id = some d) (hpath : ¬ d.path.isSome)
      (hd : Arrives env files d.parentDirectoryMftId) : Arrives env files id

theorem parentLoop_root (fuel : ℕ) (child : WString) (s : State) :
    (parentLoop env (fuel + 1) fileRoot child s).out = .ok (some child) s := rfl

section Step

variable {s : State} {id : ℕ} (hstay : ∀ k, env.terminator k = false) (hcalm : s.errors = 0)
  (hne : id ≠ fileRoot)

include hstay hcalm

theorem checkForTermination_run :
    checkForTermination env s = ⟨[], .ok false { s with clock := s.clock + 1 }⟩ := by
  rw [checkForTermination, bind_run (rfl : get s = ⟨[], .ok s s⟩), if_neg (by simp [hcalm]),
    bind_run (rfl : ask s = ⟨[], .ok s.clock { s with clock := s.clock + 1 }⟩), hstay]
  rfl

include hne

theorem parentLoop_found {d : FileInfo} (h : findDirectoryByMftId env s.filelist id = some d)
    (fuel : ℕ) (child : WString) :
    (parentLoop env (fuel + 1) id child s).out
      = ((if d.path.isSome then
          pure (some (snwprintf (d.path.getD d.name ++ backslash :: child)))
        else parentLoop env fuel d.parentDirectoryMftId
          (snwprintf (d.path.getD d.name ++ backslash :: child)) : M _)
        { s with clock := s.clock + 1 }).out := by
  rw [parentLoop, if_neg hne, bind_run (checkForTermination_run hstay hcalm)]
  simp only [Bool.false_eq_true, if_false]
  have hinfo : getDirectoryInformation env id { s with clock := s.clock + 1 } = ⟨[], .ok
      ⟨some (d.path.getD d.name), d.parentDirectoryMftId, d.path.isSome⟩
      { s with clock := s.clock + 1 }⟩ := by
    rw [getDirectoryInformation, bind_run (rfl : get _ = ⟨[], .ok _ _⟩)]
    simp only [h]
    rfl
  rw [bind_run hinfo]
  rfl

theorem parentLoop_missing (h : findDirectoryByMftId env s.filelist id = none) (fuel : ℕ)
    (child : WString) :
    (parentLoop env (fuel + 1) id child s).out
      = (parentLoop env fuel fileRoot (snwprintf (backslash :: child))
        { s with clock := s.clock + 1, errors := s.errors + 1 }).out := by
  rw [parentLoop, if_neg hne, bind_run (checkForTermination_run hstay hcalm)]
  simp only [Bool.false_eq_true, if_false]
  have hinfo : getDirectoryInformation env id { s with clock := s.clock + 1 } = ⟨[], .ok
      ⟨none, fileRoot, false⟩ { s with clock := s.clock + 1, errors := s.errors + 1 }⟩ := by
    rw [getDirectoryInformation, bind_run (rfl : get _ = ⟨[], .ok _ _⟩)]
    simp only [h]
    rfl
  rw [bind_run hinfo]
  rfl

end Step

theorem arrives_of_returns (hstay : ∀ k, env.terminator k = false) :
    ∀ {fuel id : ℕ} {child : WString} {s s' : State} {r : Option WString}, s.errors = 0 →
      (parentLoop env fuel id child s).out = .ok r s' → Arrives env s.filelist id
  | 0, _, _, _, _, _, _, h => by cases h
  | fuel + 1, id, child, s, s', r, hcalm, h => by
    by_cases hne : id = fileRoot
    · rw [hne]
      exact .root
    rcases hfind : findDirectoryByMftId env s.filelist id with _ | d
    · exact .missing hne hfind
    · rw [parentLoop_found hstay hcalm hne hfind] at h
      split_ifs at h with hpath
      · exact .known hne hfind hpath
      · have hd := arrives_of_returns (s := { s with clock := s.clock + 1 }) hstay hcalm h
        exact .up hne hfind hpath hd

/-- The walk up comes back exactly if it has an end: where it goes round in a cycle of directories
no number of steps is enough. -/
theorem parentLoop_returns_iff (hstay : ∀ k, env.terminator k = false) {s : State}
    (hcalm : s.errors = 0) (id : ℕ) (child : WString) :
    (∃ fuel r s', (parentLoop env fuel id child s).out = .ok r s') ↔ Arrives env s.filelist id := by
  refine ⟨fun ⟨fuel, r, s', h⟩ => arrives_of_returns hstay hcalm h, fun h => ?_⟩
  generalize hfiles : s.filelist = files at h
  induction h generalizing s child with
  | root => exact ⟨1, _, _, parentLoop_root 0 child s⟩
  | missing hne h =>
    subst hfiles
    exact ⟨2, _, _, (parentLoop_missing hstay hcalm hne h 1 child).trans (parentLoop_root 0 _ _)⟩
  | known hne h hpath =>
    subst hfiles
    have hrun := parentLoop_found hstay hcalm hne h 0 child
    rw [if_pos hpath] at hrun
    exact ⟨1, _, _, hrun⟩
  | @up id d hne h hpath hd ih =>
    subst hfiles
    obtain ⟨fuel, r, s', hrun⟩ := @ih { s with clock := s.clock + 1 } hcalm
      (snwprintf (d.path.getD d.name ++ backslash :: child)) rfl
    refine ⟨fuel + 1, r, s', (parentLoop_found hstay hcalm hne h fuel child).trans ?_⟩
    rw [if_neg hpath]
    exact hrun

/-- Directories whose parents are among them, none with a path. -/
theorem not_arrives_of_closed {C : ℕ → Prop} (hC : ∀ id, C id → id ≠ fileRoot
      ∧ ∃ d, findDirectoryByMftId env files id = some d ∧ ¬ d.path.isSome
        ∧ C d.parentDirectoryMftId) {id : ℕ} (hid : C id) : ¬ Arrives env files id := by
  intro h
  induction h with
  | root => exact (hC _ hid).1 rfl
  | missing _ h =>
    obtain ⟨-, d, hd, -⟩ := hC _ hid
    cases h.symm.trans hd
  | known _ h hpath =>
    obtain ⟨-, d, hd, hnone, -⟩ := hC _ hid
    cases h.symm.trans hd
    exact hnone hpath
  | up _ h _ _ ih =>
    obtain ⟨-, d, hd, -, hparent⟩ := hC _ hid
    cases h.symm.trans hd
    exact ih hparent

/-- A driver that has nothing to say, and a user who waits. -/
def Env.idle : Env where
  ml := ⟨1024, 100, 4096, 8⟩
  volumeLetter := 67
  dumpFiles := true
  allowPartialScan := false
  record := fun _ _ => none
  sectors := fun _ _ _ => none
  terminator := fun _ => false
  towlower := id
  allocates := true

/-- A file in a directory in the root directory, and two directories that contain each other. -/
def nestedFiles : List FileInfo :=
  [⟨wide "d", none, attributeDirectory, 6, fileRoot, .zero⟩, ⟨wide "f", none, 0, 7, 6, .zero⟩]

def circularFiles : List FileInfo :=
  [⟨wide "d", none, attributeDirectory, 6, 7, .zero⟩,
    ⟨wide "e", none, attributeDirectory, 7, 6, .zero⟩]

theorem circularFiles_parentLoop :
    (∃ fuel r s', (parentLoop .idle fuel 6 (wide "f")
        { State.init with filelist := nestedFiles }).out = .ok r s')
      ∧ ¬ ∃ fuel r s', (parentLoop .idle fuel 6 (wide "f")
        { State.init with filelist := circularFiles }).out = .ok r s' := by
  constructor
  · exact ⟨2, _, _, rfl⟩
  · rw [parentLoop_returns_iff (fun _ => rfl) rfl]
    refine not_arrives_of_closed (C := (· ∈ [6, 7])) ?_ (by decide)
    intro id hid
    rcases List.mem_pair.1 hid with rfl | rfl
    · exact ⟨by decide, _, (by decide : _ = circularFiles[0]?), by decide, by decide⟩
    · exact ⟨by decide, _, (by decide : _ = circularFiles[1]?), by decide, by decide⟩

end Build

end Mft

end StopGap
