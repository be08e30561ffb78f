import StopGap.Proofs.ScanDisk

/-!
# The walk through the directories

Where the directories of a volume are a finite tree, the walk lists each file of it once, with its
path, behind those in it and after it, and comes to an end (`winxScanDisk_lists_tree`). It does not
look into reparse points, nor into directories it cannot open, and passes the entries for the
directory itself and its parent.
-/

namespace StopGap

namespace Mft

open Exec Exec.Prog

/-- An entry of a directory with its contents. -/
inductive Tree where
  | node (entry : DirEntry) (contents : List Tree)

namespace Tree

def entry : Tree → DirEntry
  | node e _ => e

def contents : Tree → List Tree
  | node _ ts => ts

def name (t : Tree) : WString := t.entry.fileName

end Tree

/-- The walk looks into the entry. -/
def DirEntry.entered (e : DirEntry) : Bool :=
  e.fileAttributes &&& attributeDirectory ≠ 0 && e.fileAttributes &&& attributeReparsePoint = 0

section Listed

variable (disp : WString → Disposition)

/-- An entry of the directory `path` on the list. -/
def fileOf (path : WString) (e : DirEntry) : FileInfo :=
  ⟨e.fileName, some (entryPath path e.fileName), e.fileAttributes, 0, 0,
    disp (entryPath path e.fileName)⟩

mutual

/-- The files of a tree in the directory `path`, in the order they are met. -/
def listedTree (path : WString) : Tree → List FileInfo
  | .node e ts => fileOf disp path e
      :: if e.entered then listedTrees (entryPath path e.fileName) ts else []

def listedTrees (path : WString) : List Tree → List FileInfo
  | [] => []
  | t :: ts => listedTree path t ++ listedTrees path ts

end

end Listed

/-- What the driver says of the directory `path`: it cannot be opened, or it is listed in some
portions, and so are the directories in it. -/
inductive Lists (d : Drive) : WString → List Tree → Prop
  | closed {path : WString} (hopen : ∀ k, d.opens k path = false) : Lists d path []
  | opened {path : WString} {trees : List Tree} {portions : List (List DirEntry)}
      (hopen : ∀ k, d.opens k path = true) (hquery : ∀ k j, d.query k path j = portions[j]?)
      (hentries : portions.flatten.filter (fun e => !e.skipped) = trees.map Tree.entry)
      (hplain : ∀ t ∈ trees, 0 ∉ t.name ∧ backslash ∉ t.name)
      (hnames : (trees.map Tree.name).Nodup)
      (hcontents : ∀ t ∈ trees, t.entry.entered = true →
        Lists d (entryPath path t.name) t.contents) : Lists d path trees

/-- Nothing fails, and a dump of a file leaves `disp`. -/
structure Walkable (d : Drive) (disp : WString → Disposition) : Prop where
  stay : ∀ k, d.table.terminator k = false
  dumps : d.table.dumpFiles = true
  dump : ∀ k path, d.dump k path = (disp path, true)
  memory : ∀ k, d.allocates k = true

section Steps

variable {d : Drive} {disp : WString → Disposition} {path : WString}

theorem ftwCheckForTermination_returns (hw : Walkable d disp) (s : State) :
    Returns (ftwCheckForTermination d) s fun stop s' =>
      stop = false ∧ s'.filelist = s.filelist :=
  returns_ask_bind (.pure ⟨hw.stay _, rfl⟩)

theorem dumpHead_returns (hw : Walkable d disp) {s : State} {f : FileInfo} {fs : List FileInfo}
    (hs : s.filelist = f :: fs) :
    Returns (dumpHead d path) s fun ok s' =>
      ok = true ∧ s'.filelist = { f with disp := disp path } :: fs := by
  refine .ite (fun _ => returns_ask_bind ?_) fun hno => absurd hw.dumps hno
  rw [hw.dump]
  exact .modify_bind (.pure ⟨rfl, by simp [hs]⟩)

theorem upToZero_eq {s : WString} (h : 0 ∉ s) : upToZero s = s :=
  List.takeWhile_eq_self_iff.2 fun c hc => by
    have : c ≠ 0 := fun h0 => h (h0 ▸ hc)
    simpa using this

theorem ftwAddEntryToFilelist_returns (hw : Walkable d disp) (hpath : path ≠ []) {e : DirEntry}
    (he : 0 ∉ e.fileName) (s : State) :
    Returns (ftwAddEntryToFilelist d path e) s fun r s' =>
      (∃ f, r = some f ∧ f.name = e.fileName ∧ f.flags = e.fileAttributes)
        ∧ s'.filelist = fileOf disp path e :: s.filelist := by
  refine .ite (fun h => absurd h hpath) fun _ => .modify_bind (returns_ask_bind ?_)
  rw [hw.memory, upToZero_eq he]
  refine .ite (fun h => by simp at h) fun _ => returns_ask_bind ?_
  rw [hw.memory]
  refine .ite (fun h => by simp at h) fun _ => ?_
  refine (dumpHead_returns hw rfl).bind fun ok s' ⟨hok, hs'⟩ => ?_
  exact .ite (fun _ => .pure ⟨⟨_, rfl, rfl, rfl⟩, hs'⟩) fun hno => absurd hok hno

/-- The walk comes to the end of `x` and has put `files` in front of the list by then. -/
def Adds (x : ℕ → M WalkResult) (files : List FileInfo) : Prop :=
  ∃ N, ∀ fuel, N ≤ fuel → ∀ s, Returns (x fuel) s fun r s' =>
    r = .success ∧ s'.filelist = files.reverse ++ s.filelist

/-- The walk is right about what is below a tree. -/
def Walked (d : Drive) (disp : WString → Disposition) (path : WString) (t : Tree) : Prop :=
  0 ∉ t.name ∧ (t.entry.entered = true →
    Adds (fun fuel => ftwHelper d fuel (entryPath path t.name))
      (listedTrees disp (entryPath path t.name) t.contents))

section Loop

variable {portion portion' : ℕ} {rest rest' : List DirEntry} {files : List FileInfo}

theorem listEntries_passes (hw : Walkable d disp) {e : DirEntry} (hskip : e.skipped = true)
    (hnext : ∀ s, Returns (nextEntry d path portion rest) s fun r s' =>
      s'.filelist = s.filelist ∧ r = some (e, portion', rest'))
    (hrest : Adds (fun fuel => listEntries d fuel path portion' rest') files) :
    Adds (fun fuel => listEntries d fuel path portion rest) files := by
  obtain ⟨N, hN⟩ := hrest
  refine ⟨N + 1, fun fuel hfuel s => ?_⟩
  obtain ⟨fuel, rfl⟩ := Nat.exists_eq_add_of_le' (Nat.le_of_add_left_le hfuel)
  refine (ftwCheckForTermination_returns hw s).bind fun stop s₁ ⟨hstop, h₁⟩ => ?_
  refine .ite (fun h => by simp [hstop] at h) fun _ => (hnext s₁).bind fun r s₂ ⟨h₂, hr⟩ => ?_
  subst hr
  refine .ite (fun _ => (hN fuel (by omega) s₂).mono fun r s' ⟨hr, hs'⟩ => ⟨hr, ?_⟩)
    fun hno => absurd hskip hno
  rw [hs', h₂, h₁]

theorem listEntries_takes (hw : Walkable d disp) (hpath : path ≠ []) {t : Tree}
    (hskip : t.entry.skipped = false) (ht : Walked d disp path t)
    (hnext : ∀ s, Returns (nextEntry d path portion rest) s fun r s' =>
      s'.filelist = s.filelist ∧ r = some (t.entry, portion', rest'))
    (hrest : Adds (fun fuel => listEntries d fuel path portion' rest') files) :
    Adds (fun fuel => listEntries d fuel path portion rest)
      (listedTree disp path t ++ files) := by
  obtain ⟨e, contents⟩ := t
  obtain ⟨N, hN⟩ := hrest
  obtain ⟨M, hM⟩ : ∃ M, e.entered = true → ∀ fuel, M ≤ fuel → ∀ s,
      Returns (ftwHelper d fuel (entryPath path e.fileName)) s fun r s' => r = .success
        ∧ s'.filelist = (listedTrees disp (entryPath path e.fileName) contents).reverse
          ++ s.filelist := by
    by_cases he : e.entered = true
    · obtain ⟨M, hM⟩ := ht.2 he
      exact ⟨M, fun _ => hM⟩
    · exact ⟨0, fun h => absurd h he⟩
  refine ⟨max N M + 1, fun fuel hfuel s => ?_⟩
  obtain ⟨fuel, rfl⟩ := Nat.exists_eq_add_of_le' (Nat.le_of_add_left_le hfuel)
  refine (ftwCheckForTermination_returns hw s).bind fun stop s₁ ⟨hstop, h₁⟩ => ?_
  refine .ite (fun h => by simp [hstop] at h) fun _ => (hnext s₁).bind fun r s₂ ⟨h₂, hr⟩ => ?_
  subst hr
  refine .ite (fun h => by simp [Tree.entry] at hskip; simp [Tree.entry, hskip] at h) fun _ => ?_
  refine (ftwAddEntryToFilelist_returns hw hpath ht.1 s₂).bind
    fun r s₃ ⟨⟨f, hf, hname, hflags⟩, h₃⟩ => ?_
  subst hf
  refine (ftwCheckForTermination_returns hw s₃).bind fun stop s₄ ⟨hstop, h₄⟩ => ?_
  have hsame : f.entered = e.entered := by
    simp only [FileInfo.entered, DirEntry.entered, hflags, Tree.entry]
  rw [h₂, h₁] at h₃
  refine .ite (fun h => by simp [hstop] at h) fun _ => .ite (fun hin => ?_) fun hout => ?_
  · rw [hname]
    refine (hM (hsame ▸ hin) fuel (by omega) s₄).bind fun r s₅ ⟨hr, h₅⟩ => ?_
    subst hr
    refine (hN fuel (by omega) s₅).mono fun r s' ⟨hr, hs'⟩ => ⟨hr, ?_⟩
    rw [hs', h₅, h₄, h₃, listedTree, if_pos (hsame ▸ hin)]
    simp [Tree.entry]
  · refine (hN fuel (by omega) s₄).mono fun r s' ⟨hr, hs'⟩ => ⟨hr, ?_⟩
    rw [hs', h₄, h₃, listedTree, if_neg (hsame ▸ hout)]
    simp [Tree.entry]

/-- The next entry is passed, or it is that of the first tree. -/
theorem listEntries_step (hw : Walkable d disp) (hpath : path ≠ []) {e : DirEntry}
    {entries : List DirEntry} {trees : List Tree}
    (hnext : ∀ s, Returns (nextEntry d path portion rest) s fun r s' =>
      s'.filelist = s.filelist ∧ r = some (e, portion', rest'))
    (htrees : (e :: entries).filter (fun e => !e.skipped) = trees.map Tree.entry)
    (hwalked : ∀ t ∈ trees, Walked d disp path t)
    (hrest : ∀ {trees' : List Tree}, trees' ⊆ trees →
      entries.filter (fun e => !e.skipped) = trees'.map Tree.entry →
      Adds (fun fuel => listEntries d fuel path portion' rest') (listedTrees disp path trees')) :
    Adds (fun fuel => listEntries d fuel path portion rest) (listedTrees disp path trees) := by
  rcases hskip : e.skipped with _ | _
  · rw [List.filter_cons_of_pos (by simp [hskip])] at htrees
    rcases trees with _ | ⟨t, trees⟩
    · cases htrees
    obtain ⟨rfl, htail⟩ := List.cons.inj htrees
    rw [listedTrees]
    exact listEntries_takes hw hpath hskip (hwalked t List.mem_cons_self) hnext
      (hrest (List.subset_cons_self _ _) htail)
  · rw [List.filter_cons_of_neg (by simp [hskip])] at htrees
    exact listEntries_passes hw hskip hnext (hrest (List.Subset.refl _) htrees)

end Loop

theorem listEntries_rest (hw : Walkable d disp) (hpath : path ≠ []) {portion : ℕ}
    {entries : List DirEntry}
    (hend : ∀ {trees : List Tree}, entries.filter (fun e => !e.skipped) = trees.map Tree.entry →
      (∀ t ∈ trees, Walked d disp path t) →
      Adds (fun fuel => listEntries d fuel path portion []) (listedTrees disp path trees)) :
    ∀ {rest : List DirEntry} {trees : List Tree},
      (rest ++ entries).filter (fun e => !e.skipped) = trees.map Tree.entry →
      (∀ t ∈ trees, Walked d disp path t) →
      Adds (fun fuel => listEntries d fuel path portion rest) (listedTrees disp path trees)
  | [], _, htrees, hwalked => hend htrees hwalked
  | _ :: _, _, htrees, hwalked =>
    listEntries_step hw hpath (fun _ => .pure ⟨rfl, rfl⟩) htrees hwalked fun hsub h =>
      listEntries_rest hw hpath hend h fun t ht => hwalked t (hsub ht)

/-- The loop at the end of a portion lists what the later ones have. -/
theorem listEntries_adds (hw : Walkable d disp) (hpath : path ≠ []) :
    ∀ {later : List (List DirEntry)} {portion : ℕ} {trees : List Tree},
      (∀ k j, d.query k path (portion + j) = later[j]?) →
      later.flatten.filter (fun e => !e.skipped) = trees.map Tree.entry →
      (∀ t ∈ trees, Walked d disp path t) →
      Adds (fun fuel => listEntries d fuel path portion []) (listedTrees disp path trees)
  | [], portion, trees, hquery, htrees, _ => by
    obtain rfl : trees = [] := List.map_eq_nil_iff.1 htrees.symm
    refine ⟨1, fun fuel hfuel s => ?_⟩
    obtain ⟨fuel, rfl⟩ := Nat.exists_eq_add_of_le' hfuel
    refine (ftwCheckForTermination_returns hw s).bind fun stop s₁ ⟨hstop, h₁⟩ => ?_
    refine .ite (fun h => by simp [hstop] at h) fun _ => ?_
    have hnext : Returns (nextEntry d path portion []) s₁ fun r s' =>
        s'.filelist = s₁.filelist ∧ r = none := by
      have hnow : d.query s₁.clock path portion = none := hquery s₁.clock 0
      refine returns_ask_bind ?_
      rw [hnow]
      exact .pure ⟨rfl, rfl⟩
    refine hnext.bind fun r s₂ ⟨h₂, hr⟩ => ?_
    subst hr
    exact .pure ⟨rfl, by rw [h₂, h₁]; rfl⟩
  | es :: later, portion, trees, hquery, htrees, hwalked => by
    have hnext : ∀ s, Returns (nextEntry d path portion []) s fun r s' =>
        s'.filelist = s.filelist ∧ r = some (es.headD ⟨[], 0⟩, portion + 1, es.tail) := by
      intro s
      have hnow : d.query s.clock path portion = some es := hquery s.clock 0
      refine returns_ask_bind ?_
      rw [hnow]
      exact .pure ⟨rfl, rfl⟩
    have hlater : ∀ k j, d.query k path (portion + 1 + j) = later[j]? := by
      intro k j
      rw [Nat.add_assoc, Nat.add_comm 1 j, hquery, List.getElem?_cons_succ]
    have hfirst : (es.headD ⟨[], 0⟩ :: (es.tail ++ later.flatten)).filter (fun e => !e.skipped)
        = trees.map Tree.entry := by
      rw [← htrees]
      rcases es with _ | ⟨e, es⟩
      · simp [DirEntry.skipped]
      · simp
    exact listEntries_step hw hpath hnext hfirst hwalked fun hsub h =>
      listEntries_rest hw hpath (listEntries_adds hw hpath hlater) h fun t ht => hwalked t (hsub ht)

theorem entryPath_ne_nil (path name : WString) (hpath : path ≠ []) : entryPath path name ≠ [] := by
  unfold entryPath
  split_ifs <;> simp [hpath]

/-- The walk through a directory lists what the driver says is there. -/
theorem ftwHelper_adds (hw : Walkable d disp) {trees : List Tree} (h : Lists d path trees) :
    path ≠ [] → Adds (fun fuel => ftwHelper d fuel path) (listedTrees disp path trees) := by
  induction h with
  | closed hopen =>
    refine fun _ => ⟨0, fun fuel _ s => returns_ask_bind ?_⟩
    rw [hopen]
    exact .pure ⟨rfl, rfl⟩
  | @opened path trees portions hopen hquery hentries hplain _ _ ih =>
    intro hpath
    have hquery' : ∀ k j, d.query k path (0 + j) = portions[j]? := by
      intro k j
      rw [Nat.zero_add, hquery]
    obtain ⟨N, hN⟩ := listEntries_adds hw hpath hquery' hentries fun t ht =>
      ⟨(hplain t ht).1, fun hin => ih t ht hin (entryPath_ne_nil _ _ hpath)⟩
    refine ⟨N, fun fuel hfuel s => returns_ask_bind ?_⟩
    rw [hopen]
    exact hN fuel hfuel _

end Steps

/-! ### Each file once -/

section Paths

variable {disp : WString → Disposition} {path : WString}

/-- The path of a file is that of an entry of the directory, or goes on below it. -/
def Under (path : WString) (t : Tree) (f : FileInfo) : Prop :=
  ∃ rest, f.path = some (entryPath path t.name ++ rest)
    ∧ (rest.head? = none ∨ rest.head? = some backslash)

theorem takeWhile_plain {name rest : WString} (h : backslash ∉ name)
    (hrest : rest.head? = none ∨ rest.head? = some backslash) :
    (name ++ rest).takeWhile (· ≠ backslash) = name := by
  have hpos : ∀ c ∈ name, decide (c ≠ backslash) = true := by
    intro c hc
    have hne : c ≠ backslash := fun h0 => h (h0 ▸ hc)
    simpa using hne
  rw [List.takeWhile_append_of_pos hpos]
  rcases rest with _ | ⟨c, rest⟩
  · simp
  · have hc : c = backslash := by simpa using hrest
    simp [hc]

theorem entryPath_append (path name rest : WString) :
    entryPath path name ++ rest = entryPath path (name ++ rest) := by
  unfold entryPath
  split_ifs <;> simp

theorem entryPath_injective (path : WString) : Function.Injective (entryPath path) := by
  intro a b h
  unfold entryPath at h
  split_ifs at h
  · exact List.append_cancel_left h
  · exact (List.cons.inj (List.append_cancel_left h)).2

/-- A file is below one entry only. -/
theorem Under.name_eq {t t' : Tree} {f : FileInfo} (h : Under path t f) (h' : Under path t' f)
    (ht : backslash ∉ t.name) (ht' : backslash ∉ t'.name) : t.name = t'.name := by
  obtain ⟨rest, hpath, hrest⟩ := h
  obtain ⟨rest', hpath', hrest'⟩ := h'
  rw [hpath, Option.some.injEq, entryPath_append, entryPath_append] at hpath'
  rw [← takeWhile_plain ht hrest, entryPath_injective path hpath', takeWhile_plain ht' hrest']

theorem mem_listedTrees {f : FileInfo} : ∀ ts : List Tree,
    f ∈ listedTrees disp path ts ↔ ∃ t ∈ ts, f ∈ listedTree disp path t
  | [] => by simp [listedTrees]
  | t :: ts => by simp [listedTrees, mem_listedTrees ts]

theorem nodup_listedTrees : ∀ {ts : List Tree}, (ts.map Tree.name).Nodup →
    (∀ t ∈ ts, backslash ∉ t.name) →
    (∀ t ∈ ts, ((listedTree disp path t).map FileInfo.path).Nodup
      ∧ ∀ f ∈ listedTree disp path t, Under path t f) →
    ((listedTrees disp path ts).map FileInfo.path).Nodup
  | [], _, _, _ => by simp [listedTrees]
  | t :: ts, hnames, hplain, h => by
    rw [List.map_cons, List.nodup_cons] at hnames
    rw [List.forall_mem_cons] at hplain h
    rw [listedTrees, List.map_append]
    refine List.nodup_append.2 ⟨h.1.1, nodup_listedTrees hnames.2 hplain.2 h.2, ?_⟩
    rintro p hp p' hp' rfl
    obtain ⟨f, hf, rfl⟩ := List.mem_map.1 hp
    obtain ⟨g, hg, heq⟩ := List.mem_map.1 hp'
    obtain ⟨t', ht', hg⟩ := (mem_listedTrees ts).1 hg
    obtain ⟨rest, hpath, hrest⟩ := (h.2 t' ht').2 g hg
    have hunder : Under path t' f := ⟨rest, heq ▸ hpath, hrest⟩
    refine hnames.1 ?_
    rw [(h.1.2 f hf).name_eq hunder hplain.1 (hplain.2 t' ht')]
    exact List.mem_map_of_mem ht'

theorem length_lt_entryPath (path : WString) {name : WString} (hne : name ≠ []) :
    path.length < (entryPath path name).length := by
  have := List.length_pos_iff.2 hne
  unfold entryPath
  split_ifs
  · rw [List.length_append]
    omega
  · rw [List.length_append, List.length_cons]
    omega

/-- Only the path of the root directory ends in a backslash. -/
theorem getLast?_entryPath {name : WString} (hne : name ≠ []) (h : backslash ∉ name) :
    (entryPath path name).getLast? ≠ some backslash := by
  have hlast : (entryPath path name).getLast? = name.getLast? := by
    unfold entryPath
    split_ifs
    · rw [List.getLast?_append_of_ne_nil _ hne]
    · rw [List.getLast?_append_of_ne_nil _ (by simp), List.getLast?_cons_of_ne_nil hne]
  rw [hlast]
  exact fun h0 => h (List.mem_of_getLast? h0)

/-- What the driver says of a directory gives each path once. -/
theorem Lists.paths {d : Drive} {trees : List Tree} (h : Lists d path trees) :
    (∀ t ∈ trees, t.name ≠ []) ∧ (∀ f ∈ listedTrees disp path trees, ∃ t ∈ trees, Under path t f)
      ∧ ((listedTrees disp path trees).map FileInfo.path).Nodup := by
  induction h with
  | closed => simp [listedTrees]
  | @opened path trees portions _ _ hentries hplain hnames hcontents ih =>
    have hne : ∀ t ∈ trees, t.name ≠ [] := by
      intro t ht h0
      have hmem : t.entry ∈ trees.map Tree.entry := List.mem_map_of_mem ht
      rw [← hentries, List.mem_filter] at hmem
      simp [DirEntry.skipped, show t.entry.fileName = [] from h0] at hmem
    have htree : ∀ t ∈ trees, ((listedTree disp path t).map FileInfo.path).Nodup
        ∧ ∀ f ∈ listedTree disp path t, Under path t f := by
      rintro ⟨e, contents⟩ ht
      have hown : Under path (.node e contents) (fileOf disp path e) :=
        ⟨[], by simp [fileOf, Tree.name, Tree.entry], .inl rfl⟩
      rw [listedTree]
      by_cases hin : e.entered = true
      · -- a path below the entry has a backslash behind its name
        obtain ⟨-, hunder, hnodup⟩ := ih _ ht hin
        have hlast : (entryPath path e.fileName).getLast? ≠ some backslash :=
          getLast?_entryPath (hne _ ht) (hplain _ ht).2
        have hbelow : ∀ f ∈ listedTrees disp (entryPath path e.fileName) contents,
            ∃ rest, f.path = some (entryPath path e.fileName ++ backslash :: rest) := by
          intro f hf
          obtain ⟨t', -, rest, hpath, -⟩ := hunder f hf
          refine ⟨t'.name ++ rest, hpath.trans ?_⟩
          simp [show entryPath path (Tree.node e contents).name = entryPath path e.fileName
            from rfl, entryPath.eq_1 (entryPath path e.fileName), hlast]
        rw [if_pos hin, List.map_cons, List.nodup_cons, List.forall_mem_cons]
        refine ⟨⟨fun hmem => ?_, hnodup⟩, hown, fun f hf => ?_⟩
        · obtain ⟨f, hf, heq⟩ := List.mem_map.1 hmem
          obtain ⟨rest, hpath⟩ := hbelow f hf
          rw [hpath] at heq
          simp [fileOf] at heq
        · obtain ⟨rest, hpath⟩ := hbelow f hf
          exact ⟨backslash :: rest, hpath, .inr rfl⟩
      · rw [if_neg hin]
        exact ⟨by simp, by simpa using hown⟩
    refine ⟨hne, fun f hf => ?_, nodup_listedTrees hnames (fun t ht => (hplain t ht).2) htree⟩
    obtain ⟨t, ht, hf⟩ := (mem_listedTrees trees).1 hf
    exact ⟨t, ht, (htree t ht).2 f hf⟩

end Paths

/-! ### The whole scan -/

/-- The root directory on the list. -/
def rootInfo (d : Drive) (disp : WString → Disposition) : FileInfo :=
  ⟨wide ".", some (rootPath d.table),
    (d.basicInformation (rootPath d.table)).getD attributeDirectory, 0, 0, disp (rootPath d.table)⟩

section Whole

variable {d : Drive} {disp : WString → Disposition} {trees : List Tree}

theorem walkDisk_returns (hw : Walkable d disp) (h : Lists d (rootPath d.table) trees) :
    ∃ N, ∀ fuel, N ≤ fuel → Returns (walkDisk d fuel) .init fun r _ =>
      r = some (rootInfo d disp :: listedTrees disp (rootPath d.table) trees).reverse := by
  have hroot : rootPath d.table ≠ [] := by simp [rootPath]
  obtain ⟨N, hN⟩ := ftwHelper_adds hw h hroot
  refine ⟨N, fun fuel hfuel => ?_⟩
  have hadd : Returns (ftwAddRootDirectory d (rootPath d.table)) .init fun ok s' =>
      ok = true ∧ s'.filelist = [rootInfo d disp] :=
    .ite (fun h0 => absurd h0 hroot) fun _ =>
      .modify_bind ((dumpHead_returns hw rfl).mono fun _ _ h => h)
  refine hadd.bind fun ok s₁ hs₁ => ?_
  obtain ⟨hok, h₁⟩ := hs₁
  refine .ite (fun _ => (hN fuel hfuel s₁).bind fun r s₂ hs₂ => ?_) fun hno => by simp [hok] at hno
  obtain ⟨hr, h₂⟩ := hs₂
  refine .ite (fun _ => .get_bind (.pure ?_)) fun hno => by simp [hr] at hno
  rw [h₂, h₁, List.reverse_cons]

/-- A volume of another file system than NTFS is listed file by file: the scan returns those with
clusters, each path once. -/
theorem winxScanDisk_lists_tree (hfs : d.fsName ≠ some "NTFS") (hw : Walkable d disp)
    (h : Lists d (rootPath d.table) trees) :
    ((rootInfo d disp :: listedTrees disp (rootPath d.table) trees).map FileInfo.path).Nodup
      ∧ ∃ N, ∀ walkFuel, N ≤ walkFuel → ∀ depth pathFuel,
        Returns (winxScanDisk d depth pathFuel walkFuel) .init fun r _ => r = some
          ((rootInfo d disp :: listedTrees disp (rootPath d.table) trees).reverse.filter
            fun f => f.disp.fragments ≠ 0) := by
  obtain ⟨hne, hunder, hnodup⟩ := @Lists.paths disp _ d trees h
  have hpath : ∀ f ∈ rootInfo d disp :: listedTrees disp (rootPath d.table) trees,
      f.path.getD [] ≠ [] := by
    rw [List.forall_mem_cons]
    refine ⟨by simp [rootInfo, rootPath], fun f hf => ?_⟩
    obtain ⟨t, -, rest, hp, -⟩ := hunder f hf
    rw [hp, Option.getD_some]
    exact List.append_ne_nil_of_left_ne_nil (entryPath_ne_nil _ _ (by simp [rootPath])) rest
  constructor
  · rw [List.map_cons, List.nodup_cons]
    refine ⟨fun hmem => ?_, hnodup⟩
    obtain ⟨f, hf, heq⟩ := List.mem_map.1 hmem
    obtain ⟨t, ht, rest, hp, -⟩ := hunder f hf
    have hlen := length_lt_entryPath (rootPath d.table) (hne t ht)
    have hsame : entryPath (rootPath d.table) t.name ++ rest = rootPath d.table :=
      Option.some.inj (hp.symm.trans heq)
    have := congrArg List.length hsame
    rw [List.length_append] at this
    omega
  · obtain ⟨N, hN⟩ := walkDisk_returns hw h
    refine ⟨N, fun fuel hfuel depth pathFuel => ?_⟩
    rw [winxScanDisk, if_neg hfs]
    refine (hN fuel hfuel).bind fun r s hr => .pure ?_
    rw [hr, Option.map_some, hw.dumps, if_pos rfl]
    refine congrArg some (List.filter_eq_self.2 fun f hf => ?_)
    simpa using hpath f (List.mem_reverse.1 (List.mem_of_mem_filter hf))

end Whole

/-! ### A small volume

Two portions of the root directory with an empty one between them: a file, a directory with a file
in it, and a junction. -/

def smallPortions (path : WString) : List (List DirEntry) :=
  if path = rootPath Env.idle then
    [[⟨wide ".", 0x10⟩, ⟨wide "..", 0x10⟩, ⟨wide "a", 0⟩], [],
      [⟨wide "d", 0x10⟩, ⟨wide "j", 0x410⟩]]
  else if path = rootPath Env.idle ++ wide "d" then [[⟨wide "b", 0⟩]]
  else []

def smallDisp (path : WString) : Disposition := winxFtwDumpFile (some [⟨some path.length, 1⟩])

def smallDrive : Drive where
  fsName := some "FAT32"
  table := Env.idle
  opens := fun _ _ => true
  query := fun _ path portion => (smallPortions path)[portion]?
  basicInformation := fun _ => none
  dump := fun _ path => (smallDisp path, true)
  allocates := fun _ => true

def smallTree : List Tree :=
  [.node ⟨wide "a", 0⟩ [], .node ⟨wide "d", 0x10⟩ [.node ⟨wide "b", 0⟩ []],
    .node ⟨wide "j", 0x410⟩ []]

theorem lists_smallTree : Lists smallDrive (rootPath Env.idle) smallTree := by
  have hsub : Lists smallDrive (entryPath (rootPath Env.idle) (wide "d"))
      [.node ⟨wide "b", 0⟩ []] :=
    .opened (fun _ => rfl) (fun _ _ => rfl) (by decide +kernel) (by decide +kernel)
      (by decide +kernel) fun t ht hin => by
        rw [List.mem_singleton.1 ht] at hin
        cases hin
  refine .opened (fun _ => rfl) (fun _ _ => rfl) (by decide +kernel) (by decide +kernel)
    (by decide +kernel) fun t ht hin => ?_
  simp only [smallTree, List.mem_cons, List.not_mem_nil, or_false] at ht
  rcases ht with rfl | rfl | rfl
  · cases hin
  · exact hsub
  · cases hin

theorem winxScanDisk_lists_smallTree :
    ((rootInfo smallDrive smallDisp :: listedTrees smallDisp (rootPath Env.idle) smallTree).map
        FileInfo.path).Nodup
      ∧ ∃ N, ∀ walkFuel, N ≤ walkFuel → ∀ depth pathFuel,
        Returns (winxScanDisk smallDrive depth pathFuel walkFuel) .init fun r _ => r = some
          ((rootInfo smallDrive smallDisp
            :: listedTrees smallDisp (rootPath Env.idle) smallTree).reverse.filter
            fun f => f.disp.fragments ≠ 0) :=
  winxScanDisk_lists_tree (by decide) ⟨fun _ => rfl, rfl, fun _ _ => rfl, fun _ => rfl⟩
    lists_smallTree

end Mft

end StopGap
