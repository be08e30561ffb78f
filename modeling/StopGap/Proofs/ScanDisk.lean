import StopGap.ScanDisk
import StopGap.Proofs.MftBounds
import StopGap.Proofs.MftScan
import StopGap.Proofs.Movable
import StopGap.Proofs.Preserved

/-!
# From the disk to the operation

What the scan of a volume hands to the operation. Where the table is in order the operation starts
from dispositions that tell the truth about the volume, so that it is in a closed world
(`scan_closedWorld`); a file of which the scan sees no cluster, such as `$Boot`, is not part of it.
Whatever the table holds, the files of the file system itself, whose names begin with a dollar sign
and which are in the root directory, are never moved (`metafiles_stay`): those without a path are
not handed over, and the path of any other is excluded.
-/

namespace StopGap

namespace Mft

open Exec Exec.Prog

/-! ### The files of the file system -/

/-- The paths of streams in the root directory are their own. -/
def RootPaths (env : Env) (s : State) : Prop :=
  ∀ f ∈ s.filelist, ∀ path, f.path = some path → f.parentDirectoryMftId = fileRoot →
    path = nativePath env (snwprintf f.name)

theorem stable_unpathed (env : Env) : Stable env fun s => ∀ f ∈ s.filelist, f.path = none where
  asked := fun _ hs => hs
  informed := fun _ _ _ hs => hs
  added := fun _ _ _ hs => List.forall_mem_cons.2 ⟨rfl, hs⟩
  flagged := fun _ _ _ hs => forall_modify hs fun _ _ h => h
  dumped := fun _ _ _ _ _ _ _ _ hs => forall_modify hs fun _ _ h => h

theorem rootPaths_settles (env : Env) : Settles env (RootPaths env) where
  asked := fun _ hs => hs
  failed := fun _ hs => hs
  pathed := by
    intro s i f path hf hpath hs
    refine forall_modify hs fun g hg _ p hp hr => ?_
    obtain rfl : f = g := Option.some.inj (hf.symm.trans hg)
    rw [← Option.some.inj hp]
    exact hpath hr
  validated := fun _ _ hs => forall_modify hs fun _ _ h => h

theorem scan_rootPaths (env : Env) (depth pathFuel : ℕ) :
    Meets (fun _ _ => True) (fun _ _ => True) (ntfsScanDisk env depth pathFuel) .init
      ⟨fun r s => RootPaths env s ∧ ∀ l, r = some l → s.filelist = l, fun _ => False,
        fun _ _ => True, fun _ => True⟩ :=
  ntfsScanDisk_keeps (stable_unpathed env) (.of_forall fun _ _ h => h) (fun _ _ h => h)
    (fun _ _ _ h => h) (fun _ _ hs => hs) (fun _ hs => forall_nameStreams (fun _ h => h) hs)
    (fun _ _ hs => hs) (fun _ hs f hf path hp => by rw [hs f hf] at hp; cases hp)
    (rootPaths_settles env) (by simp [State.init])

def dollar : WChar := 36

/-- A name with a dollar sign in front, and no question mark behind it. -/
def FileInfo.isMetafile (f : FileInfo) : Prop :=
  f.parentDirectoryMftId = fileRoot ∧ f.name.head? = some dollar ∧ f.name[1]? ≠ some questionMark

/-- Its path begins with the root directory and the dollar sign, however much is cut off. -/
theorem dollar_in_nativePath (env : Env) {name : WString} (h : name.head? = some dollar)
    (hq : name[1]? ≠ some questionMark) : wide ":\\$" <:+: nativePath env (snwprintf name) := by
  obtain ⟨rest, rfl⟩ : ∃ rest, name = dollar :: rest := by
    rcases name with _ | ⟨c, rest⟩
    · cases h
    · exact ⟨rest, by rw [Option.some.inj h]⟩
  have hcut : snwprintf (dollar :: rest) = dollar :: rest.take (maxPath - 2) := rfl
  have hq' : ¬ (dollar :: rest.take (maxPath - 2))[1]? = some questionMark := by
    rw [List.getElem?_cons_succ] at hq ⊢
    rwa [List.getElem?_take_of_lt (by decide)]
  rw [hcut, nativePath, if_neg hq']
  exact ⟨wide "\\??\\" ++ [env.volumeLetter],
    (rest.take (maxPath - 2)).take (maxPath - 1 - 8),
    by simp [snwprintf, rootPath, maxPath, wide, dollar]⟩

theorem mem_removed {d : Drive} {l : List FileInfo} {f : FileInfo}
    (h : f ∈ ftwRemoveInvalidStreams
      (if d.table.dumpFiles then ftwRemoveResidentStreams l else l)) : f ∈ l ∧ f.path.isSome := by
  obtain ⟨hf, hpath⟩ := List.mem_filter.1 h
  constructor
  · split_ifs at hf
    · exact List.mem_of_mem_filter hf
    · exact hf
  · rcases hp : f.path with _ | path
    · simp [hp] at hpath
    · rfl

/-- Whatever the table of a volume holds, a run after its scan moves no metafile and asks for no
move of one. -/
theorem metafiles_stay (d : Drive) (hfs : d.fsName = some "NTFS") (depth pathFuel walkFuel : ℕ)
    {search : WString → Bool} (hsearch : FindsTexts search) :
    Meets (fun _ _ => True) (fun _ _ => True) (winxScanDisk d depth pathFuel walkFuel) .init
      ⟨fun r _ => ∀ l, r = some l → ∀ i f, l[i]? = some f → f.isMetafile →
          ∀ (env : StopGap.Env) (opts : Options) (fuel : ℕ) (v : Volume),
            Meets (fun _ _ => True)
              (fun m s => s.vol.map i = v.map i ∧ ∀ caller e, m = .request caller e → e.file ≠ i)
              (run env opts fuel) (scannedOperation search l v)
              (keeps (fun s => s.vol.map i = v.map i) fun _ => True),
        fun _ => False, fun _ _ => True, fun _ => True⟩ := by
  rw [winxScanDisk, if_pos hfs]
  refine (scan_rootPaths d.table depth pathFuel).bind fun r s ⟨hpaths, hlist⟩ => .pure ?_
  intro l hl i f hi hf env opts fuel v
  obtain ⟨l₀, rfl, hl₀⟩ := Option.map_eq_some_iff.1 hl
  have hstuck : ¬ Movable (List.range l.length) (dispositions l) (isExcluded search l) i := by
    rintro ⟨-, -, hex⟩
    obtain ⟨hmem, hsome⟩ := mem_removed (hl₀ ▸ List.mem_of_getElem? hi)
    obtain ⟨path, hpath⟩ := Option.isSome_iff_exists.1 hsome
    rw [hpaths f (by rwa [hlist l₀ rfl]) path hpath hf.1] at hpath
    have hfound := hsearch _ (by decide) _ (dollar_in_nativePath d.table hf.2.1 hf.2.2)
    simp [isExcluded, hi, hpath, hfound] at hex
  refine (((steady_unmovable env _ v).run (fun _ _ h => h) opts fuel
    ⟨fun _ _ => rfl, within_scan _ _ _⟩).mono fun _ _ hs => hs.1 i hstuck).shows
    fun m s hm => ⟨hm.1 i hstuck, fun caller e he hne => hstuck (hne ▸ hm.2 caller e he)⟩

/-- A volume with a table and no directory that can be read. -/
def Drive.ofTable (env : Env) : Drive where
  fsName := some "NTFS"
  table := env
  opens := fun _ _ => false
  query := fun _ _ _ => none
  basicInformation := fun _ => none
  dump := fun _ _ => (.zero, true)
  allocates := fun _ => true

/-- A table with its own record only. -/
def dollarTable : ℕ → Option FileRecord
  | 0 => some ⟨0, mftRecord⟩
  | _ => none

def dollarEnv : Env := { splitEnv with record := fun _ n => nearest dollarTable n }

/-- The list a scan returns, if it does. -/
def returnedList : Outcome State Fault (Option (List FileInfo)) → Option (List FileInfo)
  | .ok l _ => l
  | _ => none

/-- A search for the plain alternatives only. -/
def searchTexts (path : WString) : Bool := excludedTexts.any fun t => (Text.find t path).isSome

theorem findsTexts_searchTexts : FindsTexts searchTexts := by
  intro text htext path hin
  refine List.any_eq_true.2 ⟨text, htext, ?_⟩
  rw [Option.isSome_iff_ne_none, ← List.map_id path]
  intro hnone
  exact Text.find_eq_none_iff.1 hnone (by rwa [List.map_id])

theorem metafiles_stay_dollarEnv :
    returnedList (winxScanDisk (.ofTable dollarEnv) 1 1 0 .init).out
      = some [⟨wide "$MFT", some (rootPath dollarEnv ++ wide "$MFT"), 0, 0, fileRoot,
        ⟨3, 1, [⟨0, 4, 3⟩]⟩⟩]
    ∧ Meets (fun _ _ => True) (fun _ _ => True) (winxScanDisk (.ofTable dollarEnv) 1 1 0) .init
      ⟨fun r _ => ∀ l, r = some l → ∀ i f, l[i]? = some f → f.isMetafile →
          ∀ (env : StopGap.Env) (opts : Options) (fuel : ℕ) (v : Volume),
            Meets (fun _ _ => True)
              (fun m s => s.vol.map i = v.map i ∧ ∀ caller e, m = .request caller e → e.file ≠ i)
              (run env opts fuel) (scannedOperation searchTexts l v)
              (keeps (fun s => s.vol.map i = v.map i) fun _ => True),
        fun _ => False, fun _ _ => True, fun _ => True⟩ :=
  ⟨by decide +kernel, metafiles_stay (.ofTable dollarEnv) rfl 1 1 0 findsTexts_searchTexts⟩

/-! ### The world of the operation -/

section World

variable {d : Drive} {table : ℕ → Option FileRecord} {files : ℕ → Option Gathered} {n : ℕ}
  {l : List FileInfo}

/-- All streams, in the order of the table. -/
def streamsBelow (files : ℕ → Option Gathered) (n : ℕ) : List Stream :=
  (List.range n).flatMap fun i => (files i).elim [] Gathered.streams

/-- The streams of which a cluster is seen. -/
def seenBelow (files : ℕ → Option Gathered) (n : ℕ) : List Stream :=
  (streamsBelow files n).filter fun st => lcns st.shown ≠ []

theorem Table.streamsBelow_volume {env : Env} (hw : Scannable env) (h : Table env table files) :
    ∀ st ∈ streamsBelow files n, OnVolume env.ml.totalClusters st.shown := by
  intro st hst
  obtain ⟨i, -, hst⟩ := List.mem_flatMap.1 hst
  rcases hg : files i with _ | g <;> rw [hg] at hst
  · cases hst
  · exact Table.volume hw h hg st hst

theorem Listing.disps {env : Env} (hl : Listing env files n l) :
    l.map FileInfo.disp = (streamsBelow files n).map fun st => winxFtwDumpFile (some st.shown) := by
  have hbare : l.map FileInfo.disp = (l.map FileInfo.bare).map FileInfo.disp := by
    rw [List.map_map]
    rfl
  rw [hbare, hl.bare, reportedBelow, streamsBelow, List.map_flatMap, List.map_flatMap]
  refine List.flatMap_congr fun i _ => ?_
  rcases files i with _ | g
  · rfl
  · simp only [Option.elim_some, Gathered.reported, List.map_map]
    rfl

/-- The streams with a fragment are those with a cluster. -/
theorem dump_fragments_ne_zero {m : List Extent} (h : ∀ e ∈ m, 0 < e.length) :
    (winxFtwDumpFile (some m)).fragments ≠ 0 ↔ lcns m ≠ [] := by
  have htell : Tells m m := ⟨rfl, h⟩
  rw [htell.fragments]
  rcases lcns m with _ | ⟨c, _ | ⟨c', cs⟩⟩
  · simp [stretches]
  · simp [stretches]
  · have hpos : ∀ (c : ℕ) (cs : List ℕ), 0 < stretches (c :: cs) := by
      intro c cs
      induction cs generalizing c with
      | nil => simp [stretches]
      | cons c' cs ih => exact Nat.add_pos_left (ih c') _
    simpa using (hpos c (c' :: cs)).ne'

/-- What is handed over are the streams of which a cluster is seen. -/
theorem Listing.removed {env : Env} (hl : Listing env files n l)
    (hvol : ∀ st ∈ streamsBelow files n, OnVolume env.ml.totalClusters st.shown) :
    (ftwRemoveInvalidStreams (ftwRemoveResidentStreams l)).map FileInfo.disp
      = (seenBelow files n).map fun st => winxFtwDumpFile (some st.shown) := by
  have hvalid : ftwRemoveInvalidStreams (ftwRemoveResidentStreams l)
      = l.filter fun f => f.disp.fragments ≠ 0 := by
    refine List.filter_eq_self.2 fun f hf => ?_
    obtain ⟨names, -, hpath⟩ := hl.pathed f (List.mem_of_mem_filter hf)
    have hne : snwprintf (rootPath env ++ joined names f.name) ≠ [] := by
      simp [snwprintf, rootPath, maxPath, wide]
    simp [hpath, hne]
  have hseen : seenBelow files n = (streamsBelow files n).filter fun st =>
      (winxFtwDumpFile (some st.shown)).fragments ≠ 0 := by
    refine List.filter_congr fun st hst => ?_
    simp only [dump_fragments_ne_zero fun e he => (hvol st hst e he).1]
  have hcomm : ∀ {α : Type} (g : α → Disposition) (as : List α),
      (as.filter fun a => (g a).fragments ≠ 0).map g
        = (as.map g).filter fun disp => disp.fragments ≠ 0 := by
    intro α g as
    rw [List.filter_map]
    rfl
  rw [hvalid, hseen, hcomm, hcomm, hl.disps]

theorem dispositions_eq_dumps {v : Volume} {maps : List (List Extent)}
    (hl : l.map FileInfo.disp = maps.map fun m => winxFtwDumpFile (some m))
    (hv : ∀ i, v.map i = maps.getD i []) : dispositions l = v.dumps := by
  funext i
  have hi : (l[i]?).map FileInfo.disp = (maps[i]?).map fun m => winxFtwDumpFile (some m) := by
    rw [← List.getElem?_map, hl, List.getElem?_map]
  rw [dispositions, Volume.dumps, hv, List.getD_eq_getElem?_getD]
  rcases hli : l[i]? with _ | f <;> rcases hmi : maps[i]? with _ | m <;> rw [hli, hmi] at hi
  · rfl
  · cases hi
  · cases hi
  · exact Option.some.inj hi

/-- The scan of a table in order puts the operation into a closed world: the list it starts from has
every stream of which a cluster is seen, each with the map it has on the volume. Here a stream is
seen whole or not at all. -/
theorem scan_closedWorld {record : FileRecord} {depth pathFuel : ℕ} (hfs : d.fsName = some "NTFS")
    (hw : Scannable d.table) (h : Table d.table table files) (hfirst : table 0 = some record)
    (hsized : Sized d.table record n) (hn : 0 < n)
    (hroot : Rooted pathFuel (reportedBelow files n))
    (hwhole : ∀ st ∈ streamsBelow files n, st.shown = st.extents ∨ lcns st.shown = []) {v : Volume}
    (hv : ∀ i, v.map i = ((seenBelow files n).map Stream.extents).getD i [])
    (hsound : v.Sound) {env : StopGap.Env} (htruth : env.Truthful) (walkFuel : ℕ) :
    Returns (winxScanDisk d (depth + 1) pathFuel walkFuel) .init fun r _ => ∃ l, r = some l
      ∧ ClosedWorld env v (List.range l.length) (dispositions l)
      ∧ ∀ i, l.length ≤ i → lcns (v.map i) = [] := by
  have hvol := Table.streamsBelow_volume (n := n) hw h
  have hmaps : (seenBelow files n).map Stream.extents = (seenBelow files n).map Stream.shown := by
    refine List.map_congr_left fun st hst => ?_
    obtain ⟨hmem, hseen⟩ := List.mem_filter.1 hst
    exact ((hwhole st hmem).resolve_right (of_decide_eq_true hseen)).symm
  rw [hmaps] at hv
  rw [winxScanDisk, if_pos hfs]
  refine (ntfsScanDisk_returns hw h hfirst hsized hn hroot).bind fun r s ⟨l, hr, hl⟩ =>
    .pure ⟨ftwRemoveInvalidStreams (ftwRemoveResidentStreams l), by simp [hr, hw.dump], ?_, ?_⟩
  · have hdisp := hl.removed hvol
    rw [← Function.comp_def (fun m => winxFtwDumpFile (some m)) Stream.shown,
      ← List.map_map] at hdisp
    rw [dispositions_eq_dumps hdisp hv]
    refine ⟨hsound, List.nodup_range, fun i => Volume.reports_dumps ?_, htruth⟩
    rw [hv, List.getD_eq_getElem?_getD, List.getElem?_map]
    rcases hi : (seenBelow files n)[i]? with _ | st
    · simp
    · exact fun e he => (hvol st (List.mem_of_mem_filter (List.mem_of_getElem? hi)) e he).1
  · intro i hi
    have hlen := congrArg List.length (hl.removed hvol)
    rw [List.length_map, List.length_map] at hlen
    rw [hv, List.getD_eq_getElem?_getD, List.getElem?_eq_none (by rw [List.length_map]; omega)]
    rfl

end World

/-- The table and the file with two portions are handed over, `$Boot` and `$BadClus` are not. -/
theorem scan_closedWorld_splitEnv :
    Returns (winxScanDisk (.ofTable splitEnv) 1 1 0) .init fun r _ => ∃ l, r = some l
      ∧ ClosedWorld .granting (.laid 100 [0, 1, 40] [[⟨some 4, 3⟩], [⟨some 10, 2⟩, ⟨some 20, 1⟩]])
        (List.range l.length) (dispositions l)
      ∧ ∀ i, l.length ≤ i →
        lcns ((Volume.laid 100 [0, 1, 40]
          [[⟨some 4, 3⟩], [⟨some 10, 2⟩, ⟨some 20, 1⟩]]).map i) = [] :=
  scan_closedWorld rfl scannable_splitEnv table_splitTable rfl sized_mftRecord (by decide)
    rooted_splitFiles (by decide +kernel) (fun _ => rfl)
    (Volume.laid_sound (by decide) (by decide)) Env.granting_truthful 0

end Mft

end StopGap
