import StopGap.Lib.Bisect
import StopGap.Mft

/-!
# Full paths

After the scan of the file records each stream has a name and the record of its directory.
`build_full_paths` (ftw_ntfs.c) goes through the list once more and puts the names of the
directories in front of each name, as far up as the root directory or a directory whose path is
built already. Directories are found by bisection, or one by one if there is no memory for an array.
All texts are cut at `MAX_PATH`.
-/

namespace StopGap

namespace Mft

open Exec Exec.Prog

def maxPath : ℕ := 260

def backslash : WChar := 92

def questionMark : WChar := 63

/-- `wcsstr(f->name, L":$") == NULL`. -/
def isPlain (f : FileInfo) : Bool := (Text.find (wide ":$") f.name).isNone

/-- The binary search of `find_directory_by_mft_id`, with the search for the proper entry in the
neighbourhood of the one it hits. The scan has gone from right to left, so the order ascends. -/
def bisect (files : List FileInfo) (id : ℕ) : Option FileInfo :=
  Bisect.find FileInfo.baseMftId isPlain files id (files.length + 1) 0 files.length

/-- The linear search of `find_directory_by_mft_id`. -/
def findLinear (files : List FileInfo) (id : ℕ) : Option FileInfo :=
  files.find? fun f => f.baseMftId = id && isPlain f

def findDirectoryByMftId (env : Env) (files : List FileInfo) (id : ℕ) : Option FileInfo :=
  if env.allocates then bisect files id else findLinear files id

structure DirectoryInformation where
  path : Option WString
  parentMftId : ℕ
  full : Bool

def getDirectoryInformation (env : Env) (mftId : ℕ) : M DirectoryInformation := do
  let s ← get
  match findDirectoryByMftId env s.filelist mftId with
  | none =>
    modify fun s => { s with errors := s.errors + 1 }
    pure ⟨none, fileRoot, false⟩
  | some f => pure ⟨some (f.path.getD f.name), f.parentDirectoryMftId, f.path.isSome⟩

/-- What `_snwprintf` and the terminator behind it leave of a text. -/
def snwprintf (s : WString) : WString := s.take (maxPath - 1)

/-- The loop of `build_file_path` through the parent directories, none if the user stops it. -/
def parentLoop (env : Env) : (fuel parentMftId : ℕ) → (child : WString) → M (Option WString)
  | 0, _, _ => spent
  | fuel + 1, parentMftId, child => do
    if parentMftId = fileRoot then pure (some child)
    else if ← checkForTermination env then pure none
    else
      let d ← getDirectoryInformation env parentMftId
      let child := snwprintf (d.path.getD [] ++ backslash :: child)
      if d.full then pure (some child) else parentLoop env fuel d.parentMftId child

/-- `L"\\??\\%c:\\"`. -/
def rootPath (env : Env) : WString := wide "\\??\\" ++ env.volumeLetter :: wide ":\\"

/-- The path for what the loop has gathered. -/
def nativePath (env : Env) (child : WString) : WString :=
  if child[1]? = some questionMark then child else snwprintf (rootPath env ++ child)

def buildFilePath (env : Env) (fuel i : ℕ) (f : FileInfo) : M Unit := do
  match ← parentLoop env fuel f.parentDirectoryMftId (snwprintf f.name) with
  | none => pure ()
  | some child => modifyStream i fun f => { f with path := some (nativePath env child) }

/-- `build_full_paths`, from the `i`-th of the streams on, with `left` to go. -/
def buildFullPaths (env : Env) (fuel : ℕ) : (left i : ℕ) → M Unit
  | 0, _ => pure ()
  | left + 1, i => do
    if ← checkForTermination env then pure ()
    else
      let s ← get
      match s.filelist[i]? with
      | none => pure ()
      | some f =>
        buildFilePath env fuel i f
        buildFullPaths env fuel left (i + 1)

/-- `scan_mft`, false for a failure. -/
def scanMft (env : Env) (depth pathFuel : ℕ) : M Bool := do
  if ← getNumberOfFileRecords env then
    let s ← get
    if ← scanRecords env depth s.numberOfFileRecords (s.numberOfFileRecords - 1) then
      let s ← get
      buildFullPaths env pathFuel s.filelist.length 0
      pure true
    else pure false
  else pure false

/-- The last loop of `ntfs_scan_disk_helper`, without the filter. -/
def validateStreams (env : Env) : (left i : ℕ) → M Unit
  | 0, _ => pure ()
  | left + 1, i => do
    if ← checkForTermination env then pure ()
    else
      modifyStream i fun f => { f with disp := validateBlockmap f.disp }
      validateStreams env left (i + 1)

/-- `ntfs_scan_disk_helper` on a volume that opens, false for a failure. -/
def ntfsScanDiskHelper (env : Env) (depth pathFuel : ℕ) : M Bool := do
  if ← scanMft env depth pathFuel then
    let s ← get
    validateStreams env s.filelist.length 0
    let s ← get
    pure (env.allowPartialScan || decide (s.errors = 0))
  else pure false

/-- What `ntfs_scan_disk` starts from. -/
def State.init : State := ⟨⟨0, 0, 0, 0, []⟩, [], 0, 0, 0⟩

/-- `ntfs_scan_disk`, none for the null pointer after a failure. -/
def ntfsScanDisk (env : Env) (depth pathFuel : ℕ) : M (Option (List FileInfo)) := do
  let ok ← ntfsScanDiskHelper env depth pathFuel
  let s ← get
  pure (if ok || env.allowPartialScan then some s.filelist else none)

end Mft

end StopGap
