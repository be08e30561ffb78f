import StopGap.FullPaths
import StopGap.Operation

/-!
# The scan of a disk

`winx_scan_disk` (ftw.c) reads the files of an NTFS volume off the master file table. On any other
file system it walks the directory tree; each file goes to the head of the list and is dumped on the
way. `FileEnumeration::scan` takes what is left without the resident streams and without those that
have no path; the files in whose path the regular expression `excluded` is found stay where they
are. The search for it is a parameter.

A directory is read in portions. The driver and the user are asked as in the scan of the table, each
question with a number. The filter and progress callbacks, traces and access times are left out.
-/

namespace StopGap

namespace Mft

open Exec Exec.Prog

/-- `FILE_BOTH_DIR_INFORMATION`. -/
structure DirEntry where
  fileName : WString
  fileAttributes : BitVec 32
deriving DecidableEq, Repr

/-- A volume as `winx_scan_disk` finds it. -/
structure Drive where
  -- the name of the file system `winx_get_volume_information` finds, none for a failure
  fsName : Option String
  table : Env
  -- `ftw_open_directory`
  opens : ℕ → WString → Bool
  -- `NtQueryDirectoryFile`, none for the end or a failure
  query : ℕ → WString → (portion : ℕ) → Option (List DirEntry)
  -- the attributes of the root directory, none if they cannot be had
  basicInformation : WString → Option (BitVec 32)
  -- `winx_ftw_dump_file`: what it leaves, and whether it succeeds
  dump : ℕ → WString → Disposition × Bool
  -- `winx_tmalloc`
  allocates : ℕ → Bool

/-- What `ftw_helper` returns: 0, -1 and -2. -/
inductive WalkResult where
  | success
  | failure
  | terminated
deriving DecidableEq, Repr

section Walk

variable (d : Drive)

/-- A text up to its first zero. -/
def upToZero (s : WString) : WString := s.takeWhile (· ≠ 0)

def ftwCheckForTermination : M Bool := do
  return d.table.terminator (← ask)

def insertFile (f : FileInfo) : M Unit :=
  modify fun s => { s with filelist := f :: s.filelist }

/-- The head of the list is removed. -/
def removeFile : M Unit :=
  modify fun s => { s with filelist := s.filelist.tail }

/-- The end of both functions that add a file: the head of the list is dumped, or removed if that
fails. -/
def dumpHead (path : WString) : M Bool := do
  if d.table.dumpFiles then
    let (disp, ok) := d.dump (← ask) path
    if ok then
      modifyStream 0 fun f => { f with disp := disp }
      pure true
    else
      removeFile
      pure false
  else pure true

/-- The path of an entry. Only that of the root directory ends in a backslash. -/
def entryPath (path name : WString) : WString :=
  if path.getLast? = some backslash then path ++ name else path ++ backslash :: name

/-- `ftw_add_entry_to_filelist`, none for a failure. -/
def ftwAddEntryToFilelist (path : WString) (e : DirEntry) : M (Option FileInfo) := do
  if path = [] then pure none
  else
    let name := upToZero e.fileName
    let f : FileInfo := ⟨name, some (entryPath path name), e.fileAttributes, 0, 0, .zero⟩
    insertFile f
    if !d.allocates (← ask) then
      removeFile
      pure none
    else if !d.allocates (← ask) then
      removeFile
      pure none
    else if ← dumpHead d (entryPath path name) then pure (some f)
    else pure none

/-- `ftw_add_root_directory`, false for a failure. -/
def ftwAddRootDirectory (path : WString) : M Bool := do
  if path = [] then pure false
  else
    insertFile ⟨wide ".", some path, (d.basicInformation path).getD attributeDirectory, 0, 0, .zero⟩
    dumpHead d path

/-- The entries that are no files of the directory. -/
def DirEntry.skipped (e : DirEntry) : Bool :=
  e.fileName = wide "." || e.fileName = wide ".." || e.fileName = []

/-- `ftw_helper` looks into a file. -/
def FileInfo.entered (f : FileInfo) : Bool :=
  f.flags &&& attributeDirectory ≠ 0 && f.flags &&& attributeReparsePoint = 0

/-- The next entry of a directory, none at its end: `rest` are the entries of the last portion that
are still to come, and `portion` is the number of the next one. The buffer is set to zero before a
portion is read into it, so that an empty one has an entry without a name. -/
def nextEntry (path : WString) (portion : ℕ) :
    (rest : List DirEntry) → M (Option (DirEntry × ℕ × List DirEntry))
  | e :: rest => pure (some (e, portion, rest))
  | [] => do
    match d.query (← ask) path portion with
    | none => pure none
    | some es => pure (some (es.headD ⟨[], 0⟩, portion + 1, es.tail))

/-- A directory that cannot be opened is skipped. -/
def enterDirectory (path : WString) (list : M WalkResult) : M WalkResult := do
  if d.opens (← ask) path then list else pure .success

/-- The loop of `ftw_helper` in the directory `path`. -/
def listEntries : (fuel : ℕ) → (path : WString) → (portion : ℕ) → (rest : List DirEntry) →
    M WalkResult
  | 0, _, _, _ => spent
  | fuel + 1, path, portion, rest => do
    if ← ftwCheckForTermination d then pure .terminated
    else
      match ← nextEntry d path portion rest with
      | none => pure .success
      | some (e, portion, rest) =>
        if e.skipped then listEntries fuel path portion rest
        else
          match ← ftwAddEntryToFilelist d path e with
          | none => pure .failure
          | some f =>
            if ← ftwCheckForTermination d then pure .terminated
            else if f.entered then
              let subdirectory := entryPath path f.name
              match ← enterDirectory d subdirectory (listEntries fuel subdirectory 0 []) with
              | .success => listEntries fuel path portion rest
              | r => pure r
            else listEntries fuel path portion rest

def ftwHelper (fuel : ℕ) (path : WString) : M WalkResult :=
  enterDirectory d path (listEntries d fuel path 0 [])

/-- The part of `winx_scan_disk` for other file systems than NTFS. -/
def walkDisk (fuel : ℕ) : M (Option (List FileInfo)) := do
  let root := rootPath d.table
  if (← ftwAddRootDirectory d root) || d.table.allowPartialScan then
    if (← ftwHelper d fuel root) ≠ .failure || d.table.allowPartialScan then
      let s ← get
      pure (some s.filelist)
    else pure none
  else pure none

/-- `ftw_remove_resident_streams`. -/
def ftwRemoveResidentStreams (l : List FileInfo) : List FileInfo :=
  l.filter fun f => f.disp.fragments ≠ 0

/-- `ftw_remove_invalid_streams`. -/
def ftwRemoveInvalidStreams (l : List FileInfo) : List FileInfo :=
  l.filter fun f => f.path.getD [] ≠ []

/-- `winx_scan_disk` with `WINX_FTW_SKIP_RESIDENT_STREAMS` among its flags, which is of no effect
without `WINX_FTW_DUMP_FILES`. -/
def winxScanDisk (depth pathFuel walkFuel : ℕ) : M (Option (List FileInfo)) := do
  let l ← if d.fsName = some "NTFS" then ntfsScanDisk d.table depth pathFuel
    else walkDisk d walkFuel
  pure (l.map fun l => ftwRemoveInvalidStreams
    (if d.table.dumpFiles then ftwRemoveResidentStreams l else l))

end Walk

/-! ### The files of an operation -/

/-- The alternatives of the regular expression `excluded` that are plain texts. The others are
`\safeboot.fs` and `\Gobackio.bin` at the end of a path, and `\BootAuth.sys` with any character
before its dot. -/
def excludedTexts : List WString :=
  [wide ":$", wide ":\\$", wide "\\PGPWDE", wide "\\bootwiz", wide "\\$dcsys$",
    wide "\\bootstat.dat", wide "\\bootsqm.dat", wide ":\\io.sys", wide ":\\msdos.sys",
    wide ":\\ibmbio.com", wide ":\\ibmdos.com", wide ":\\drbios.sys",
    wide ":\\System Volume Information"]

/-- What is asked of a search for `excluded`: it finds a plain alternative wherever it stands. -/
def FindsTexts (search : WString → Bool) : Prop :=
  ∀ text ∈ excludedTexts, ∀ path, text <:+: path → search path = true

section Files

-- `boost::regex_search(path, excluded)`
variable (search : WString → Bool) (l : List FileInfo)

/-- The dispositions of the files of a list, each file known by its place. -/
def dispositions (f : FileId) : Disposition := l[f]?.elim .zero FileInfo.disp

def isExcluded (f : FileId) : Bool := (l[f]?.bind FileInfo.path).elim false search

/-- What `Operation::init` leaves on a volume whose scan has returned the list. -/
def scannedOperation (vol : Volume) : Operation :=
  .init vol (List.range l.length) (dispositions l) (isExcluded search l)

end Files

end Mft

end StopGap
