import StopGap.Lib.Exec
import StopGap.Lib.Text
import StopGap.Path
import StopGap.RunList

/-!
# The scan of the master file table

On NTFS the list of files is read off the master file table (ftw_ntfs.c): from the last file record
to the first, each base record with the records its attribute list names. A stream goes to the head
of the list when its first attribute is met, so that the list stays in the order of the records.

A record is the buffer the driver returned. Offsets and lengths in it are taken as they are, and a
read outside it ends the computation. The driver and the user are asked as they are in a run: each
question is put with a number that counts them. Access times, progress callbacks, traces and
failures to allocate are left out.
-/

namespace StopGap

namespace Mft

open Exec Exec.Prog Bytes

/-- `mft_layout`, without the number of file records. -/
structure Layout where
  fileRecordSize : ℕ
  totalClusters : ℕ
  clusterSize : ℕ
  sectorsPerCluster : ℕ
deriving DecidableEq, Repr

/-- `NTFS_FILE_RECORD_OUTPUT_BUFFER`. -/
structure FileRecord where
  fileReferenceNumber : ℕ
  buffer : List UInt8
deriving DecidableEq, Repr

/-- `my_file_information`. -/
structure FileInformation where
  baseMftId : ℕ
  parentDirectoryMftId : ℕ
  flags : BitVec 32
  nameType : ℕ
  name : WString
deriving DecidableEq, Repr

/-- `winx_file_info`; no path for the null pointer. -/
structure FileInfo where
  name : WString
  path : Option WString
  flags : BitVec 32
  baseMftId : ℕ
  parentDirectoryMftId : ℕ
  disp : Disposition
deriving DecidableEq, Repr

structure Env where
  ml : Layout
  volumeLetter : WChar
  -- `WINX_FTW_DUMP_FILES` and `WINX_FTW_ALLOW_PARTIAL_SCAN`
  dumpFiles : Bool
  allowPartialScan : Bool
  -- `FSCTL_GET_NTFS_FILE_RECORD`, none for a failure
  record : ℕ → (mftId : ℕ) → Option FileRecord
  -- `read_sectors`
  sectors : ℕ → (lsn length : ℕ) → Option (List UInt8)
  -- the terminator
  terminator : ℕ → Bool
  -- `fast_towlower`
  towlower : WChar → WChar
  -- whether the array for the binary search can be allocated
  allocates : Bool

structure State where
  mfi : FileInformation
  filelist : List FileInfo
  numberOfFileRecords : ℕ
  errors : ℕ
  clock : ℕ

inductive Fault where
  -- a read outside the buffer
  | outside
deriving DecidableEq, Repr

/-- Places a scan passes. -/
inductive Mark where
  -- an attribute of `length` bytes at `pattr` of a record is handed on
  | attribute (r : List UInt8) (pattr length : ℕ)
  -- an entry of an attribute list names an attribute of this type
  | entry (type : ℕ)
  -- the record `id` came back for a request for record `mftId`
  | record (mftId id : ℕ)
deriving DecidableEq, Repr

abbrev M := Prog State Mark Fault

def ask : M ℕ := do
  let s ← get
  modify fun s => { s with clock := s.clock + 1 }
  pure s.clock

/-- What was read, or the end. -/
def read {α : Type} (x : Option α) : M α := lift (x.elim (.error .outside) .ok)

/-- `ftw_ntfs_check_for_termination`. -/
def checkForTermination (env : Env) : M Bool := do
  let s ← get
  if !env.allowPartialScan && decide (s.errors ≠ 0) then pure true
  else return env.terminator (← ask)

def getFileRecord (env : Env) (mftId : ℕ) : M (Option FileRecord) := do
  return env.record (← ask) mftId

/-- `GetMftIdFromFRN`. -/
def mftIdOf (frn : ℕ) : ℕ := frn % 2 ^ 48

/-- `wcsncpy` from a buffer: up to `n` characters, or to the first zero. -/
def wcsncpy (buf : List UInt8) : (n off : ℕ) → Option WString
  | 0, _ => some []
  | n + 1, off => do
    let c ← field buf off 2
    if c = 0 then return []
    return UInt16.ofNat c :: (← wcsncpy buf n (off + 2))

/-! ### Attributes -/

def attributeType (r : List UInt8) (pattr : ℕ) : Option ℕ := field r pattr 4

def attributeLength (r : List UInt8) (pattr : ℕ) : Option ℕ := field r (pattr + 4) 4

def nonresident (r : List UInt8) (pattr : ℕ) : Option ℕ := field r (pattr + 8) 1

def nameLength (r : List UInt8) (pattr : ℕ) : Option ℕ := field r (pattr + 9) 1

def nameOffset (r : List UInt8) (pattr : ℕ) : Option ℕ := field r (pattr + 10) 2

def attributeNumber (r : List UInt8) (pattr : ℕ) : Option ℕ := field r (pattr + 14) 2

/-- The length of the attribute at `pattr` if the loops over a record go on with it, none inside if
they end there. `attr_offset` is a `USHORT`, the sum with the length a `ULONG`. -/
def attributeAt (ml : Layout) (r : List UInt8) (attrOffset : BitVec 16) (pattr : ℕ) :
    Option (Option ℕ) := do
  let bytesInUse ← field r 24 4
  if bytesInUse < attrOffset.toNat + 16 ∨ ml.fileRecordSize < attrOffset.toNat + 16 then
    return none
  let type ← attributeType r pattr
  if type = 0xffffffff ∨ type = 0 then return none
  let length ← attributeLength r pattr
  if length = 0 then return none
  let last := (attrOffset.toNat + length) % 2 ^ 32
  if bytesInUse < last ∨ ml.fileRecordSize < last then return none
  let smallest := if (← nonresident r pattr) ≠ 0 then 64 else 24
  if length < smallest then return none
  return some length

/-- The loop over the attributes of a record; `visit` says what to go on with, none to stop. A step
more than the record has bytes is never taken. -/
def walk {α : Type} (env : Env) (r : List UInt8) (visit : α → ℕ → M (Option α)) :
    (fuel : ℕ) → (attrOffset : BitVec 16) → (pattr : ℕ) → α → M Unit
  | 0, _, _, _ => spent
  | fuel + 1, attrOffset, pattr, a => do
    if ← checkForTermination env then pure ()
    else
      match ← read (attributeAt env.ml r attrOffset pattr) with
      | none => pure ()
      | some length =>
        mark (.attribute r pattr length)
        match ← visit a pattr with
        | none => pure ()
        | some a =>
          walk env r visit fuel (attrOffset + BitVec.ofNat 16 length) (pattr + length) a

def walkRecord {α : Type} (env : Env) (r : List UInt8) (visit : α → ℕ → M (Option α)) (a : α) :
    M Unit := do
  let attrOffset ← read (field r 20 2)
  walk env r visit (r.length + 1) (BitVec.ofNat 16 attrOffset) attrOffset a

def enumerateAttributes (env : Env) (r : List UInt8) (ah : ℕ → M Unit) : M Unit :=
  walkRecord env r (fun _ pattr => do ah pattr; return some ()) ()

def defaultAttributeNames : List (ℕ × WString) :=
  [(0x20, wide ":$ATTRIBUTE_LIST"), (0xE0, wide ":$EA"), (0xD0, wide ":$EA_INFORMATION"),
    (0x50, wide ":$SECURITY_DESCRIPTOR"), (0x80, wide ":$DATA"), (0x90, wide ":$INDEX_ROOT"),
    (0xA0, wide ":$INDEX_ALLOCATION"), (0xB0, wide ":$BITMAP"), (0xC0, wide ":$REPARSE_POINT"),
    (0x100, wide ":$LOGGED_UTILITY_STREAM")]

def getDefaultAttributeName (type : ℕ) : Option WString :=
  (defaultAttributeNames.find? fun e => e.1 = type).map Prod.snd

/-- The names that are not appended to the name of a file. -/
def unnamed : List WString :=
  [wide "$DATA", wide ":$DATA", wide "$I30", wide ":$I30", wide "$INDEX_ALLOCATION",
    wide ":$INDEX_ALLOCATION"]

/-- `get_attribute_name`, none for an attribute that is no stream. -/
def getAttributeName (r : List UInt8) (pattr : ℕ) : Option (Option WString) := do
  match getDefaultAttributeName (← attributeType r pattr) with
  | none => return none
  | some default =>
    let length ← nameLength r pattr
    let own ← if length = 0 then pure [] else do wcsncpy r length (pattr + (← nameOffset r pattr))
    let name := if own = [] then default else own
    return some (if name ∈ unnamed then [] else name)

/-! ### Streams -/

/-- The search of `find_filelist_entry`: it ends at the first later record. -/
def searchFilelist (id : ℕ) (name : WString) : List FileInfo → Option ℕ
  | [] => none
  | f :: fs =>
    if id < f.baseMftId then none
    else if f.name = name ∧ f.baseMftId = id then some 0
    else (searchFilelist id name fs).map (· + 1)

/-- `FILE_root`. -/
def fileRoot : ℕ := 5

def newStream (id : ℕ) (name : WString) : FileInfo := ⟨name, none, 0, id, fileRoot, .zero⟩

/-- `find_filelist_entry`: where the stream stands in the list. -/
def findFilelistEntry (attrName : WString) : M ℕ := do
  let s ← get
  match searchFilelist s.mfi.baseMftId attrName s.filelist with
  | some i => pure i
  | none =>
    modify fun s => { s with filelist := newStream s.mfi.baseMftId attrName :: s.filelist }
    pure 0

/-- Resident streams are listed too. -/
def addStream : Option WString → M Unit
  | none => pure ()
  | some attrName => do
    let _ ← findFilelistEntry attrName
    pure ()

def modifyStream (i : ℕ) (g : FileInfo → FileInfo) : M Unit :=
  modify fun s => { s with filelist := s.filelist.modify i g }

/-- `winx_wcsistr(name, L"$BadClus")`. -/
def isBadClus (env : Env) (name : WString) : Bool :=
  (Text.find ((wide "$BadClus").map env.towlower) (name.map env.towlower)).isSome

/-- The loop over the entries of an attribute list, up to `stop`. Entries have a length, so that a
step more than there are bytes is never taken. -/
def attributeListLoop (env : Env) (analyzeEntry : List UInt8 → ℕ → M Unit) (buf : List UInt8)
    (stop : ℕ) : (fuel : ℕ) → (entry : ℕ) → M Unit
  | 0, _ => spent
  | fuel + 1, entry => do
    if ← checkForTermination env then pure ()
    else if stop < entry + 26 then pure ()
    else
      let type ← read (field buf entry 4)
      if type = 0xffffffff ∨ type = 0 then pure ()
      else
        let length ← read (field buf (entry + 4) 2)
        if length = 0 then pure ()
        else
          analyzeEntry buf entry
          attributeListLoop env analyzeEntry buf stop fuel (entry + length)

def readBlock (env : Env) (lcn : ℕ) : (n : ℕ) → M (Option (List UInt8))
  | 0 => pure (some [])
  | n + 1 => do
    match env.sectors (← ask) (lcn * env.ml.sectorsPerCluster) env.ml.clusterSize with
    | none => pure none
    | some bytes =>
      match ← readBlock env (lcn + 1) n with
      | none => pure none
      | some rest => pure (some (bytes ++ rest))

/-- The first `left` clusters of a map, none if it has fewer or one cannot be read. -/
def readClusters (env : Env) : (left : ℕ) → List Block → M (Option (List UInt8))
  | 0, _ => pure (some [])
  | _ + 1, [] => pure none
  | left + 1, b :: bm => do
    match ← readBlock env b.lcn (min (left + 1) b.length) with
    | none => pure none
    | some bytes =>
      match ← readClusters env (left + 1 - b.length) bm with
      | none => pure none
      | some rest => pure (some (bytes ++ rest))

def analyzeNonResidentAttributeList (env : Env) (analyzeEntry : List UInt8 → ℕ → M Unit)
    (bm : List Block) (listSize : ℕ) : M Unit := do
  if listSize = 0 then pure ()
  else
    let clustersToRead :=
      listSize / env.ml.clusterSize + if listSize % env.ml.clusterSize ≠ 0 then 1 else 0
    match ← readClusters env clustersToRead bm with
    | none => pure ()
    | some cluster => attributeListLoop env analyzeEntry cluster listSize (listSize + 1) 0

/-- `FILE_ATTRIBUTE_COMPRESSED`, `FILE_ATTRIBUTE_DIRECTORY`, `FILE_ATTRIBUTE_REPARSE_POINT`. -/
def attributeCompressed : BitVec 32 := 0x800

def attributeDirectory : BitVec 32 := 0x10

def attributeReparsePoint : BitVec 32 := 0x400

/-- The disposition `process_run_list` leaves, for the attribute at `pnr`. -/
def readRunList (ml : Layout) (r : List UInt8) (pnr : ℕ) (disp : Disposition) :
    Option Disposition := do
  let lowVcn ← field r (pnr + 16) 8
  let run := r.drop (pnr + (← field r (pnr + 32) 2))
  processRuns ml.totalClusters (run.length + 1) run (BitVec.ofNat 64 lowVcn) 0 disp

/-- Adds the runs of the attribute at `pnr` to the disposition of a stream. -/
def dumpStream (env : Env) (r : List UInt8) (pnr i : ℕ) : M Unit := do
  let s ← get
  let disp ← read (readRunList env.ml r pnr ((s.filelist[i]?.map FileInfo.disp).getD .zero))
  modifyStream i fun f => { f with disp := disp }

def processRunList (env : Env) (analyzeEntry : List UInt8 → ℕ → M Unit) (attrName : WString)
    (r : List UInt8) (pnr : ℕ) (isAttrList : Bool) : M Unit := do
  let i ← findFilelistEntry attrName
  let attrFlags ← read (field r (pnr + 12) 2)
  when (attrFlags % 2 = 1) do
    modifyStream i fun f => { f with flags := f.flags ||| attributeCompressed }
  let s ← get
  -- its map is often wrong
  if isBadClus env s.mfi.name then pure ()
  else
    when (isAttrList || env.dumpFiles) do dumpStream env r pnr i
    when isAttrList do
      let s ← get
      let bm := (s.filelist[i]?.map fun f => f.disp.blockmap).getD []
      let listSize ← read (field r (pnr + 56) 8)
      analyzeNonResidentAttributeList env analyzeEntry bm listSize

/-- The file is a reparse point. -/
def flagReparsePoint : M Unit :=
  modify fun s => { s with mfi := { s.mfi with flags := s.mfi.flags ||| attributeReparsePoint } }

def analyzeNonResidentStream (env : Env) (analyzeEntry : List UInt8 → ℕ → M Unit)
    (r : List UInt8) (pnr : ℕ) : M Unit := do
  let type ← read (attributeType r pnr)
  when (type = 0xC0) flagReparsePoint
  match ← read (getAttributeName r pnr) with
  | none => pure ()
  | some name => processRunList env analyzeEntry name r pnr (decide (type = 0x20))

def getFileFlags (r : List UInt8) (value valueLength : ℕ) : M Unit := do
  if valueLength < 48 then pure ()
  else
    let attributes ← read (field r (value + 32) 4)
    modify fun s =>
      { s with mfi := { s.mfi with flags := s.mfi.flags ||| BitVec.ofNat 32 attributes } }

/-- A name of a file, as `FILENAME_ATTRIBUTE` has it. -/
structure FileName where
  parentMftId : ℕ
  type : ℕ
  name : WString
deriving DecidableEq, Repr

/-- The name at `value`, none inside if it is too short or empty. -/
def readFileName (r : List UInt8) (value valueLength : ℕ) : Option (Option FileName) := do
  if valueLength < 68 then return none
  let length ← field r (value + 64) 1
  if length = 0 then return none
  let first ← field r (value + 66) 2
  if first = 0 then return none
  let directory ← field r value 8
  let type ← field r (value + 65) 1
  return some ⟨mftIdOf directory, type, ← wcsncpy r length (value + 66)⟩

/-- `FILENAME_POSIX`, `FILENAME_WIN32`, `FILENAME_DOS`. -/
def filenamePosix : ℕ := 0

def filenameWin32 : ℕ := 1

def filenameDos : ℕ := 2

/-- What `update_file_name` does with a name. -/
def FileInformation.addName (mfi : FileInformation) (fn : FileName) : FileInformation :=
  if fn.parentMftId = mfi.baseMftId ∧ mfi.baseMftId ≠ fileRoot then mfi
  else if mfi.name = [] ∨ mfi.nameType = filenameDos
      ∨ (mfi.nameType = filenameWin32 ∧ fn.type = filenamePosix) then
    { mfi with parentDirectoryMftId := fn.parentMftId, nameType := fn.type, name := fn.name }
  else { mfi with parentDirectoryMftId := fn.parentMftId }

def updateFileName (r : List UInt8) (value valueLength : ℕ) : M Unit := do
  match ← read (readFileName r value valueLength) with
  | none => pure ()
  | some fn => modify fun s => { s with mfi := s.mfi.addName fn }

def analyzeResidentStream (env : Env) (analyzeEntry : List UInt8 → ℕ → M Unit) (r : List UInt8)
    (pr : ℕ) : M Unit := do
  addStream (← read (getAttributeName r pr))
  let valueOffset ← read (field r (pr + 20) 2)
  let valueLength ← read (field r (pr + 16) 4)
  if valueOffset = 0 ∨ valueLength = 0 then pure ()
  else
    let value := pr + valueOffset
    let type ← read (attributeType r pr)
    if type = 0x10 then getFileFlags r value valueLength
    else if type = 0x30 then updateFileName r value valueLength
    else if type = 0x20 then
      attributeListLoop env analyzeEntry r (value + valueLength) (value + valueLength + 1) value
    else when (type = 0xC0) flagReparsePoint

def analyzeAttribute (env : Env) (analyzeEntry : List UInt8 → ℕ → M Unit) (r : List UInt8)
    (pattr : ℕ) : M Unit := do
  if (← read (nonresident r pattr)) ≠ 0 then analyzeNonResidentStream env analyzeEntry r pattr
  else analyzeResidentStream env analyzeEntry r pattr

/-! ### Attribute lists -/

/-- `TAG('F','I','L','E')`. -/
def fileTag : ℕ := 0x454C4946

/-- The attribute an entry of an attribute list names; no name for the null pointer. -/
structure Wanted where
  type : ℕ
  name : Option WString
  number : ℕ
deriving DecidableEq, Repr

/-- The characters at `off` are `name`. -/
def sameName (r : List UInt8) (off : ℕ) (name : WString) : Option Bool := do
  let bytes ← slice r off (2 * name.length)
  return bytes = name.flatMap fun c => Bytes.ofNat 2 c.toNat

/-- Whether the attribute at `attr` is the one wanted. `name` is the address of the name last seen
on an attribute of the type: the source sets it and never resets it. -/
def matchAttribute (r : List UInt8) (wanted : Wanted) (name : Option ℕ) (attr : ℕ) :
    Option (Bool × Option ℕ) := do
  if (← attributeType r attr) ≠ wanted.type then return (false, name)
  let offset ← nameOffset r attr
  let length ← nameLength r attr
  let name ←
    if offset ≠ 0 ∧ length ≠ 0 then
      (field r (attr + offset) 2).map fun c => if c = 0 then none else some (attr + offset)
    else pure name
  let number ← attributeNumber r attr
  match wanted.name, name with
  | none, none => return (decide (number = wanted.number), name)
  | none, some _ => return (false, name)
  | some _, none => return (false, name)
  | some want, some off =>
    if want.length ≠ length then return (false, name)
    return ((← sameName r off want) && decide (number = wanted.number), name)

def analyzeSingleAttribute (env : Env) (analyze : List UInt8 → ℕ → M Unit) (r : List UInt8)
    (wanted : Wanted) : M Unit :=
  walkRecord env r (fun name attr => do
    match ← read (matchAttribute r wanted name attr) with
    | (true, _) => analyze r attr; return none
    | (false, name) => return some name) none

def analyzeAttributeFromMftRecord (env : Env) (analyze : List UInt8 → ℕ → M Unit) (mftId : ℕ)
    (wanted : Wanted) : M Unit := do
  let s ← get
  -- attributes of the base record are scanned anyway
  if mftId = s.mfi.baseMftId then pure ()
  else
    match ← getFileRecord env mftId with
    | none => pure ()
    | some record =>
      if mftIdOf record.fileReferenceNumber ≠ mftId then pure ()
      else
        let r := record.buffer
        if (← read (field r 0 4)) ≠ fileTag then pure ()
        else if (← read (field r 22 2)) % 2 = 0 then pure ()
        else if (← read (field r 32 8)) = 0 then pure ()
        else analyzeSingleAttribute env analyze r wanted

/-- The attribute an entry names, and the record it is in. -/
def readEntry (buf : List UInt8) (entry : ℕ) : Option (ℕ × Wanted) := do
  let length ← field buf (entry + 6) 1
  let offset ← field buf (entry + 7) 1
  let name ←
    if length = 0 ∨ offset = 0 then pure none
    else do
      let first ← field buf (entry + offset) 2
      if first = 0 then pure none else some <$> wcsncpy buf length (entry + offset)
  let type ← field buf entry 4
  let frn ← field buf (entry + 16) 8
  let number ← field buf (entry + 24) 2
  return (mftIdOf frn, ⟨type, name, number⟩)

/-- `analyze_attribute_from_attribute_list`. An attribute it finds may be an attribute list again,
to any depth. -/
def analyzeEntry (env : Env) : (depth : ℕ) → List UInt8 → ℕ → M Unit
  | 0, _, _ => spent
  | depth + 1, buf, entry => do
    let (mftId, wanted) ← read (readEntry buf entry)
    mark (.entry wanted.type)
    analyzeAttributeFromMftRecord env (analyzeAttribute env (analyzeEntry env depth)) mftId wanted

/-! ### File records -/

def streamName (mfi : FileInformation) (name : WString) : WString :=
  if name = [] then mfi.name else mfi.name ++ wide ":" ++ name

/-- What `analyze_file_record` puts into a stream of the file at its end. -/
def nameStream (mfi : FileInformation) (f : FileInfo) : FileInfo :=
  { f with
    flags := mfi.flags
    parentDirectoryMftId := mfi.parentDirectoryMftId
    name := streamName mfi f.name }

/-- The last loop of `analyze_file_record`. -/
def nameStreams (mfi : FileInformation) : List FileInfo → List FileInfo
  | [] => []
  | f :: fs =>
    if mfi.baseMftId < f.baseMftId then f :: fs
    else (if f.baseMftId = mfi.baseMftId then nameStream mfi f else f) :: nameStreams mfi fs

def analyzeFileRecord (env : Env) (depth : ℕ) (record : FileRecord) : M Unit := do
  let r := record.buffer
  if (← read (field r 0 4)) ≠ fileTag then pure ()
  else
    let flags ← read (field r 22 2)
    if flags % 2 = 0 then pure ()
    else if (← read (field r 32 8)) ≠ 0 then pure ()
    else
      modify fun s => { s with mfi :=
        { baseMftId := mftIdOf record.fileReferenceNumber
          parentDirectoryMftId := fileRoot
          flags := if flags / 2 % 2 = 1 then attributeDirectory else 0
          nameType := filenamePosix
          name := [] } }
      let analyze := analyzeAttribute env (analyzeEntry env depth)
      enumerateAttributes env r fun pattr => do
        let type ← read (attributeType r pattr)
        when (type ≠ 0x20) (analyze r pattr)
      enumerateAttributes env r fun pattr => do
        let type ← read (attributeType r pattr)
        when (type = 0x20) (analyze r pattr)
      modify fun s => { s with filelist := nameStreams s.mfi s.filelist }

/-- `get_number_of_file_records`, false for a failure. -/
def getNumberOfFileRecords (env : Env) : M Bool := do
  modify fun s => { s with numberOfFileRecords := 0 }
  match ← getFileRecord env 0 with
  | none => pure false
  | some record =>
    if mftIdOf record.fileReferenceNumber ≠ 0 then pure false
    else
      let r := record.buffer
      if (← read (field r 0 4)) ≠ fileTag then pure false
      else if (← read (field r 22 2)) % 2 = 0 then pure false
      else
        enumerateAttributes env r fun pattr => do
          let nonresident ← read (nonresident r pattr)
          let type ← read (attributeType r pattr)
          when (nonresident ≠ 0 ∧ type = 0x80) do
            let dataSize ← read (field r (pattr + 48) 8)
            modify fun s => { s with numberOfFileRecords := dataSize / env.ml.fileRecordSize }
        let s ← get
        return decide (s.numberOfFileRecords ≠ 0)

/-- The loop of `scan_mft`, false for a failure. Each step goes to an earlier record. -/
def scanRecords (env : Env) (depth : ℕ) : (fuel mftId : ℕ) → M Bool
  | 0, _ => spent
  | fuel + 1, mftId => do
    if ← checkForTermination env then pure true
    else
      match ← getFileRecord env mftId with
      | none => if mftId = 0 then pure false else scanRecords env depth fuel (mftId - 1)
      | some record =>
        let id := mftIdOf record.fileReferenceNumber
        mark (.record mftId id)
        analyzeFileRecord env depth record
        if id = 0 ∨ mftId = 0 then pure true
        else if mftId < id then scanRecords env depth fuel (mftId - 1)
        else scanRecords env depth fuel (id - 1)

end Mft

end StopGap
