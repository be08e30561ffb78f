import StopGap.Lib.Exec
import StopGap.Chooser

/-!
# The operation

`Operation::run` alternates `defrag`, which moves fragmented files to gaps that hold them whole, and
`close_gaps`, which fills gaps from the front of the volume on with files from behind them. All
moves go through `move_file`.

What the program cannot decide is asked of an environment: whether a file opens, what a request
returns, what a dump reports, whether the user has asked to stop. Each question is put with a number
that counts them, so that an answer may differ from one time to the next. The marks a run passes are
the places properties of it speak about. Console output is left out.
-/

namespace StopGap

open Exec Exec.Prog

structure Options where
  -- in clusters, as `Operation::init` leaves it
  maxSize : ℕ
  aggressive : Bool
  gaps : Bool
  defrag : Bool
  widen : Bool
deriving DecidableEq, Repr

structure Env where
  -- whether `winx_defrag_fopen` opens a file for a move
  opens : ℕ → Bool
  -- the final status of a request `FSCTL_MOVE_FILE`
  status : ℕ → Volume → MoveFileDescriptor → NtStatus
  -- what a dump of a file that lies on these extents reports, if anything
  report : ℕ → List Extent → Option (List Extent)
  -- `ConsoleHandler::gTerminated`
  terminated : ℕ → Bool

structure Operation where
  vol : Volume
  ge : GapEnumeration
  fe : FileEnumeration
  moved : ℕ
  movedLen : ℕ
  last : Option FileId
  replaced : Bool
  -- the questions asked of the environment so far
  clock : ℕ

inductive Caller where
  | defrag
  | moveSet
  | widenBehind
deriving DecidableEq, Repr

/-- A region `next()` returned: the scan its list is from and its node there. -/
structure NodePtr where
  scan : ℕ
  node : ℕ
deriving DecidableEq, Repr

/-- Places a run passes. -/
inductive Mark where
  -- `fe->pop(f)` is called
  | fePop (f : FileId)
  -- the request is about to be issued
  | request (caller : Caller) (d : MoveFileDescriptor)
  -- the request returned
  | answered (caller : Caller) (d : MoveFileDescriptor) (status : NtStatus)
  -- `ge->push(f)` is called
  | gePush (f : FileId)
  -- the dump after a request that returned `status` is back
  | dumped (f : FileId) (status : NtStatus)
  -- `move_file` returns
  | moveReturned (f : FileId)
  -- an iteration of `defrag` begins
  | defragIter (f : FileId)
  -- an iteration of `close_gaps` begins
  | gapsIter (partialOK : Bool)
  -- `close_gaps` returns, with no gap left
  | gapsClosed
  -- `widen_behind` has moved a file and now takes the gap to be `r`
  | widened (r : Region)
  -- `close_gaps` drops `g` after `widen_behind` returned false
  | dropWidened (g : NodePtr)
deriving DecidableEq, Repr

abbrev M := Prog Operation Mark Fault

def ask : M ℕ := do
  let s ← get
  modify fun s => { s with clock := s.clock + 1 }
  pure s.clock

def terminated (env : Env) : M Bool := do
  return env.terminated (← ask)

def openFile (env : Env) : M Unit := do
  if env.opens (← ask) then pure () else throw

def fePop (f : FileId) : M Unit := do
  mark (.fePop f)
  modify fun s => { s with fe := s.fe.pop f }

def fePush (f : FileId) : M Unit :=
  modify fun s => { s with fe := s.fe.push f }

def geScan : M Unit :=
  modify fun s => { s with ge := s.ge.scan s.vol.winxGetFreeVolumeRegions }

def gePush (f : FileId) : M Unit := do
  mark (.gePush f)
  let s ← get
  let ge ← lift (s.ge.push (s.fe.disp f).blockmap)
  modify fun s => { s with ge := ge }

def gePopFile (f : FileId) : M Unit := do
  let s ← get
  let ge ← lift (s.ge.popBlocks s.vol.winxGetFreeVolumeRegions (s.fe.disp f).blockmap)
  modify fun s => { s with ge := ge }

/-- `*g`. -/
def readRegion (g : NodePtr) : M Region := do
  let s ← get
  if g.scan = s.ge.scans then pure (s.ge.node g.node) else halt .danglingRegion

def gePopRegion (g : NodePtr) : M Unit := do
  let _ ← readRegion g
  let s ← get
  let ge ← lift (s.ge.popRegion s.vol.winxGetFreeVolumeRegions g.node)
  modify fun s => { s with ge := ge }

/-- The request `FSCTL_MOVE_FILE`: a granted one changes the volume. -/
def ntFsControlFile (env : Env) (caller : Caller) (d : MoveFileDescriptor) : M NtStatus := do
  mark (.request caller d)
  let k ← ask
  let s ← get
  let status := env.status k s.vol d
  modify fun s => if ntSuccess status then { s with vol := s.vol.fsctlMoveFile d } else s
  mark (.answered caller d status)
  pure status

def dumpFile (env : Env) (f : FileId) : M Unit := do
  let k ← ask
  modify fun s => { s with fe := { s.fe with
    disp := Function.update s.fe.disp f (winxFtwDumpFile (env.report k (s.vol.map f))) } }

/-- `MAXULONG32 - 10`, the most virtual clusters of one request. -/
def maxChunk : ℕ := 2 ^ 32 - 11

def subU64 (a b : ℕ) : ℕ := (a + 2 ^ 64 - b) % 2 ^ 64

/-- The loop of `move_file`, one request an iteration. `startlcn` stays at 0. -/
def moveChunks (env : Env) (caller : Caller) (f : FileId) :
    (fuel numlcns : ℕ) → (target : Region) → M Unit
  | 0, _, _ => pure ()
  | fuel + 1, numlcns, target =>
    let cur := min numlcns maxChunk
    if cur = 0 then pure ()
    else do
      openFile env
      let status ← ntFsControlFile env caller ⟨f, 0, target.lcn, cur⟩
      gePush f
      dumpFile env f
      mark (.dumped f status)
      if ntSuccess status then
        gePopFile f
        fePush f
        moveChunks env caller f fuel (numlcns - cur)
          ⟨target.lcn + cur, subU64 target.length cur⟩
      else
        -- the area vanished, the file is still good
        if status = statusAlreadyCommitted then fePush f
        throw

/-- `move_file`. Every request but the last takes `maxChunk` clusters, so the fuel is enough. -/
def moveFile (env : Env) (caller : Caller) (f : FileId) (g : Region) : M Unit := do
  fePop f
  let s ← get
  let numlcns := (s.fe.disp f).clusters
  moveChunks env caller f (numlcns / maxChunk + 1) numlcns g
  modify fun s => { s with
    moved := s.moved + 1
    movedLen := s.movedLen + (s.fe.disp f).clusters
    replaced := true
    last := some f }
  mark (.moveReturned f)

def moveSetLoop (env : Env) : List FileId → Region → M Unit
  | [], _ => pure ()
  | f :: files, r => do
    if ← terminated env then pure ()
    else
      moveFile env .moveSet f r
      let s ← get
      let clusters := (s.fe.disp f).clusters
      moveSetLoop env files ⟨r.lcn + clusters, subU64 r.length clusters⟩

def moveSet (env : Env) (files : List FileId) (r : Region) : M Bool :=
  catching (do moveSetLoop env files r; pure true) (pure false)

/-- The list of fragmented files at the start of `defrag`. -/
def listFragmented (env : Env) : List (ℕ × FileId) → M (List FileId)
  | [] => pure []
  | e :: es => do
    if ← terminated env then pure []
    else
      let s ← get
      let rest ← listFragmented env es
      if 1 < (s.fe.disp e.2).fragments then pure (e.2 :: rest) else pure rest

/-- One iteration of `defrag`. A file that was moved last is taken out and handled all the same. -/
def defragBody (env : Env) (f : FileId) : M Unit := do
  mark (.defragIter f)
  let s ← get
  if s.last = some f then fePop f
  let s ← get
  match s.ge.best (s.fe.disp f).clusters none false with
  | none => pure ()
  | some g => catching (moveFile env .defrag f (s.ge.node g)) geScan

def defragLoop (env : Env) : List FileId → M Unit
  | [] => pure ()
  | f :: files => do
    if ← terminated env then pure ()
    else
      defragBody env f
      defragLoop env files

def defrag (env : Env) : M Unit := do
  let s ← get
  let fragmented ← listFragmented env s.fe.buckets
  defragLoop env fragmented

def feFindAt (lcn : ℕ) : M (Option FileId) := do
  let s ← get
  let (fe, f) := s.fe.findAt lcn
  modify fun s => { s with fe := fe }
  pure f

/-- The target `widen_behind` chooses for a file of `clusters` clusters. -/
def widenTarget (opts : Options) (ge : GapEnumeration) (r : Region) (clusters : ℕ) :
    Option RegionPtr :=
  match ge.best clusters (some (.copy r)) true with
  | some n => some (.node n)
  | none =>
    if opts.maxSize ≤ clusters ∧ clusters ≤ r.length then some (.copy r) else none

/-- The gap `widen_behind` goes on with after moving `clusters` clusters to `target`. -/
def widenRegion (target : RegionPtr) (r : Region) (clusters : ℕ) : Region :=
  match target with
  | .node _ => ⟨r.lcn, r.length + clusters⟩
  | .copy _ => ⟨subU64 r.lcn clusters, r.length + clusters⟩

/-- The loop of `widen_behind`, with `left` moves to go. -/
def widenLoop (env : Env) (opts : Options) :
    (left : ℕ) → (r : Region) → (moved movedlen : ℕ) → M Bool
  | 0, _, moved, _ => pure (decide (0 < moved))
  | left + 1, r, moved, movedlen => do
    if !opts.widen then pure (decide (0 < moved))
    else if ← terminated env then pure (decide (0 < moved))
    else if opts.maxSize / 2 ≤ movedlen then pure (decide (0 < moved))
    else
      match ← feFindAt ((r.lcn + r.length) % 2 ^ 64) with
      | none => pure (decide (0 < moved))
      | some f =>
        let s ← get
        match widenTarget opts s.ge r (s.fe.disp f).clusters with
        | none => pure (decide (0 < moved))
        | some target =>
          let ok ← catching
            (do moveFile env .widenBehind f (s.ge.deref target); pure true) (pure false)
          if ok then
            let s ← get
            let clusters := (s.fe.disp f).clusters
            let r := widenRegion target r clusters
            mark (.widened r)
            widenLoop env opts left r (moved + 1) (movedlen + clusters)
          else pure false

def widenBehind (env : Env) (opts : Options) (r : Region) (maxMoves : ℕ) : M Bool :=
  widenLoop env opts maxMoves r 0 0

/-- One iteration of `close_gaps`, with the `partialOK` it leaves. -/
def closeGapsBody (env : Env) (opts : Options) (g : NodePtr) (partialOK : Bool) : M Bool := do
  mark (.gapsIter partialOK)
  let r ← readRegion g
  if !opts.aggressive && decide (opts.maxSize < r.length) then
    gePopRegion g
    pure partialOK
  else
    let s ← get
    let files ← lift (s.fe.findBest r.lcn r.length partialOK)
    if files ≠ [] then
      if ← moveSet env files r then pure false
      else
        geScan
        pure partialOK
    else
      let widened ← widenBehind env opts r (if partialOK then 100 else 3)
      if !widened && partialOK then
        mark (.dropWidened g)
        gePopRegion g
        pure false
      else pure true

/-- `next()` as a pointer. -/
def Operation.nextGap (s : Operation) : Option NodePtr := s.ge.next.map (⟨s.ge.scans, ·⟩)

def closeGaps (env : Env) (opts : Options) : (fuel : ℕ) → (partialOK : Bool) → M Unit
  | 0, _ => spent
  | fuel + 1, partialOK => do
    let s ← get
    match s.nextGap with
    | none => mark .gapsClosed
    | some g =>
      if ← terminated env then pure ()
      else
        let partialOK ← closeGapsBody env opts g partialOK
        closeGaps env opts fuel partialOK

def runBody (env : Env) (opts : Options) (fuel : ℕ) : M Unit := do
  if opts.defrag then
    defrag env
    geScan
  modify fun s => { s with replaced := false }
  if opts.gaps then
    closeGaps env opts fuel false
    geScan

/-- The loop of `run`; each of its iterations has `gapFuel` for the loop of `close_gaps`. -/
def runLoop (env : Env) (opts : Options) (gapFuel : ℕ) : (fuel : ℕ) → M Unit
  | 0 => spent
  | fuel + 1 => do
    if ← terminated env then pure ()
    else
      let s ← get
      if s.replaced then
        runBody env opts gapFuel
        runLoop env opts gapFuel fuel
      else pure ()

def run (env : Env) (opts : Options) (fuel : ℕ) : M Unit := do
  modify fun s => { s with replaced := true }
  runLoop env opts fuel fuel
  geScan

/-- What `Operation::init` leaves: both enumerations of the volume. -/
def Operation.init (vol : Volume) (disk : List FileId) (disp : FileId → Disposition)
    (excluded : FileId → Bool) : Operation where
  vol := vol
  ge := GapEnumeration.empty.scan vol.winxGetFreeVolumeRegions
  fe := FileEnumeration.scan disk disp excluded
  moved := 0
  movedLen := 0
  last := none
  replaced := false
  clock := 0

end StopGap
