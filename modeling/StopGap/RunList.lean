import StopGap.Lib.Bytes
import StopGap.Files

/-!
# Run lists

NTFS keeps in a file record where a stream lies: for each run of virtual clusters a byte with the
sizes of two numbers, the number of clusters, and the distance of the first of them from that of the
run before, which may be negative. A run without a distance has no clusters, a zero byte ends the
list. `process_run_list` (ftw_ntfs.c) reads it with 64-bit arithmetic and checks each run against
the size of the volume; it does not check where the record ends.
-/

namespace StopGap

/-- `*run & 0xf`, the size of the count. -/
def countSize (b : UInt8) : ℕ := (b &&& 0xf).toNat

/-- `(*run >> 4) & 0xf`, the size of the distance. -/
def distanceSize (b : UInt8) : ℕ := ((b >>> 4) &&& 0xf).toNat

/-- `RunLength`, for the first byte of the run. -/
def runLength (b : UInt8) : ℕ := countSize b + distanceSize b + 1

/-- `RunLCN`, where `run` is the memory from the run on; none if it is too short. -/
def runLCN (run : List UInt8) : Option (BitVec 64) := do
  let b ← run[0]?
  if distanceSize b = 0 then return 0
  let bytes ← Bytes.slice run (1 + countSize b) (distanceSize b)
  let top ← bytes.getLast?
  return Bytes.shiftIn bytes.dropLast (top.toBitVec.signExtend 64)

/-- `RunCount`. -/
def runCount (run : List UInt8) : Option (BitVec 64) := do
  let b ← run[0]?
  let bytes ← Bytes.slice run 1 (countSize b)
  return Bytes.shiftIn bytes 0

def checkRun (totalClusters : ℕ) (lcn length : BitVec 64) : Bool :=
  decide (lcn.toNat < totalClusters) && decide ((lcn + length).toNat ≤ totalClusters)

/-- `process_run`. The counts are 64 bits wide, and so is the end of the block before. -/
def processRun (disp : Disposition) (vcn lcn length : BitVec 64) : Disposition where
  clusters := (disp.clusters + length.toNat) % 2 ^ 64
  fragments :=
    match disp.blockmap.getLast? with
    | none => (disp.fragments + 1) % 2 ^ 64
    | some prev =>
      if lcn.toNat = (prev.lcn + prev.length) % 2 ^ 64 then disp.fragments
      else (disp.fragments + 1) % 2 ^ 64
  blockmap := disp.blockmap ++ [⟨vcn.toNat, lcn.toNat, length.toNat⟩]

/-- The loop of `process_run_list` over the runs. Each has a byte at least, so that one step more
than there is memory is never taken. -/
def processRuns (totalClusters : ℕ) :
    (fuel : ℕ) → (run : List UInt8) → (vcn lcn : BitVec 64) → Disposition → Option Disposition
  | 0, _, _, _, _ => none
  | fuel + 1, run, vcn, lcn, disp => do
    let b ← run[0]?
    if b = 0 then return disp
    let distance ← runLCN run
    let length ← runCount run
    let next := run.drop (runLength b)
    -- virtual runs are skipped
    if distance = 0 then processRuns totalClusters fuel next (vcn + length) lcn disp
    else if checkRun totalClusters (lcn + distance) length then
      processRuns totalClusters fuel next (vcn + length) (lcn + distance)
        (processRun disp vcn (lcn + distance) length)
    else return disp

end StopGap
