import StopGap.Files

/-!
# Reading in portions

The driver reports the bitmap of a volume and the retrieval pointers of a file in portions, as much
as a buffer holds. Both readers ask again from where the last portion ended, as long as the driver
answers that there is more. The driver answers the `k`-th question from cluster `next` on with its
final status and what it put into the buffer.
-/

namespace StopGap

/-- `STATUS_SUCCESS`, `STATUS_BUFFER_OVERFLOW`, `STATUS_END_OF_FILE`. -/
def statusSuccess : NtStatus := 0

def statusBufferOverflow : NtStatus := 0x80000005#32

def statusEndOfFile : NtStatus := 0xC0000011#32

namespace Portions

/-- `BITMAP_DESCRIPTOR`. -/
structure BitmapDescriptor where
  startLcn : ℕ
  clustersToEndOfVol : ℕ
  map : List UInt8
deriving DecidableEq, Repr

/-- `BITMAPBYTES`. -/
def bitmapBytes : ℕ := 4096

def bitshift : List UInt8 := [1, 2, 4, 8, 16, 32, 64, 128]

/-- The bit of the `i`-th cluster. What the driver left out of the buffer was set to zero. -/
def BitmapDescriptor.used (d : BitmapDescriptor) (i : ℕ) : Bool :=
  d.map.getD (i / 8) 0 &&& bitshift.getD (i % 8) 0 ≠ 0

/-- The loop through a portion, `n` clusters from the `i`-th on: the regions it adds, and
`free_rgn_start`. -/
def scanBitmap (d : BitmapDescriptor) : (n i : ℕ) → (freeRgnStart : Option ℕ) →
    List Region × Option ℕ
  | 0, _, start => ([], start)
  | n + 1, i, start =>
    if d.used i then
      match start with
      | none => scanBitmap d n (i + 1) none
      | some s =>
        let (rs, start) := scanBitmap d n (i + 1) none
        (⟨s, d.startLcn + i - s⟩ :: rs, start)
    else scanBitmap d n (i + 1) (some (start.getD (d.startLcn + i)))

/-- The region that is open at the end. -/
def lastRegion (stop : ℕ) : Option ℕ → List Region
  | none => []
  | some s => [⟨s, stop - s⟩]

/-- The loop of `winx_get_free_volume_regions`; none if it is not over yet, and the empty list for
the null pointer. -/
def freeRegionsLoop (bitmap : ℕ → ℕ → NtStatus × BitmapDescriptor) (allowPartialScan : Bool) :
    (fuel k next : ℕ) → (freeRgnStart : Option ℕ) → (rlist : List Region) → Option (List Region)
  | 0, _, _, _, _ => none
  | fuel + 1, k, next, start, rlist =>
    let (status, d) := bitmap k next
    if status ≠ statusSuccess ∧ status ≠ statusBufferOverflow then
      some (if allowPartialScan then rlist else [])
    else
      let n := min d.clustersToEndOfVol (8 * bitmapBytes)
      let (rs, start) := scanBitmap d n 0 start
      if status ≠ statusSuccess then
        freeRegionsLoop bitmap allowPartialScan fuel (k + 1) (d.startLcn + n) start (rlist ++ rs)
      else some (rlist ++ rs ++ lastRegion (d.startLcn + n) start)

/-- `winx_get_free_volume_regions` without a callback, on a volume that opens. -/
def winxGetFreeVolumeRegions (bitmap : ℕ → ℕ → NtStatus × BitmapDescriptor)
    (allowPartialScan : Bool) (fuel : ℕ) : Option (List Region) :=
  freeRegionsLoop bitmap allowPartialScan fuel 0 0 none []

/-- `GET_RETRIEVAL_DESCRIPTOR`. -/
structure RetrievalDescriptor where
  startVcn : ℕ
  pairs : List RetrievalPair
deriving DecidableEq, Repr

/-- The pairs `FILE_MAP_SIZE` has room for. -/
def mapPairs : ℕ := 512

/-- `startVcn` behind the loop through the pairs. -/
def lastVcn (startVcn : ℕ) (pairs : List RetrievalPair) : ℕ :=
  (pairs.getLast?.map RetrievalPair.vcn).getD startVcn

/-- The loop of `winx_ftw_dump_file`: the disposition and whether zero is returned; none if it is
not over yet. -/
def dumpLoop (pointers : ℕ → ℕ → NtStatus × RetrievalDescriptor) (terminator : ℕ → Bool) :
    (fuel k startVcn : ℕ) → Disposition → Option (Disposition × Bool)
  | 0, _, _, _ => none
  | fuel + 1, k, startVcn, disp =>
    let (status, d) := pointers k startVcn
    if status ≠ statusSuccess ∧ status ≠ statusBufferOverflow then
      -- small files are inside the table
      some (.zero, decide (status = statusEndOfFile))
    else if terminator k then some (.zero, true)
    else if d.pairs = [] ∧ status ≠ statusSuccess then some (.zero, true)
    else
      match dumpPairs d.startVcn d.pairs disp with
      | none => some (.zero, false)
      | some disp =>
        if status ≠ statusSuccess then
          dumpLoop pointers terminator fuel (k + 1) (lastVcn d.startVcn d.pairs) disp
        else some (validateBlockmap disp, true)

/-- `winx_ftw_dump_file` of a file that opens. -/
def winxFtwDumpFile (pointers : ℕ → ℕ → NtStatus × RetrievalDescriptor) (terminator : ℕ → Bool)
    (fuel : ℕ) : Option (Disposition × Bool) :=
  dumpLoop pointers terminator fuel 0 0 .zero

end Portions

end StopGap
