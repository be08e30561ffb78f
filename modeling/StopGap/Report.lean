import StopGap.Operation

/-!
# The report of a run

`Operation::run` scans the volume once more at its end and counts the gaps: those up to the maximum
size, and the larger ones, which a verbose run prints one by one instead.
-/

namespace StopGap

structure Report where
  smallish : ℕ
  smallsize : ℕ
  largish : ℕ
  largesize : ℕ
  printed : List Region
deriving DecidableEq, Repr

namespace Report

def empty : Report := ⟨0, 0, 0, 0, []⟩

/-- The body of the loop over the gaps. -/
def add (maxSize : ℕ) (verbose : Bool) (rep : Report) (r : Region) : Report :=
  if r.length ≤ maxSize then
    { rep with smallish := rep.smallish + 1, smallsize := rep.smallsize + r.length }
  else if !verbose then
    { rep with largish := rep.largish + 1, largesize := rep.largesize + r.length }
  else { rep with printed := rep.printed ++ [r] }

def ofGaps (maxSize : ℕ) (verbose : Bool) (ge : GapEnumeration) : Report :=
  ge.regions.foldl (fun rep e => rep.add maxSize verbose (ge.node e.2)) empty

end Report

/-- The largest consecutive gap, `sizes_.rbegin()`. -/
def GapEnumeration.largest (ge : GapEnumeration) : Option ℕ := ge.sizes.getLast?.map Prod.fst

end StopGap
