import StopGap.Files

/-!
# The chooser

`findBest` picks files from behind a gap to fill it with: one of exactly its length, else, while
more than `maxlen` clusters are left, every file that fits, largest first, and for the rest a
knapsack over a few candidates of each size.
-/

namespace StopGap

def maxlen : ℕ := 256

/-- `sol_t`: a sum of cluster counts and the candidates it is made of, as a bitset. -/
structure Sol where
  value : ℕ
  items : List Bool
deriving DecidableEq, Repr

namespace Sol

def zero : Sol := ⟨0, []⟩

def count (s : Sol) : ℕ := s.items.count true

/-- `operator <`: a smaller value, or the same one from more files. -/
def lt (s rhs : Sol) : Bool :=
  if s.value = rhs.value then decide (rhs.count < s.count) else decide (s.value < rhs.value)

/-- `add`: the bitset is resized where it is too short. -/
def add (s : Sol) (index : ℕ) : Sol :=
  { s with
    items :=
      (if s.items.length ≤ index then
        s.items ++ List.replicate (index + 1 - s.items.length) false
      else s.items).set index true }

/-- The positions in the bitset, as `find_first` and `find_next` walk them. -/
def positions (s : Sol) : List ℕ :=
  (List.range s.items.length).filter fun i => s.items.getD i false

end Sol

/-- `solutions[i][w]`, from row `i - 1`. -/
def solCell (prev : List Sol) (i candw w : ℕ) : Sol :=
  if w = 0 then .zero
  else if candw ≤ w then
    let candsol := prev.getD (w - candw) .zero
    let candsol := ({ candsol with value := candsol.value + candw }).add i
    if (prev.getD w .zero).lt candsol then candsol else prev.getD w .zero
  else prev.getD w .zero

/-- The rows of `solutions` for candidates of sizes `candws`, the first of them at position `i`:
each from the row before. -/
def solRows (nlength : ℕ) : (i : ℕ) → (candws : List ℕ) → List Sol → List Sol
  | _, [], row => row
  | i, candw :: candws, row =>
    solRows nlength (i + 1) candws ((List.range (nlength + 1)).map (solCell row i candw))

def solution (candws : List ℕ) (nlength : ℕ) : Sol :=
  (solRows nlength 0 candws (List.replicate (nlength + 1) .zero)).getD nlength .zero

namespace FileEnumeration

def headLcn (fe : FileEnumeration) (f : FileId) : Except Fault ℕ :=
  match (fe.disp f).blockmap with
  | [] => .error .nullBlockmap
  | b :: _ => .ok b.lcn

/-- The search for a perfect item among the files of the gap's length. -/
def findPerfect (fe : FileEnumeration) (lcn : ℕ) :
    List (ℕ × FileId) → Option FileId → Except Fault (Option FileId)
  | [], perfect => .ok perfect
  | (_, f) :: es, perfect => do
    let l ← fe.headLcn f
    if l ≤ lcn then fe.findPerfect lcn es perfect
    else match perfect with
      | none => fe.findPerfect lcn es (some f)
      | some p =>
        let lp ← fe.headLcn p
        fe.findPerfect lcn es (some (if lp < l then f else p))

/-- A multimap with the greatest key first. -/
abbrev Known := List (ℕᵒᵈ × FileId)

/-- The first entry of the range that starts before `l`. -/
def findSmaller (fe : FileEnumeration) (l : ℕ) : Known → Except Fault (Option (ℕᵒᵈ × FileId))
  | [] => .ok none
  | e :: es => do
    let l' ← fe.headLcn e.2
    if l ≤ l' then fe.findSmaller l es else .ok (some e)

/-- What the candidate loop does to `known_` with a file of `size` clusters that starts at `l`. -/
def keepKnown (fe : FileEnumeration) (size : ℕ) (f : FileId) (l : ℕ) (known : Known) :
    Except Fault Known := do
  let e : ℕᵒᵈ × FileId := (OrderDual.toDual size, f)
  let k := (OrdMap.equalRange e.1 known).length
  let known := if (size < 4 ∧ k < 1) ∨ k < 4 then OrdMap.insertMulti e known else known
  match ← fe.findSmaller l (OrdMap.equalRange e.1 known) with
  | none => pure known
  | some ri => pure (OrdMap.insertMulti e (known.erase ri))

/-- What the candidate loop works on: the result so far, the length left and `known_`. -/
structure Cands where
  rvs : List FileId
  length : ℕ
  known : Known

/-- The candidate loop, over the files no larger than the gap, largest first. It stops where nothing
is left to fill. -/
def findCands (fe : FileEnumeration) (lcn : ℕ) :
    List (ℕ × FileId) → Cands → Except Fault Cands
  | [], st => .ok st
  | (size, f) :: es, st =>
    if st.length = 0 then .ok st
    else if st.length < size then fe.findCands lcn es st
    else do
      let l ← fe.headLcn f
      if l ≤ lcn then fe.findCands lcn es st
      else if maxlen < st.length then
        if (fe.disp f).clusters ≤ st.length then
          fe.findCands lcn es
            { st with rvs := st.rvs ++ [f], length := st.length - (fe.disp f).clusters }
        else fe.findCands lcn es st
      else
        let known ← fe.keepKnown size f l st.known
        fe.findCands lcn es { st with known := known }

/-- The end of `findBest`: what is picked from the candidates for the length left. -/
def pickCands (fe : FileEnumeration) (rvs cands : List FileId) (length : ℕ) (partialOK : Bool) :
    List FileId :=
  match cands with
  | [] => if partialOK then rvs else []
  | [c] =>
    if (fe.disp c).clusters = length then rvs ++ [c]
    else if partialOK then
      if (fe.disp c).clusters ≤ length then rvs ++ [c] else rvs
    else []
  | _ =>
    let solution := solution (cands.map fun c => (fe.disp c).clusters) length
    if !partialOK && decide (solution.value ≠ length) then []
    else rvs ++ solution.positions.map fun i => cands.getD i 0

def findBest (fe : FileEnumeration) (lcn length : ℕ) (partialOK : Bool) :
    Except Fault (List FileId) := do
  match ← fe.findPerfect lcn (OrdMap.equalRange length fe.buckets) none with
  | some perfect => pure [perfect]
  | none =>
    let st ← fe.findCands lcn (fe.buckets.takeWhile fun e => e.1 ≤ length).reverse
      ⟨[], length, []⟩
    if st.length = 0 then pure st.rvs
    else pure (fe.pickCands st.rvs (st.known.map Prod.snd) st.length partialOK)

end FileEnumeration

end StopGap
