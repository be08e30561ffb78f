import StopGap.RunList
import Mathlib.Tactic.Linarith

/-!
# Run lists and dumps

A run list that was written for some extents (`Encodes`: any sizes of its numbers will do) is read
back as the blocks a dump of these extents lists (`processRuns_of_encodes`), but for a run at
distance zero, which the loop takes for a virtual one (`shown`).
-/

namespace StopGap

open Bytes

/-- The byte with the sizes of a count and a distance. -/
def sizesByte (n d : ℕ) : UInt8 := UInt8.ofNat (n + 16 * d)

/-- `bytes` begin with a run list for the extents, where the run before starts at `prev`. -/
inductive Encodes : (prev : ℕ) → List Extent → (bytes : List UInt8) → Prop
  | done (prev : ℕ) (rest : List UInt8) : Encodes prev [] (0 :: rest)
  | hole {prev : ℕ} {m : List Extent} {count bytes : List UInt8} (hc : count.length ∈ Set.Icc 1 8)
      (h : Encodes prev m bytes) :
      Encodes prev (⟨none, value count⟩ :: m) (sizesByte count.length 0 :: (count ++ bytes))
  | data {prev l : ℕ} {m : List Extent} {count distance bytes : List UInt8}
      (hc : count.length ∈ Set.Icc 1 8) (hd : distance.length ∈ Set.Icc 1 8)
      (heq : signed distance = (l : ℤ) - prev) (h : Encodes l m bytes) :
      Encodes prev (⟨some l, value count⟩ :: m)
        (sizesByte count.length distance.length :: (count ++ (distance ++ bytes)))

/-- The virtual clusters of a file. -/
def vcns (m : List Extent) : ℕ := (m.map Extent.length).sum

/-- The extents have clusters, all of them on the volume. -/
def OnVolume (total : ℕ) (m : List Extent) : Prop :=
  ∀ e ∈ m, 0 < e.length ∧ ∀ l, e.lcn = some l → l + e.length ≤ total

/-- The virtual clusters of an extent, without the clusters. -/
def Extent.hidden (e : Extent) : Extent := ⟨none, e.length⟩

/-- The extents as the loop over a run list sees them: it takes a run that starts where the one
before it does for a virtual one. The first is compared with cluster 0, where `$Boot` lies. -/
def shown : (prev : ℕ) → List Extent → List Extent
  | _, [] => []
  | prev, e :: m =>
    match e.lcn with
    | none => e :: shown prev m
    | some l => (if l = prev then e.hidden else e) :: shown l m

/-- The blocks of the extents, from virtual cluster `v` on. -/
def extentBlocks : (v : ℕ) → List Extent → List Block
  | _, [] => []
  | v, e :: m =>
    match e.lcn with
    | none => extentBlocks (v + e.length) m
    | some l => ⟨v, l, e.length⟩ :: extentBlocks (v + e.length) m

section Sizes

variable {n d : ℕ}

theorem sizesByte_spec (hn : n < 16) (hd : d < 16) :
    countSize (sizesByte n d) = n ∧ distanceSize (sizesByte n d) = d
      ∧ (0 < n → sizesByte n d ≠ 0) := by
  have h : ∀ n < 16, ∀ d < 16, countSize (sizesByte n d) = n ∧ distanceSize (sizesByte n d) = d
      ∧ (0 < n → sizesByte n d ≠ 0) := by decide
  exact h n hn d hd

theorem runCount_cons {count rest : List UInt8} (h : count.length ≤ 8) (hd : d < 16) :
    runCount (sizesByte count.length d :: (count ++ rest))
      = some (BitVec.ofNat 64 (value count)) := by
  obtain ⟨hn, -, -⟩ := sizesByte_spec (n := count.length) (by omega) hd
  have hs : slice (sizesByte count.length d :: (count ++ rest)) 1 count.length = some count := by
    have hpre : slice ([sizesByte count.length d] ++ (count ++ rest)) (1 + 0) count.length
        = slice (count ++ rest) 0 count.length := slice_append_right
    exact hpre.trans (slice_append rfl)
  simp [runCount, hn, hs, ← shiftIn_zero]

theorem runLCN_hole {count rest : List UInt8} (h : count.length ≤ 8) :
    runLCN (sizesByte count.length 0 :: (count ++ rest)) = some 0 := by
  obtain ⟨-, hd, -⟩ := sizesByte_spec (n := count.length) (d := 0) (by omega) (by omega)
  simp [runLCN, hd]

theorem runLCN_data {count distance rest : List UInt8} (h : count.length ≤ 8)
    (hd : distance.length ∈ Set.Icc 1 8) :
    runLCN (sizesByte count.length distance.length :: (count ++ (distance ++ rest)))
      = some (BitVec.ofInt 64 (signed distance)) := by
  obtain ⟨hd1, hd8⟩ := hd
  obtain ⟨hn, hd, -⟩ := sizesByte_spec (n := count.length) (d := distance.length) (by omega)
    (by omega)
  have hs : slice (sizesByte count.length distance.length :: (count ++ (distance ++ rest)))
      (1 + count.length) distance.length = some distance := by
    have hpre : slice ((sizesByte count.length distance.length :: count) ++ (distance ++ rest))
        (count.length + 1 + 0) distance.length = slice (distance ++ rest) 0 distance.length :=
      slice_append_right
    rw [add_zero, Nat.add_comm] at hpre
    exact hpre.trans (slice_append rfl)
  rcases List.eq_nil_or_concat' distance with rfl | ⟨low, top, rfl⟩
  · simp at hd1
  · simp only [runLCN, List.getElem?_cons_zero, Option.bind_eq_bind, Option.bind_some, hd, hn, hs,
      if_neg (Nat.one_le_iff_ne_zero.1 hd1), List.getLast?_concat, List.dropLast_concat,
      shiftIn_signExtend, Option.pure_def]

end Sizes

theorem vcns_cons (e : Extent) (m : List Extent) : vcns (e :: m) = e.length + vcns m := by
  simp [vcns]

theorem vcns_append (m m' : List Extent) : vcns (m ++ m') = vcns m + vcns m' := by
  simp [vcns]

theorem shown_length : ∀ (prev : ℕ) (m : List Extent),
    (shown prev m).map Extent.length = m.map Extent.length
  | _, [] => rfl
  | prev, ⟨none, n⟩ :: m => by simp [shown, shown_length prev m]
  | prev, ⟨some l, n⟩ :: m => by
    have ih := shown_length l m
    by_cases h : l = prev <;> simp_all [shown, Extent.hidden]

theorem vcns_shown (prev : ℕ) (m : List Extent) : vcns (shown prev m) = vcns m := by
  rw [vcns, shown_length, vcns]

theorem OnVolume.shown {total : ℕ} : ∀ {m : List Extent} (prev : ℕ), OnVolume total m →
    OnVolume total (shown prev m)
  | [], _, h => h
  | ⟨none, n⟩ :: m, prev, h => by
    obtain ⟨he, hm⟩ := List.forall_mem_cons.1 h
    exact List.forall_mem_cons.2 ⟨he, OnVolume.shown prev hm⟩
  | ⟨some l, n⟩ :: m, prev, h => by
    obtain ⟨he, hm⟩ := List.forall_mem_cons.1 h
    refine List.forall_mem_cons.2 ⟨?_, OnVolume.shown l hm⟩
    split_ifs
    · exact ⟨he.1, by simp [Extent.hidden]⟩
    · exact he

/-- A distance of less than the word holds takes the loop from one start to the next. It is zero
only between equal starts. -/
theorem ofInt_distance {prev l : ℕ} (hp : prev < 2 ^ 64) (hl : l < 2 ^ 64) :
    (BitVec.ofInt 64 ((l : ℤ) - prev) = 0 ↔ l = prev)
      ∧ BitVec.ofNat 64 prev + BitVec.ofInt 64 ((l : ℤ) - prev) = BitVec.ofNat 64 l := by
  constructor
  · constructor
    · intro h
      have hmod := congrArg BitVec.toNat h
      rw [BitVec.toNat_ofInt] at hmod
      simp at hmod
      omega
    · rintro rfl
      simp
  · rw [← BitVec.ofInt_natCast, ← BitVec.ofInt_natCast, ← BitVec.ofInt_add]
    congr 1
    omega

/-- The counts of a disposition of which `v` virtual clusters are read, far from the end of the
words. -/
structure InRange (v : ℕ) (d : Disposition) : Prop where
  clusters : d.clusters ≤ v
  fragments : d.fragments ≤ v
  ends : ∀ b, d.blockmap.getLast? = some b → b.lcn + b.length < 2 ^ 64

theorem InRange.zero (v : ℕ) : InRange v .zero := ⟨Nat.zero_le v, Nat.zero_le v, by
  simp [Disposition.zero]⟩

theorem InRange.mono {v v' : ℕ} {d : Disposition} (h : InRange v d) (hle : v ≤ v') : InRange v' d :=
  ⟨h.clusters.trans hle, h.fragments.trans hle, h.ends⟩

theorem InRange.addBlock {v l n : ℕ} {d : Disposition} (h : InRange v d) (hn : 0 < n)
    (hend : l + n < 2 ^ 64) : InRange (v + n) (d.addBlock ⟨v, l, n⟩) where
  clusters := Nat.add_le_add_right h.clusters n
  fragments := by
    have := h.fragments
    unfold Disposition.addBlock
    dsimp only
    split
    · omega
    · split_ifs <;> omega
  ends := by
    intro b hb
    rw [Disposition.addBlock, List.getLast?_concat] at hb
    obtain rfl := Option.some.inj hb
    exact hend

theorem InRange.foldl {total : ℕ} (htotal : total < 2 ^ 64) : ∀ {m : List Extent} {v : ℕ}
    {d : Disposition}, InRange v d → OnVolume total m →
    InRange (v + vcns m) ((extentBlocks v m).foldl Disposition.addBlock d)
  | [], v, d, h, _ => h
  | ⟨none, n⟩ :: m, v, d, h, hm => by
    rw [vcns_cons, ← Nat.add_assoc]
    exact InRange.foldl htotal (h.mono (Nat.le_add_right v n)) (List.forall_mem_cons.1 hm).2
  | ⟨some l, n⟩ :: m, v, d, h, hm => by
    obtain ⟨⟨hn, hl⟩, hm⟩ := List.forall_mem_cons.1 hm
    rw [vcns_cons, ← Nat.add_assoc]
    exact InRange.foldl htotal (h.addBlock hn ((hl l rfl).trans_lt htotal)) hm

/-- Far from the end of the words a run is a block. -/
theorem processRun_eq {v l n : ℕ} {d : Disposition} (h : InRange v d) (hl : l < 2 ^ 64)
    (hn : 0 < n) (hv : v + n < 2 ^ 64) :
    processRun d (BitVec.ofNat 64 v) (BitVec.ofNat 64 l) (BitVec.ofNat 64 n)
      = d.addBlock ⟨v, l, n⟩ := by
  have hv' : (BitVec.ofNat 64 v).toNat = v := Nat.mod_eq_of_lt (by omega)
  have hl' : (BitVec.ofNat 64 l).toNat = l := Nat.mod_eq_of_lt hl
  have hn' : (BitVec.ofNat 64 n).toNat = n := Nat.mod_eq_of_lt (by omega)
  have hclusters := h.clusters
  have hfragments := h.fragments
  have hc : (d.clusters + n) % 2 ^ 64 = d.clusters + n := Nat.mod_eq_of_lt (by omega)
  have hf : (d.fragments + 1) % 2 ^ 64 = d.fragments + 1 := Nat.mod_eq_of_lt (by omega)
  rcases hlast : d.blockmap.getLast? with _ | prev
  · simp only [processRun, Disposition.addBlock, hlast, hv', hl', hn', hc, hf]
  · simp only [processRun, Disposition.addBlock, hlast, hv', hl', hn', hc, hf,
      Nat.mod_eq_of_lt (h.ends prev hlast)]

section Step

variable {total fuel : ℕ} {count distance bytes : List UInt8} {vcn lcn : BitVec 64}
  {disp : Disposition}

theorem processRuns_hole (hc : count.length ∈ Set.Icc 1 8) :
    processRuns total (fuel + 1) (sizesByte count.length 0 :: (count ++ bytes)) vcn lcn disp
      = processRuns total fuel bytes (vcn + BitVec.ofNat 64 (value count)) lcn disp := by
  obtain ⟨hc1, hc8⟩ := hc
  obtain ⟨hn, hd, hne⟩ := sizesByte_spec (n := count.length) (d := 0) (by omega) (by omega)
  have hdrop : (sizesByte count.length 0 :: (count ++ bytes)).drop
      (runLength (sizesByte count.length 0)) = bytes := by
    simp [runLength, hn, hd]
  simp only [processRuns, List.getElem?_cons_zero, Option.bind_eq_bind, Option.bind_some,
    if_neg (hne hc1), runLCN_hole hc8, runCount_cons hc8 (d := 0) (by omega), hdrop, if_true]

/-- A run with a distance, taken for a virtual one if that is zero. -/
theorem processRuns_data (hc : count.length ∈ Set.Icc 1 8) (hd : distance.length ∈ Set.Icc 1 8) :
    processRuns total (fuel + 1)
        (sizesByte count.length distance.length :: (count ++ (distance ++ bytes))) vcn lcn disp
      = if BitVec.ofInt 64 (signed distance) = 0 then
          processRuns total fuel bytes (vcn + BitVec.ofNat 64 (value count)) lcn disp
        else if checkRun total (lcn + BitVec.ofInt 64 (signed distance))
            (BitVec.ofNat 64 (value count)) then
          processRuns total fuel bytes (vcn + BitVec.ofNat 64 (value count))
            (lcn + BitVec.ofInt 64 (signed distance))
            (processRun disp vcn (lcn + BitVec.ofInt 64 (signed distance))
              (BitVec.ofNat 64 (value count)))
        else some disp := by
  have hc1 := hc.1
  have hc8 := hc.2
  have hd8 := hd.2
  obtain ⟨hn, hd', hb⟩ := sizesByte_spec (n := count.length) (d := distance.length) (by omega)
    (by omega)
  have hdrop : (sizesByte count.length distance.length :: (count ++ (distance ++ bytes))).drop
      (runLength (sizesByte count.length distance.length)) = bytes := by
    rw [runLength, hn, hd', List.drop_succ_cons, ← List.drop_drop, List.drop_left, List.drop_left]
  simp only [processRuns, List.getElem?_cons_zero, Option.bind_eq_bind, Option.bind_some,
    if_neg (hb hc1), runLCN_data hc8 hd, runCount_cons hc8 (d := distance.length) (by omega), hdrop,
    Option.pure_def]

end Step

/-- A run list is read back as the blocks it was written for, as far as the loop sees them. -/
theorem processRuns_of_encodes {total : ℕ} (htotal : total < 2 ^ 64) {prev : ℕ} {m : List Extent}
    {bytes : List UInt8} (h : Encodes prev m bytes) :
    ∀ {fuel v : ℕ} {disp : Disposition}, OnVolume total m → prev < 2 ^ 64 →
      v + vcns m < 2 ^ 64 → InRange v disp → bytes.length < fuel →
      processRuns total fuel bytes (BitVec.ofNat 64 v) (BitVec.ofNat 64 prev) disp
        = some ((extentBlocks v (shown prev m)).foldl Disposition.addBlock disp) := by
  induction h with
  | done prev rest =>
    rintro (_ | fuel) v disp - - - - hfuel
    · simp at hfuel
    · simp [processRuns, shown, extentBlocks]
  | @hole prev m count bytes hc h ih =>
    rintro (_ | fuel) v disp hm hp hv hd hfuel
    · simp at hfuel
    · simp only [vcns_cons] at hv
      simp only [List.length_cons, List.length_append] at hfuel
      rw [processRuns_hole hc, ← BitVec.ofNat_add]
      exact ih (List.forall_mem_cons.1 hm).2 hp (by omega) (hd.mono (Nat.le_add_right v _))
        (by omega)
  | @data prev l m count distance bytes hc hd heq h ih =>
    rintro (_ | fuel) v disp hm hp hv hdisp hfuel
    · simp at hfuel
    · simp only [vcns_cons] at hv
      simp only [List.length_cons, List.length_append] at hfuel
      obtain ⟨⟨hpos, hend⟩, hm⟩ := List.forall_mem_cons.1 hm
      have hpos : 0 < value count := hpos
      have hle : l + value count ≤ total := hend l rfl
      have hl : l < 2 ^ 64 := by omega
      obtain ⟨hzero, hsum⟩ := ofInt_distance hp hl
      rw [← heq] at hzero hsum
      rw [processRuns_data hc hd, ← BitVec.ofNat_add, hsum]
      by_cases hlp : l = prev
      · -- the loop takes it for a virtual run, and stays where it is
        subst hlp
        rw [if_pos (hzero.2 rfl)]
        have hnext := @ih fuel (v + value count) disp hm hl (by omega)
          (hdisp.mono (Nat.le_add_right v _)) (by omega)
        simpa [shown, extentBlocks, Extent.hidden] using hnext
      · have hcheck :
            checkRun total (BitVec.ofNat 64 l) (BitVec.ofNat 64 (value count)) = true := by
          have hl' : (BitVec.ofNat 64 l).toNat = l := Nat.mod_eq_of_lt hl
          have hs :
              (BitVec.ofNat 64 l + BitVec.ofNat 64 (value count)).toNat = l + value count := by
            rw [← BitVec.ofNat_add]
            exact Nat.mod_eq_of_lt (by omega)
          simp only [checkRun, hs, hl', Bool.and_eq_true, decide_eq_true_eq]
          exact ⟨by omega, hle⟩
        rw [if_neg fun h => hlp (hzero.1 h), if_pos hcheck,
          processRun_eq hdisp hl hpos (by omega)]
        have hadd : InRange (v + value count) (disp.addBlock ⟨v, l, value count⟩) :=
          hdisp.addBlock hpos (by omega)
        have hnext := @ih fuel (v + value count) _ hm hl (by omega) hadd (by omega)
        simpa [shown, extentBlocks, hlp] using hnext

/-- The loop of a dump adds the same blocks. -/
theorem dumpPairs_eq : ∀ (m : List Extent) {v : ℕ} {disp : Disposition}, (∀ e ∈ m, 0 < e.length) →
    dumpPairs v (retrievalPairs v m) disp
      = some ((extentBlocks v m).foldl Disposition.addBlock disp)
  | [], _, _, _ => rfl
  | ⟨none, n⟩ :: m, v, disp, h => dumpPairs_eq m fun e he => h e (by simp [he])
  | ⟨some l, n⟩ :: m, v, disp, h => by
    have hn : 0 < n := h ⟨some l, n⟩ (by simp)
    simp only [retrievalPairs, dumpPairs, if_neg (Nat.add_pos_right v hn).ne',
      Nat.add_sub_cancel_left]
    exact dumpPairs_eq m fun e he => h e (by simp [he])

theorem winxFtwDumpFile_eq {m : List Extent} (h : ∀ e ∈ m, 0 < e.length) :
    winxFtwDumpFile (some m)
      = validateBlockmap ((extentBlocks 0 m).foldl Disposition.addBlock .zero) := by
  simp only [winxFtwDumpFile, dumpPairs_eq m h]

/-- The pieces the blocks of a map lie in, where `stop` is the end of a block. -/
def piecesBy (stop : Block → ℕ) : List Block → ℕ
  | [] => 0
  | [_] => 1
  | b :: b' :: bm => piecesBy stop (b' :: bm) + if b'.lcn = stop b then 0 else 1

def pieces (bm : List Block) : ℕ := piecesBy (fun b => b.lcn + b.length) bm

theorem piecesBy_concat (stop : Block → ℕ) (b : Block) : ∀ bm : List Block,
    piecesBy stop (bm ++ [b]) = match bm.getLast? with
      | none => piecesBy stop bm + 1
      | some prev => if b.lcn = stop prev then piecesBy stop bm else piecesBy stop bm + 1
  | [] => rfl
  | [a] => by
    simp only [List.getLast?_singleton, List.cons_append, List.nil_append, piecesBy]
    split_ifs <;> rfl
  | a :: a' :: bm => by
    have ih := piecesBy_concat stop b (a' :: bm)
    simp only [List.getLast?_cons_cons, List.cons_append, piecesBy] at ih ⊢
    rw [ih]
    rcases (a' :: bm).getLast? with _ | prev
    · simp only
      omega
    · simp only
      split_ifs <;> omega

theorem addBlock_fragments (c : ℕ) (b : Block) (bm : List Block) :
    (Disposition.addBlock ⟨c, pieces bm, bm⟩ b).fragments = pieces (bm ++ [b]) :=
  (piecesBy_concat _ b bm).symm

theorem extentBlocks_append : ∀ (v : ℕ) (m m' : List Extent),
    extentBlocks v (m ++ m') = extentBlocks v m ++ extentBlocks (v + vcns m) m'
  | v, [], m' => by simp [extentBlocks, vcns]
  | v, ⟨none, n⟩ :: m, m' => by
    simp only [List.cons_append, extentBlocks, extentBlocks_append (v + n) m m', vcns_cons,
      Nat.add_assoc]
  | v, ⟨some l, n⟩ :: m, m' => by
    simp only [List.cons_append, extentBlocks, extentBlocks_append (v + n) m m', vcns_cons,
      Nat.add_assoc]

end StopGap
