import StopGap.Portions
import StopGap.Proofs.RunList

/-!
# Portions do not matter

A driver that tells the truth about each portion makes both readers find what they would find in one
pass: the loops carry over what is open at the end of a portion, the region in the bitmap and the
virtual cluster in the map. So the models that read in one go are the right ones for the program. A
dump that is told to stop leaves nothing (`dump_of_portions`).
-/

namespace StopGap

namespace Portions

/-! ### The bitmap -/

/-- What is found from the `i`-th cluster of a portion on is what is found in the portion, and
behind it from where that left off. -/
theorem freeRegionsFrom_portion {used : ℕ → Bool} {d : BitmapDescriptor} (m : ℕ) :
    ∀ {n i : ℕ} {start : Option ℕ},
      (∀ j, i ≤ j → j < i + n → d.used j = used (d.startLcn + j)) →
      Volume.freeRegionsFrom used (n + m) (d.startLcn + i) start
        = (scanBitmap d n i start).1
          ++ Volume.freeRegionsFrom used m (d.startLcn + i + n) (scanBitmap d n i start).2
  | 0, i, start, _ => by simp [scanBitmap]
  | n + 1, i, start, h => by
    have hi : d.used i = used (d.startLcn + i) := h i le_rfl (by omega)
    have hrest : ∀ start, Volume.freeRegionsFrom used (n + m) (d.startLcn + i + 1) start
        = (scanBitmap d n (i + 1) start).1 ++ Volume.freeRegionsFrom used m
          (d.startLcn + i + (n + 1)) (scanBitmap d n (i + 1) start).2 := by
      intro start
      have ih := @freeRegionsFrom_portion used d m n (i + 1) start
        fun j h1 h2 => h j (by omega) (by omega)
      rwa [← Nat.add_assoc, Nat.add_assoc _ 1 n, Nat.add_comm 1 n] at ih
    have hn : n + 1 + m = n + m + 1 := by omega
    rw [hn]
    rcases start with _ | s <;> simp only [Volume.freeRegionsFrom, scanBitmap, hi] <;>
      by_cases hu : used (d.startLcn + i) = true
    · rw [if_pos hu, if_pos hu]
      exact hrest none
    · rw [if_neg hu, if_neg hu]
      exact hrest _
    · rw [if_pos hu, if_pos hu, hrest none]
      rfl
    · rw [if_neg hu, if_neg hu]
      exact hrest _

/-- The answer to a request for the bitmap from `next` on: the clusters from a byte boundary on, as
many as the buffer holds. -/
structure ServesBitmap (v : Volume) (next : ℕ) (status : NtStatus) (d : BitmapDescriptor) : Prop
    where
  start : d.startLcn = next / 8 * 8
  left : d.clustersToEndOfVol = v.total - d.startLcn
  bits : ∀ i < min d.clustersToEndOfVol (8 * bitmapBytes), d.used i = v.used (d.startLcn + i)
  status : status = if d.clustersToEndOfVol ≤ 8 * bitmapBytes then statusSuccess
    else statusBufferOverflow

theorem freeRegionsLoop_eq {v : Volume} {bitmap : ℕ → ℕ → NtStatus × BitmapDescriptor} {p : Bool}
    (hserve : ∀ k next, next < v.total →
      ServesBitmap v next (bitmap k next).1 (bitmap k next).2) :
    ∀ {fuel k next : ℕ} {start : Option ℕ} {rlist : List Region}, 8 ∣ next → next < v.total →
      (v.total - next) / (8 * bitmapBytes) < fuel →
      freeRegionsLoop bitmap p fuel k next start rlist
        = some (rlist ++ Volume.freeRegionsFrom v.used (v.total - next) next start)
  | 0, _, _, _, _, _, _, hfuel => absurd hfuel (Nat.not_lt_zero _)
  | fuel + 1, k, next, start, rlist, h8, hlt, hfuel => by
    rcases hb : bitmap k next with ⟨status, d⟩
    have hs : ServesBitmap v next status d := by
      have hs := hserve k next hlt
      rwa [hb] at hs
    obtain ⟨hstart, hleft, hbits, hstatus⟩ := hs
    rw [Nat.div_mul_cancel h8] at hstart
    rw [hstart] at hleft hbits
    have hok : ¬ (status ≠ statusSuccess ∧ status ≠ statusBufferOverflow) := by
      rw [hstatus]
      split_ifs <;> simp
    have hportion := fun m => @freeRegionsFrom_portion v.used d m
      (min d.clustersToEndOfVol (8 * bitmapBytes)) 0 start fun j _ hj => by
        rw [hstart]
        exact hbits j (by omega)
    rw [hstart, Nat.add_zero] at hportion
    simp only [freeRegionsLoop, hb, if_neg hok, hstart]
    by_cases hmore : d.clustersToEndOfVol ≤ 8 * bitmapBytes
    · -- the last portion
      rw [if_pos hmore] at hstatus
      have h0 := hportion 0
      rw [Nat.add_zero, min_eq_left hmore, hleft] at h0
      rw [if_neg (by simp [hstatus]), min_eq_left hmore, hleft, h0, List.append_assoc]
      congr 3
      rcases (scanBitmap d (v.total - next) 0 start).2 with _ | s <;> rfl
    · rw [if_neg hmore] at hstatus
      have hmin : min d.clustersToEndOfVol (8 * bitmapBytes) = 8 * bitmapBytes := by omega
      have hsum : 8 * bitmapBytes + (v.total - (next + 8 * bitmapBytes)) = v.total - next := by
        omega
      have h1 := hportion (v.total - (next + 8 * bitmapBytes))
      rw [hmin, hsum] at h1
      have hfuel' : (v.total - (next + 8 * bitmapBytes)) / (8 * bitmapBytes) < fuel := by
        have hdiv := Nat.div_eq_sub_div (show 0 < 8 * bitmapBytes by decide)
          (show 8 * bitmapBytes ≤ v.total - next by omega)
        rw [Nat.sub_sub] at hdiv
        omega
      rw [if_pos (by rw [hstatus]; decide), hmin, freeRegionsLoop_eq hserve
        ((Nat.dvd_add_right h8).2 (Nat.dvd_mul_right 8 bitmapBytes)) (by omega) hfuel',
        List.append_assoc, ← h1]

/-- The regions found in the bitmap, portion by portion, are those of the whole bitmap. -/
theorem free_regions_of_portions {v : Volume} {bitmap : ℕ → ℕ → NtStatus × BitmapDescriptor}
    (hpos : 0 < v.total)
    (hserve : ∀ k next, next < v.total →
      ServesBitmap v next (bitmap k next).1 (bitmap k next).2)
    (allowPartialScan : Bool) {fuel : ℕ} (hfuel : v.total / (8 * bitmapBytes) < fuel) :
    winxGetFreeVolumeRegions bitmap allowPartialScan fuel = some v.winxGetFreeVolumeRegions :=
  freeRegionsLoop_eq hserve (Nat.dvd_zero 8) hpos hfuel

/-- Four clusters used, four free, the free ones around the end of each byte. -/
def stripedVolume : Volume := ⟨40000, fun c => 2 ≤ c % 8 ∧ c % 8 < 6, fun _ => []⟩

def stripedBitmap (_k next : ℕ) : NtStatus × BitmapDescriptor :=
  let start := next / 8 * 8
  (if 40000 - start ≤ 8 * bitmapBytes then statusSuccess else statusBufferOverflow,
    ⟨start, 40000 - start, List.replicate bitmapBytes 0x3C⟩)

theorem stripedBitmap_serves (k next : ℕ) :
    ServesBitmap stripedVolume next (stripedBitmap k next).1 (stripedBitmap k next).2 where
  start := rfl
  left := rfl
  status := rfl
  bits i hi := by
    have hbyte : i / 8 < bitmapBytes := by omega
    have hbits : ∀ r < 8, decide ((0x3C : UInt8) &&& bitshift.getD r 0 ≠ 0)
        = decide (2 ≤ r ∧ r < 6) := by decide
    have hmod : (next / 8 * 8 + i) % 8 = i % 8 := by omega
    have hget : (List.replicate bitmapBytes (0x3C : UInt8)).getD (i / 8) 0 = 0x3C := by
      rw [List.getD_eq_getElem?_getD, List.getElem?_replicate, if_pos hbyte, Option.getD_some]
    simp only [BitmapDescriptor.used, stripedBitmap, stripedVolume, hmod, hget]
    exact hbits _ (Nat.mod_lt _ (by decide))

/-- The second portion goes on in the middle of a free region. -/
theorem free_regions_of_stripedBitmap :
    winxGetFreeVolumeRegions stripedBitmap false 2 = some stripedVolume.winxGetFreeVolumeRegions :=
  free_regions_of_portions (by decide) (fun k next _ => stripedBitmap_serves k next) false
    (by decide)

/-! ### The map of a file -/

theorem take_retrievalPairs : ∀ (n v : ℕ) (m : List Extent),
    (retrievalPairs v m).take n = retrievalPairs v (m.take n)
  | 0, _, _ => rfl
  | _ + 1, _, [] => rfl
  | n + 1, v, e :: m => by
    simp only [retrievalPairs, List.take_succ_cons, take_retrievalPairs n (v + e.length) m]

theorem lastVcn_retrievalPairs : ∀ (v : ℕ) (m : List Extent),
    lastVcn v (retrievalPairs v m) = v + vcns m
  | v, [] => rfl
  | v, [e] => rfl
  | v, e :: e' :: m => by
    have ih := lastVcn_retrievalPairs (v + e.length) (e' :: m)
    simp only [lastVcn, retrievalPairs, List.getLast?_cons_cons, vcns_cons] at ih ⊢
    simpa [List.getLast?_cons, Nat.add_assoc] using ih

theorem dumpPairs_append : ∀ (m₁ m₂ : List Extent) (v : ℕ) (disp : Disposition),
    dumpPairs v (retrievalPairs v (m₁ ++ m₂)) disp
      = (dumpPairs v (retrievalPairs v m₁) disp).bind
        (dumpPairs (v + vcns m₁) (retrievalPairs (v + vcns m₁) m₂))
  | [], m₂, v, disp => rfl
  | ⟨none, n⟩ :: m₁, m₂, v, disp => by
    have ih := dumpPairs_append m₁ m₂ (v + n) disp
    rw [Nat.add_assoc] at ih
    exact ih
  | ⟨some l, n⟩ :: m₁, m₂, v, disp => by
    have ih := dumpPairs_append m₁ m₂ (v + n) (disp.addBlock ⟨v, l, v + n - v⟩)
    rw [Nat.add_assoc v n (vcns m₁)] at ih
    simp only [List.cons_append, retrievalPairs, dumpPairs, vcns_cons]
    split_ifs
    · rfl
    · exact ih

/-- The answers to requests for the pointers of a file: from the extent asked for on, as many as the
buffer holds. A file without any has its data in the table. -/
structure ServesPointers (m : List Extent) (pointers : ℕ → ℕ → NtStatus × RetrievalDescriptor) :
    Prop where
  resident : m = [] → ∀ k v, (pointers k v).1 = statusEndOfFile
  pairs : ∀ k m₁ m₂, m = m₁ ++ m₂ → m₂ ≠ [] → pointers k (vcns m₁)
    = (if m₂.length ≤ mapPairs then statusSuccess else statusBufferOverflow,
        ⟨vcns m₁, (retrievalPairs (vcns m₁) m₂).take mapPairs⟩)

/-- A driver that answers so. -/
def servePointers (m : List Extent) (_k v : ℕ) : NtStatus × RetrievalDescriptor :=
  if m = [] then (statusEndOfFile, ⟨0, []⟩)
  else (if (dropVcn v m).length ≤ mapPairs then statusSuccess else statusBufferOverflow,
    ⟨v, (retrievalPairs v (dropVcn v m)).take mapPairs⟩)

theorem dropVcn_vcns_append {m₂ : List Extent} (h : ∀ e ∈ m₂, 0 < e.length) :
    ∀ m₁ : List Extent, dropVcn (vcns m₁) (m₁ ++ m₂) = m₂
  | [] => by
    rcases m₂ with _ | ⟨⟨l, n⟩, m₂⟩
    · rfl
    · have hn : 0 < n := h ⟨l, n⟩ (by simp)
      have hl : l.map (· + 0) = l := by cases l <;> rfl
      simp only [vcns, List.map_nil, List.sum_nil, List.nil_append, dropVcn, if_neg hn.not_ge, hl,
        Nat.sub_zero]
  | e :: m₁ => by
    rw [List.cons_append, vcns_cons, dropVcn, if_pos (Nat.le_add_right _ _),
      Nat.add_sub_cancel_left, dropVcn_vcns_append h m₁]

theorem servePointers_serves {m : List Extent} (h : ∀ e ∈ m, 0 < e.length) :
    ServesPointers m (servePointers m) where
  resident hm k v := by rw [servePointers, if_pos hm]
  pairs k m₁ m₂ hm hne := by
    have hm' : m ≠ [] := by
      rw [hm]
      exact List.append_ne_nil_of_right_ne_nil _ hne
    have hdrop : dropVcn (vcns m₁) m = m₂ := by
      rw [hm] at h ⊢
      exact dropVcn_vcns_append (fun e he => h e (List.mem_append_right _ he)) m₁
    rw [servePointers, if_neg hm', hdrop]

/-- The portions the map of a file comes in. -/
def portions (m : List Extent) : ℕ := (m.length + (mapPairs - 1)) / mapPairs

theorem portions_drop {m : List Extent} (h : m ≠ []) :
    portions m = portions (m.drop mapPairs) + 1 := by
  have := List.length_pos_iff.2 h
  simp only [portions, mapPairs, List.length_drop]
  omega

/-- What the loop over `n` portions ends with, the next of them number `k`: nothing if it is told to
stop at one of them, else everything. -/
def Ends (terminator : ℕ → Bool) (k n : ℕ) (m : List Extent) (full : Disposition)
    (r : Option (Disposition × Bool)) : Prop :=
  ∃ ok, r = some (if (List.range' k n).any terminator then .zero else full, ok)
    ∧ ((∀ e ∈ m, 0 < e.length) → ok = true)

theorem dumpLoop_ends {m : List Extent} {pointers : ℕ → ℕ → NtStatus × RetrievalDescriptor}
    (hserve : ServesPointers m pointers) (terminator : ℕ → Bool) :
    ∀ {fuel k : ℕ} {m₁ m₂ : List Extent} {disp : Disposition}, m = m₁ ++ m₂ → m₂ ≠ [] →
      m₂.length ≤ mapPairs * fuel →
      Ends terminator k (portions m₂) m₂
        ((dumpPairs (vcns m₁) (retrievalPairs (vcns m₁) m₂) disp).elim .zero validateBlockmap)
        (dumpLoop pointers terminator fuel k (vcns m₁) disp)
  | 0, _, _, m₂, _, _, hne, hfuel => by
    have := List.length_pos_iff.2 hne
    omega
  | fuel + 1, k, m₁, m₂, disp, hm, hne, hfuel => by
    have hok : ¬ ((if m₂.length ≤ mapPairs then statusSuccess else statusBufferOverflow)
        ≠ statusSuccess ∧ (if m₂.length ≤ mapPairs then statusSuccess else statusBufferOverflow)
        ≠ statusBufferOverflow) := by
      split_ifs <;> simp
    have hsome : (retrievalPairs (vcns m₁) m₂).take mapPairs ≠ [] := by
      rcases m₂ with _ | ⟨e, m₂⟩
      · exact absurd rfl hne
      · simp [retrievalPairs, mapPairs]
    have hany : (List.range' k (portions m₂)).any terminator
        = (terminator k || (List.range' (k + 1) (portions (m₂.drop mapPairs))).any terminator) := by
      rw [portions_drop hne, List.range'_succ, List.any_cons]
    simp only [dumpLoop, hserve.pairs k m₁ m₂ hm hne, if_neg hok, hsome, false_and, if_false]
    by_cases hstop : terminator k = true
    · rw [if_pos hstop]
      exact ⟨true, by rw [hany, hstop]; rfl, fun _ => rfl⟩
    rw [Bool.not_eq_true] at hstop
    rw [hstop, Bool.false_or] at hany
    rw [if_neg (by simp [hstop]), take_retrievalPairs, lastVcn_retrievalPairs]
    -- the portion at hand, and what is left
    have hsplit := dumpPairs_append (m₂.take mapPairs) (m₂.drop mapPairs) (vcns m₁) disp
    rw [List.take_append_drop] at hsplit
    rw [hsplit]
    rcases hp : dumpPairs (vcns m₁) (retrievalPairs (vcns m₁) (m₂.take mapPairs)) disp
      with _ | disp'
    · -- a wrong map, whether or not a later portion is asked for
      refine ⟨false, by simp, fun hpos => ?_⟩
      rw [dumpPairs_eq _ fun e he => hpos e (List.mem_of_mem_take he)] at hp
      cases hp
    by_cases hlast : m₂.length ≤ mapPairs
    · rw [List.drop_eq_nil_of_le hlast] at hany ⊢
      simp only [if_pos hlast, ne_eq, not_true_eq_false, if_false]
      exact ⟨true, by rw [hany]; rfl, fun _ => rfl⟩
    · have hvcns : vcns m₁ + vcns (m₂.take mapPairs) = vcns (m₁ ++ m₂.take mapPairs) := by
        simp [vcns]
      simp only [if_neg hlast]
      rw [if_pos (by decide), Option.bind_some, hvcns]
      have hleft : (m₂.drop mapPairs).length ≤ mapPairs * fuel := by
        rw [List.length_drop]
        rw [Nat.mul_succ] at hfuel
        omega
      obtain ⟨ok, hr, hok'⟩ := @dumpLoop_ends m pointers hserve terminator fuel (k + 1)
        (m₁ ++ m₂.take mapPairs) (m₂.drop mapPairs) disp'
        (by rw [List.append_assoc, List.take_append_drop, hm]) (by simpa using hlast) hleft
      exact ⟨ok, by rw [hr, hany], fun hpos => hok' fun e he => hpos e (List.mem_of_mem_drop he)⟩

/-- A dump that reads the map of a file portion by portion finds all of it, however many portions
there are, and leaves nothing of it if it is told to stop at one of them. It fails for a map with
empty extents only. -/
theorem dump_of_portions {m : List Extent}
    {pointers : ℕ → ℕ → NtStatus × RetrievalDescriptor} (hserve : ServesPointers m pointers)
    (terminator : ℕ → Bool) {fuel : ℕ} (hfuel : m.length < mapPairs * fuel) :
    ∃ ok, winxFtwDumpFile pointers terminator fuel
        = some (if (List.range (portions m)).any terminator then .zero
          else StopGap.winxFtwDumpFile (some m), ok)
      ∧ ((∀ e ∈ m, 0 < e.length) → ok = true) := by
  have hfull : StopGap.winxFtwDumpFile (some m)
      = (dumpPairs 0 (retrievalPairs 0 m) .zero).elim .zero validateBlockmap := by
    simp only [StopGap.winxFtwDumpFile]
    rcases dumpPairs 0 (retrievalPairs 0 m) .zero with _ | disp <;> rfl
  rw [hfull, List.range_eq_range']
  rcases eq_or_ne m [] with rfl | hne
  · rcases fuel with _ | fuel
    · simp at hfuel
    refine ⟨true, ?_, fun _ => rfl⟩
    simp only [winxFtwDumpFile, dumpLoop, hserve.resident rfl 0 0]
    rw [if_pos (by decide), decide_true]
    rfl
  · exact @dumpLoop_ends m pointers hserve terminator fuel 0 [] m .zero rfl hne hfuel.le

/-- Two portions of a file in 600 extents, read to the end or given up at the second. -/
theorem dump_of_servePointers :
    (∃ ok, winxFtwDumpFile (servePointers (List.replicate 600 ⟨some 5, 1⟩)) (fun _ => false) 2
        = some (if (List.range (portions (List.replicate 600 ⟨some 5, 1⟩))).any fun _ => false
          then .zero else StopGap.winxFtwDumpFile (some (List.replicate 600 ⟨some 5, 1⟩)), ok)
      ∧ ((∀ e ∈ List.replicate 600 (⟨some 5, 1⟩ : Extent), 0 < e.length) → ok = true))
    ∧ winxFtwDumpFile (servePointers (List.replicate 600 ⟨some 5, 1⟩)) (fun k => decide (k = 1)) 2
      = some (.zero, true) := by
  have hpos : ∀ e ∈ List.replicate 600 (⟨some 5, 1⟩ : Extent), 0 < e.length := fun e he => by
    simp [List.eq_of_mem_replicate he]
  have hlen : (List.replicate 600 (⟨some 5, 1⟩ : Extent)).length < mapPairs * 2 := by
    rw [List.length_replicate]
    decide
  have hstop : (List.range (portions (List.replicate 600 (⟨some 5, 1⟩ : Extent)))).any
      (fun k => decide (k = 1)) = true := by
    rw [portions, List.length_replicate]
    decide
  refine ⟨dump_of_portions (servePointers_serves hpos) (fun _ => false) hlen, ?_⟩
  obtain ⟨ok, hr, hok⟩ :=
    dump_of_portions (servePointers_serves hpos) (fun k => decide (k = 1)) hlen
  rw [hr, hstop, hok hpos]
  rfl

end Portions

end StopGap
