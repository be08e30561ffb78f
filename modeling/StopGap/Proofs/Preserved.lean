import StopGap.Proofs.Movable
import StopGap.Proofs.RunList
import Mathlib.Data.Finset.Card
import Mathlib.Order.Interval.Finset.Nat

/-!
# What a run keeps of a volume

If the driver grants moves to free clusters only, a run leaves a sound volume sound, with as many
free clusters as before, and every file with its virtual clusters and its holes. And it makes no
file worse: a file without holes that one request is enough for has at no time more fragments than
in the beginning.
-/

namespace StopGap

open Exec Exec.Prog FileEnumeration

/-! ## Virtual clusters and space -/

theorem expand_cons (e : Extent) (m : List Extent) : expand (e :: m) = e.expand ++ expand m := rfl

theorem expand_append (m m' : List Extent) : expand (m ++ m') = expand m ++ expand m' :=
  List.flatMap_append

theorem Extent.expand_take (e : Extent) (n : ℕ) :
    (⟨e.lcn, min n e.length⟩ : Extent).expand = e.expand.take n := by
  unfold Extent.expand
  rcases e.lcn with _ | l
  · simp [List.take_replicate]
  · simp only
    rw [← List.map_take]
    congr 1
    refine List.ext_getElem (by simp) fun i h₁ h₂ => by simp

theorem expand_takeVcn : ∀ (n : ℕ) (m : List Extent), expand (takeVcn n m) = (expand m).take n
  | n, [] => by simp [takeVcn, expand]
  | n, e :: m => by
    have hlen := e.length_expand
    unfold takeVcn
    split_ifs with hle h0
    · have hall : e.expand.take n = e.expand := List.take_of_length_le (hlen.trans_le hle)
      rw [expand_cons, expand_cons, expand_takeVcn, List.take_append, hlen, hall]
    · simp [h0, expand]
    · have hmin : min n e.length = n := by omega
      rw [expand_cons, expand_cons, List.take_append, ← e.expand_take, hmin,
        Nat.sub_eq_zero_of_le (by omega)]
      simp [expand]

/-- Which virtual clusters of a file have a cluster. -/
def holes (m : List Extent) : List Bool := (expand m).map Option.isSome

theorem holes_place : ∀ (t : ℕ) (m : List Extent), holes (place t m) = holes m
  | _, [] => rfl
  | t, ⟨none, n⟩ :: m => by
    have ih := holes_place t m
    simp only [holes, place, expand_cons, List.map_append] at ih ⊢
    rw [ih]
  | t, ⟨some l, n⟩ :: m => by
    have ih := holes_place (t + n) m
    simp only [holes, place, expand_cons, List.map_append] at ih ⊢
    rw [ih]
    simp [Extent.expand, Function.comp_def]

namespace Volume

theorem holes_fsctlMoveFile (v : Volume) (d : MoveFileDescriptor) (f : FileId) :
    holes ((v.fsctlMoveFile d).map f) = holes (v.map f) := by
  by_cases hf : f = d.file
  · have hmoved := holes_place d.targetLcn (v.requested d)
    simp only [requested] at hmoved
    subst hf
    simp only [fsctlMoveFile, Function.update_self, requested, holes, expand_append,
      List.map_append] at hmoved ⊢
    rw [hmoved, expand_takeVcn, expand_takeVcn, expand_dropVcn, expand_dropVcn, ← List.map_append,
      ← List.map_append, List.append_assoc, ← List.drop_drop, List.take_append_drop,
      List.take_append_drop]
  · simp only [fsctlMoveFile, Function.update_of_ne hf]

/-- The free clusters of a volume. -/
def free (v : Volume) : Finset ℕ := (Finset.range v.total).filter fun c => v.used c = false

theorem mem_free {v : Volume} {c : ℕ} : c ∈ v.free ↔ v.Free c := by
  simp [free, Free]

theorem Moved.card_free {v v' : Volume} {f : FileId} {t : ℕ} {B C : List ℕ}
    (hm : Moved v v' f t B C) (h : v.Sound)
    (hfree : ∀ c, t ≤ c → c < t + B.length → v.Free c) : v'.free.card = v.free.card := by
  have hB : B.Nodup := (List.nodup_append.1 (hm.before ▸ h.nodup f)).1
  have hused : ∀ c ∈ B, ¬ v.Free c := fun c hc => h.not_free (f := f) (by simp [hm.before, hc])
  -- the target is taken, the old clusters are given back
  have heq : v'.free = (v.free \ Finset.Ico t (t + B.length)) ∪ B.toFinset := by
    ext c
    simp only [mem_free, hm.free h, Finset.mem_union, Finset.mem_sdiff, Finset.mem_Ico,
      List.mem_toFinset]
    constructor
    · rintro ⟨hc | hc, hno⟩
      · exact .inl ⟨hc, hno⟩
      · exact .inr hc
    · rintro (⟨hc, hno⟩ | hc)
      · exact ⟨.inl hc, hno⟩
      · exact ⟨.inr hc, fun ht => hused c hc (hfree c ht.1 ht.2)⟩
  have hsub : Finset.Ico t (t + B.length) ⊆ v.free := fun c hc =>
    mem_free.2 (hfree c (Finset.mem_Ico.1 hc).1 (Finset.mem_Ico.1 hc).2)
  have hdisj : Disjoint (v.free \ Finset.Ico t (t + B.length)) B.toFinset := by
    refine Finset.disjoint_left.2 fun c hc hcB => ?_
    exact hused c (List.mem_toFinset.1 hcB) (mem_free.1 (Finset.mem_sdiff.1 hc).1)
  have hle := Finset.card_le_card hsub
  rw [heq, Finset.card_union_of_disjoint hdisj, Finset.card_sdiff_of_subset hsub,
    List.toFinset_card_of_nodup hB]
  simp only [Nat.card_Ico] at hle ⊢
  omega

end Volume

/-- What a run keeps of the volume `v`. -/
structure Conserved (v v' : Volume) : Prop where
  sound : v'.Sound
  free : v'.free.card = v.free.card
  holes : ∀ f, holes (v'.map f) = holes (v.map f)

theorem Conserved.fsctlMoveFile {v v' : Volume} (h : Conserved v v') (f : FileId) (t n : ℕ)
    (hfree : ∀ c, t ≤ c → c < t + allocated (v'.requested ⟨f, 0, t, n⟩) → v'.Free c) :
    Conserved v (v'.fsctlMoveFile ⟨f, 0, t, n⟩) := by
  obtain ⟨C, hm, -⟩ := v'.moved_fsctlMoveFile f t n
  rw [← length_lcns] at hfree
  exact ⟨hm.sound h.sound hfree, (hm.card_free h.sound hfree).trans h.free,
    fun g => (v'.holes_fsctlMoveFile _ g).trans (h.holes g)⟩

theorem steady_conserved {env : Env} (hguard : env.Guarded) (P : FileId → Prop) (v : Volume) :
    Steady env P (fun v' _ => Conserved v v') fun _ _ v' _ => Conserved v v' where
  enter := fun _ _ _ _ h => h
  leave := fun _ _ _ _ h => h
  granted := fun f left t k _ v' _ _ h _ hok =>
    h.fsctlMoveFile f t (min left maxChunk) (hguard k v' _ hok)
  dumped := fun _ _ _ _ _ h => h
  ordered := fun _ _ _ _ h => h

theorem run_keeps_volume {env : Env} {v : Volume} (hv : v.Sound) (hguard : env.Guarded)
    (opts : Options) (fuel : ℕ) (disk : List FileId) (disp : FileId → Disposition)
    (excluded : FileId → Bool) :
    Meets (fun _ _ => True) (fun _ s => Conserved v s.vol) (run env opts fuel)
      (.init v disk disp excluded) (keeps (fun s => Conserved v s.vol) fun _ => True) := by
  have hrun := (steady_conserved hguard (Movable disk disp excluded) v).run
    (fun _ _ h => h) opts fuel (s := .init v disk disp excluded)
    ⟨⟨hv, rfl, fun _ => rfl⟩, within_scan disk disp excluded⟩
  exact (hrun.shows fun _ _ h => h.1).mono fun _ _ hs => hs.1

/-- A file in two pieces, and a gap that holds it whole. -/
def scatteredVolume : Volume := .laid 10 [0, 3] [[⟨some 1, 1⟩, ⟨some 4, 2⟩]]

theorem scatteredVolume_closedWorld :
    ClosedWorld .granting scatteredVolume [0] scatteredVolume.dumps :=
  laid_closedWorld (by decide) (by decide) (by decide) (by decide) Env.granting_truthful

theorem run_keeps_scatteredVolume :
    (∃ m ∈ (run .granting defragAndGaps 4
        (.init scatteredVolume [0] scatteredVolume.dumps fun _ => false)).seen,
      m.2.vol.map 0 = [⟨some 6, 1⟩, ⟨some 7, 2⟩])
    ∧ ∀ m ∈ (run .granting defragAndGaps 4
        (.init scatteredVolume [0] scatteredVolume.dumps fun _ => false)).seen,
      Conserved scatteredVolume m.2.vol :=
  ⟨by decide +kernel, ((run_keeps_volume scatteredVolume_closedWorld.sound Env.granting_guarded
    defragAndGaps 4 [0] scatteredVolume.dumps fun _ => false) fun _ _ => trivial).1⟩

/-! ## Fragments -/

/-- The stretches of consecutive clusters in the order of a file. -/
def stretches : List ℕ → ℕ
  | [] => 0
  | [_] => 1
  | c :: c' :: cs => stretches (c' :: cs) + if c' = c + 1 then 0 else 1

theorem stretches_range'_append (c : ℕ) (cs : List ℕ) : ∀ (n l : ℕ),
    stretches (List.range' l (n + 1) ++ c :: cs)
      = stretches (c :: cs) + if c = l + (n + 1) then 0 else 1
  | 0, l => rfl
  | n + 1, l => by
    have ih := stretches_range'_append c cs n (l + 1)
    rw [List.range'_succ, List.cons_append] at ih ⊢
    rw [List.range'_succ, List.cons_append, stretches, if_pos rfl, add_zero, ih,
      show l + 1 + (n + 1) = l + (n + 1 + 1) by omega]

theorem stretches_range' : ∀ (n l : ℕ), stretches (List.range' l (n + 1)) = 1
  | 0, _ => rfl
  | n + 1, l => by
    have ih := stretches_range' n (l + 1)
    rw [List.range'_succ] at ih ⊢
    rw [List.range'_succ, stretches, if_pos rfl, ih]

theorem stretches_pos : ∀ {cs : List ℕ}, cs ≠ [] → 1 ≤ stretches cs
  | [], h => absurd rfl h
  | [_], _ => le_rfl
  | _ :: c' :: cs, _ => (stretches_pos (List.cons_ne_nil c' cs)).trans (Nat.le_add_right _ _)

theorem pieces_eq_stretches : ∀ {bm : List Block}, (∀ b ∈ bm, 0 < b.length) →
    pieces bm = stretches (blockLcns bm)
  | [], _ => rfl
  | [b], h => by
    obtain ⟨n, hn⟩ := Nat.exists_eq_succ_of_ne_zero (h b (by simp)).ne'
    rw [blockLcns, List.flatMap_singleton, hn, stretches_range']
    rfl
  | b :: b' :: bm, h => by
    have ih := pieces_eq_stretches fun b hb => h b (List.mem_cons_of_mem _ hb)
    obtain ⟨n, hn⟩ := Nat.exists_eq_succ_of_ne_zero (h b (by simp)).ne'
    obtain ⟨n', hn'⟩ := Nat.exists_eq_succ_of_ne_zero (h b' (by simp)).ne'
    -- the next block starts the rest
    obtain ⟨cs, hcs⟩ : ∃ cs, blockLcns (b' :: bm) = b'.lcn :: cs := by
      rw [blockLcns, List.flatMap_cons, hn', List.range'_succ]
      exact ⟨_, rfl⟩
    have hb : blockLcns (b :: b' :: bm) = List.range' b.lcn b.length ++ blockLcns (b' :: bm) := rfl
    have hp : pieces (b :: b' :: bm)
        = pieces (b' :: bm) + if b'.lcn = b.lcn + b.length then 0 else 1 := rfl
    rw [hp, ih, hb, hcs, hn, stretches_range'_append]

theorem blockLcns_extentBlocks : ∀ (v : ℕ) (m : List Extent),
    blockLcns (extentBlocks v m) = lcns m
  | _, [] => rfl
  | v, ⟨none, n⟩ :: m => blockLcns_extentBlocks (v + n) m
  | v, ⟨some l, n⟩ :: m => congrArg (List.range' l n ++ ·) (blockLcns_extentBlocks (v + n) m)

theorem extentBlocks_pos : ∀ (v : ℕ) {m : List Extent}, (∀ e ∈ m, 0 < e.length) →
    ∀ b ∈ extentBlocks v m, 0 < b.length
  | _, [], _ => by simp [extentBlocks]
  | v, ⟨none, n⟩ :: m, h => extentBlocks_pos (v + n) fun e he => h e (List.mem_cons_of_mem _ he)
  | v, ⟨some l, n⟩ :: m, h =>
    List.forall_mem_cons.2 ⟨h ⟨some l, n⟩ (by simp),
      extentBlocks_pos (v + n) fun e he => h e (List.mem_cons_of_mem _ he)⟩

/-- A dump that tells the truth reports the stretches of the file as its fragments. -/
theorem Tells.fragments {m m' : List Extent} (h : Tells m m') :
    (winxFtwDumpFile (some m')).fragments = stretches (lcns m) := by
  have hvalid : ∀ d : Disposition, (validateBlockmap d).fragments = d.fragments := by
    intro d
    unfold validateBlockmap
    split
    · split_ifs <;> rfl
    · rfl
  have hfold : ∀ (bs bm : List Block) (c : ℕ),
      (bs.foldl Disposition.addBlock ⟨c, pieces bm, bm⟩).fragments = pieces (bm ++ bs) := by
    intro bs
    induction bs with
    | nil => simp
    | cons b bs ih =>
      intro bm c
      have hadd : Disposition.addBlock ⟨c, pieces bm, bm⟩ b
          = ⟨c + b.length, pieces (bm ++ [b]), bm ++ [b]⟩ := by
        rw [← addBlock_fragments c b bm]
        rfl
      rw [List.foldl_cons, hadd, ih, List.append_assoc, List.singleton_append]
  rw [winxFtwDumpFile_eq h.pos, hvalid, ← h.lcns_eq, ← blockLcns_extentBlocks 0 m',
    ← pieces_eq_stretches (extentBlocks_pos 0 h.pos)]
  exact hfold (extentBlocks 0 m') [] 0

theorem Reports.fragments {m : List Extent} {d : Disposition} (h : Reports m d) :
    d.fragments = stretches (lcns m) := by
  obtain ⟨m', n, ht, rfl⟩ := h
  exact ht.fragments

/-- What a run keeps of a file on `m` that has no holes and is small enough for one request: it is
on `m'` now, and known by the disposition `d`. -/
structure NoWorse (m m' : List Extent) (d : Disposition) : Prop where
  solid : NoHoles m'
  known : d.clusters = (lcns m').length
  length : (lcns m').length = (lcns m).length
  stretches : stretches (lcns m') ≤ stretches (lcns m)

theorem steady_noWorse {env : Env} (htruth : env.Truthful) (P : FileId → Prop) (v : Volume) :
    Steady env P
      (fun v' disp => ∀ f, NoHoles (v.map f) → (lcns (v.map f)).length ≤ maxChunk →
        NoWorse (v.map f) (v'.map f) (disp f))
      fun f left v' disp => (∀ f, NoHoles (v.map f) → (lcns (v.map f)).length ≤ maxChunk →
        NoWorse (v.map f) (v'.map f) (disp f)) ∧
        (NoHoles (v.map f) → (lcns (v.map f)).length ≤ maxChunk →
          left = 0 ∨ left = (disp f).clusters) where
  enter := fun f v' disp _ h => ⟨h, fun _ _ => .inr rfl⟩
  leave := fun _ _ _ _ h => h.1
  granted := by
    rintro f left t k k' v' disp - ⟨h, hleft⟩ hne -
    obtain ⟨C, hm, hC⟩ :
        ∃ C, Volume.Moved v' (v'.fsctlMoveFile (nextRequest f t left)) f t _ C ∧ _ :=
      v'.moved_fsctlMoveFile f t (min left maxChunk)
    obtain ⟨m', hm', htell⟩ := htruth k' ((v'.fsctlMoveFile (nextRequest f t left)).map f)
    rw [hm']
    -- one request is enough for such a file
    have hwhole : NoHoles (v.map f) → (lcns (v.map f)).length ≤ maxChunk →
        left = (lcns (v'.map f)).length ∧ left ≤ maxChunk ∧ C = [] := by
      intro hno hle
      obtain ⟨hsolid, hknown, hlength, -⟩ := h f hno hle
      have hall : left = (lcns (v'.map f)).length := by
        rw [← hknown]
        exact (hleft hno hle).resolve_left hne
      refine ⟨hall, by omega, hC hsolid ?_⟩
      omega
    refine ⟨fun g hno hle => ?_, fun hno hle => .inl ?_⟩
    · by_cases hg : g = f
      · subst hg
        obtain ⟨hsolid, -, hlength, hst⟩ := h g hno hle
        obtain ⟨hall, -, rfl⟩ := hwhole hno hle
        have hbefore := hm.before
        have hafter := hm.after
        rw [List.append_nil] at hbefore hafter
        rw [← hbefore] at hafter
        refine ⟨hm.noHoles hsolid, ?_, ?_, ?_⟩
        · rw [Function.update_self]
          exact htell.accurate.order.clusters
        · rw [hafter, List.length_range', hlength]
        · obtain ⟨n, hn⟩ := Nat.exists_eq_succ_of_ne_zero (hall ▸ hne)
          rw [hafter, hn, stretches_range']
          refine stretches_pos fun h0 => ?_
          rw [h0] at hlength
          rw [hlength] at hn
          cases hn
      · rw [hm.others g hg, Function.update_of_ne hg]
        exact h g hno hle
    · obtain ⟨-, hle', -⟩ := hwhole hno hle
      omega
  dumped := by
    intro f k v' disp _ h g hno hle
    by_cases hg : g = f
    · subst hg
      obtain ⟨m', hm', htell⟩ := htruth k (v'.map g)
      rw [Function.update_self, hm']
      exact { h g hno hle with known := htell.accurate.clusters }
    · rw [Function.update_of_ne hg]
      exact h g hno hle
  ordered := by
    intro f v' disp _ h g hno hle
    by_cases hg : g = f
    · subst hg
      rw [Function.update_self]
      exact { h g hno hle with }
    · rw [Function.update_of_ne hg]
      exact h g hno hle

/-- No dump of a file reports more fragments than the first scan, whatever requests fail, if the
file has no holes and one request is enough for it. -/
theorem run_adds_no_fragments {env : Env} {v : Volume} {disk : List FileId}
    {disp : FileId → Disposition} (hw : ClosedWorld env v disk disp) (opts : Options) (fuel : ℕ)
    (excluded : FileId → Bool) :
    Meets (fun _ _ => True)
      (fun _ s => ∀ f, NoHoles (v.map f) → (lcns (v.map f)).length ≤ maxChunk →
        ∀ m', Tells (s.vol.map f) m' →
          (winxFtwDumpFile (some m')).fragments ≤ (disp f).fragments)
      (run env opts fuel) (.init v disk disp excluded)
      (keeps (fun s => ∀ f, NoHoles (v.map f) → (lcns (v.map f)).length ≤ maxChunk →
        ∀ m', Tells (s.vol.map f) m' →
          (winxFtwDumpFile (some m')).fragments ≤ (disp f).fragments) fun _ => True) := by
  have hshow : ∀ (v' : Volume) (disp' : FileId → Disposition),
      (∀ f, NoHoles (v.map f) → (lcns (v.map f)).length ≤ maxChunk →
        NoWorse (v.map f) (v'.map f) (disp' f)) →
      ∀ f, NoHoles (v.map f) → (lcns (v.map f)).length ≤ maxChunk →
        ∀ m', Tells (v'.map f) m' →
          (winxFtwDumpFile (some m')).fragments ≤ (disp f).fragments := by
    intro v' disp' h f hno hle m' htell
    rw [htell.fragments, (hw.dumps f).fragments]
    exact (h f hno hle).stretches
  obtain ⟨-, -, -, haccurate⟩ := scan_accurate excluded hw
  have hrun := (steady_noWorse hw.truthful (Movable disk disp excluded) v).run
    hshow opts fuel (s := .init v disk disp excluded)
    ⟨fun f hno _ => ⟨hno, (haccurate f).clusters, rfl, le_rfl⟩, within_scan disk disp excluded⟩
  exact (hrun.shows fun _ _ h => h.1).mono fun _ s hs => hshow s.vol s.fe.disp hs.1

theorem run_adds_no_fragments_scattered :
    (scatteredVolume.dumps 0).fragments = 2
    ∧ ∀ m ∈ (run .granting defragAndGaps 4
        (.init scatteredVolume [0] scatteredVolume.dumps fun _ => false)).seen,
      ∀ m', Tells (m.2.vol.map 0) m' → (winxFtwDumpFile (some m')).fragments ≤ 2 :=
  ⟨rfl, fun m hm => ((run_adds_no_fragments scatteredVolume_closedWorld defragAndGaps 4
    fun _ => false) fun _ _ => trivial).1 m hm 0 (by decide) (by decide)⟩

end StopGap
