import StopGap.Proofs.Stock
import StopGap.Proofs.Steps

/-!
# Files without a map

`scan` leaves files without a block map out of `buckets_`. `move_file` throws the map of a file
away, has it dumped anew and puts the file back without a look at what the dump has found. As long
as the dumps of files that go back find their clusters, every file in stock has its map; otherwise
the chooser follows a null pointer.
-/

namespace StopGap

open Exec Exec.Prog FileEnumeration

/-- A dump may fail or be wrong, but reports no empty extents. -/
def Env.Dumping (env : Env) : Prop :=
  ∀ k m m', env.report k m = some m' → ∀ e ∈ m', 0 < e.length

/-- Every file in stock is under its cluster count, which is positive and that of the blocks of its
map, and the map starts with its lowest block. -/
def FileEnumeration.Mapped (fe : FileEnumeration) : Prop :=
  ∀ e ∈ fe.buckets,
    (∃ b bm, (fe.disp e.2).blockmap = b :: bm ∧ ∀ b' ∈ bm, b.lcn ≤ b'.lcn)
      ∧ e.1 = (fe.disp e.2).clusters
      ∧ (fe.disp e.2).clusters = ((fe.disp e.2).blockmap.map Block.length).sum
      ∧ 0 < (fe.disp e.2).clusters

/-- Files are small enough for one request, and the next dump of a file that goes back in stock
reports clusters. -/
def Redumped (env : Env) : Mark → Operation → Prop
  | .fePop f, s => (s.fe.disp f).clusters ≤ maxChunk
  | .answered _ d status, s =>
    ntSuccess status = true ∨ status = statusAlreadyCommitted →
      ∃ m ∈ env.report s.clock (s.vol.map d.file), lcns m ≠ []
  | _, _ => True

instance (env : Env) (m : Mark) (s : Operation) : Decidable (Redumped env m s) := by
  refine m.casesOn ?_ ?_ ?_ ?_ ?_ ?_ ?_ ?_ ?_ ?_ ?_ <;> intros <;>
    unfold Redumped <;> infer_instance

def Counted (d : Disposition) : Prop :=
  d.blockmap ≠ [] → 0 < d.clusters ∧ d.clusters = (d.blockmap.map Block.length).sum

theorem Accurate.counted {m : List Extent} {d : Disposition} (h : Accurate m d) : Counted d := by
  refine fun hmap => ⟨h.clusters_pos hmap, ?_⟩
  rw [← length_blockLcns, h.blocks.length_eq]
  exact h.clusters

theorem Counted.order {d : Disposition} (h : Counted d) : Counted (order d) := by
  have hperm := order_blockmap_perm d
  intro hmap
  obtain ⟨hpos, hsum⟩ := h fun h0 => hmap (List.perm_nil.1 (h0 ▸ hperm))
  exact ⟨hpos, hsum.trans (hperm.map Block.length).sum_nat.symm⟩

theorem Env.Dumping.counted {env : Env} (h : env.Dumping) (k : ℕ) (m : List Extent) :
    Counted (winxFtwDumpFile (env.report k m)) := by
  rcases hr : env.report k m with _ | m'
  · exact fun hmap => absurd rfl hmap
  · exact (Tells.accurate (m := m') ⟨rfl, h k m m' hr⟩).counted

theorem Env.Dumping.map_ne_nil {env : Env} (h : env.Dumping) {k : ℕ} {m : List Extent}
    (hm : ∃ m' ∈ env.report k m, lcns m' ≠ []) :
    (winxFtwDumpFile (env.report k m)).blockmap ≠ [] := by
  obtain ⟨m', hm', hne⟩ := hm
  rw [hm']
  have hacc : Accurate m' (winxFtwDumpFile (some m')) := Tells.accurate ⟨rfl, h k m m' hm'⟩
  exact hacc.map_ne_nil (hacc.clusters ▸ List.length_pos_of_ne_nil hne)

/-- What the chooser counts on, with no file twice and right counts. -/
structure Maps (fe : FileEnumeration) : Prop where
  stocked : fe.Stocked
  nodup : (fe.buckets.map Prod.snd).Nodup
  counted : ∀ e ∈ fe.buckets, Counted (fe.disp e.2)

namespace Maps

variable {fe fe' : FileEnumeration} {f : FileId}

theorem mapped (h : Maps fe) : fe.Mapped := by
  intro e he
  have hmap := h.stocked.map e he
  obtain ⟨hpos, hsum⟩ := h.counted e he hmap
  obtain ⟨b, bm, hbm⟩ := List.exists_cons_of_ne_nil hmap
  exact ⟨⟨b, bm, hbm, h.stocked.lowest e he b bm hbm⟩, h.stocked.key e he, hsum, hpos⟩

theorem congr (h : Maps fe) (hd : fe'.disp = fe.disp) (hb : fe'.buckets = fe.buckets) :
    Maps fe' :=
  ⟨h.stocked.congr hd hb, hb ▸ h.nodup, by rw [hb, hd]; exact h.counted⟩

theorem pop (h : Maps fe) (f : FileId) : Maps (fe.pop f) :=
  ⟨h.stocked.pop f, nodup_pop h.nodup f, fun e he => h.counted e (List.mem_of_mem_erase he)⟩

theorem change (h : Maps fe) (hf : ∀ e ∈ fe.buckets, e.2 ≠ f) (d : Disposition) :
    Maps { fe with disp := Function.update fe.disp f d } :=
  ⟨h.stocked.change hf d, h.nodup, fun e he => by
    simpa only [Function.update_of_ne (hf e he)] using h.counted e he⟩

theorem push (h : Maps fe) (hf : ∀ e ∈ fe.buckets, e.2 ≠ f) (hc : Counted (fe.disp f))
    (hmap : (fe.disp f).blockmap ≠ []) : Maps (fe.push f) := by
  refine ⟨h.stocked.push (hc hmap).1 hmap, nodup_push h.nodup hf, fun e he => ?_⟩
  rw [push_disp]
  rcases OrdMap.mem_insertMulti.1 he with rfl | he
  · rw [if_pos rfl]
    exact hc.order
  · rw [if_neg (hf e he)]
    exact h.counted e he

end Maps

theorem scan_maps {disk : List FileId} {disp : FileId → Disposition} (excluded : FileId → Bool)
    (hnd : disk.Nodup) (hdisp : ∀ f, Counted (disp f)) :
    Maps (FileEnumeration.scan disk disp excluded) := by
  obtain ⟨done, hscan⟩ := scan_scanning excluded hnd fun f _ hmap => (hdisp f hmap).1
  refine ⟨hscan.stocked, hscan.nodup, fun e _ => ?_⟩
  rcases hscan.disp_eq e.2 with h | h
  · exact h ▸ hdisp e.2
  · exact h ▸ (hdisp e.2).order

section Runs

variable {env : Env} {opts : Options} {s : Operation}

def ShowsMaps (_ : Mark) (s : Operation) : Prop := Maps s.fe

theorem moveFile_maps {caller : Caller} {f : FileId} {g : Region} (henv : env.Dumping)
    (h : Maps s.fe) :
    Meets (Redumped env) ShowsMaps (moveFile env caller f g) s
      ⟨fun _ s' => Maps s'.fe, fun s' => Maps s'.fe, fun why _ => why ≠ .nullBlockmap,
        fun _ => False⟩ := by
  have hone : OneRequest (Redumped env) ShowsMaps env caller f g s
      (fun _ fe => Maps fe ∧ ∀ e ∈ fe.buckets, e.2 ≠ f) (fun _ fe => Maps fe) (fun _ fe => Maps fe)
      (fun status _ fe => (Maps fe ∧ ∀ e ∈ fe.buckets, e.2 ≠ f) ∧ Counted (fe.disp f)
        ∧ (ntSuccess status = true ∨ status = statusAlreadyCommitted →
          (fe.disp f).blockmap ≠ [])) :=
    { popped := fun _ => h
      one := id
      taken := ⟨h.pop f, h.stocked.gone h.nodup f⟩
      empty := fun _ => h.pop f
      moved := fun _ _ _ hK => hK
      dumped := fun status s hA hK => by
        refine ⟨⟨hK.1.change hK.2 _, hK.2⟩, ?_⟩
        simp only [Function.update_self]
        exact ⟨henv.counted s.clock (s.vol.map f), fun hstatus => henv.map_ne_nil (hA hstatus)⟩
      pushed := fun _ _ _ hstatus hL => hL.1.1.push hL.1.2 hL.2.1 (hL.2.2 hstatus)
      of_taken := fun _ _ hK => hK.1
      of_dumped := fun _ _ _ hL => hL.1.1
      of_pushed := fun _ _ hB => hB
      shown := fun _ _ _ hs => hs }
  exact hone.meets

theorem defragBody_maps {f : FileId} (henv : env.Dumping) (h : Maps s.fe) :
    Meets (Redumped env) ShowsMaps (defragBody env f) s
      (ends (fun s => Maps s.fe) (· ≠ .nullBlockmap)) := by
  have hstep : DefragStep (Redumped env) ShowsMaps env (· ≠ .nullBlockmap) f s
      (fun s => Maps s.fe) (fun s => Maps s.fe) (fun s => Maps s.fe) :=
    { shown := fun _ => h
      popped := fun _ _ => ⟨fun _ => h, h.pop f⟩
      go := fun _ => h
      idle := fun _ hs => hs
      moved := fun _ _ hs _ => moveFile_maps henv hs
      scanned := fun _ hs => hs }
  exact hstep.meets

theorem defrag_maps (henv : env.Dumping) (h : Maps s.fe) :
    Meets (Redumped env) ShowsMaps (defrag env) s
      (ends (fun s => Maps s.fe) (· ≠ .nullBlockmap)) := by
  refine (defrag_meets (Q := fun _ s => Maps s.fe) (fun _ _ h => h)
    (fun f files s h => defragBody_maps henv h) fun _ _ _ _ => h).mono fun _ s' hs' => ?_
  obtain ⟨-, hs'⟩ := hs'
  exact hs'

theorem moveSet_maps {files : List FileId} {r : Region} (henv : env.Dumping) (h : Maps s.fe) :
    Meets (Redumped env) ShowsMaps (moveSet env files r) s
      ⟨fun _ s' => Maps s'.fe, fun _ => False, fun why _ => why ≠ .nullBlockmap,
        fun _ => False⟩ := by
  refine (moveSet_meets (Q := fun _ _ s => Maps s.fe) (T := fun s => Maps s.fe)
    (fun _ _ _ hs => hs) (fun f files r s hs => moveFile_maps henv hs) h).mono
    fun moved s' hs' => ?_
  cases moved with
  | false => exact hs'
  | true =>
    obtain ⟨-, -, hs'⟩ := hs'
    exact hs'

theorem widenBehind_maps {r : Region} (henv : env.Dumping) (h : Maps s.fe) (n : ℕ) :
    Meets (Redumped env) ShowsMaps (widenBehind env opts r n) s
      (ends (fun s => Maps s.fe) (· ≠ .nullBlockmap)) := by
  have hfind : ∀ lcn (s : Operation), Maps s.fe → Maps (s.fe.findAt lcn).1 := fun lcn s hs =>
    hs.congr (findAt_disp s.fe lcn) (findAt_buckets s.fe lcn)
  have hstep : WidenStep (Redumped env) ShowsMaps env opts (· ≠ .nullBlockmap)
      (fun _ s => Maps s.fe) (fun s => Maps s.fe) :=
    { tick := fun _ _ hs => hs
      found := fun _ lcn s hs => hfind lcn s hs
      shown := fun _ _ hs _ => hs
      moved := fun _ lcn s _ _ hs _ _ _ => moveFile_maps henv (hfind lcn s hs) }
  exact hstep.ends r n h

theorem closeGapsBody_maps {g : NodePtr} (henv : env.Dumping) (h : Maps s.fe)
    (hg : g.scan = s.ge.scans) (p : Bool) :
    Meets (Redumped env) ShowsMaps (closeGapsBody env opts g p) s
      (ends (fun s => Maps s.fe) (· ≠ .nullBlockmap)) := by
  have hstep : GapStep (Redumped env) ShowsMaps env opts (· ≠ .nullBlockmap) g p s
      (fun s => Maps s.fe) (fun s => Maps s.fe) :=
    { inv := h
      current := hg
      shown := fun _ => h
      dropping := fun _ hs _ => hs
      dropped := fun _ _ hs _ => hs
      breaks := by simp
      dangles := by simp
      chosen := fun _ hwhy => absurd hwhy (findBest_ne_error h.stocked)
      moved := fun _ _ => (moveSet_maps henv h).mono fun _ _ hs' => by
        simpa only [ite_self] using hs'
      scanned := fun _ hs => hs
      widened := fun n => widenBehind_maps henv h n }
  exact hstep.meets

theorem run_maps (henv : env.Dumping) (fuel : ℕ) (h : Maps s.fe) :
    Meets (Redumped env) ShowsMaps (run env opts fuel) s
      (keeps (fun s => Maps s.fe) (· ≠ .nullBlockmap)) := by
  have hinv : RunInvariant (Redumped env) ShowsMaps env opts (· ≠ .nullBlockmap)
      (fun s => Maps s.fe) (fun s => Maps s.fe) :=
    { tick := fun _ h => h
      tick_in := fun _ h => h
      replaced := fun _ _ h => h
      enter := fun _ h => h
      scanned := fun _ h => h
      closed := fun _ h _ => h
      body := fun g p s h hgap => closeGapsBody_maps henv h (nextGap_scan hgap) p
      defrag := fun s h => defrag_maps henv h }
  exact hinv.meets fuel h

/-- Whatever comes of requests and dumps: as long as files are small enough for one request and the
dumps of those that go back in stock report clusters, every file in stock has a map, at each mark
and at the end, and the chooser follows no null pointer. -/
theorem stock_mapped_if_dumped {v : Volume} {disk : List FileId} {disp : FileId → Disposition}
    {excluded : FileId → Bool} (henv : env.Dumping) (hdisk : disk.Nodup)
    (hdisp : ∀ f, disp f = winxFtwDumpFile none ∨ ∃ m, Reports m (disp f)) (fuel : ℕ)
    (hrun : ∀ m ∈ (run env opts fuel (.init v disk disp excluded)).seen, Redumped env m.1 m.2) :
    (∀ m ∈ (run env opts fuel (.init v disk disp excluded)).seen, m.2.fe.Mapped)
      ∧ (∀ s, (run env opts fuel (.init v disk disp excluded)).out = .ok () s → s.fe.Mapped)
      ∧ ∀ s, (run env opts fuel (.init v disk disp excluded)).out ≠ .halted .nullBlockmap s := by
  have hcounted : ∀ f, Counted (disp f) := fun f => by
    rcases hdisp f with h | ⟨m, hm⟩
    · exact fun hmap => absurd (h ▸ rfl) hmap
    · exact hm.accurate.counted
  have hmeets : Meets (Redumped env) ShowsMaps (run env opts fuel) (.init v disk disp excluded)
      (keeps (fun s => Maps s.fe) (· ≠ .nullBlockmap)) :=
    run_maps henv fuel (scan_maps excluded hdisk hcounted)
  obtain ⟨hseen, hout⟩ := hmeets hrun
  refine ⟨fun m hm => (hseen m hm).mapped, fun s hs => ?_, fun s hs => ?_⟩
  · rw [hs] at hout
    exact Maps.mapped hout
  · rw [hs] at hout
    exact hout rfl

end Runs

/-- A file behind a gap that it fills. -/
def oneFileVolume : Volume := .laid 4 [0, 3] [[⟨some 2, 1⟩]]

/-- Requests are granted, and files cannot be dumped after them. -/
def Env.forgetting : Env := { Env.answering 0 with report := fun _ _ => none }

theorem stock_mapped_if_dumped_granted :
    (∃ m ∈ (run .granting gapsOnly 4
        (.init oneFileVolume [0] oneFileVolume.dumps fun _ => false)).seen,
      m.1 = .dumped 0 0 ∧ m.2.vol.map 0 = [⟨some 1, 1⟩])
    ∧ ∀ m ∈ (run .granting gapsOnly 4
        (.init oneFileVolume [0] oneFileVolume.dumps fun _ => false)).seen, m.2.fe.Mapped := by
  have hworld : ClosedWorld .granting oneFileVolume [0] oneFileVolume.dumps :=
    laid_closedWorld (by decide) (by decide) (by decide) (by decide) Env.granting_truthful
  refine ⟨by decide +kernel, (stock_mapped_if_dumped (fun _ m m' h => ?_) hworld.disk
    (fun f => Or.inr ⟨_, hworld.dumps f⟩) 4 (by decide +kernel)).1⟩
  cases h
  exact (tells_filter m).pos

/-- The file is moved, cannot be dumped and goes back in stock without a map; the chooser follows
the null pointer for the next gap. -/
theorem failed_dump_leaves_null_map :
    (∃ m ∈ (run .forgetting gapsOnly 4
        (.init oneFileVolume [0] oneFileVolume.dumps fun _ => false)).seen,
      m.1 = .gapsIter false ∧ (0, 0) ∈ m.2.fe.buckets ∧ (m.2.fe.disp 0).blockmap = [])
    ∧ ∃ s, (run .forgetting gapsOnly 4
        (.init oneFileVolume [0] oneFileVolume.dumps fun _ => false)).out
      = .halted .nullBlockmap s := by
  refine ⟨by decide +kernel, ?_⟩
  exact ⟨_, rfl⟩

end StopGap
