import StopGap.Proofs.MftBounds
import StopGap.Proofs.MftBytes

/-!
# Scans of a master file table

A master file table holds base records, which say what a file is, and others. The driver answers
with the nearest record that is in use at or before the one asked for (`nearest`). A scan comes back
with the streams of all files, in the order of their records, each with the path of its directories
and the disposition that a dump of its extents gives (`ntfsScanDisk_lists_files`): what the scanner
reads off the disk is what the system would have reported file by file. It misses two things. The
runs of `$BadClus` are left out on purpose; a run that starts at cluster 0, where `$Boot` lies, is
taken for a virtual one.
-/

namespace StopGap

namespace Mft

open Exec Exec.Prog Bytes

/-! ### One record -/

/-- An attribute of a base record: one of its own, or a list and the attributes it leads to. -/
inductive Item where
  | attr (a : Attr)
  | list (as : List Attr)

/-- What the first loop over the attributes takes. -/
def Item.own : Item → List Attr
  | .attr a => [a]
  | .list _ => []

/-- What the second loop over the attributes takes. -/
def Item.listed : Item → List Attr
  | .attr _ => []
  | .list as => as

inductive ItemAt (env : Env) (baseId : ℕ) (r : List UInt8) (off : ℕ) : Item → Prop
  | attr {a : Attr} (h : AttrAt env.ml r off a) : ItemAt env baseId r off (.attr a)
  | list {as : List Attr} (h : ListAt env baseId r off as) : ItemAt env baseId r off (.list as)

/-- A file of which nothing has been read. -/
def Gathered.start (id : ℕ) (directory : Bool) : Gathered where
  mfi :=
    { baseMftId := id
      parentDirectoryMftId := fileRoot
      flags := if directory then attributeDirectory else 0
      nameType := filenamePosix
      name := [] }
  streams := []

/-- A base record in use, with the records its attribute list names, says what the file is. -/
structure Presents (env : Env) (record : FileRecord) (g : Gathered) (items : List Item)
    (directory : Bool) : Prop where
  tag : field record.buffer 0 4 = some fileTag
  inUse : ∃ flags, field record.buffer 22 2 = some flags ∧ flags % 2 = 1
    ∧ directory = decide (flags / 2 % 2 = 1)
  base : field record.buffer 32 8 = some 0
  attributes : ∃ off, field record.buffer 20 2 = some off ∧ Attributes env.ml record.buffer
    (ItemAt env (mftIdOf record.fileReferenceNumber) record.buffer) off items
  gathers : Gathers env (.start (mftIdOf record.fileReferenceNumber) directory)
    (items.flatMap Item.own ++ items.flatMap Item.listed) g

/-- A record that is no base record in use. -/
inductive Skipped (r : List UInt8) : Prop
  | tag {tag : ℕ} (h : field r 0 4 = some tag) (hne : tag ≠ fileTag)
  | unused {flags : ℕ} (htag : field r 0 4 = some fileTag) (h : field r 22 2 = some flags)
      (h0 : flags % 2 = 0)
  | child {flags base : ℕ} (htag : field r 0 4 = some fileTag) (hflags : field r 22 2 = some flags)
      (h1 : flags % 2 ≠ 0) (h : field r 32 8 = some base) (hne : base ≠ 0)

/-- The streams of a file on the list. -/
def Gathered.infos (g : Gathered) : List FileInfo :=
  g.streams.map fun st => nameStream g.mfi (streamInfo g.mfi.baseMftId st)

variable {env : Env} {old : List FileInfo} {g : Gathered} {s : State}

theorem Gathers.split {as bs : List Attr} {g'' : Gathered} :
    ∀ {g : Gathered}, Gathers env g (as ++ bs) g'' →
      ∃ g', Gathers env g as g' ∧ Gathers env g' bs g'' := by
  induction as with
  | nil => exact fun {g} h => ⟨g, .nil g, h⟩
  | cons a as ih =>
    intro g h
    obtain _ | ⟨hfits, h⟩ := h
    obtain ⟨g', h', h''⟩ := ih h
    exact ⟨g', .cons hfits h', h''⟩

theorem Gathers.baseMftId {as : List Attr} {g g' : Gathered} (h : Gathers env g as g') :
    g'.mfi.baseMftId = g.mfi.baseMftId := by
  induction h with
  | nil => rfl
  | cons _ _ ih => rw [ih, Gathered.add_baseMftId]

theorem AttrAt.notList {r : List UInt8} {off : ℕ} {a : Attr} (h : AttrAt env.ml r off a) :
    ∃ type, attributeType r off = some type ∧ type ≠ 0x20 := by
  cases h with
  | info h => exact ⟨_, h.type, by decide⟩
  | name h => exact ⟨_, h.type, by decide⟩
  | resident htype _ _ _ hlist => exact ⟨_, htype, hlist⟩
  | portion htype _ _ hlist => exact ⟨_, htype, hlist⟩
  | other htype _ _ _ hnone =>
    refine ⟨_, htype, ?_⟩
    rintro rfl
    cases hnone
  | outside htype _ _ hnone =>
    refine ⟨_, htype, ?_⟩
    rintro rfl
    cases hnone

theorem ListAt.type {r : List UInt8} {off baseId : ℕ} {as : List Attr}
    (h : ListAt env baseId r off as) : attributeType r off = some 0x20 := by
  cases h with
  | resident h => exact h.type
  | nonresident htype => exact htype

/-- While the items still to come bring `g'` about, of which a loop takes `part`. -/
def Pending (env : Env) (id : ℕ) (old : List FileInfo) (g' : Gathered) (part : Item → List Attr)
    (items : List Item) (s : State) : Prop :=
  ∃ g, g.mfi.baseMftId = id ∧ Gathers env g (items.flatMap part) g' ∧ Shows env old g s

section Loops

variable {r : List UInt8} {id depth : ℕ} {g' : Gathered}
  (hw : Scannable env)

include hw in
theorem firstLoop_enumerates : Enumerates (ItemAt env id r)
    (fun pattr => do
      let type ← read (attributeType r pattr)
      when (type ≠ 0x20) (analyzeAttribute env (analyzeEntry env depth) r pattr))
    (Pending env id old g' Item.own) where
  calm := fun ⟨_, _, _, hs⟩ => hs.calm
  asked := fun ⟨g, hid, hg, hs⟩ => ⟨g, hid, hg, hs.ask⟩
  step := by
    rintro item items off s hitem ⟨g, hid, hg, hs⟩
    cases hitem with
    | attr ha =>
      obtain ⟨type, htype, hne⟩ := ha.notList
      obtain _ | ⟨hfits, hg⟩ := hg
      refine returns_read_bind htype (.when (fun _ => ?_) fun h => absurd hne h)
      exact (analyzeAttribute_returns hw hs ha hfits).mono fun _ s' hs' =>
        ⟨_, (g.add_baseMftId _).trans hid, hg, hs'⟩
    | list hl =>
      exact returns_read_bind hl.type (.when (fun h => absurd rfl h) fun _ => ⟨g, hid, hg, hs⟩)

include hw in
theorem secondLoop_enumerates : Enumerates (ItemAt env id r)
    (fun pattr => do
      let type ← read (attributeType r pattr)
      when (type = 0x20) (analyzeAttribute env (analyzeEntry env (depth + 1)) r pattr))
    (Pending env id old g' Item.listed) where
  calm := fun ⟨_, _, _, hs⟩ => hs.calm
  asked := fun ⟨g, hid, hg, hs⟩ => ⟨g, hid, hg, hs.ask⟩
  step := by
    rintro item items off s hitem ⟨g, hid, hg, hs⟩
    cases hitem with
    | attr ha =>
      obtain ⟨type, htype, hne⟩ := ha.notList
      exact returns_read_bind htype (.when (fun h => absurd h hne) fun _ => ⟨g, hid, hg, hs⟩)
    | list hl =>
      obtain ⟨g₁, hg₁, hg⟩ := Gathers.split hg
      subst hid
      refine returns_read_bind hl.type (.when (fun _ => ?_) fun h => absurd rfl h)
      exact (analyzeList_returns hw hl hg₁ hs).mono fun _ s' hs' =>
        ⟨g₁, hg₁.baseMftId, hg, hs'⟩

end Loops

theorem nameStreams_streams (hold : ∀ f ∈ old, g.mfi.baseMftId < f.baseMftId) :
    ∀ streams : List Stream,
      nameStreams g.mfi (streams.map (streamInfo g.mfi.baseMftId) ++ old)
        = (streams.map fun st => nameStream g.mfi (streamInfo g.mfi.baseMftId st)) ++ old
  | [] => by
    rcases old with _ | ⟨f, old⟩
    · rfl
    · simp [nameStreams, hold f]
  | st :: streams => by
    have hbase : (streamInfo g.mfi.baseMftId st).baseMftId = g.mfi.baseMftId := rfl
    simp [nameStreams, hbase, nameStreams_streams hold streams]

/-- A base record puts the streams of its file in front of the list. -/
theorem analyzeFileRecord_returns {record : FileRecord} {items : List Item} {directory : Bool}
    {depth : ℕ} (hw : Scannable env)
    (hrec : Presents env record g items directory) (hcalm : s.errors = 0)
    (hold : ∀ f ∈ s.filelist, mftIdOf record.fileReferenceNumber < f.baseMftId) :
    Returns (analyzeFileRecord env (depth + 1) record) s fun _ s' =>
      s'.errors = 0 ∧ s'.filelist = g.infos ++ s.filelist
        ∧ ∀ st ∈ g.streams, OnVolume env.ml.totalClusters st.shown := by
  obtain ⟨flags, hflags, huse, hdir⟩ := hrec.inUse
  obtain ⟨off, hoff, hitems⟩ := hrec.attributes
  obtain ⟨g₁, hg₁, hg⟩ := hrec.gathers.split
  have hbase := hg.baseMftId.trans hg₁.baseMftId
  refine returns_read_bind hrec.tag (.ite (fun h => absurd rfl h) fun _ => ?_)
  refine returns_read_bind hflags (.ite (fun h => by omega) fun _ => ?_)
  refine returns_read_bind hrec.base (.ite (fun h => absurd rfl h) fun _ => .modify_bind ?_)
  have hstart : Shows env s.filelist (.start (mftIdOf record.fileReferenceNumber) directory)
      { s with mfi := (Gathered.start (mftIdOf record.fileReferenceNumber) directory).mfi } :=
    ⟨rfl, rfl, hcalm, hold, by simp [Gathered.start]⟩
  have hmfi : (Gathered.start (mftIdOf record.fileReferenceNumber) directory).mfi
      = { baseMftId := mftIdOf record.fileReferenceNumber
          parentDirectoryMftId := fileRoot
          flags := if flags / 2 % 2 = 1 then attributeDirectory else 0
          nameType := filenamePosix
          name := [] } := by
    simp [Gathered.start, hdir]
  rw [← hmfi]
  refine (enumerateAttributes_returns hw (firstLoop_enumerates hw) hoff hitems
    ⟨_, rfl, hg₁, hstart⟩).bind fun _ s₁ h₁ => ?_
  obtain ⟨_, -, ⟨⟩, hs₁⟩ := h₁
  refine (enumerateAttributes_returns hw (secondLoop_enumerates hw)
    hoff hitems ⟨_, hg₁.baseMftId, hg, hs₁⟩).bind fun _ s₂ h₂ => ?_
  obtain ⟨_, -, ⟨⟩, hs₂⟩ := h₂
  refine Returns.modify ⟨hs₂.calm, ?_, hs₂.volume⟩
  simp only [hs₂.mfi, hs₂.list]
  exact nameStreams_streams hs₂.later _

/-- What a record presents is on the volume, as the scan has seen it there. -/
theorem Presents.volume {record : FileRecord} {items : List Item} {directory : Bool}
    (hw : Scannable env) (hrec : Presents env record g items directory) :
    ∀ st ∈ g.streams, OnVolume env.ml.totalClusters st.shown := by
  have hrun : Returns (analyzeFileRecord env 1 record) .init _ :=
    analyzeFileRecord_returns hw hrec rfl (by simp [State.init])
  obtain ⟨-, -, -, -, -, hvol⟩ := hrun
  exact hvol

theorem analyzeFileRecord_skipped {record : FileRecord} {depth : ℕ}
    (hskip : Skipped record.buffer) :
    Returns (analyzeFileRecord env depth record) s fun _ s' => s' = s := by
  cases hskip with
  | tag h hne => exact returns_read_bind h (.ite (fun _ => .pure rfl) fun h => absurd hne h)
  | unused htag h h0 =>
    exact returns_read_bind htag (.ite (fun h => absurd rfl h) fun _ =>
      returns_read_bind h (.ite (fun _ => .pure rfl) fun h => absurd h0 h))
  | child htag hflags h1 h hne =>
    exact returns_read_bind htag (.ite (fun h => absurd rfl h) fun _ =>
      returns_read_bind hflags (.ite (fun h => absurd h h1) fun _ =>
        returns_read_bind h (.ite (fun _ => .pure rfl) fun h => absurd hne h)))

/-! ### The records in turn -/

/-- What the driver answers with: the nearest record in use at or before the one asked for. -/
def nearest (table : ℕ → Option FileRecord) : ℕ → Option FileRecord
  | 0 => table 0
  | n + 1 => (table (n + 1)).or (nearest table n)

/-- A master file table, and the files it holds. -/
structure Table (env : Env) (table : ℕ → Option FileRecord) (files : ℕ → Option Gathered) :
    Prop where
  answer : ∀ k n, env.record k n = nearest table n
  id : ∀ n record, table n = some record → mftIdOf record.fileReferenceNumber = n
  file : ∀ n g, files n = some g → ∃ record items directory, table n = some record
    ∧ Presents env record g items directory
  skipped : ∀ n record, table n = some record → files n = none → Skipped record.buffer
  first : ∃ record, table 0 = some record

/-- The streams of the files in the first `n` records. -/
def infosBelow (files : ℕ → Option Gathered) (n : ℕ) : List FileInfo :=
  (List.range n).flatMap fun i => (files i).elim [] Gathered.infos

theorem nearest_spec {table : ℕ → Option FileRecord} {record : FileRecord} :
    ∀ {n : ℕ}, nearest table n = some record →
      ∃ i ≤ n, table i = some record ∧ ∀ j, i < j → j ≤ n → table j = none
  | 0, h => ⟨0, le_rfl, h, fun j hlt hle => absurd hlt (Nat.not_lt.2 hle)⟩
  | n + 1, h => by
    rcases hn : table (n + 1) with _ | r
    · rw [nearest, hn, Option.none_or] at h
      obtain ⟨i, hi, hr, hnone⟩ := nearest_spec h
      refine ⟨i, by omega, hr, fun j hlt hle => ?_⟩
      rcases Nat.lt_or_eq_of_le hle with hlt' | rfl
      · exact hnone j hlt (Nat.le_of_lt_succ hlt')
      · exact hn
    · rw [nearest, hn, Option.some_or] at h
      exact ⟨n + 1, le_rfl, hn.trans h, fun j hlt hle => absurd hlt (Nat.not_lt.2 hle)⟩

theorem nearest_ne_none {table : ℕ → Option FileRecord} {record : FileRecord}
    (h : table 0 = some record) : ∀ n, nearest table n ≠ none
  | 0 => by simp [nearest, h]
  | n + 1 => by
    rcases hn : table (n + 1) with _ | r
    · rw [nearest, hn, Option.none_or]
      exact nearest_ne_none h n
    · simp [nearest, hn]

theorem infosBelow_succ (files : ℕ → Option Gathered) (n : ℕ) :
    infosBelow files (n + 1) = infosBelow files n ++ (files n).elim [] Gathered.infos := by
  simp [infosBelow, List.range_succ]

theorem infosBelow_of_none {files : ℕ → Option Gathered} {i : ℕ} : ∀ {n : ℕ}, i ≤ n →
    (∀ j, i < j → j ≤ n → files j = none) → infosBelow files (n + 1) = infosBelow files (i + 1)
  | 0, hi, _ => by rw [Nat.le_zero.1 hi]
  | n + 1, hi, h => by
    rcases Nat.lt_or_eq_of_le hi with hlt | rfl
    · rw [infosBelow_succ, h (n + 1) hlt le_rfl,
        infosBelow_of_none (Nat.le_of_lt_succ hlt) fun j hj hle => h j hj (by omega)]
      exact List.append_nil _
    · rfl

theorem Gathered.baseMftId_of_mem_infos {f : FileInfo} (h : f ∈ g.infos) :
    f.baseMftId = g.mfi.baseMftId := by
  obtain ⟨st, -, rfl⟩ := List.mem_map.1 h
  rfl

section Table

variable {table : ℕ → Option FileRecord} {files : ℕ → Option Gathered} {depth : ℕ}

theorem Table.baseMftId (h : Table env table files) {n : ℕ} {g : Gathered}
    (hg : files n = some g) : g.mfi.baseMftId = n := by
  obtain ⟨record, items, directory, hrec, hp⟩ := h.file n g hg
  exact hp.gathers.baseMftId.trans (h.id n record hrec)

theorem Table.files_none (h : Table env table files) {n : ℕ} (hn : table n = none) :
    files n = none := by
  rcases hg : files n with _ | g
  · rfl
  · obtain ⟨record, _, _, hrec, -⟩ := h.file n g hg
    cases hn.symm.trans hrec

variable (hw : Scannable env)
  (h : Table env table files)

include hw h

theorem Table.volume {n : ℕ} {g : Gathered} (hg : files n = some g) :
    ∀ st ∈ g.streams, OnVolume env.ml.totalClusters st.shown := by
  obtain ⟨record, items, directory, -, hp⟩ := h.file n g hg
  exact hp.volume hw

/-- A record of the table puts the streams of its file, if it is one, in front of the list. -/
theorem Table.analyzeFileRecord {n : ℕ} {record : FileRecord} (hrec : table n = some record)
    (hcalm : s.errors = 0) (hold : ∀ f ∈ s.filelist, n < f.baseMftId) :
    Returns (Mft.analyzeFileRecord env (depth + 1) record) s fun _ s' => s'.errors = 0
      ∧ s'.filelist = (files n).elim [] Gathered.infos ++ s.filelist := by
  rcases hg : files n with _ | g
  · refine (analyzeFileRecord_skipped (h.skipped n record hrec hg)).mono fun _ s' hs' => ?_
    rw [hs']
    exact ⟨hcalm, rfl⟩
  · obtain ⟨record', items, directory, hrec', hp⟩ := h.file n g hg
    obtain rfl := Option.some.inj (hrec.symm.trans hrec')
    exact (analyzeFileRecord_returns hw hp hcalm (by rwa [h.id n record hrec])).mono
      fun _ _ hs => ⟨hs.1, hs.2.1⟩

/-- The loop over the records, from record `n` down. -/
theorem Table.scanRecords : ∀ {fuel n : ℕ} {s : State}, n < fuel → s.errors = 0 →
    (∀ f ∈ s.filelist, n < f.baseMftId) →
    Returns (Mft.scanRecords env (depth + 1) fuel n) s fun ok s' => ok = true ∧ s'.errors = 0
      ∧ s'.filelist = infosBelow files (n + 1) ++ s.filelist
  | 0, _, _, hfuel, _, _ => absurd hfuel (Nat.not_lt_zero _)
  | fuel + 1, n, s, hfuel, hcalm, hold => by
    obtain ⟨first, hfirst⟩ := h.first
    obtain ⟨record, hnear⟩ := Option.ne_none_iff_exists'.1 (nearest_ne_none hfirst n)
    obtain ⟨i, hi, hrec, hnone⟩ := nearest_spec hnear
    have hbelow : infosBelow files (n + 1) = infosBelow files (i + 1) :=
      infosBelow_of_none hi fun j hj hle => h.files_none (hnone j hj hle)
    refine (checkForTermination_calm hw.stay hcalm).bind fun stop s₁ ⟨hstop, hs₁⟩ => ?_
    subst hstop hs₁
    refine .ite (fun h => by simp at h) fun _ => ?_
    refine Returns.bind (Q := fun o s' => o = some record ∧ s' = { s with clock := s.clock + 2 })
      (returns_ask_bind (.pure ⟨(h.answer _ n).trans hnear, rfl⟩)) fun o s₁ ⟨ho, hs₁⟩ => ?_
    subst ho hs₁
    refine .mark_bind ((Table.analyzeFileRecord hw h hrec
      (s := { s with clock := s.clock + 2 }) hcalm fun f hf => hi.trans_lt (hold f hf)).bind
      fun _ s₂ ⟨hcalm₂, hlist₂⟩ => ?_)
    simp only [h.id i record hrec]
    refine .ite (fun h0 => .pure ⟨rfl, hcalm₂, ?_⟩) fun h0 => .ite (fun hlt => by omega) fun _ => ?_
    · obtain rfl : i = 0 := by omega
      rw [hlist₂, hbelow]
      simp [infosBelow]
    · refine (Table.scanRecords (n := i - 1) (by omega) hcalm₂ ?_).mono
        fun ok s₃ ⟨hok, hcalm₃, hlist₃⟩ => ⟨hok, hcalm₃, ?_⟩
      · intro f hf
        rw [hlist₂] at hf
        rcases List.mem_append.1 hf with hf | hf
        · rcases hg : files i with _ | g
          · simp [hg] at hf
          · rw [hg] at hf
            rw [Gathered.baseMftId_of_mem_infos hf, h.baseMftId hg]
            omega
        · have := hold f hf
          omega
      · rw [hlist₃, hlist₂, hbelow, Nat.sub_add_cancel (by omega), infosBelow_succ files i,
          List.append_assoc]

end Table

/-! ### The number of records -/

/-- The size of the table, where the attribute at `off` has it. -/
inductive SizeAt (r : List UInt8) (off : ℕ) : Option ℕ → Prop
  | data {form size : ℕ} (htype : attributeType r off = some 0x80)
      (hform : nonresident r off = some form) (hne : form ≠ 0)
      (hsize : field r (off + 48) 8 = some size) : SizeAt r off (some size)
  | other {type form : ℕ} (htype : attributeType r off = some type)
      (hform : nonresident r off = some form) (hne : ¬ (form ≠ 0 ∧ type = 0x80)) :
      SizeAt r off none

/-- The record of the table itself says that it has `n` records. -/
structure Sized (env : Env) (record : FileRecord) (n : ℕ) : Prop where
  tag : field record.buffer 0 4 = some fileTag
  inUse : ∃ flags, field record.buffer 22 2 = some flags ∧ flags % 2 ≠ 0
  attributes : ∃ off sizes, field record.buffer 20 2 = some off
    ∧ Attributes env.ml record.buffer (SizeAt record.buffer) off sizes
    ∧ (∃ size, some size ∈ sizes)
    ∧ ∀ size, some size ∈ sizes → size / env.ml.fileRecordSize = n

theorem getNumberOfFileRecords_returns {record : FileRecord} {n : ℕ}
    (hw : Scannable env)
    (hanswer : ∀ k, env.record k 0 = some record)
    (hid : mftIdOf record.fileReferenceNumber = 0) (h : Sized env record n) (hn : 0 < n)
    (hcalm : s.errors = 0) :
    Returns (getNumberOfFileRecords env) s fun ok s' => ok = true ∧ s'.errors = 0
      ∧ s'.numberOfFileRecords = n ∧ s'.filelist = s.filelist := by
  obtain ⟨flags, hflags, huse⟩ := h.inUse
  obtain ⟨off, sizes, hoff, hsizes, hsome, heq⟩ := h.attributes
  -- once the size is seen, or while it is still to come
  have hI : Enumerates (SizeAt record.buffer)
      (fun pattr => do
        let nonresident ← read (nonresident record.buffer pattr)
        let type ← read (attributeType record.buffer pattr)
        when (nonresident ≠ 0 ∧ type = 0x80) do
          let dataSize ← read (field record.buffer (pattr + 48) 8)
          modify fun s => { s with numberOfFileRecords := dataSize / env.ml.fileRecordSize })
      (fun sizes s' => s'.errors = 0 ∧ s'.filelist = s.filelist
        ∧ (∀ size, some size ∈ sizes → size / env.ml.fileRecordSize = n)
        ∧ (s'.numberOfFileRecords = n ∨ ∃ size, some size ∈ sizes)) := by
    refine ⟨fun h => h.1, fun h => h, ?_⟩
    rintro a as off s' hat ⟨hcalm, hlist, hall, hor⟩
    have hrest : ∀ size, some size ∈ as → size / env.ml.fileRecordSize = n :=
      fun size hmem => hall size (List.mem_cons_of_mem _ hmem)
    cases hat with
    | @data form size htype hform hne hfield =>
      refine returns_read_bind hform (returns_read_bind htype (.when (fun _ => ?_) fun h =>
        absurd ⟨hne, rfl⟩ h))
      exact returns_read_bind hfield (.modify
        ⟨hcalm, hlist, hrest, .inl (hall size List.mem_cons_self)⟩)
    | other htype hform hne =>
      refine returns_read_bind hform (returns_read_bind htype (.when (fun h => absurd h hne)
        fun _ => ⟨hcalm, hlist, hrest, hor.imp_right fun ⟨size, hmem⟩ => ⟨size, ?_⟩⟩))
      simpa using hmem
  refine Returns.modify_bind (Returns.bind (Q := fun o s' => o = some record
    ∧ s'.errors = 0 ∧ s'.filelist = s.filelist)
    (returns_ask_bind (.pure ⟨hanswer _, hcalm, rfl⟩)) fun o s₁ ⟨ho, hcalm₁, hlist₁⟩ => ?_)
  subst ho
  refine .ite (fun h => absurd hid h) fun _ => returns_read_bind h.tag ?_
  refine .ite (fun h => absurd rfl h) fun _ => returns_read_bind hflags ?_
  refine .ite (fun h => absurd h huse) fun _ => ?_
  refine (enumerateAttributes_returns hw hI hoff hsizes
    ⟨hcalm₁, hlist₁, heq, .inr hsome⟩).bind fun _ s₂ ⟨hcalm₂, hlist₂, _, hnum⟩ => ?_
  have hnum : s₂.numberOfFileRecords = n := hnum.resolve_right (by simp)
  refine .get_bind (.pure ⟨?_, hcalm₂, hnum, hlist₂⟩)
  rw [hnum]
  exact decide_eq_true hn.ne'

/-! ### The whole scan -/

theorem modify_eq_append {α : Type*} (g : α → α) (a : α) (done rest : List α) :
    (done ++ a :: rest).modify done.length g = done ++ g a :: rest := by
  induction done with
  | nil => rfl
  | cons b done ih => simpa using ih

theorem validateStreams_returns (hstay : ∀ k, env.terminator k = false) :
    ∀ {rest done : List FileInfo} {s : State}, s.errors = 0 → s.filelist = done ++ rest →
      Returns (validateStreams env rest.length done.length) s fun _ s' => s'.errors = 0
        ∧ s'.filelist = done ++ rest.map fun f => { f with disp := validateBlockmap f.disp }
  | [], done, s, hcalm, hlist => .pure ⟨hcalm, hlist⟩
  | f :: rest, done, s, hcalm, hlist => by
    refine (checkForTermination_calm hstay hcalm).bind fun stop s₁ ⟨hstop, hs₁⟩ => ?_
    subst hstop hs₁
    refine .ite (fun h => by simp at h) fun _ => .modify_bind ?_
    have hnext := @validateStreams_returns hstay rest
      (done ++ [{ f with disp := validateBlockmap f.disp }])
      { s with
        clock := s.clock + 1
        filelist := s.filelist.modify done.length fun f =>
          { f with disp := validateBlockmap f.disp } } hcalm
      (by simp [hlist, modify_eq_append])
    simpa using hnext

/-- The streams of a file, each as a dump of what is seen of its extents reports it. -/
def Gathered.reported (g : Gathered) : List FileInfo :=
  g.streams.map fun st => ⟨streamName g.mfi st.name, none, g.mfi.flags, g.mfi.baseMftId,
    g.mfi.parentDirectoryMftId, winxFtwDumpFile (some st.shown)⟩

def reportedBelow (files : ℕ → Option Gathered) (n : ℕ) : List FileInfo :=
  (List.range n).flatMap fun i => (files i).elim [] Gathered.reported

def FileInfo.validated (f : FileInfo) : FileInfo := { f with disp := validateBlockmap f.disp }

theorem Table.infosBelow_validated {table : ℕ → Option FileRecord} {files : ℕ → Option Gathered}
    (hw : Scannable env) (h : Table env table files) (n : ℕ) :
    (infosBelow files n).map FileInfo.validated = reportedBelow files n := by
  rw [infosBelow, reportedBelow, List.map_flatMap]
  refine List.flatMap_congr fun i _ => ?_
  rcases hg : files i with _ | g
  · rfl
  · simp only [Option.elim_some, Gathered.infos, Gathered.reported, List.map_map]
    refine List.map_congr_left fun st hst => ?_
    rw [winxFtwDumpFile_eq fun e he => (Table.volume hw h hg st hst e he).1]
    rfl

section Whole

variable {table : ℕ → Option FileRecord} {files : ℕ → Option Gathered}

theorem Table.infosBelow_sorted (h : Table env table files) : ∀ n : ℕ,
    (infosBelow files n).Pairwise (fun f g => f.baseMftId ≤ g.baseMftId)
      ∧ ∀ f ∈ infosBelow files n, f.baseMftId < n
  | 0 => by simp [infosBelow]
  | n + 1 => by
    obtain ⟨hsorted, hlt⟩ := Table.infosBelow_sorted h n
    have hbase : ∀ f ∈ (files n).elim [] Gathered.infos, f.baseMftId = n := by
      intro f hf
      rcases hg : files n with _ | g
      · simp [hg] at hf
      · rw [hg] at hf
        rw [Gathered.baseMftId_of_mem_infos hf, h.baseMftId hg]
    rw [infosBelow_succ]
    constructor
    · refine List.pairwise_append.2 ⟨hsorted, ?_, fun f hf f' hf' => ?_⟩
      · exact List.pairwise_of_forall_mem_list fun f hf f' hf' => by rw [hbase f hf, hbase f' hf']
      · have := hlt f hf
        rw [hbase f' hf']
        omega
    · intro f hf
      rcases List.mem_append.1 hf with hf | hf
      · exact (hlt f hf).trans (Nat.lt_succ_self n)
      · rw [hbase f hf]
        exact Nat.lt_succ_self n

theorem path_of_mem_infosBelow {n : ℕ} {f : FileInfo} (h : f ∈ infosBelow files n) :
    f.path = none := by
  obtain ⟨i, -, hf⟩ := List.mem_flatMap.1 h
  rcases hg : files i with _ | g <;> rw [hg] at hf
  · cases hf
  · obtain ⟨st, -, rfl⟩ := List.mem_map.1 hf
    rfl

theorem places_validated (l : List FileInfo) :
    (l.map FileInfo.validated).map FileInfo.place = l.map FileInfo.place := by
  rw [List.map_map]
  rfl

theorem Rooted.of_validated {depth : ℕ} {l : List FileInfo}
    (h : Rooted depth (l.map FileInfo.validated)) : Rooted depth l := by
  intro f hf
  have hnames := h f.validated (List.mem_map_of_mem hf)
  rwa [directory_congr (places_validated l)] at hnames

/-- The streams of all files as the system would report them, with the paths of their
directories. -/
structure Listing (env : Env) (files : ℕ → Option Gathered) (n : ℕ) (l : List FileInfo) : Prop where
  bare : l.map FileInfo.bare = reportedBelow files n
  pathed : ∀ f ∈ l, Pathed env (reportedBelow files n) f

theorem ntfsScanDisk_returns {record : FileRecord} {n depth pathFuel : ℕ} (hw : Scannable env)
    (h : Table env table files) (hfirst : table 0 = some record) (hsized : Sized env record n)
    (hn : 0 < n) (hroot : Rooted pathFuel (reportedBelow files n)) :
    Returns (ntfsScanDisk env (depth + 1) pathFuel) .init fun r _ =>
      ∃ l, r = some l ∧ Listing env files n l := by
  have hreport := h.infosBelow_validated hw n
  rw [← hreport] at hroot
  have hscan : Returns (ntfsScanDiskHelper env (depth + 1) pathFuel) .init fun ok s' => ok = true
      ∧ ∃ l : List FileInfo, s'.filelist = l.map FileInfo.validated
        ∧ l.map FileInfo.bare = infosBelow files n
        ∧ ∀ f ∈ l, Pathed env (infosBelow files n) f := by
    refine Returns.bind (Q := fun ok s' => ok = true ∧ s'.errors = 0
      ∧ s'.filelist.map FileInfo.bare = infosBelow files n
      ∧ ∀ f ∈ s'.filelist, Pathed env (infosBelow files n) f) ?_
      fun ok s₁ ⟨hok, hcalm₁, hbare, hpath⟩ => ?_
    · refine (getNumberOfFileRecords_returns hw (fun k => (h.answer k 0).trans hfirst)
        (h.id 0 record hfirst) hsized hn rfl).bind fun ok s₁ ⟨hok, hcalm₁, hnum, hlist₁⟩ => ?_
      refine .ite (fun _ => .get_bind ?_) fun hno => absurd hok hno
      have hnil : s₁.filelist = [] := hlist₁
      refine (Table.scanRecords hw h (n := s₁.numberOfFileRecords - 1)
        (by omega) hcalm₁ (by simp [hnil])).bind fun ok s₂ ⟨hok, hcalm₂, hlist₂⟩ => ?_
      rw [hnil, List.append_nil, hnum, Nat.sub_add_cancel hn] at hlist₂
      refine .ite (fun _ => .get_bind ?_) fun hno => absurd hok hno
      rw [← hlist₂]
      refine (full_paths_of_ancestors hw.stay hcalm₂ (fun f hf => ?_) ?_ ?_).bind
        fun _ s₃ ⟨hcalm₃, hbare₃, hpath₃⟩ => .pure ⟨rfl, hcalm₃, hbare₃, hpath₃⟩
      · exact path_of_mem_infosBelow (hlist₂ ▸ hf)
      · rw [hlist₂]
        exact (h.infosBelow_sorted n).1
      · rw [hlist₂]
        exact hroot.of_validated
    · refine .ite (fun _ => .get_bind ?_) fun hno => absurd hok hno
      refine (@validateStreams_returns _ hw.stay _ [] _ hcalm₁ rfl).bind
        fun _ s₂ ⟨hcalm₂, hlist₂⟩ => .get_bind (.pure ⟨?_, s₁.filelist, hlist₂, hbare, hpath⟩)
      simp [hcalm₂]
  refine hscan.bind fun ok s' ⟨hok, l, hlist, hbare, hpath⟩ =>
    .get_bind (.pure ⟨l.map FileInfo.validated, ?_, ?_, ?_⟩)
  · simp [hok, hlist]
  · rw [← hreport, ← hbare, List.map_map, List.map_map]
    rfl
  · intro f hf
    obtain ⟨f', hf', rfl⟩ := List.mem_map.1 hf
    obtain ⟨names, hnames, hpath'⟩ := hpath f' hf'
    refine ⟨names, ?_, hpath'⟩
    rwa [← hreport, directory_congr (places_validated _)]

/-- A scan lists the streams of all files as dumps of what it sees of them would report them, with
the paths of their directories. -/
theorem ntfsScanDisk_lists_files {record : FileRecord} {n depth pathFuel : ℕ}
    (hw : Scannable env) (h : Table env table files) (hfirst : table 0 = some record)
    (hsized : Sized env record n) (hn : 0 < n) (hroot : Rooted pathFuel (reportedBelow files n)) :
    Returns (ntfsScanDisk env (depth + 1) pathFuel) .init fun r _ => ∃ l, r = some l
      ∧ l.map FileInfo.bare = reportedBelow files n
      ∧ ∀ f ∈ l, Pathed env (reportedBelow files n) f :=
  (ntfsScanDisk_returns hw h hfirst hsized hn hroot).mono fun _ _ ⟨l, hr, hl⟩ =>
    ⟨l, hr, hl.bare, hl.pathed⟩

end Whole

/-! ### A table of five records

The table itself, a file whose attribute list leads to a second name and a second portion of its
data, the record that has them, `$Boot` and `$BadClus`. -/

/-- A file with one name and one extent. -/
def plainRecord (name : WString) (size length lcn : ℕ) : List UInt8 :=
  headerBytes (210 + 2 * name.length) 0 ++ nameBytes 0 name ++ dataBytes 0 1 0 size length lcn
    ++ endBytes

def mftRecord : List UInt8 := plainRecord (wide "$MFT") 2560 3 4

def listBytes : List UInt8 :=
  attrBytes 0x20 102 0 0 0 ++ valueBytes 78 ++ entryBytes 0x80 1 1 ++ entryBytes 0x30 1 2
    ++ entryBytes 0x80 2 2

def fileRecord : List UInt8 :=
  headerBytes 346 0 ++ listBytes ++ nameBytes 0 (wide "f") ++ dataBytes 1 1 0 1536 2 10
    ++ reparseBytes ++ endBytes

def childRecord : List UInt8 :=
  headerBytes 304 1 ++ nameBytes 0 (wide "a") ++ nameBytes 1 (wide "b") ++ dataBytes 1 2 2 512 1 20
    ++ endBytes

def bootRecord : List UInt8 := plainRecord (wide "$Boot") 1024 2 0

def badRecord : List UInt8 := plainRecord (wide "$BadClus") 512 1 40

def splitTable : ℕ → Option FileRecord
  | 0 => some ⟨0, mftRecord⟩
  | 1 => some ⟨1, fileRecord⟩
  | 2 => some ⟨2, childRecord⟩
  | 3 => some ⟨3, bootRecord⟩
  | 4 => some ⟨4, badRecord⟩
  | _ => none

/-- A file in the root directory with one portion of one extent. -/
def plainFile (id : ℕ) (name : WString) (length lcn : ℕ) (read : Bool) : Gathered :=
  ⟨⟨id, fileRoot, 0, 3, name⟩, [⟨[], false, [⟨[⟨some lcn, length⟩], read⟩]⟩]⟩

def splitFile : Gathered :=
  ⟨⟨1, fileRoot, attributeReparsePoint, 3, wide "f"⟩,
    [⟨listName, false, []⟩, ⟨wide ":$REPARSE_POINT", false, []⟩,
      ⟨[], true, [⟨[⟨some 10, 2⟩], true⟩, ⟨[⟨some 20, 1⟩], true⟩]⟩]⟩

def splitFiles : ℕ → Option Gathered
  | 0 => some (plainFile 0 (wide "$MFT") 3 4 true)
  | 1 => some splitFile
  | 3 => some (plainFile 3 (wide "$Boot") 2 0 true)
  | 4 => some (plainFile 4 (wide "$BadClus") 1 40 false)
  | _ => none

def splitEnv : Env :=
  { Env.idle with
    ml := ⟨512, 100, 512, 1⟩
    record := fun _ n => nearest splitTable n }

theorem splitEnv_marks : ∀ m ∈ (ntfsScanDisk splitEnv 1 1 .init).seen,
    Unwrapped m.1 ∧ NotBehind m.1 ∧ Flat m.1 := by
  decide +kernel

theorem scan_attributes_inside_splitEnv :
    splitEnv.ml.fileRecordSize < 2 ^ 16
      ∧ (∀ m ∈ (ntfsScanDisk splitEnv 1 1 .init).seen, Unwrapped m.1)
      ∧ ∀ m ∈ (ntfsScanDisk splitEnv 1 1 .init).seen, Inside splitEnv.ml m.1 :=
  have hmarks := fun m hm => (splitEnv_marks m hm).1
  ⟨by decide, hmarks, (scan_attributes_inside splitEnv (by decide) 1 1 .init hmarks).1⟩

theorem scan_reaches_last_record_splitEnv :
    (∀ m ∈ (scanRecords splitEnv 1 5 4 .init).seen, Flat m.1)
      ∧ (scanRecords splitEnv 1 5 4 .init).seen.any (fun m => m.1 = .record 0 0)
      ∧ ∀ s, (scanRecords splitEnv 1 5 4 .init).out ≠ .spent s := by
  have hmarks : (∀ m ∈ (scanRecords splitEnv 1 5 4 .init).seen, Flat m.1)
      ∧ (scanRecords splitEnv 1 5 4 .init).seen.any (fun m => m.1 = .record 0 0) := by
    decide +kernel
  refine ⟨hmarks.1, hmarks.2, fun s hspent => ?_⟩
  have hends := scan_reaches_last_record splitEnv 0 4 .init hmarks.1
  rw [hspent] at hends
  exact hends.2

/-- What a plain record has: a name and a portion. -/
structure PlainAt (r : List UInt8) (n : WString) (size length lcn : ℕ) : Prop where
  header : HeaderAt r (210 + 2 * n.length) 0
  name : HeadAt r 48 0x30 (90 + 2 * n.length) 0 0 0
    ∧ AttrAt splitEnv.ml r 48 (.name ⟨fileRoot, 3, n⟩)
  nameSpan : Spans splitEnv.ml r 48 (90 + 2 * n.length)
  data : HeadAt r (48 + (90 + 2 * n.length)) 0x80 68 1 0 1
    ∧ field r (48 + (90 + 2 * n.length) + 48) 8 = some size
    ∧ AttrAt splitEnv.ml r (48 + (90 + 2 * n.length))
      (.portion [] false false 0 [⟨some lcn, length⟩])
  dataSpan : Spans splitEnv.ml r (48 + (90 + 2 * n.length)) 68
  ends : Ends r (48 + (90 + 2 * n.length) + 68)

theorem plainAt_plainRecord {n : WString} {size length lcn : ℕ} (hne : n ≠ [])
    (hlen : n.length ≤ 128) (h0 : 0 ∉ n) (hsize : size < 2 ^ 64)
    (hrun : 0 < length ∧ lcn + length ≤ 100) :
    PlainAt (plainRecord n size length lcn) n size length lcn := by
  have h := hasAt_self (plainRecord n size length lcn)
  nth_rewrite 2 [plainRecord] at h
  simp only [hasAt_append, List.length_append, length_headerBytes, length_nameBytes,
    length_dataBytes, Nat.zero_add, and_assoc] at h
  obtain ⟨hheader, hname, hdata, hend⟩ := h
  have hheader := headerAt_of hheader (by omega)
  have hname := attrAt_name splitEnv.ml hname (by decide) ⟨hne, by omega⟩ h0
  have hdata := attrAt_data splitEnv.ml hdata (by omega) (by omega) hrun.2
  have hsize : splitEnv.ml.fileRecordSize = 512 := rfl
  exact ⟨hheader, hname, hname.1.spans hheader (by decide) (by simp; omega) (by omega), hdata,
    hdata.1.spans hheader (by decide) (by decide) (by omega), ends_of hend hheader⟩

theorem presents_plain {id size length lcn : ℕ} {r : List UInt8} {n : WString}
    (h : PlainAt r n size length lcn) (hid : mftIdOf id ≠ fileRoot) :
    Presents splitEnv ⟨id, r⟩ (plainFile (mftIdOf id) n length lcn (!isBadClus splitEnv n))
      [.attr (.name ⟨fileRoot, 3, n⟩), .attr (.portion [] false false 0 [⟨some lcn, length⟩])]
      false := by
  refine ⟨h.header.tag, ⟨1, h.header.flags, by decide⟩, h.header.base, ⟨48, h.header.first, ?_⟩, ?_⟩
  · exact .next h.nameSpan (.attr h.name.2) (.next h.dataSpan (.attr h.data.2.2) (.done h.ends))
  · have hname : (Gathered.start (mftIdOf id) false).add splitEnv (.name ⟨fileRoot, 3, n⟩)
        = ⟨⟨mftIdOf id, fileRoot, 0, 3, n⟩, []⟩ := by
      simp [Gathered.add, Gathered.start, FileInformation.addName, Ne.symm hid]
    refine .cons trivial (hname ▸ .cons ?_ (.nil _))
    simp [Gathered.Fits, withStream, Stream.extents, vcns]

@[simp] theorem length_listBytes : listBytes.length = 102 := by simp [listBytes]

theorem headerAt_childRecord : HeaderAt childRecord 304 1 := by
  have h := hasAt_self childRecord
  nth_rewrite 2 [childRecord] at h
  simp only [hasAt_append, and_assoc] at h
  exact headerAt_of h.1 (by decide)

/-- The second name in the child record is found behind the first, and the data behind both. -/
theorem child_childRecord :
    Child splitEnv 2 ⟨0x30, none, 1⟩ ⟨2, childRecord⟩ (.name ⟨fileRoot, 3, wide "b"⟩)
      ∧ Child splitEnv 2 ⟨0x80, none, 2⟩ ⟨2, childRecord⟩
        (.portion [] false true 2 [⟨some 20, 1⟩]) := by
  have h := hasAt_self childRecord
  nth_rewrite 2 [childRecord] at h
  simp only [hasAt_append, List.length_append, length_headerBytes, length_nameBytes,
    length_dataBytes, Nat.zero_add, and_assoc] at h
  obtain ⟨-, ha, hb, hdata, -⟩ := h
  have hheader := headerAt_childRecord
  obtain ⟨hheadA, -⟩ := attrAt_name splitEnv.ml ha (by decide) (by decide) (by decide)
  obtain ⟨hheadB, hb⟩ := attrAt_name splitEnv.ml hb (by decide) (by decide) (by decide)
  obtain ⟨hheadD, -, hdata⟩ := attrAt_data splitEnv.ml hdata (by decide) (by decide) (by decide)
  have hspanA : Spans splitEnv.ml childRecord 48 92 :=
    hheadA.spans hheader (by decide) (by decide) (by decide)
  have hspanB : Spans splitEnv.ml childRecord 140 92 :=
    hheadB.spans hheader (by decide) (by decide) (by decide)
  have hspanD : Spans splitEnv.ml childRecord 232 68 :=
    hheadD.spans hheader (by decide) (by decide) (by decide)
  constructor <;> refine ⟨fun _ => rfl, rfl, hheader.tag, ⟨1, hheader.flags, by decide⟩,
    ⟨1, hheader.base, by decide⟩, 48, hheader.first, ?_⟩
  · refine .pass hspanA hheadA.type hheadA.number hheadA.name (.inr (by decide)) ?_
    exact .found hspanB hb hheadB.type hheadB.number hheadB.name fun _ => rfl
  · refine .skip hspanA hheadA.type (by decide) (.skip hspanB hheadB.type (by decide) ?_)
    exact .found hspanD hdata hheadD.type hheadD.number hheadD.name fun _ => rfl

theorem listAt_listBytes {r : List UInt8} (h : HasAt r 48 listBytes) :
    HeadAt r 48 0x20 102 0 0 0 ∧ ListAt splitEnv 1 r 48 [.resident listName false,
      .name ⟨fileRoot, 3, wide "b"⟩, .portion [] false true 2 [⟨some 20, 1⟩]] := by
  simp only [listBytes, hasAt_append, List.length_append, length_attrBytes, length_valueBytes,
    length_entryBytes, Nat.reduceAdd, and_assoc] at h
  obtain ⟨hhead, hvalue, hown, hname, hdata⟩ := h
  have hhead := headAt_of hhead (by decide)
  refine ⟨hhead, .resident (hhead.residentAt hvalue (by decide)) hhead.unnamed ?_⟩
  refine .own (by decide) (entryAt_of hown (by decide) (by decide)) ?_
  refine .child (by decide) (entryAt_of hname (by decide) (by decide)) (by decide)
    child_childRecord.1 ?_
  exact .child (by decide) (entryAt_of hdata (by decide) (by decide)) (by decide)
    child_childRecord.2 (.done (by decide))

theorem presents_fileRecord : ∃ items,
    Presents splitEnv ⟨1, fileRecord⟩ splitFile items false := by
  have h := hasAt_self fileRecord
  nth_rewrite 2 [fileRecord] at h
  simp only [hasAt_append, List.length_append, length_headerBytes, length_listBytes,
    length_nameBytes, length_dataBytes, length_reparseBytes, Nat.zero_add, and_assoc] at h
  obtain ⟨hheader, hlist, hname, hdata, hreparse, hend⟩ := h
  have hheader := headerAt_of hheader (by decide)
  obtain ⟨hheadL, hlist⟩ := listAt_listBytes hlist
  obtain ⟨hheadN, hname⟩ := attrAt_name splitEnv.ml hname (by decide) (by decide) (by decide)
  obtain ⟨hheadD, -, hdata⟩ := attrAt_data splitEnv.ml hdata (by decide) (by decide) (by decide)
  obtain ⟨hheadR, hreparse⟩ := attrAt_reparse splitEnv.ml hreparse
  refine ⟨[.list [.resident listName false, .name ⟨fileRoot, 3, wide "b"⟩,
      .portion [] false true 2 [⟨some 20, 1⟩]], .attr (.name ⟨fileRoot, 3, wide "f"⟩),
      .attr (.portion [] false true 0 [⟨some 10, 2⟩]),
      .attr (.resident (wide ":$REPARSE_POINT") true)], hheader.tag,
    ⟨1, hheader.flags, by decide⟩, hheader.base, ⟨48, hheader.first, ?_⟩, ?_⟩
  · refine .next (hheadL.spans hheader (by decide) (by decide) (by decide)) (.list hlist) ?_
    refine .next (hheadN.spans hheader (by decide) (by decide) (by decide)) (.attr hname) ?_
    refine .next (hheadD.spans hheader (by decide) (by decide) (by decide)) (.attr hdata) ?_
    refine .next (hheadR.spans hheader (by decide) (by decide) (by decide)) (.attr hreparse) ?_
    exact .done (ends_of hend hheader)
  · exact .cons trivial (.cons (by decide) (.cons trivial (.cons trivial (.cons trivial
      (.cons (by decide) (.nil _))))))

theorem plainAt_mftRecord : PlainAt mftRecord (wide "$MFT") 2560 3 4 :=
  plainAt_plainRecord (by decide) (by decide) (by decide) (by decide) (by decide)

theorem table_splitTable : Table splitEnv splitTable splitFiles where
  answer := fun _ _ => rfl
  id := by
    rintro (_ | _ | _ | _ | _ | n) record h <;> cases h <;> rfl
  file := by
    rintro (_ | _ | _ | _ | _ | n) g h <;> cases h
    · exact ⟨_, _, false, rfl, presents_plain plainAt_mftRecord (by decide)⟩
    · obtain ⟨items, hfile⟩ := presents_fileRecord
      exact ⟨_, items, false, rfl, hfile⟩
    · exact ⟨_, _, false, rfl, presents_plain (plainAt_plainRecord (by decide) (by decide)
        (by decide) (by decide : 1024 < _) (by decide)) (by decide)⟩
    · exact ⟨_, _, false, rfl, presents_plain (plainAt_plainRecord (by decide) (by decide)
        (by decide) (by decide : 512 < _) (by decide)) (by decide)⟩
  skipped := by
    rintro (_ | _ | _ | _ | _ | n) record h h' <;> cases h <;> cases h'
    have hheader := headerAt_childRecord
    exact .child hheader.tag hheader.flags (by decide) hheader.base (by decide)
  first := ⟨_, rfl⟩

theorem sized_mftRecord : Sized splitEnv ⟨0, mftRecord⟩ 5 := by
  have h := plainAt_mftRecord
  refine ⟨h.header.tag, ⟨1, h.header.flags, by decide⟩, 48, [none, some 2560], h.header.first, ?_,
    ⟨2560, by decide⟩, fun size h => ?_⟩
  · refine .next h.nameSpan (.other h.name.1.type h.name.1.form (by decide)) ?_
    refine .next h.dataSpan (.data h.data.1.type h.data.1.form (by decide) h.data.2.1) ?_
    exact .done h.ends
  · obtain rfl : size = 2560 := by simpa using h
    rfl

theorem rooted_splitFiles : Rooted 1 (reportedBelow splitFiles 5) := by
  have hroot : ∀ f ∈ reportedBelow splitFiles 5, f.parentDirectoryMftId = fileRoot
      ∧ f.name[1]? ≠ some questionMark := by decide +kernel
  intro f hf
  obtain ⟨hparent, hmark⟩ := hroot f hf
  rw [hparent]
  exact ⟨[], .root, by decide, hmark⟩

theorem scannable_splitEnv : Scannable splitEnv := ⟨fun _ => rfl, rfl, by decide, by decide⟩

theorem scan_lists_streams_once_splitEnv :
    (∀ m ∈ (ntfsScanDisk splitEnv 1 1 .init).seen, NotBehind m.1)
      ∧ Returns (ntfsScanDisk splitEnv 1 1) .init fun r _ => ∃ files, r = some files
        ∧ files.map FileInfo.bare = reportedBelow splitFiles 5
        ∧ files.Pairwise fun f g => ¬ (f.baseMftId = g.baseMftId ∧ f.name = g.name) := by
  have hmarks := fun m hm => (splitEnv_marks m hm).2.1
  have honce := scan_lists_streams_once splitEnv 1 1 hmarks
  have hscan : Returns (ntfsScanDisk splitEnv 1 1) .init fun r _ =>
      ∃ l, r = some l ∧ Listing splitEnv splitFiles 5 l :=
    ntfsScanDisk_returns scannable_splitEnv table_splitTable rfl sized_mftRecord (by decide)
      rooted_splitFiles
  obtain ⟨r, s', hout, files, hr, hl⟩ := hscan
  rw [hout] at honce
  exact ⟨hmarks, r, s', hout, files, hr, hl.bare, (honce.2 files hr).2.1⟩

/-- `$Boot` and `$BadClus` are listed, without clusters. -/
theorem ntfsScanDisk_splitTable :
    Returns (ntfsScanDisk splitEnv 1 1) .init (fun r _ => ∃ l, r = some l
      ∧ l.map FileInfo.bare = reportedBelow splitFiles 5
      ∧ ∀ f ∈ l, Pathed splitEnv (reportedBelow splitFiles 5) f)
    ∧ (reportedBelow splitFiles 5).map (fun f => (f.name, f.disp))
      = [(wide "$MFT", ⟨3, 1, [⟨0, 4, 3⟩]⟩), (wide "f::$ATTRIBUTE_LIST", .zero),
        (wide "f::$REPARSE_POINT", .zero), (wide "f", ⟨3, 2, [⟨0, 10, 2⟩, ⟨2, 20, 1⟩]⟩),
        (wide "$Boot", .zero), (wide "$BadClus", .zero)] :=
  ⟨ntfsScanDisk_lists_files scannable_splitEnv table_splitTable rfl sized_mftRecord (by decide)
    rooted_splitFiles, by decide +kernel⟩

end Mft

end StopGap
