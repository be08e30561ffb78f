import StopGap.Proofs.Clusters
import StopGap.Proofs.MftRecords

/-!
# Attribute lists

Where a record is too small for the attributes of its file, an attribute list says in which records
the others are, by their type, number and name (`Entries`). The list is inside the record, or in
clusters of its own. The scanner finds each attribute it names if those without a name are in front
of the others (`Finds`), and so gathers the rest of the file (`analyzeList_returns`).
-/

namespace StopGap

namespace Mft

open Exec Exec.Prog Bytes

/-! ### The format -/

/-- The name in the entry of a list at `off`. -/
def EntryName (buf : List UInt8) (off : ℕ) : Option WString → Prop
  | none => field buf (off + 6) 1 = some 0 ∧ ∃ n, field buf (off + 7) 1 = some n
  | some name => name ≠ [] ∧ field buf (off + 6) 1 = some name.length
      ∧ ∃ n, n ≠ 0 ∧ field buf (off + 7) 1 = some n ∧ Chars buf (off + n) name

/-- The name of the attribute at `off` of a record. -/
def AttrName (r : List UInt8) (off : ℕ) : Option WString → Prop
  | none => nameLength r off = some 0 ∧ ∃ n, nameOffset r off = some n
  | some name => name ≠ [] ∧ nameLength r off = some name.length
      ∧ ∃ n, n ≠ 0 ∧ nameOffset r off = some n ∧ Chars r (off + n) name

/-- The entry at `off` names an attribute in record `mftId`. -/
structure EntryAt (buf : List UInt8) (off length mftId : ℕ) (wanted : Wanted) : Prop where
  type : field buf off 4 = some wanted.type
  valid : wanted.type ≠ 0 ∧ wanted.type ≠ 0xffffffff
  long : field buf (off + 4) 2 = some length
  pos : 0 < length
  ref : ∃ frn, field buf (off + 16) 8 = some frn ∧ mftIdOf frn = mftId
  number : field buf (off + 24) 2 = some wanted.number
  name : EntryName buf off wanted.name

/-- From `off` on the attribute wanted is found, and it is the first with its name and number.
`named` says that an attribute of its type with a name has been passed: behind it one without a name
is not found. -/
inductive Finds (ml : Layout) (r : List UInt8) (wanted : Wanted) : (named : Bool) → ℕ → Attr → Prop
  | skip {named : Bool} {off length type : ℕ} {a : Attr} (hspan : Spans ml r off length)
      (htype : attributeType r off = some type) (hne : type ≠ wanted.type)
      (h : Finds ml r wanted named (off + length) a) : Finds ml r wanted named off a
  | pass {named : Bool} {off length number : ℕ} {name : Option WString} {a : Attr}
      (hspan : Spans ml r off length) (htype : attributeType r off = some wanted.type)
      (hnumber : attributeNumber r off = some number) (hname : AttrName r off name)
      (hne : name ≠ wanted.name ∨ number ≠ wanted.number)
      (h : Finds ml r wanted (named || name.isSome) (off + length) a) :
      Finds ml r wanted named off a
  | found {named : Bool} {off length : ℕ} {a : Attr} (hspan : Spans ml r off length)
      (ha : AttrAt ml r off a) (htype : attributeType r off = some wanted.type)
      (hnumber : attributeNumber r off = some wanted.number) (hname : AttrName r off wanted.name)
      (hfirst : wanted.name = none → named = false) : Finds ml r wanted named off a

/-- Record `mftId` is in use for another record, and has the attribute. -/
structure Child (env : Env) (mftId : ℕ) (wanted : Wanted) (record : FileRecord) (a : Attr) :
    Prop where
  answer : ∀ k, env.record k mftId = some record
  id : mftIdOf record.fileReferenceNumber = mftId
  tag : field record.buffer 0 4 = some fileTag
  inUse : ∃ flags, field record.buffer 22 2 = some flags ∧ flags % 2 ≠ 0
  base : ∃ base, field record.buffer 32 8 = some base ∧ base ≠ 0
  finds : ∃ off, field record.buffer 20 2 = some off
    ∧ Finds env.ml record.buffer wanted false off a

/-- The entries from `off` on lead to these attributes. Those of the base record itself are passed
over. -/
inductive Entries (env : Env) (baseId : ℕ) (buf : List UInt8) (stop : ℕ) : ℕ → List Attr → Prop
  | done {off : ℕ} (h : stop < off + 26) : Entries env baseId buf stop off []
  | own {off length : ℕ} {wanted : Wanted} {as : List Attr} (hle : off + 26 ≤ stop)
      (he : EntryAt buf off length baseId wanted)
      (h : Entries env baseId buf stop (off + length) as) : Entries env baseId buf stop off as
  | child {off length mftId : ℕ} {wanted : Wanted} {record : FileRecord} {a : Attr}
      {as : List Attr} (hle : off + 26 ≤ stop) (he : EntryAt buf off length mftId wanted)
      (hne : mftId ≠ baseId) (hchild : Child env mftId wanted record a)
      (h : Entries env baseId buf stop (off + length) as) :
      Entries env baseId buf stop off (a :: as)

/-- The bytes of the first clusters of some extents. -/
def clusterBytes (data : ℕ → List UInt8) (m : List Extent) (n : ℕ) : List UInt8 :=
  ((lcns m).take n).flatMap data

/-- The attribute list at `off` of a record. -/
inductive ListAt (env : Env) (baseId : ℕ) (r : List UInt8) (off : ℕ) : List Attr → Prop
  | resident {value length : ℕ} {as : List Attr} (h : ResidentAt r off 0x20 value length)
      (hname : nameLength r off = some 0)
      (he : Entries env baseId r (value + length) value as) :
      ListAt env baseId r off (.resident listName false :: as)
  | nonresident {form flags size : ℕ} {m : List Extent} {data : ℕ → List UInt8}
      {as : List Attr} (htype : attributeType r off = some 0x20)
      (hform : nonresident r off = some form) (hne : form ≠ 0) (hname : nameLength r off = some 0)
      (hflags : field r (off + 12) 2 = some flags) (hplain : flags % 2 = 0)
      (hruns : RunsAt env.ml r off 0 m) (hwhole : shown 0 m = m)
      (hsize : field r (off + 56) 8 = some size) (hpos : 0 < size)
      (hdata : ∀ k, ∀ lcn ∈ lcns m,
        env.sectors k (lcn * env.ml.sectorsPerCluster) env.ml.clusterSize = some (data lcn))
      (henough : size / env.ml.clusterSize + (if size % env.ml.clusterSize ≠ 0 then 1 else 0)
        ≤ (lcns m).length)
      (he : Entries env baseId (clusterBytes data m
        (size / env.ml.clusterSize + if size % env.ml.clusterSize ≠ 0 then 1 else 0)) size 0 as) :
      ListAt env baseId r off (.listing m :: as)

/-! ### Entries -/

section Entry

variable {buf r : List UInt8} {off : ℕ}

theorem readEntry_eq {length mftId : ℕ} {wanted : Wanted}
    (h : EntryAt buf off length mftId wanted) : readEntry buf off = some (mftId, wanted) := by
  obtain ⟨frn, hfrn, hid⟩ := h.ref
  obtain ⟨type, name, number⟩ := wanted
  have htype : field buf off 4 = some type := h.type
  have hnumber : field buf (off + 24) 2 = some number := h.number
  rcases name with _ | name
  · obtain ⟨h6, n, h7⟩ := h.name
    simp [readEntry, h6, h7, htype, hnumber, hfrn, hid]
  · obtain ⟨hne, h6, n, hn, h7, hchars⟩ := h.name
    obtain ⟨c, name, rfl⟩ := List.exists_cons_of_ne_nil hne
    have h0 : c.toNat ≠ 0 := fun h => hchars.1 (UInt16.toNat_inj.1 h)
    have hcopy : wcsncpy buf (name.length + 1) (off + n) = some (c :: name) := wcsncpy_eq hchars
    simp [readEntry, h6, h7, hn, htype, hnumber, hfrn, hid, hchars.2.1, h0, hcopy]

theorem slice_chars : ∀ {n : WString} {off : ℕ}, Chars r off n → off ≤ r.length →
    slice r off (2 * n.length) = some (n.flatMap fun c => Bytes.ofNat 2 c.toNat)
  | [], off, _, hle => by simp [slice, hle]
  | c :: n, off, ⟨_, hfield, hn⟩, _ => by
    obtain ⟨bs, hbs, hval⟩ := Option.map_eq_some_iff.1 hfield
    obtain ⟨hlen, hle⟩ := slice_eq_some hbs
    have hc : Bytes.ofNat 2 c.toNat = bs := by rw [← hval, ← hlen, ofNat_value]
    have := slice_add hbs (slice_chars hn hle)
    rw [List.flatMap_cons, hc, List.length_cons, Nat.mul_succ, Nat.add_comm]
    exact this

theorem chars_inj : ∀ {n n' : WString}, n.length = n'.length →
    (n.flatMap fun c => Bytes.ofNat 2 c.toNat) = (n'.flatMap fun c => Bytes.ofNat 2 c.toNat) →
    n = n'
  | [], [], _, _ => rfl
  | c :: n, c' :: n', hlen, h => by
    obtain ⟨hc, hn⟩ := List.append_inj h rfl
    have hval := congrArg value hc
    have hlt : ∀ c : WChar, UInt16.toNat c % 256 ^ 2 = UInt16.toNat c := fun c =>
      Nat.mod_eq_of_lt (UInt16.toNat_lt c)
    rw [value_ofNat, value_ofNat, hlt, hlt] at hval
    rw [UInt16.toNat_inj.1 hval, chars_inj (Nat.succ.inj hlen) hn]

theorem sameName_chars {n n' : WString} (h : Chars r off n) (hne : n ≠ [])
    (hlen : n'.length = n.length) : sameName r off n' = some (decide (n = n')) := by
  obtain ⟨c, n, rfl⟩ := List.exists_cons_of_ne_nil hne
  have := field_bound h.2.1
  have hiff : ((c :: n).flatMap fun c => Bytes.ofNat 2 c.toNat)
      = (n'.flatMap fun c => Bytes.ofNat 2 c.toNat) ↔ c :: n = n' :=
    ⟨chars_inj hlen.symm, fun h => by rw [h]⟩
  simp only [sameName, hlen, slice_chars h (by omega), Option.bind_eq_bind, Option.bind_some,
    Option.pure_def, hiff]

theorem matchAttribute_skip {wanted : Wanted} {name : Option ℕ} {type : ℕ}
    (htype : attributeType r off = some type) (hne : type ≠ wanted.type) :
    matchAttribute r wanted name off = some (false, name) := by
  simp [matchAttribute, htype, hne]

/-- What an attribute of the type says: it is the one wanted if name and number are right, but for
one without a name behind one with a name. -/
theorem matchAttribute_eq {wanted : Wanted} {name : Option WString} {number : ℕ}
    (seen : Option ℕ) (hwanted : wanted.name ≠ some [])
    (htype : attributeType r off = some wanted.type)
    (hnumber : attributeNumber r off = some number) (hname : AttrName r off name) :
    ∃ seen', seen'.isSome = (seen.isSome || name.isSome)
      ∧ matchAttribute r wanted seen off = some (decide (name = wanted.name
        ∧ number = wanted.number ∧ (name = none → seen = none)), seen') := by
  obtain ⟨type, want, wantedNumber⟩ := wanted
  simp only at htype hwanted
  rcases name with _ | name
  · obtain ⟨hlen, n, hoff⟩ := hname
    refine ⟨seen, by simp, ?_⟩
    rcases want with _ | want <;> rcases seen with _ | seen <;>
      simp [matchAttribute, htype, hlen, hoff, hnumber]
    exact fun h => absurd (by rw [h]) hwanted
  · obtain ⟨hne, hlen, n, hn, hoff, hchars⟩ := hname
    obtain ⟨c, name, rfl⟩ := List.exists_cons_of_ne_nil hne
    have h0 : c.toNat ≠ 0 := fun h => hchars.1 (UInt16.toNat_inj.1 h)
    have hlen' : nameLength r off = some (name.length + 1) := hlen
    refine ⟨some (off + n), by simp, ?_⟩
    rcases want with _ | want
    · simp [matchAttribute, htype, hlen', hoff, hn, hchars.2.1, h0, hnumber]
    by_cases hsame : want.length = name.length + 1
    · simp [matchAttribute, htype, hlen', hoff, hn, hchars.2.1, h0, hnumber, hsame,
        sameName_chars hchars hne hsame]
    · have hdiff : c :: name ≠ want := fun h => hsame (by rw [← h]; rfl)
      simp [matchAttribute, htype, hlen', hoff, hn, hchars.2.1, h0, hnumber, hsame, hdiff]

end Entry

section Lists

variable {env : Env} {old : List FileInfo} {g : Gathered} {s : State}

theorem Shows.ask (hs : Shows env old g s) : Shows env old g { s with clock := s.clock + 1 } :=
  ⟨hs.mfi, hs.list, hs.calm, hs.later, hs.volume⟩

theorem analyzeSingleAttribute_returns {analyze : List UInt8 → ℕ → M Unit} {r : List UInt8}
    {off : ℕ} {wanted : Wanted} {a : Attr} {g' : Gathered}
    (hw : Scannable env) (hwanted : wanted.name ≠ some [])
    (hanalyze : ∀ off s, AttrAt env.ml r off a → Shows env old g s →
      Returns (analyze r off) s fun _ => Shows env old g')
    (hoff : field r 20 2 = some off) (hfind : Finds env.ml r wanted false off a)
    (hs : Shows env old g s) :
    Returns (analyzeSingleAttribute env analyze r wanted) s fun _ => Shows env old g' := by
  refine returns_read_bind hoff ?_
  have hfuel : r.length < off + (r.length + 1) := by omega
  have hseen : (none : Option ℕ).isSome = false := rfl
  generalize r.length + 1 = fuel at hfuel
  generalize (none : Option ℕ) = seen at hseen
  generalize false = named at hseen hfind
  clear hoff
  induction hfind generalizing fuel s seen with
  | @skip named off length type a hspan htype hne h ih =>
    have hlong := field_bound hspan.long
    have h24 := hspan.form.choose_spec.2
    rcases fuel with _ | fuel
    · omega
    · refine walk_next hw hs.calm hspan
        (Q := fun next s' => next = some seen ∧ Shows env old g s')
        (returns_read_bind (matchAttribute_skip htype hne) (.pure ⟨rfl, hs.ask⟩))
        (fun _ h => absurd h.1 (by simp)) fun name s' h => ?_
      obtain ⟨hname, hs'⟩ := h
      obtain rfl := Option.some.inj hname
      exact ih hanalyze hs' fuel (by split_ifs at h24 <;> omega) _ hseen
  | @pass named off length number name a hspan htype hnumber hname hne h ih =>
    have hlong := field_bound hspan.long
    have h24 := hspan.form.choose_spec.2
    rcases fuel with _ | fuel
    · omega
    · obtain ⟨seen', hseen', hmatch⟩ := matchAttribute_eq seen hwanted htype hnumber hname
      rw [decide_eq_false (by tauto)] at hmatch
      refine walk_next hw hs.calm hspan
        (Q := fun next s' => next = some seen' ∧ Shows env old g s')
        (returns_read_bind hmatch (.pure ⟨rfl, hs.ask⟩))
        (fun _ h => absurd h.1 (by simp)) fun name s' h => ?_
      obtain ⟨hname, hs'⟩ := h
      obtain rfl := Option.some.inj hname
      exact ih hanalyze hs' fuel (by split_ifs at h24 <;> omega) _ (by rw [hseen', hseen])
  | @found named off length a hspan ha htype hnumber hname hfirst =>
    have hlong := field_bound hspan.long
    rcases fuel with _ | fuel
    · omega
    · obtain ⟨seen', -, hmatch⟩ := matchAttribute_eq seen hwanted htype hnumber hname
      have hnone : wanted.name = none → seen = none := fun h =>
        Option.isNone_iff_eq_none.1 (by rw [← Option.not_isSome, hseen, hfirst h]; rfl)
      rw [decide_eq_true ⟨rfl, rfl, hnone⟩] at hmatch
      refine walk_next hw hs.calm hspan
        (Q := fun next s' => next = none ∧ Shows env old g' s')
        (returns_read_bind hmatch ((hanalyze off _ ha hs.ask).bind fun _ _ h => .pure ⟨rfl, h⟩))
        (fun _ h => h.2) fun _ _ h => absurd h.1 (by simp)

theorem EntryAt.name_ne {buf : List UInt8} {off length mftId : ℕ} {wanted : Wanted}
    (h : EntryAt buf off length mftId wanted) : wanted.name ≠ some [] := by
  intro hn
  have hname := h.name
  rw [hn] at hname
  exact hname.1 rfl

theorem analyzeEntry_own {depth : ℕ} {buf : List UInt8} {off length : ℕ} {wanted : Wanted}
    (he : EntryAt buf off length g.mfi.baseMftId wanted) (hs : Shows env old g s) :
    Returns (analyzeEntry env (depth + 1) buf off) s fun _ => Shows env old g := by
  refine returns_read_bind (readEntry_eq he) (.mark_bind (.get_bind (.ite (fun _ => .pure hs) ?_)))
  exact fun h => absurd (congrArg FileInformation.baseMftId hs.mfi).symm h

/-- An entry for another record brings in the attribute it names. -/
theorem analyzeEntry_child {depth : ℕ} {buf : List UInt8} {off length mftId : ℕ} {wanted : Wanted}
    {record : FileRecord} {a : Attr} (hw : Scannable env) (he : EntryAt buf off length mftId wanted)
    (hne : mftId ≠ g.mfi.baseMftId) (hchild : Child env mftId wanted record a)
    (hfits : g.Fits env a) (hs : Shows env old g s) :
    Returns (analyzeEntry env (depth + 1) buf off) s fun _ => Shows env old (g.add env a) := by
  obtain ⟨flags, hflags, huse⟩ := hchild.inUse
  obtain ⟨base, hbase, hb0⟩ := hchild.base
  obtain ⟨off', hoff, hfind⟩ := hchild.finds
  refine returns_read_bind (readEntry_eq he)
    (.mark_bind (.get_bind (.ite (fun h => ?_) fun _ => ?_)))
  · rw [hs.mfi] at h
    exact absurd h hne
  refine Returns.bind (Q := fun r s' => r = some record ∧ Shows env old g s')
    (returns_ask_bind (.pure ⟨hchild.answer _, hs.ask⟩)) fun r s₁ ⟨hr, hs₁⟩ => ?_
  subst hr
  refine .ite (fun h => absurd hchild.id h) fun _ => returns_read_bind hchild.tag ?_
  refine .ite (fun h => absurd rfl h) fun _ => returns_read_bind hflags ?_
  refine .ite (fun h => absurd h huse) fun _ => returns_read_bind hbase ?_
  refine .ite (fun h => absurd h hb0) fun _ => ?_
  exact analyzeSingleAttribute_returns hw he.name_ne
    (fun _ _ ha hs => analyzeAttribute_returns hw hs ha hfits) hoff hfind hs₁

theorem Gathered.add_baseMftId (g : Gathered) (a : Attr) :
    (g.add env a).mfi.baseMftId = g.mfi.baseMftId := by
  cases a with
  | name fn =>
    simp only [Gathered.add, FileInformation.addName]
    split_ifs <;> rfl
  | resident => exact FileInformation.reparsed_baseMftId _ _
  | portion => exact FileInformation.reparsed_baseMftId _ _
  | _ => rfl

theorem attributeListLoop_returns {depth : ℕ} {buf : List UInt8} {stop off : ℕ} {as : List Attr}
    {g' : Gathered} (hw : Scannable env) {baseId : ℕ} (he : Entries env baseId buf stop off as) :
    ∀ {fuel : ℕ} {g : Gathered} {s : State}, g.mfi.baseMftId = baseId → Gathers env g as g' →
      Shows env old g s → 0 < fuel → stop < off + fuel →
      Returns (attributeListLoop env (analyzeEntry env (depth + 1)) buf stop fuel off) s
        fun _ => Shows env old g' := by
  induction he with
  | done hstop =>
    rintro (_ | fuel) g s hid hg hs hpos hfuel
    · omega
    · refine (checkForTermination_calm hw.stay hs.calm).bind fun stop' s₁ ⟨hstop', hs₁⟩ => ?_
      subst hstop' hs₁
      cases hg
      exact .ite (fun h => by simp at h) fun _ =>
        .ite (fun _ => .pure hs.ask) fun h => absurd hstop h
  | @own off length wanted as hle hent _ ih =>
    rintro (_ | fuel) g s rfl hg hs hpos hfuel
    · omega
    · have hlen := hent.pos
      refine (checkForTermination_calm hw.stay hs.calm).bind fun stop' s₁ ⟨hstop', hs₁⟩ => ?_
      subst hstop' hs₁
      refine .ite (fun h => by simp at h) fun _ => .ite (fun h => by omega) fun _ => ?_
      refine returns_read_bind hent.type (.ite (fun h => absurd h (by have := hent.valid; omega))
        fun _ => returns_read_bind hent.long (.ite (fun h => by omega) fun _ => ?_))
      exact (analyzeEntry_own hent hs.ask).bind fun _ s₂ hs₂ =>
        ih rfl hg hs₂ (by omega) (by omega)
  | @child off length mftId wanted record a as hle hent hne hchild _ ih =>
    rintro (_ | fuel) g s rfl hg hs hpos hfuel
    · omega
    · have hlen := hent.pos
      obtain _ | ⟨hfits, hg⟩ := hg
      refine (checkForTermination_calm hw.stay hs.calm).bind fun stop' s₁ ⟨hstop', hs₁⟩ => ?_
      subst hstop' hs₁
      refine .ite (fun h => by simp at h) fun _ => .ite (fun h => by omega) fun _ => ?_
      refine returns_read_bind hent.type (.ite (fun h => absurd h (by have := hent.valid; omega))
        fun _ => returns_read_bind hent.long (.ite (fun h => by omega) fun _ => ?_))
      exact (analyzeEntry_child hw hent hne hchild hfits hs.ask).bind
        fun _ s₂ hs₂ => ih (g.add_baseMftId a) hg hs₂ (by omega) (by omega)

/-! ### Lists in clusters -/

theorem readBlock_returns {data : ℕ → List UInt8} : ∀ {n lcn : ℕ} {s : State},
    (∀ k, ∀ c ∈ List.range' lcn n,
      env.sectors k (c * env.ml.sectorsPerCluster) env.ml.clusterSize = some (data c)) →
    Returns (readBlock env lcn n) s fun o s' =>
      o = some ((List.range' lcn n).flatMap data) ∧ ∃ k, s' = { s with clock := k }
  | 0, lcn, s, _ => .pure ⟨rfl, s.clock, rfl⟩
  | n + 1, lcn, s, hdata => by
    rw [List.range'_succ] at hdata
    refine returns_ask_bind ?_
    rw [hdata _ lcn List.mem_cons_self]
    refine (readBlock_returns fun k c hc => hdata k c (List.mem_cons_of_mem _ hc)).bind
      fun o s₁ hs₁ => ?_
    obtain ⟨rfl, k, rfl⟩ := hs₁
    exact .pure ⟨rfl, k, rfl⟩

theorem take_range' : ∀ k l n : ℕ, (List.range' l n).take k = List.range' l (min k n)
  | 0, _, _ => by simp
  | _ + 1, _, 0 => by simp
  | k + 1, l, n + 1 => by
    rw [List.range'_succ, List.take_succ_cons, take_range' k, Nat.succ_min_succ, List.range'_succ]

theorem readClusters_returns {data : ℕ → List UInt8} :
    ∀ {m : List Extent} {left v : ℕ} {s : State},
      (∀ k, ∀ c ∈ lcns m,
        env.sectors k (c * env.ml.sectorsPerCluster) env.ml.clusterSize = some (data c)) →
      left ≤ (lcns m).length →
      Returns (readClusters env left (extentBlocks v m)) s fun o s' =>
        o = some (clusterBytes data m left) ∧ ∃ k, s' = { s with clock := k }
  | m, 0, v, s, _, _ => by
    have hnil : clusterBytes data m 0 = [] := rfl
    rcases extentBlocks v m with _ | ⟨b, bm⟩ <;> exact .pure ⟨by rw [hnil], s.clock, rfl⟩
  | [], left + 1, v, s, _, h => by simp at h
  | ⟨none, n⟩ :: m, left + 1, v, s, hdata, h => readClusters_returns (m := m) hdata h
  | ⟨some l, n⟩ :: m, left + 1, v, s, hdata, h => by
    simp only [lcns_cons, Extent.lcns, List.length_append, List.length_range'] at h
    have hblock : ∀ k, ∀ c ∈ List.range' l (min (left + 1) n),
        env.sectors k (c * env.ml.sectorsPerCluster) env.ml.clusterSize = some (data c) := by
      intro k c hc
      rw [List.mem_range'_1] at hc
      refine hdata k c ?_
      rw [lcns_cons]
      exact List.mem_append_left _ (List.mem_range'_1.2 ⟨hc.1, by simp only; omega⟩)
    have hrest : ∀ k, ∀ c ∈ lcns m,
        env.sectors k (c * env.ml.sectorsPerCluster) env.ml.clusterSize = some (data c) := by
      intro k c hc
      refine hdata k c ?_
      rw [lcns_cons]
      exact List.mem_append_right _ hc
    refine (readBlock_returns hblock).bind fun o s₁ hs₁ => ?_
    obtain ⟨rfl, k, rfl⟩ := hs₁
    refine (readClusters_returns (m := m) hrest (by simp only; omega)).bind fun o s₂ hs₂ => ?_
    obtain ⟨rfl, k', rfl⟩ := hs₂
    refine .pure ⟨?_, k', rfl⟩
    simp [clusterBytes, Extent.lcns, List.take_append, take_range', List.flatMap_append]

theorem foldl_addBlock_blockmap : ∀ (bs : List Block) (d : Disposition),
    (bs.foldl Disposition.addBlock d).blockmap = d.blockmap ++ bs
  | [], d => by simp
  | b :: bs, d => by
    rw [List.foldl_cons, foldl_addBlock_blockmap bs, Disposition.addBlock, List.append_assoc]
    rfl

theorem withStream_new {streams : List Stream} {n : WString} (h : ∀ st ∈ streams, st.name ≠ n) :
    withStream streams n = ⟨n, false, []⟩ :: streams
      ∧ streamIdx (withStream streams n) n = 0 := by
  have hnew : withStream streams n = ⟨n, false, []⟩ :: streams := by
    rw [withStream, if_neg]
    simpa using h
  exact ⟨hnew, by simp [hnew, streamIdx, List.findIdx_cons]⟩

theorem streamNameAt_list {r : List UInt8} {off : ℕ} (h : nameLength r off = some 0) :
    StreamNameAt r off 0x20 listName := by
  have hd : getDefaultAttributeName 0x20 = some listName := by decide
  have hat : StreamNameAt r off 0x20 _ := .default hd h
  rwa [if_neg (by decide)] at hat

/-- An attribute list brings in the attributes its entries lead to. -/
theorem analyzeList_returns {depth : ℕ} {r : List UInt8} {off : ℕ} {as : List Attr} {g' : Gathered}
    (hw : Scannable env) (hlist : ListAt env g.mfi.baseMftId r off as) (hg : Gathers env g as g')
    (hs : Shows env old g s) :
    Returns (analyzeAttribute env (analyzeEntry env (depth + 1)) r off) s
      fun _ => Shows env old g' := by
  cases hlist with
  | @resident value length as h hname he =>
    obtain ⟨at_, hat, rfl⟩ := h.offset
    obtain _ | ⟨-, hg⟩ := hg
    refine analyzeAttribute_resident h.form (getAttributeName_eq h.type (streamNameAt_list hname))
      hat h.length h.type (addStream_some hs listName) (fun h0 => ?_) fun _ s' hs' => ?_
    · have := h.inside
      omega
    · refine .ite (fun h => by omega) fun _ => .ite (fun h => by omega) fun _ =>
        .ite (fun _ => ?_) fun h => absurd rfl h
      exact attributeListLoop_returns hw he (g.add_baseMftId _) hg hs' (by omega) (by omega)
  | @nonresident form flags size m data as htype hform hne hname hflags hplain hruns hwhole hlen
      hpos hdata henough he =>
    obtain _ | ⟨⟨hbad, hnew⟩, hg⟩ := hg
    obtain ⟨hwith, hidx⟩ := withStream_new hnew
    have hst : (withStream g.streams listName)[streamIdx (withStream g.streams listName) listName]?
        = some ⟨listName, false, []⟩ := by rw [hidx, hwith]; rfl
    refine returns_read_bind hform (.ite (fun _ => ?_) fun h => absurd hne h)
    refine returns_read_bind htype (Returns.bind (Q := fun _ s' => s' = s)
      (.when (fun h => by omega) fun _ => rfl) fun _ s' hs' => ?_)
    subst hs'
    refine returns_read_bind (getAttributeName_eq htype (streamNameAt_list hname)) ?_
    refine (findFilelistEntry_returns hs listName).bind fun i s₁ ⟨hi, hs₁⟩ =>
      returns_read_bind hflags ?_
    refine Returns.bind (Q := fun _ s' => s' = s₁) (.when (by omega) fun _ => rfl)
      fun _ s₂ hs₂ => ?_
    subst hi hs₂
    refine .get_bind (.ite (fun h => ?_) fun _ => ?_)
    · have hbad' : isBadClus env g.mfi.name = true := hs₁.mfi ▸ h
      rw [hbad] at hbad'
      cases hbad'
    have hdumped := dumpStream_returns hw hs₁ hst rfl hruns
    refine Returns.bind (.when (fun _ => hdumped) fun h => by simp at h) fun _ s₃ hs₃ => ?_
    refine .when (fun _ => .get_bind (returns_read_bind hlen ?_)) fun h => by simp at h
    -- the map of the stream is that of the extents, as the stream is a new one
    have hbm : (s₃.filelist[streamIdx (withStream g.streams listName) listName]?.map
        fun f => f.disp.blockmap).getD [] = extentBlocks 0 m := by
      have hst₃ : ((withStream g.streams listName).modify
          (streamIdx (withStream g.streams listName) listName) (.append ⟨m, true⟩))[
          streamIdx (withStream g.streams listName) listName]?
          = some (.append ⟨m, true⟩ ⟨listName, false, []⟩) := by
        simp [hst]
      rw [hs₃.getElem? hst₃, streamInfo_append, Option.map_some, Option.getD_some,
        FileInfo.withBlocks, foldl_addBlock_blockmap, Portion.shown, if_pos rfl, hwhole]
      rfl
    rw [hbm]
    have hadd : g.add env (.listing m)
        = ⟨g.mfi, (withStream g.streams listName).modify
          (streamIdx (withStream g.streams listName) listName) (.append ⟨m, true⟩)⟩ := by
      rw [Gathered.add, addPortion, hidx, hwith]
      rfl
    rw [← hadd] at hs₃
    refine .ite (fun h => by omega) fun _ =>
      (readClusters_returns hdata henough).bind fun o s₄ hs₄ => ?_
    obtain ⟨rfl, k, rfl⟩ := hs₄
    exact attributeListLoop_returns hw he (g.add_baseMftId (.listing m)) hg
      ⟨hs₃.mfi, hs₃.list, hs₃.calm, hs₃.later, hs₃.volume⟩ (by omega) (by omega)

end Lists

end Mft

end StopGap
