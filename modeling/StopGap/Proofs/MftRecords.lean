import StopGap.Proofs.FullPaths
import StopGap.Proofs.RunList

/-!
# What a file record says

The attributes of a file record, as the format has them: names, the flags, and the streams of the
file, each with the extents of a portion of its virtual clusters (`AttrAt`). Further portions lie in
other records, which the entries of an attribute list name (`Entries`). Read in turn they give the
file (`Gathered`): its name, its directory and its streams, the portions put together. This is what
`analyze_file_record` puts in front of the list (`analyzeFileRecord_returns`).
-/

namespace StopGap

namespace Mft

open Exec Exec.Prog Bytes

/-! ### The format -/

/-- The characters of `n` stand at `off`, none of them zero. -/
def Chars (r : List UInt8) : (off : ℕ) → (n : WString) → Prop
  | _, [] => True
  | off, c :: n => c ≠ 0 ∧ field r off 2 = some c.toNat ∧ Chars r (off + 2) n

instance Chars.decidable (r : List UInt8) : ∀ (off : ℕ) (n : WString), Decidable (Chars r off n)
  | _, [] => .isTrue trivial
  | off, c :: n =>
    have := Chars.decidable r (off + 2) n
    inferInstanceAs (Decidable (c ≠ 0 ∧ field r off 2 = some c.toNat ∧ Chars r (off + 2) n))

/-- What an attribute says of its file. -/
inductive Attr where
  | info (attributes : ℕ)
  | name (fn : FileName)
  -- a stream inside the record
  | resident (name : WString) (reparse : Bool)
  -- the extents of a stream from a virtual cluster on
  | portion (name : WString) (reparse compressed : Bool) (lowVcn : ℕ) (extents : List Extent)
  -- where an attribute list lies that is not inside the record
  | listing (extents : List Extent)
  | other
deriving DecidableEq, Repr

/-- The name of the stream whose attribute is at `off`: its own, or the default for its type. -/
inductive StreamNameAt (r : List UInt8) (off type : ℕ) : WString → Prop
  | default {d : WString} (hd : getDefaultAttributeName type = some d)
      (hlen : nameLength r off = some 0) : StreamNameAt r off type (if d ∈ unnamed then [] else d)
  | own {d n : WString} {at_ : ℕ} (hd : getDefaultAttributeName type = some d) (hne : n ≠ [])
      (hlen : nameLength r off = some n.length) (hoff : nameOffset r off = some at_)
      (hn : Chars r (off + at_) n) : StreamNameAt r off type (if n ∈ unnamed then [] else n)

/-- A resident attribute with a value. -/
structure ResidentAt (r : List UInt8) (off type value valueLength : ℕ) : Prop where
  type : attributeType r off = some type
  form : nonresident r off = some 0
  offset : ∃ n, field r (off + 20) 2 = some n ∧ value = off + n
  length : field r (off + 16) 4 = some valueLength
  inside : off < value ∧ 0 < valueLength

/-- The run list of the attribute at `off`: extents from a virtual cluster on. -/
structure RunsAt (ml : Layout) (r : List UInt8) (off lowVcn : ℕ) (m : List Extent) : Prop where
  low : field r (off + 16) 8 = some lowVcn
  runs : ∃ at_, field r (off + 32) 2 = some at_ ∧ Encodes 0 m (r.drop (off + at_))
  volume : OnVolume ml.totalClusters m
  bound : lowVcn + vcns m < 2 ^ 64

/-- The attribute at `off` of a record, other than an attribute list. -/
inductive AttrAt (ml : Layout) (r : List UInt8) (off : ℕ) : Attr → Prop
  | info {value length attributes : ℕ} (h : ResidentAt r off 0x10 value length)
      (hlen : 48 ≤ length) (hattr : field r (value + 32) 4 = some attributes) :
      AttrAt ml r off (.info attributes)
  | name {value length directory : ℕ} {fn : FileName} (h : ResidentAt r off 0x30 value length)
      (hlen : 68 ≤ length) (hdir : field r value 8 = some directory)
      (hparent : mftIdOf directory = fn.parentMftId) (htype : field r (value + 65) 1 = some fn.type)
      (hne : fn.name ≠ []) (hn : field r (value + 64) 1 = some fn.name.length)
      (hchars : Chars r (value + 66) fn.name) : AttrAt ml r off (.name fn)
  | resident {type at_ length : ℕ} {n : WString} (htype : attributeType r off = some type)
      (hform : nonresident r off = some 0) (hoff : field r (off + 20) 2 = some at_)
      (hlen : field r (off + 16) 4 = some length) (hlist : type ≠ 0x20)
      (hn : StreamNameAt r off type n) :
      AttrAt ml r off (.resident n (decide (type = 0xC0 ∧ at_ ≠ 0 ∧ length ≠ 0)))
  | portion {type form flags lowVcn : ℕ} {n : WString} {m : List Extent}
      (htype : attributeType r off = some type) (hform : nonresident r off = some form)
      (hne : form ≠ 0) (hlist : type ≠ 0x20) (hn : StreamNameAt r off type n)
      (hflags : field r (off + 12) 2 = some flags) (hruns : RunsAt ml r off lowVcn m) :
      AttrAt ml r off (.portion n (decide (type = 0xC0)) (decide (flags % 2 = 1)) lowVcn m)
  | other {type at_ length : ℕ} (htype : attributeType r off = some type)
      (hform : nonresident r off = some 0) (hoff : field r (off + 20) 2 = some at_)
      (hlen : field r (off + 16) 4 = some length) (hnone : getDefaultAttributeName type = none)
      (hinfo : type ≠ 0x10) (hname : type ≠ 0x30) : AttrAt ml r off .other
  | outside {type form : ℕ} (htype : attributeType r off = some type)
      (hform : nonresident r off = some form) (hne : form ≠ 0)
      (hnone : getDefaultAttributeName type = none) : AttrAt ml r off .other

/-! ### What is gathered -/

/-- The extents of one attribute, and whether the loop over its runs was entered. -/
structure Portion where
  extents : List Extent
  read : Bool
deriving DecidableEq, Repr

/-- The extents as the scan sees them. -/
def Portion.shown (p : Portion) : List Extent :=
  if p.read then StopGap.shown 0 p.extents else p.extents.map Extent.hidden

structure Stream where
  name : WString
  compressed : Bool
  portions : List Portion
deriving DecidableEq, Repr

namespace Stream

def extents (st : Stream) : List Extent := st.portions.flatMap Portion.extents

def shown (st : Stream) : List Extent := st.portions.flatMap Portion.shown

def compress (c : Bool) (st : Stream) : Stream := { st with compressed := st.compressed || c }

def append (p : Portion) (st : Stream) : Stream := { st with portions := st.portions ++ [p] }

end Stream

/-- What has been read of a file. -/
structure Gathered where
  mfi : FileInformation
  streams : List Stream
deriving DecidableEq, Repr

/-- A stream seen for the first time goes to the front. -/
def withStream (streams : List Stream) (n : WString) : List Stream :=
  if streams.any fun st => st.name = n then streams else ⟨n, false, []⟩ :: streams

def streamIdx (streams : List Stream) (n : WString) : ℕ := streams.findIdx fun st => st.name = n

/-- A further portion of a stream. -/
def addPortion (streams : List Stream) (n : WString) (c : Bool) (p : Portion) : List Stream :=
  (withStream streams n).modify (streamIdx (withStream streams n) n) (Stream.append p ∘ .compress c)

/-- The stream an attribute list is. -/
def listName : WString := wide ":$ATTRIBUTE_LIST"

def FileInformation.reparsed (mfi : FileInformation) (reparse : Bool) : FileInformation :=
  if reparse then { mfi with flags := mfi.flags ||| attributeReparsePoint } else mfi

/-- What an attribute adds. The runs of `$BadClus` are not looked at. -/
def Gathered.add (env : Env) (g : Gathered) : Attr → Gathered
  | .info attributes =>
    { g with mfi := { g.mfi with flags := g.mfi.flags ||| BitVec.ofNat 32 attributes } }
  | .name fn => { g with mfi := g.mfi.addName fn }
  | .resident n reparse => ⟨g.mfi.reparsed reparse, withStream g.streams n⟩
  | .portion n reparse c _ m =>
    ⟨g.mfi.reparsed reparse, addPortion g.streams n c ⟨m, !isBadClus env g.mfi.name⟩⟩
  | .listing m => { g with streams := addPortion g.streams listName false ⟨m, true⟩ }
  | .other => g

/-- A portion goes on where the portions before it end. An attribute list outside the record is the
first one, and not that of `$BadClus`. -/
def Gathered.Fits (env : Env) (g : Gathered) : Attr → Prop
  | .portion n _ _ lowVcn _ =>
    ∀ st ∈ withStream g.streams n, st.name = n → lowVcn = vcns st.extents
  | .listing _ => isBadClus env g.mfi.name = false ∧ ∀ st ∈ g.streams, st.name ≠ listName
  | _ => True

instance (env : Env) (g : Gathered) : ∀ a : Attr, Decidable (g.Fits env a)
  | .portion n _ _ lowVcn _ => inferInstanceAs
      (Decidable (∀ st ∈ withStream g.streams n, st.name = n → lowVcn = vcns st.extents))
  | .listing _ => inferInstanceAs
      (Decidable (isBadClus env g.mfi.name = false ∧ ∀ st ∈ g.streams, st.name ≠ listName))
  | .info _ | .name _ | .resident _ _ | .other => .isTrue trivial

/-- Attributes that fit, one after the other. -/
inductive Gathers (env : Env) : Gathered → List Attr → Gathered → Prop
  | nil (g : Gathered) : Gathers env g [] g
  | cons {g g' : Gathered} {a : Attr} {as : List Attr} (hfits : g.Fits env a)
      (h : Gathers env (g.add env a) as g') : Gathers env g (a :: as) g'

/-- The stream on the list, while its record is analyzed. -/
def streamInfo (id : ℕ) (st : Stream) : FileInfo :=
  { newStream id st.name with
    flags := if st.compressed then attributeCompressed else 0
    disp := (extentBlocks 0 st.shown).foldl Disposition.addBlock .zero }

/-- The state has what is gathered of a file, in front of the streams of later records. -/
structure Shows (env : Env) (old : List FileInfo) (g : Gathered) (s : State) : Prop where
  mfi : s.mfi = g.mfi
  list : s.filelist = g.streams.map (streamInfo g.mfi.baseMftId) ++ old
  calm : s.errors = 0
  later : ∀ f ∈ old, g.mfi.baseMftId < f.baseMftId
  volume : ∀ st ∈ g.streams, OnVolume env.ml.totalClusters st.shown

/-- A scan goes well: nobody stops it, dumps are wanted, and the layout fits the machine words. -/
structure Scannable (env : Env) : Prop where
  stay : ∀ k, env.terminator k = false
  dump : env.dumpFiles = true
  size : env.ml.fileRecordSize < 2 ^ 16
  total : env.ml.totalClusters < 2 ^ 64

/-! ### Reading -/

section Read

variable {r : List UInt8} {off : ℕ}

theorem wcsncpy_eq : ∀ {n : WString} {off : ℕ}, Chars r off n → wcsncpy r n.length off = some n
  | [], _, _ => rfl
  | c :: n, off, ⟨hc, hfield, hn⟩ => by
    have h0 : c.toNat ≠ 0 := fun h => hc (UInt16.toNat_inj.1 h)
    simp [wcsncpy, hfield, h0, wcsncpy_eq hn]

theorem getAttributeName_eq {type : ℕ} {n : WString} (htype : attributeType r off = some type)
    (h : StreamNameAt r off type n) : getAttributeName r off = some (some n) := by
  cases h with
  | default hd hlen => simp [getAttributeName, htype, hd, hlen]
  | own hd hne hlen hoff hn =>
    simp [getAttributeName, htype, hd, hlen, hoff, wcsncpy_eq hn, hne]

theorem readFileName_eq {value length directory : ℕ} {fn : FileName} (hlen : 68 ≤ length)
    (hdir : field r value 8 = some directory) (hparent : mftIdOf directory = fn.parentMftId)
    (htype : field r (value + 65) 1 = some fn.type) (hne : fn.name ≠ [])
    (hn : field r (value + 64) 1 = some fn.name.length) (hchars : Chars r (value + 66) fn.name) :
    readFileName r value length = some (some fn) := by
  obtain ⟨parent, type, name⟩ := fn
  obtain ⟨c, n, rfl⟩ := List.exists_cons_of_ne_nil hne
  have h0 : c.toNat ≠ 0 := fun h => hchars.1 (UInt16.toNat_inj.1 h)
  have hcopy : wcsncpy r (n.length + 1) (value + 66) = some (c :: n) := wcsncpy_eq hchars
  simp only at hparent htype
  simp only [readFileName, if_neg (Nat.not_lt.2 hlen), hn, Option.bind_eq_bind, Option.bind_some,
    hchars.2.1, hdir, htype, hcopy, hparent, if_neg h0, List.length_cons, Nat.succ_ne_zero,
    if_false, Option.pure_def]

end Read

/-! ### Streams -/

theorem searchFilelist_streams {id : ℕ} {n : WString} {old : List FileInfo}
    (hold : ∀ f ∈ old, id < f.baseMftId) : ∀ streams : List Stream,
    searchFilelist id n (streams.map (streamInfo id) ++ old)
      = streams.findIdx? fun st => st.name = n
  | [] => by
    rcases old with _ | ⟨f, old⟩
    · rfl
    · simp [searchFilelist, hold f]
  | st :: streams => by
    have hinfo : (streamInfo id st).name = st.name ∧ (streamInfo id st).baseMftId = id := ⟨rfl, rfl⟩
    simp [searchFilelist, searchFilelist_streams hold streams, List.findIdx?_cons, hinfo]

theorem modify_map_append {α β : Type*} {f : α → β} {g : β → β} {g' : α → α} {old : List β} :
    ∀ {l : List α} {i : ℕ}, i < l.length → (∀ a, l[i]? = some a → f (g' a) = g (f a)) →
      (l.map f ++ old).modify i g = (l.modify i g').map f ++ old
  | [], _, h, _ => absurd h (Nat.not_lt_zero _)
  | a :: l, 0, _, h => by simp [h a rfl]
  | a :: l, i + 1, hi, h => by
    simpa using modify_map_append (Nat.lt_of_succ_lt_succ hi) h

section Stream

variable {streams : List Stream} {n : WString}

theorem streamIdx_lt : streamIdx (withStream streams n) n < (withStream streams n).length := by
  rw [streamIdx, List.findIdx_lt_length]
  unfold withStream
  split_ifs with h
  · simpa using h
  · exact ⟨_, List.mem_cons_self, by simp⟩

theorem exists_stream (streams : List Stream) (n : WString) :
    ∃ st ∈ withStream streams n, st.name = n
      ∧ (withStream streams n)[streamIdx (withStream streams n) n]? = some st := by
  have hlt : streamIdx (withStream streams n) n < (withStream streams n).length := streamIdx_lt
  refine ⟨_, List.getElem_mem hlt, ?_, List.getElem?_eq_getElem hlt⟩
  exact of_decide_eq_true
    (List.findIdx_getElem (p := fun st : Stream => decide (st.name = n)) (w := hlt))

theorem addPortion_eq (c : Bool) (p : Portion) : addPortion streams n c p
    = ((withStream streams n).modify (streamIdx (withStream streams n) n) (.compress c)).modify
        (streamIdx (withStream streams n) n) (.append p) :=
  (List.modify_modify_eq _ _ _ _).symm

theorem Portion.vcns_shown (p : Portion) : vcns p.shown = vcns p.extents := by
  unfold Portion.shown
  split_ifs
  · exact StopGap.vcns_shown 0 p.extents
  · simp [vcns, Extent.hidden, Function.comp_def]

theorem Stream.vcns_shown (st : Stream) : vcns st.shown = vcns st.extents := by
  unfold Stream.shown Stream.extents
  induction st.portions with
  | nil => rfl
  | cons p ps ih => rw [List.flatMap_cons, List.flatMap_cons, vcns_append, vcns_append, ih,
      p.vcns_shown]

theorem Stream.shown_append (p : Portion) (st : Stream) :
    (st.append p).shown = st.shown ++ p.shown := by
  simp [Stream.shown, Stream.append]

theorem Portion.onVolume {total : ℕ} {p : Portion} (h : OnVolume total p.extents) :
    OnVolume total p.shown := by
  unfold Portion.shown
  split_ifs
  · exact h.shown 0
  · intro e he
    obtain ⟨e', he', rfl⟩ := List.mem_map.1 he
    exact ⟨(h e' he').1, by simp [Extent.hidden]⟩

end Stream

variable {env : Env} {old : List FileInfo} {g : Gathered} {s : State}

@[simp] theorem FileInformation.reparsed_baseMftId (mfi : FileInformation) (reparse : Bool) :
    (mfi.reparsed reparse).baseMftId = mfi.baseMftId := by
  unfold FileInformation.reparsed
  split_ifs <;> rfl

@[simp] theorem FileInformation.reparsed_name (mfi : FileInformation) (reparse : Bool) :
    (mfi.reparsed reparse).name = mfi.name := by
  unfold FileInformation.reparsed
  split_ifs <;> rfl

theorem flagReparsePoint_returns (hs : Shows env old g s) (c : Prop) [Decidable c] :
    Returns (when c flagReparsePoint) s
      fun _ => Shows env old { g with mfi := g.mfi.reparsed (decide c) } := by
  have hkeep : ∀ mfi : FileInformation, mfi = g.mfi.reparsed (decide c) → ∀ s' : State,
      s'.mfi = mfi → s'.filelist = s.filelist → s'.errors = s.errors →
      Shows env old { g with mfi := g.mfi.reparsed (decide c) } s' := by
    intro mfi hmfi s' hs' hlist herr
    refine ⟨hs'.trans hmfi, ?_, herr.trans hs.calm, ?_, hs.volume⟩
    · simp only [hlist, hs.list, FileInformation.reparsed_baseMftId]
    · simpa using hs.later
  refine .when (fun h => .modify (hkeep _ ?_ _ rfl rfl rfl)) fun h => hkeep _ ?_ _ rfl rfl rfl
  · simp [FileInformation.reparsed, h, hs.mfi]
  · simp [FileInformation.reparsed, h, hs.mfi]

theorem findFilelistEntry_returns (hs : Shows env old g s) (n : WString) :
    Returns (findFilelistEntry n) s fun i s' => i = streamIdx (withStream g.streams n) n
      ∧ Shows env old { g with streams := withStream g.streams n } s' := by
  refine Returns.get_bind ?_
  have hsearch := searchFilelist_streams (n := n) hs.later g.streams
  rw [← hs.list, ← hs.mfi] at hsearch
  rcases hidx : searchFilelist s.mfi.baseMftId n s.filelist with _ | i <;> rw [hsearch] at hidx
  · have hnone : g.streams.any (fun st => st.name = n) = false := by
      simpa using hidx
    refine Returns.modify_bind ?_
    refine Returns.pure ⟨?_, hs.mfi, ?_, hs.calm, hs.later, ?_⟩
    · simp [streamIdx, withStream, hnone, List.findIdx_cons]
    · simp only [withStream, hnone, hs.list, hs.mfi]
      rfl
    · simp only [withStream, hnone]
      exact List.forall_mem_cons.2 ⟨by simp [OnVolume, Stream.shown], hs.volume⟩
  · obtain ⟨hlt, hi⟩ := List.findIdx?_eq_some_iff_findIdx_eq.1 hidx
    have hsome : g.streams.any (fun st => st.name = n) = true := by
      rw [List.any_eq_true, ← List.findIdx_lt_length]
      omega
    simp only [withStream, hsome, if_true]
    exact Returns.pure ⟨hi.symm, hs⟩

theorem Shows.getElem? (hs : Shows env old g s) {i : ℕ} {st : Stream}
    (hst : g.streams[i]? = some st) :
    s.filelist[i]? = some (streamInfo g.mfi.baseMftId st) := by
  obtain ⟨hlt, -⟩ := List.getElem?_eq_some_iff.1 hst
  rw [hs.list, List.getElem?_append_left (by simpa using hlt), List.getElem?_map, hst]
  rfl

/-- A change of one stream. -/
theorem Shows.modify {i : ℕ} {st : Stream} {f : FileInfo → FileInfo} {f' : Stream → Stream}
    (hs : Shows env old g s) (hst : g.streams[i]? = some st)
    (heq : streamInfo g.mfi.baseMftId (f' st) = f (streamInfo g.mfi.baseMftId st))
    (hvol : OnVolume env.ml.totalClusters (f' st).shown) :
    Shows env old { g with streams := g.streams.modify i f' }
      { s with filelist := s.filelist.modify i f } := by
  obtain ⟨hlt, -⟩ := List.getElem?_eq_some_iff.1 hst
  refine ⟨hs.mfi, ?_, hs.calm, hs.later, fun st' hst' => ?_⟩
  · rw [hs.list]
    refine modify_map_append hlt fun st' hst' => ?_
    obtain rfl := Option.some.inj (hst.symm.trans hst')
    exact heq
  · rcases mem_modify hst' with hst' | ⟨st₀, hst₀, rfl⟩
    · exact hs.volume st' hst'
    · obtain rfl := Option.some.inj (hst.symm.trans hst₀)
      exact hvol

/-- A change of a stream that does not show on the list. -/
theorem Shows.modify_unseen {i : ℕ} {st : Stream} {f : Stream → Stream} (hs : Shows env old g s)
    (hst : g.streams[i]? = some st)
    (heq : streamInfo g.mfi.baseMftId (f st) = streamInfo g.mfi.baseMftId st)
    (hvol : OnVolume env.ml.totalClusters (f st).shown) :
    Shows env old { g with streams := g.streams.modify i f } s := by
  have hkeep := hs.modify (f := id) hst heq hvol
  rwa [List.modify_id] at hkeep

theorem compress_returns {i : ℕ} {st : Stream} (hs : Shows env old g s)
    (hst : g.streams[i]? = some st) (c : Prop) [Decidable c] :
    Returns (when c (modifyStream i fun f => { f with flags := f.flags ||| attributeCompressed })) s
      fun _ => Shows env old { g with streams := g.streams.modify i (.compress (decide c)) } := by
  refine .when (fun h => .modify (hs.modify hst ?_ ?_)) fun h => ?_
  · rcases st with ⟨n, _ | _, ps⟩ <;> simp [streamInfo, Stream.compress, Stream.shown, h]
  · exact hs.volume st (List.mem_of_getElem? hst)
  · exact hs.modify_unseen hst (by simp [Stream.compress, h])
      (hs.volume st (List.mem_of_getElem? hst))

def FileInfo.withBlocks (f : FileInfo) (bs : List Block) : FileInfo :=
  { f with disp := bs.foldl Disposition.addBlock f.disp }

theorem streamInfo_append (id : ℕ) (p : Portion) (st : Stream) :
    streamInfo id (st.append p)
      = (streamInfo id st).withBlocks (extentBlocks (vcns st.extents) p.shown) := by
  have hblocks : extentBlocks 0 (st.append p).shown
      = extentBlocks 0 st.shown ++ extentBlocks (vcns st.extents) p.shown := by
    rw [Stream.shown_append, extentBlocks_append, Stream.vcns_shown, Nat.zero_add]
  rw [streamInfo, hblocks, List.foldl_append]
  rfl

theorem extentBlocks_hidden : ∀ (v : ℕ) (m : List Extent),
    extentBlocks v (m.map Extent.hidden) = []
  | _, [] => rfl
  | v, e :: m => extentBlocks_hidden (v + e.length) m

theorem Shows.onVolume_append (hs : Shows env old g s) {i : ℕ} {st : Stream} {p : Portion}
    (hst : g.streams[i]? = some st) (hp : OnVolume env.ml.totalClusters p.extents) :
    OnVolume env.ml.totalClusters (st.append p).shown := by
  rw [Stream.shown_append]
  exact List.forall_mem_append.2 ⟨hs.volume st (List.mem_of_getElem? hst), Portion.onVolume hp⟩

/-- A portion that is not looked at. -/
theorem Shows.pass {i : ℕ} {st : Stream} {m : List Extent} (hs : Shows env old g s)
    (hst : g.streams[i]? = some st) (hm : OnVolume env.ml.totalClusters m) :
    Shows env old { g with streams := g.streams.modify i (.append ⟨m, false⟩) } s := by
  refine hs.modify_unseen hst ?_ (hs.onVolume_append hst hm)
  rw [streamInfo_append, Portion.shown, if_neg Bool.false_ne_true, extentBlocks_hidden]
  rfl

theorem readRunList_eq {r : List UInt8} {off lowVcn : ℕ} {m : List Extent} {disp : Disposition}
    (hw : Scannable env) (h : RunsAt env.ml r off lowVcn m) (hdisp : InRange lowVcn disp) :
    readRunList env.ml r off disp
      = some ((extentBlocks lowVcn (shown 0 m)).foldl Disposition.addBlock disp) := by
  obtain ⟨at_, hoff, henc⟩ := h.runs
  simp only [readRunList, h.low, hoff, Option.bind_eq_bind, Option.bind_some]
  exact processRuns_of_encodes hw.total henc h.volume (by decide) h.bound hdisp
    (Nat.lt_succ_self _)

/-- A portion read into the stream it belongs to. -/
theorem dumpStream_returns {r : List UInt8} {off lowVcn i : ℕ} {m : List Extent} {st : Stream}
    (hw : Scannable env) (hs : Shows env old g s) (hst : g.streams[i]? = some st)
    (hlow : lowVcn = vcns st.extents) (h : RunsAt env.ml r off lowVcn m) :
    Returns (dumpStream env r off i) s fun _ =>
      Shows env old { g with streams := g.streams.modify i (.append ⟨m, true⟩) } := by
  have hdisp : InRange lowVcn (streamInfo g.mfi.baseMftId st).disp := by
    have hzero := (InRange.zero 0).foldl hw.total (hs.volume st (List.mem_of_getElem? hst))
    rwa [Nat.zero_add, Stream.vcns_shown, ← hlow] at hzero
  have hread := readRunList_eq hw h hdisp
  have hold : (s.filelist[i]?.map FileInfo.disp).getD .zero
      = (streamInfo g.mfi.baseMftId st).disp := by
    rw [hs.getElem? hst]
    rfl
  rw [← hold] at hread
  refine Returns.get_bind (returns_read_bind hread (.modify (hs.modify hst ?_ ?_)))
  · rw [streamInfo_append, hlow, hold]
    rfl
  · exact hs.onVolume_append hst h.volume

theorem processRunList_returns {entry : List UInt8 → ℕ → M Unit} {r : List UInt8}
    {off lowVcn flags : ℕ} {m : List Extent} {n : WString} (hw : Scannable env)
    (hs : Shows env old g s)
    (hlow : ∀ st ∈ withStream g.streams n, st.name = n → lowVcn = vcns st.extents)
    (hflags : field r (off + 12) 2 = some flags) (h : RunsAt env.ml r off lowVcn m) :
    Returns (processRunList env entry n r off false) s fun _ =>
      Shows env old ⟨g.mfi, addPortion g.streams n (decide (flags % 2 = 1))
        ⟨m, !isBadClus env g.mfi.name⟩⟩ := by
  obtain ⟨st, hmem, hname, hst⟩ := exists_stream g.streams n
  refine (findFilelistEntry_returns hs n).bind fun i s₁ ⟨hi, hs₁⟩ => returns_read_bind hflags ?_
  subst hi
  refine (compress_returns hs₁ hst (flags % 2 = 1)).bind fun _ s₂ hs₂ => .get_bind ?_
  have hst₂ : ((withStream g.streams n).modify (streamIdx (withStream g.streams n) n)
      (.compress (decide (flags % 2 = 1))))[streamIdx (withStream g.streams n) n]?
      = some (st.compress (decide (flags % 2 = 1))) := by
    simp [hst]
  have hlow₂ : lowVcn = vcns (st.compress (decide (flags % 2 = 1))).extents := hlow st hmem hname
  have hbad : isBadClus env s₂.mfi.name = isBadClus env g.mfi.name := by rw [hs₂.mfi]
  simp only [addPortion_eq]
  refine .ite (fun hb => ?_) fun hb => ?_
  · rw [← hbad, hb]
    exact .pure (hs₂.pass hst₂ h.volume)
  · rw [← hbad, Bool.eq_false_iff.2 hb]
    refine Returns.bind (.when (fun _ => dumpStream_returns hw hs₂ hst₂ hlow₂ h) fun h => ?_)
      fun _ s₃ hs₃ => .when (fun h => by simp at h) fun _ => hs₃
    simp [hw.dump] at h

/-- A resident attribute: its stream is listed, if it has one, before its value is looked at. -/
theorem analyzeAttribute_resident {entry : List UInt8 → ℕ → M Unit} {r : List UInt8}
    {off type at_ length : ℕ} {name : Option WString} {Q : State → Prop} {R : Unit → State → Prop}
    (hform : nonresident r off = some 0) (hname : getAttributeName r off = some name)
    (hoff : field r (off + 20) 2 = some at_) (hlen : field r (off + 16) 4 = some length)
    (htype : attributeType r off = some type) (hadd : Returns (addStream name) s fun _ => Q)
    (hempty : at_ = 0 ∨ length = 0 → ∀ s', Q s' → R () s')
    (hrest : ¬ (at_ = 0 ∨ length = 0) → ∀ s', Q s' → Returns
      (if type = 0x10 then getFileFlags r (off + at_) length
        else if type = 0x30 then updateFileName r (off + at_) length
        else if type = 0x20 then
          attributeListLoop env entry r (off + at_ + length) (off + at_ + length + 1) (off + at_)
        else when (type = 0xC0) flagReparsePoint) s' R) :
    Returns (analyzeAttribute env entry r off) s R := by
  refine returns_read_bind hform (.ite (fun h => absurd rfl h) fun _ => ?_)
  refine returns_read_bind hname (hadd.bind fun _ s' hs' => ?_)
  refine returns_read_bind hoff (returns_read_bind hlen (.ite (fun h0 => ?_) fun h0 => ?_))
  · exact .pure (hempty h0 s' hs')
  · exact returns_read_bind htype (hrest h0 s' hs')

theorem getAttributeName_none {r : List UInt8} {off type : ℕ}
    (htype : attributeType r off = some type) (h : getDefaultAttributeName type = none) :
    getAttributeName r off = some none := by
  simp [getAttributeName, htype, h]

theorem StreamNameAt.hasDefault {r : List UInt8} {off type : ℕ} {n : WString}
    (h : StreamNameAt r off type n) : type ≠ 0x10 ∧ type ≠ 0x30 := by
  have hd : getDefaultAttributeName type ≠ none := by
    cases h with
    | default hd => simp [hd]
    | own hd => simp [hd]
  constructor <;> rintro rfl <;> exact hd rfl

theorem addStream_none (hs : Shows env old g s) :
    Returns (addStream none) s fun _ => Shows env old g :=
  .pure hs

theorem addStream_some (hs : Shows env old g s) (n : WString) :
    Returns (addStream (some n)) s fun _ =>
      Shows env old { g with streams := withStream g.streams n } :=
  (findFilelistEntry_returns hs n).bind fun _ _ h => .pure h.2

/-- An attribute adds to what is gathered what it says. -/
theorem analyzeAttribute_returns {entry : List UInt8 → ℕ → M Unit} {r : List UInt8} {off : ℕ}
    {a : Attr} (hw : Scannable env)
    (hs : Shows env old g s) (ha : AttrAt env.ml r off a) (hfits : g.Fits env a) :
    Returns (analyzeAttribute env entry r off) s fun _ => Shows env old (g.add env a) := by
  cases ha with
  | @info value length attributes h hlen hattr =>
    obtain ⟨n, hn, rfl⟩ := h.offset
    refine analyzeAttribute_resident h.form (getAttributeName_none h.type rfl) hn h.length h.type
      (addStream_none hs) (fun h0 => ?_) fun _ s' hs' => ?_
    · have := h.inside
      omega
    · refine .ite (fun _ => .ite (fun hlt => by omega) fun _ => ?_) fun h => absurd rfl h
      exact returns_read_bind hattr (.modify
        ⟨by rw [hs'.mfi]; rfl, hs'.list, hs'.calm, hs'.later, hs'.volume⟩)
  | @name value length directory fn h hlen hdir hparent htype hne hn hchars =>
    obtain ⟨at_, hat, rfl⟩ := h.offset
    refine analyzeAttribute_resident h.form (getAttributeName_none h.type rfl) hat h.length h.type
      (addStream_none hs) (fun h0 => ?_) fun _ s' hs' => ?_
    · have := h.inside
      omega
    · refine .ite (fun h => by omega) fun _ => .ite (fun _ => ?_) fun h => absurd rfl h
      refine returns_read_bind (readFileName_eq hlen hdir hparent htype hne hn hchars) ?_
      have hbase : (g.mfi.addName fn).baseMftId = g.mfi.baseMftId := by
        unfold FileInformation.addName
        split_ifs <;> rfl
      refine Returns.modify ⟨by rw [hs'.mfi]; rfl, ?_, hs'.calm, ?_, hs'.volume⟩
      · simp only [Gathered.add, hbase]
        exact hs'.list
      · simp only [Gathered.add, hbase]
        exact hs'.later
  | @resident type at_ length n htype hform hoff hlen hlist hn =>
    obtain ⟨hinfo, hname⟩ := hn.hasDefault
    refine analyzeAttribute_resident hform (getAttributeName_eq htype hn) hoff hlen htype
      (addStream_some hs n) (fun h0 s' hs' => ?_) fun h0 s' hs' => ?_
    · have hno : ¬ (type = 0xC0 ∧ at_ ≠ 0 ∧ length ≠ 0) := by tauto
      rw [decide_eq_false hno]
      exact hs'
    · have hiff : (type = 0xC0 ∧ at_ ≠ 0 ∧ length ≠ 0) ↔ type = 0xC0 := by tauto
      simp only [Gathered.add, hiff]
      exact .ite (fun h => absurd h hinfo) fun _ => .ite (fun h => absurd h hname) fun _ =>
        .ite (fun h => absurd h hlist) fun _ => flagReparsePoint_returns hs' (type = 0xC0)
  | @portion type form flags lowVcn n m htype hform hne hlist hn hflags hruns =>
    refine returns_read_bind hform (.ite (fun _ => ?_) fun h => absurd hne h)
    refine returns_read_bind htype ((flagReparsePoint_returns hs (type = 0xC0)).bind
      fun _ s' hs' => returns_read_bind (getAttributeName_eq htype hn) ?_)
    simp only [decide_eq_false hlist]
    refine (processRunList_returns hw hs' hfits hflags hruns).mono fun _ s₁ hs₁ => ?_
    rwa [FileInformation.reparsed_name] at hs₁
  | @other type at_ length htype hform hoff hlen hnone hinfo hname =>
    refine analyzeAttribute_resident hform (getAttributeName_none htype hnone) hoff hlen htype
      (addStream_none hs) (fun _ _ h => h) fun _ s' hs' => ?_
    refine .ite (fun h => absurd h hinfo) fun _ => .ite (fun h => absurd h hname) fun _ =>
      .ite (fun h => ?_) fun _ => .when (fun h => ?_) fun _ => hs'
    · subst h
      cases hnone
    · subst h
      cases hnone
  | @outside type form htype hform hne hnone =>
    refine returns_read_bind hform (.ite (fun _ => ?_) fun h => absurd hne h)
    refine returns_read_bind htype (Returns.bind (Q := fun _ s' => s' = s)
      (.when (fun h => ?_) fun _ => rfl) fun _ s' hs' => ?_)
    · subst h
      cases hnone
    · subst hs'
      exact returns_read_bind (getAttributeName_none htype hnone) (.pure hs)

/-! ### Attributes in turn -/

/-- An attribute of `length` bytes at `off`, in the part of the record that is in use. -/
structure Spans (ml : Layout) (r : List UInt8) (off length : ℕ) : Prop where
  type : ∃ type, attributeType r off = some type ∧ type ≠ 0 ∧ type ≠ 0xffffffff
  long : attributeLength r off = some length
  form : ∃ form, nonresident r off = some form ∧ (if form ≠ 0 then 64 else 24) ≤ length
  used : ∃ used, field r 24 4 = some used ∧ off + length ≤ used
  size : off + length ≤ ml.fileRecordSize

/-- The end of the attributes. -/
structure Ends (r : List UInt8) (off : ℕ) : Prop where
  type : attributeType r off = some 0xffffffff
  used : ∃ used, field r 24 4 = some used

/-- The attributes from `off` on are, one behind the other, those `At` says. -/
inductive Attributes {α : Type} (ml : Layout) (r : List UInt8) (At : ℕ → α → Prop) :
    ℕ → List α → Prop
  | done {off : ℕ} (h : Ends r off) : Attributes ml r At off []
  | next {off length : ℕ} {a : α} {as : List α} (hspan : Spans ml r off length) (hat : At off a)
      (h : Attributes ml r At (off + length) as) : Attributes ml r At off (a :: as)

theorem Spans.attributeAt {ml : Layout} {r : List UInt8} {off length : ℕ}
    (h : Spans ml r off length) (hsize : ml.fileRecordSize < 2 ^ 16) :
    attributeAt ml r (BitVec.ofNat 16 off) off = some (some length) := by
  obtain ⟨type, htype, h0, h1⟩ := h.type
  obtain ⟨form, hform, hmin⟩ := h.form
  obtain ⟨used, hused, hle⟩ := h.used
  have hpos : 24 ≤ length := le_trans (by split_ifs <;> omega) hmin
  have hsz := h.size
  have hoff : (BitVec.ofNat 16 off).toNat = off := Nat.mod_eq_of_lt (by omega)
  have hlast : (off + length) % 2 ^ 32 = off + length := Nat.mod_eq_of_lt (by omega)
  have htype' : ¬ (type = 0xffffffff ∨ type = 0) := by omega
  simp only [Mft.attributeAt, hused, hoff, hlast, htype, h.long, hform, Option.bind_eq_bind,
    Option.bind_some, if_neg htype', if_neg (show ¬ (used < off + 16 ∨ ml.fileRecordSize < off + 16)
      by omega), if_neg (show ¬ length = 0 by omega), if_neg (show ¬ (used < off + length
      ∨ ml.fileRecordSize < off + length) by omega), if_neg (Nat.not_lt.2 hmin), Option.pure_def]

theorem Ends.attributeAt {ml : Layout} {r : List UInt8} {off : ℕ} (h : Ends r off) :
    attributeAt ml r (BitVec.ofNat 16 off) off = some none := by
  obtain ⟨used, hused⟩ := h.used
  simp only [Mft.attributeAt, hused, h.type, Option.bind_eq_bind, Option.bind_some]
  split_ifs with h1 h2
  · rfl
  · rfl
  · exact absurd (.inl trivial) h2

section Walk

variable {α : Type} {r : List UInt8} {visit : α → ℕ → M (Option α)} {off fuel : ℕ} {a : α}
  {R : Unit → State → Prop} (hw : Scannable env) (hcalm : s.errors = 0)

include hw hcalm

theorem walk_next {length : ℕ} {Q : Option α → State → Prop}
    (hspan : Spans env.ml r off length)
    (hvisit : Returns (visit a off) { s with clock := s.clock + 1 } Q)
    (hstop : ∀ s', Q none s' → R () s')
    (hgo : ∀ a' s', Q (some a') s' →
      Returns (walk env r visit fuel (BitVec.ofNat 16 (off + length)) (off + length) a') s' R) :
    Returns (walk env r visit (fuel + 1) (BitVec.ofNat 16 off) off a) s R := by
  refine (checkForTermination_calm hw.stay hcalm).bind fun stop s₁ ⟨hstop, hs₁⟩ => ?_
  subst hstop hs₁
  refine .ite (fun h => by simp at h) fun _ => returns_read_bind (hspan.attributeAt hw.size) ?_
  refine .mark_bind (hvisit.bind fun next s₂ hs₂ => ?_)
  rcases next with _ | a'
  · exact .pure (hstop s₂ hs₂)
  · rw [← BitVec.ofNat_add]
    exact hgo a' s₂ hs₂

theorem walk_end (hend : Ends r off) (hR : R () { s with clock := s.clock + 1 }) :
    Returns (walk env r visit (fuel + 1) (BitVec.ofNat 16 off) off a) s R := by
  refine (checkForTermination_calm hw.stay hcalm).bind fun stop s₁ ⟨hstop, hs₁⟩ => ?_
  subst hstop hs₁
  exact .ite (fun h => by simp at h) fun _ => returns_read_bind hend.attributeAt (.pure hR)

end Walk

/-- `I` says what holds while the given attributes are still to come; it does not look at the
clock. -/
structure Enumerates {α : Type} (At : ℕ → α → Prop) (ah : ℕ → M Unit)
    (I : List α → State → Prop) : Prop where
  calm : ∀ {as s}, I as s → s.errors = 0
  asked : ∀ {as s}, I as s → I as { s with clock := s.clock + 1 }
  step : ∀ {a as off s}, At off a → I (a :: as) s → Returns (ah off) s fun _ => I as

theorem enumerateAttributes_returns {α : Type} {At : ℕ → α → Prop} {r : List UInt8} {off : ℕ}
    {as : List α} {ah : ℕ → M Unit} {I : List α → State → Prop}
    (hw : Scannable env)
    (hI : Enumerates At ah I) (hoff : field r 20 2 = some off)
    (has : Attributes env.ml r At off as) (hs : I as s) :
    Returns (enumerateAttributes env r ah) s fun _ => I [] := by
  have hwalk : ∀ {off as}, Attributes env.ml r At off as → ∀ {fuel s}, I as s →
      r.length < off + fuel → Returns (walk env r (fun _ pattr => do ah pattr; return some ()) fuel
        (BitVec.ofNat 16 off) off ()) s fun _ => I [] := by
    intro off as has
    induction has with
    | done hend =>
      rintro (_ | fuel) s hs hfuel
      · have := field_bound hend.type
        omega
      · exact walk_end hw (hI.calm hs) hend (hI.asked hs)
    | @next off length a as hspan hat _ ih =>
      have := field_bound hspan.long
      rintro (_ | fuel) s hs hfuel
      · omega
      · refine walk_next hw (hI.calm hs) hspan
          (Q := fun next s' => next = some () ∧ I as s')
          ((hI.step hat (hI.asked hs)).bind fun _ s' hs' => .pure ⟨rfl, hs'⟩)
          (fun s' h => absurd h.1 (by simp)) fun _ s' h => ih h.2 ?_
        have h24 := hspan.form.choose_spec.2
        split_ifs at h24 <;> omega
  exact returns_read_bind hoff (hwalk has hs (by omega))

end Mft

end StopGap
