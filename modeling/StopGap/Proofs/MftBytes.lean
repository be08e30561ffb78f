import StopGap.Proofs.MftLists

/-!
# Records in writing

The bytes of file records, one field behind the other. What the format says of them is read off from
where each field stands: the head of a record, that of an attribute, names, portions, and the
entries of an attribute list.
-/

namespace StopGap

namespace Mft

open Bytes

variable {ml : Layout} {r : List UInt8} {off : ℕ}

/-- The head of a record whose attributes begin at 48. -/
def headerBytes (used base : ℕ) : List UInt8 :=
  Bytes.ofNat 4 fileTag ++ Bytes.ofNat 16 0 ++ Bytes.ofNat 2 48 ++ Bytes.ofNat 2 1
    ++ Bytes.ofNat 4 used ++ Bytes.ofNat 4 0 ++ Bytes.ofNat 8 base ++ Bytes.ofNat 8 0

/-- The head of an attribute without a name. -/
def attrBytes (type length form flags number : ℕ) : List UInt8 :=
  Bytes.ofNat 4 type ++ Bytes.ofNat 4 length ++ Bytes.ofNat 1 form ++ Bytes.ofNat 1 0
    ++ Bytes.ofNat 2 0 ++ Bytes.ofNat 2 flags ++ Bytes.ofNat 2 number

/-- The head of a value inside the record. -/
def valueBytes (length : ℕ) : List UInt8 :=
  Bytes.ofNat 4 length ++ Bytes.ofNat 2 24 ++ Bytes.ofNat 2 0

/-- A name in the root directory. -/
def nameBytes (number : ℕ) (name : WString) : List UInt8 :=
  attrBytes 0x30 (90 + 2 * name.length) 0 0 number ++ valueBytes (66 + 2 * name.length)
    ++ Bytes.ofNat 8 fileRoot ++ Bytes.ofNat 56 0 ++ Bytes.ofNat 1 name.length ++ Bytes.ofNat 1 3
    ++ name.flatMap fun c => Bytes.ofNat 2 c.toNat

/-- A portion of one extent. -/
def dataBytes (flags number low size length lcn : ℕ) : List UInt8 :=
  attrBytes 0x80 68 1 flags number ++ Bytes.ofNat 8 low ++ Bytes.ofNat 8 0 ++ Bytes.ofNat 2 64
    ++ Bytes.ofNat 14 0 ++ Bytes.ofNat 8 size ++ Bytes.ofNat 8 size
    ++ [0x11, UInt8.ofNat length, UInt8.ofNat lcn, 0]

def reparseBytes : List UInt8 := attrBytes 0xC0 32 0 0 0 ++ valueBytes 8 ++ Bytes.ofNat 8 0

def entryBytes (type number mftId : ℕ) : List UInt8 :=
  Bytes.ofNat 4 type ++ Bytes.ofNat 2 26 ++ Bytes.ofNat 1 0 ++ Bytes.ofNat 1 0 ++ Bytes.ofNat 8 0
    ++ Bytes.ofNat 8 mftId ++ Bytes.ofNat 2 number

def endBytes : List UInt8 := Bytes.ofNat 4 0xffffffff

@[simp] theorem length_headerBytes (used base : ℕ) : (headerBytes used base).length = 48 := by
  simp [headerBytes]

@[simp] theorem length_attrBytes (type length form flags number : ℕ) :
    (attrBytes type length form flags number).length = 16 := by
  simp [attrBytes]

@[simp] theorem length_valueBytes (length : ℕ) : (valueBytes length).length = 8 := by
  simp [valueBytes]

@[simp] theorem length_nameBytes (number : ℕ) (name : WString) :
    (nameBytes number name).length = 90 + 2 * name.length := by
  simp [nameBytes]
  omega

@[simp] theorem length_dataBytes (flags number low size length lcn : ℕ) :
    (dataBytes flags number low size length lcn).length = 68 := by
  simp [dataBytes]

@[simp] theorem length_reparseBytes : reparseBytes.length = 32 := by simp [reparseBytes]

@[simp] theorem length_entryBytes (type number mftId : ℕ) :
    (entryBytes type number mftId).length = 26 := by
  simp [entryBytes]

/-- What the head of a record says. -/
structure HeaderAt (r : List UInt8) (used base : ℕ) : Prop where
  tag : field r 0 4 = some fileTag
  first : field r 20 2 = some 48
  flags : field r 22 2 = some 1
  used : field r 24 4 = some used
  base : field r 32 8 = some base

theorem headerAt_of {used base : ℕ} (h : HasAt r 0 (headerBytes used base))
    (hlt : used < 2 ^ 32 ∧ base < 2 ^ 64) : HeaderAt r used base := by
  simp only [headerBytes, hasAt_append, List.length_append, length_ofNat, Nat.reduceAdd,
    and_assoc] at h
  obtain ⟨htag, -, hfirst, hflags, hused, -, hbase, -⟩ := h
  exact ⟨htag.field (by decide), hfirst.field (by decide), hflags.field (by decide),
    hused.field (by omega), hbase.field (by omega)⟩

/-- What the head of an attribute without a name says. -/
structure HeadAt (r : List UInt8) (off type length form flags number : ℕ) : Prop where
  type : attributeType r off = some type
  long : attributeLength r off = some length
  form : nonresident r off = some form
  unnamed : nameLength r off = some 0
  name : AttrName r off none
  flags : field r (off + 12) 2 = some flags
  number : attributeNumber r off = some number

theorem headAt_of {type length form flags number : ℕ}
    (h : HasAt r off (attrBytes type length form flags number))
    (hlt : type < 2 ^ 32 ∧ length < 2 ^ 32 ∧ form < 2 ^ 8 ∧ flags < 2 ^ 16 ∧ number < 2 ^ 16) :
    HeadAt r off type length form flags number := by
  simp only [attrBytes, hasAt_append, List.length_append, length_ofNat, Nat.reduceAdd,
    and_assoc] at h
  obtain ⟨htype, hlong, hform, hname, hnameOff, hflags, hnumber⟩ := h
  have hunnamed : nameLength r off = some 0 := hname.field (by decide)
  exact ⟨htype.field (by omega), hlong.field (by omega), hform.field (by omega), hunnamed,
    ⟨hunnamed, 0, hnameOff.field (by decide)⟩, hflags.field (by omega), hnumber.field (by omega)⟩

theorem HeadAt.spans {type length form flags number used base : ℕ}
    (h : HeadAt r off type length form flags number) (hr : HeaderAt r used base)
    (htype : type ≠ 0 ∧ type ≠ 0xffffffff) (hmin : (if form ≠ 0 then 64 else 24) ≤ length)
    (hle : off + length ≤ used ∧ off + length ≤ ml.fileRecordSize) : Spans ml r off length :=
  ⟨⟨type, h.type, htype⟩, h.long, ⟨form, h.form, hmin⟩, ⟨used, hr.used, hle.1⟩, hle.2⟩

theorem HeadAt.residentAt {type length flags number size : ℕ}
    (h : HeadAt r off type length 0 flags number) (hvalue : HasAt r (off + 16) (valueBytes size))
    (hsize : 0 < size ∧ size < 2 ^ 32) : ResidentAt r off type (off + 24) size := by
  simp only [valueBytes, hasAt_append, List.length_append, length_ofNat, Nat.reduceAdd, and_assoc,
    Nat.add_assoc] at hvalue
  obtain ⟨hlength, hoff, -⟩ := hvalue
  exact ⟨h.type, h.form, ⟨24, hoff.field (by decide), rfl⟩, hlength.field (by omega), by omega,
    hsize.1⟩

theorem chars_of : ∀ {name : WString} {off : ℕ}, 0 ∉ name →
    HasAt r off (name.flatMap fun c => Bytes.ofNat 2 c.toNat) → Chars r off name
  | [], _, _, _ => trivial
  | c :: name, off, h0, h => by
    rw [List.flatMap_cons, hasAt_append, length_ofNat] at h
    obtain ⟨hc, hname⟩ := not_or.1 (h0 ∘ List.mem_cons.2)
    exact ⟨Ne.symm hc, h.1.field (UInt16.toNat_lt c), chars_of hname h.2⟩

/-- A name is read back. -/
theorem attrAt_name (ml : Layout) {number : ℕ} {name : WString}
    (h : HasAt r off (nameBytes number name)) (hnumber : number < 2 ^ 16)
    (hlen : name ≠ [] ∧ name.length < 2 ^ 8) (h0 : 0 ∉ name) :
    HeadAt r off 0x30 (90 + 2 * name.length) 0 0 number
      ∧ AttrAt ml r off (.name ⟨fileRoot, 3, name⟩) := by
  simp only [nameBytes, hasAt_append, List.length_append, length_ofNat, length_attrBytes,
    length_valueBytes, Nat.reduceAdd, and_assoc] at h
  obtain ⟨hhead, hvalue, hdir, -, hlength, htype, hchars⟩ := h
  have hhead := headAt_of hhead (by omega)
  have hpos := List.length_pos_iff.2 hlen.1
  exact ⟨hhead, .name (hhead.residentAt hvalue (by omega)) (by omega) (hdir.field (by decide)) rfl
    (htype.field (by decide)) hlen.1 (hlength.field (by omega)) (chars_of h0 hchars)⟩

/-- A portion is read back. -/
theorem attrAt_data (ml : Layout) {flags number low size length lcn : ℕ}
    (h : HasAt r off (dataBytes flags number low size length lcn))
    (hlt : flags < 2 ^ 16 ∧ number < 2 ^ 16 ∧ low < 2 ^ 32 ∧ size < 2 ^ 64)
    (hrun : 0 < length ∧ length < 128 ∧ lcn < 128) (hin : lcn + length ≤ ml.totalClusters) :
    HeadAt r off 0x80 68 1 flags number ∧ field r (off + 48) 8 = some size
      ∧ AttrAt ml r off (.portion [] false (decide (flags % 2 = 1)) low [⟨some lcn, length⟩]) := by
  simp only [dataBytes, hasAt_append, List.length_append, length_ofNat, length_attrBytes,
    Nat.reduceAdd, and_assoc] at h
  obtain ⟨hhead, hlow, -, hoff, -, hsize, -, hruns⟩ := h
  have hhead := headAt_of hhead (by omega)
  have hn : StreamNameAt r off 0x80 [] := by
    have := @StreamNameAt.default r off 0x80 _ rfl hhead.unnamed
    rwa [if_pos (by decide)] at this
  have hval : ∀ n < 128, value [UInt8.ofNat n] = n ∧ signed [UInt8.ofNat n] = n := by
    decide +kernel
  have henc : Encodes 0 [⟨some lcn, length⟩] (r.drop (off + 64)) := by
    obtain ⟨post, hpost⟩ := hruns.drop
    rw [hpost]
    have := @Encodes.data 0 lcn [] [UInt8.ofNat length] [UInt8.ofNat lcn] _ (by simp) (by simp)
      (by rw [(hval lcn (by omega)).2]; simp) (.done lcn post)
    rwa [(hval length (by omega)).1] at this
  refine ⟨hhead, hsize.field (by omega), .portion hhead.type hhead.form (by decide) (by decide) hn
    hhead.flags ⟨hlow.field (by omega), ⟨64, hoff.field (by decide), henc⟩, ?_, ?_⟩⟩
  · simpa [OnVolume] using ⟨hrun.1, hin⟩
  · simp [vcns]
    omega

theorem attrAt_reparse (ml : Layout) (h : HasAt r off reparseBytes) :
    HeadAt r off 0xC0 32 0 0 0
      ∧ AttrAt ml r off (.resident (wide ":$REPARSE_POINT") true) := by
  simp only [reparseBytes, hasAt_append, List.length_append, length_attrBytes, length_valueBytes,
    Nat.reduceAdd, and_assoc] at h
  obtain ⟨hhead, hvalue, -⟩ := h
  have hhead := headAt_of hhead (by decide)
  have hres := hhead.residentAt hvalue (by decide)
  obtain ⟨at_, hoff, hat⟩ := hres.offset
  obtain rfl : at_ = 24 := by omega
  exact ⟨hhead, .resident hhead.type hhead.form hoff hres.length (by decide)
    (.default (by decide : _ = some (wide ":$REPARSE_POINT")) hhead.unnamed)⟩

theorem entryAt_of {type number mftId : ℕ}
    (h : HasAt r off (entryBytes type number mftId)) (hvalid : type ≠ 0 ∧ type ≠ 0xffffffff)
    (hlt : type < 2 ^ 32 ∧ number < 2 ^ 16 ∧ mftId < 2 ^ 48) :
    EntryAt r off 26 mftId ⟨type, none, number⟩ := by
  simp only [entryBytes, hasAt_append, List.length_append, length_ofNat, Nat.reduceAdd,
    and_assoc] at h
  obtain ⟨htype, hlong, h6, h7, -, href, hnumber⟩ := h
  exact ⟨htype.field (by omega), hvalid, hlong.field (by decide), by decide,
    ⟨mftId, href.field (by omega), Nat.mod_eq_of_lt hlt.2.2⟩, hnumber.field (by omega),
    h6.field (by decide), 0, h7.field (by decide)⟩

theorem ends_of {used base : ℕ} (h : HasAt r off endBytes) (hr : HeaderAt r used base) :
    Ends r off :=
  ⟨h.field (by decide), used, hr.used⟩

end Mft

end StopGap
