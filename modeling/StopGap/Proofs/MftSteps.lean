import StopGap.FullPaths

/-!
# What the scan of a record can do

Everything `analyze_file_record` does to the state between its first and its last loop is one of
five steps (`Stable`): a question is asked, the file information is refined, a stream that was not
found is put in front of the list, a flag of a stream is set, or a run list is read into its
disposition. What these steps keep is kept by the analysis of every record, whatever bytes it is
made of and whatever records its attribute lists lead to (`Stable.analyzeAttribute`). The loops over
attributes and over the entries of a list always end.
-/

namespace StopGap

namespace Mft

open Exec Exec.Prog Bytes

/-- Questions to the driver and the user leave `I` as it is. -/
def Asks (I : State → Prop) : Prop := ∀ s, I s → I { s with clock := s.clock + 1 }

/-- `I` is kept by all that is done to the state for one file. -/
structure Stable (env : Env) (I : State → Prop) : Prop where
  asked : Asks I
  informed : ∀ s (mfi : FileInformation), mfi.baseMftId = s.mfi.baseMftId → I s →
    I { s with mfi := mfi }
  added : ∀ s name, searchFilelist s.mfi.baseMftId name s.filelist = none → I s →
    I { s with filelist := newStream s.mfi.baseMftId name :: s.filelist }
  flagged : ∀ s i (flags : BitVec 32), I s →
    I { s with filelist := s.filelist.modify i fun f => { f with flags := f.flags ||| flags } }
  dumped : ∀ s i r pnr f disp, s.filelist[i]? = some f →
    readRunList env.ml r pnr f.disp = some disp → I s →
    I { s with filelist := s.filelist.modify i fun f => { f with disp := disp } }

theorem mem_modify {α : Type*} {g : α → α} {a : α} : ∀ {l : List α} {i : ℕ},
    a ∈ l.modify i g → a ∈ l ∨ ∃ b, l[i]? = some b ∧ a = g b
  | [], i, h => by cases i <;> simp at h
  | b :: l, 0, h => by
    rcases List.mem_cons.1 h with rfl | h
    · exact .inr ⟨b, rfl, rfl⟩
    · exact .inl (List.mem_cons_of_mem _ h)
  | b :: l, i + 1, h => by
    rcases List.mem_cons.1 h with rfl | h
    · exact .inl List.mem_cons_self
    · exact (mem_modify h).imp (List.mem_cons_of_mem _) fun h => h

theorem field_bound {buf : List UInt8} {off n x : ℕ} (h : field buf off n = some x) :
    off + n ≤ buf.length := by
  obtain ⟨bs, hbs, -⟩ := Option.map_eq_some_iff.1 h
  exact (slice_eq_some hbs).2

/-- What the loops check of an attribute they go on with. -/
theorem attributeAt_some {ml : Layout} {r : List UInt8} {attrOffset : BitVec 16}
    {pattr length : ℕ} (h : attributeAt ml r attrOffset pattr = some (some length)) :
    ∃ bytesInUse, field r 24 4 = some bytesInUse ∧ attributeLength r pattr = some length
      ∧ 24 ≤ length ∧ (attrOffset.toNat + length) % 2 ^ 32 ≤ bytesInUse
      ∧ (attrOffset.toNat + length) % 2 ^ 32 ≤ ml.fileRecordSize := by
  simp only [attributeAt, Option.bind_eq_bind, Option.bind_eq_some_iff] at h
  obtain ⟨bytesInUse, hb, h⟩ := h
  split_ifs at h with h1
  · simp at h
  obtain ⟨type, -, h⟩ := Option.bind_eq_some_iff.1 h
  split_ifs at h with h2
  · simp at h
  obtain ⟨length', hl, h⟩ := Option.bind_eq_some_iff.1 h
  split_ifs at h with h3 h4
  · simp at h
  · simp at h
  obtain ⟨nonresident, -, h⟩ := Option.bind_eq_some_iff.1 h
  split_ifs at h with h5 h6 h7
  · simp at h
  · obtain rfl : length' = length := by simpa using h
    exact ⟨bytesInUse, hb, hl, by omega, by omega, by omega⟩
  · simp at h
  · obtain rfl : length' = length := by simpa using h
    exact ⟨bytesInUse, hb, hl, by omega, by omega, by omega⟩

/-- What is assumed where an attribute is handed on is enough for what is to be shown there, `P`
being known of the places the loops come to. -/
structure Passes (ml : Layout) (A Φ : Mark → State → Prop) (P : List UInt8 → ℕ → Prop) : Prop where
  first : ∀ r off, field r 20 2 = some off → P r off
  next : ∀ r pattr length s, P r pattr →
    attributeAt ml r (BitVec.ofNat 16 pattr) pattr = some (some length) →
    A (.attribute r pattr length) s → Φ (.attribute r pattr length) s ∧ P r (pattr + length)

theorem Passes.of_forall {ml : Layout} {A Φ : Mark → State → Prop} (h : ∀ m s, A m s → Φ m s) :
    Passes ml A Φ fun _ _ => True :=
  ⟨fun _ _ _ => trivial, fun _ _ _ s _ _ hA => ⟨h _ s hA, trivial⟩⟩

section Keeps

variable {A Φ : Mark → State → Prop} {P : List UInt8 → ℕ → Prop} {I K : State → Prop} {env : Env}

theorem read_eq_some {α : Type} {x : Option α} {a : α}
    (h : x.elim (.error Fault.outside) Except.ok = .ok a) : x = some a := by
  rcases x with _ | b
  · cases h
  · exact congrArg some (Except.ok.inj h)

theorem keeps_read {α β : Type} {x : Option α} {f : α → M β}
    (h : ∀ a, x = some a → Keeps A Φ I K (f a)) : Keeps A Φ I K (read x >>= f) := by
  intro s hs
  exact Meets.lift_bind (fun a ha => h a (read_eq_some ha) s hs) fun _ _ => hs

theorem matchAttribute_type {r : List UInt8} {wanted : Wanted} {name name' : Option ℕ} {attr : ℕ}
    (h : matchAttribute r wanted name attr = some (true, name')) :
    attributeType r attr = some wanted.type := by
  simp only [matchAttribute, Option.bind_eq_bind] at h
  obtain ⟨type, htype, h⟩ := Option.bind_eq_some_iff.1 h
  split_ifs at h with hne
  · simp at h
  · rw [htype, not_not.1 hne]

theorem returns_ask_bind {β : Type} {f : ℕ → M β} {s : State} {R : β → State → Prop}
    (h : Returns (f s.clock) { s with clock := s.clock + 1 } R) : Returns (ask >>= f) s R :=
  h

theorem returns_read_bind {α β : Type} {x : Option α} {a : α} {f : α → M β} {s : State}
    {R : β → State → Prop} (hx : x = some a) (h : Returns (f a) s R) : Returns (read x >>= f) s R :=
  .lift_bind (by rw [hx]; rfl) h

namespace Asks

theorem ask (h : Asks I) : Keeps A Φ I K ask :=
  .get_bind fun _ => .bind (.modify h) fun _ => .pure _

theorem checkForTermination (h : Asks I) : Keeps A Φ I K (checkForTermination env) :=
  .get_bind fun _ => .ite (fun _ => .pure _) fun _ => .bind h.ask fun _ => .pure _

theorem getFileRecord (h : Asks I) (mftId : ℕ) : Keeps A Φ I K (getFileRecord env mftId) :=
  .bind h.ask fun _ => .pure _

/-- The loop over the attributes ends: each is some bytes long. -/
theorem walk {α : Type} (h : Asks I) (hp : Passes env.ml A Φ P) {r : List UInt8}
    {visit : α → ℕ → M (Option α)} (hvisit : ∀ a pattr, Keeps A Φ I K (visit a pattr)) :
    ∀ (fuel pattr : ℕ) (a : α), 0 < fuel → r.length < pattr + fuel → P r pattr →
      Keeps A Φ I K (Mft.walk env r visit fuel (BitVec.ofNat 16 pattr) pattr a)
  | 0, _, _, h0, _, _ => absurd h0 (lt_irrefl 0)
  | fuel + 1, pattr, a, _, hlen, hP => by
    refine .bind h.checkForTermination fun stop => .ite (fun _ => .pure _) fun _ => ?_
    refine keeps_read fun o ho => ?_
    rcases o with _ | length
    · exact .pure _
    · obtain ⟨-, -, hl, h24, -, -⟩ := attributeAt_some ho
      have := field_bound hl
      refine fun s hs => .mark_bind (fun hA => (hp.next r pattr length s hP ho hA).1) fun hA => ?_
      refine (Keeps.bind (hvisit a pattr) fun next => ?_) s hs
      rcases next with _ | a'
      · exact .pure _
      · rw [← BitVec.ofNat_add]
        exact walk h hp hvisit fuel _ a' (by omega) (by omega) (hp.next r pattr length s hP ho hA).2

theorem walkRecord {α : Type} (h : Asks I) (hp : Passes env.ml A Φ P) {r : List UInt8}
    {visit : α → ℕ → M (Option α)} (hvisit : ∀ a pattr, Keeps A Φ I K (visit a pattr)) (a : α) :
    Keeps A Φ I K (Mft.walkRecord env r visit a) :=
  keeps_read fun off hoff =>
    h.walk hp hvisit _ _ a (Nat.succ_pos _) (by omega) (hp.first r off hoff)

theorem enumerateAttributes (h : Asks I) (hp : Passes env.ml A Φ P) {r : List UInt8}
    {ah : ℕ → M Unit} (hah : ∀ pattr, Keeps A Φ I K (ah pattr)) :
    Keeps A Φ I K (Mft.enumerateAttributes env r ah) :=
  h.walkRecord hp (fun _ pattr => .bind (hah pattr) fun _ => .pure _) ()

end Asks

namespace Stable

theorem inform (h : Stable env I) {g : FileInformation → FileInformation}
    (hg : ∀ mfi, (g mfi).baseMftId = mfi.baseMftId) :
    Keeps A Φ I K (Prog.modify fun s => { s with mfi := g s.mfi } : M Unit) :=
  .modify fun s hs => h.informed s (g s.mfi) (hg s.mfi) hs

theorem findFilelistEntry (h : Stable env I) (name : WString) :
    Keeps A Φ I K (findFilelistEntry name) := by
  intro s hs
  refine Meets.get_bind ?_
  rcases hsearch : searchFilelist s.mfi.baseMftId name s.filelist with _ | i
  · exact Meets.modify_bind (Meets.pure (h.added s name hsearch hs))
  · exact Meets.pure hs

/-- The loop over the entries of an attribute list ends: each is some bytes long. -/
theorem attributeListLoop (h : Stable env I) {entry : List UInt8 → ℕ → M Unit} {buf : List UInt8}
    {stop : ℕ} (hentry : ∀ e, Keeps A Φ I K (entry buf e)) :
    ∀ fuel e : ℕ, 0 < fuel → stop < e + fuel →
      Keeps A Φ I K (Mft.attributeListLoop env entry buf stop fuel e)
  | 0, _, h0, _ => absurd h0 (lt_irrefl 0)
  | fuel + 1, e, _, hlen => by
    refine .bind h.asked.checkForTermination fun _ => .ite (fun _ => .pure _) fun _ =>
      .ite (fun _ => .pure _) fun hstop => keeps_read fun type _ => .ite (fun _ => .pure _) fun _ =>
      keeps_read fun length _ => .ite (fun _ => .pure _) fun hpos => .bind (hentry e) fun _ => ?_
    exact attributeListLoop h hentry fuel _ (by omega) (by omega)

theorem readBlock (h : Stable env I) : ∀ lcn n : ℕ, Keeps A Φ I K (Mft.readBlock env lcn n)
  | _, 0 => .pure _
  | lcn, n + 1 => by
    refine .bind h.asked.ask fun k => ?_
    rcases env.sectors k (lcn * env.ml.sectorsPerCluster) env.ml.clusterSize with _ | bytes
    · exact .pure _
    · refine .bind (readBlock h (lcn + 1) n) fun rest => ?_
      rcases rest with _ | rest <;> exact .pure _

theorem readClusters (h : Stable env I) :
    ∀ (left : ℕ) (bm : List Block), Keeps A Φ I K (Mft.readClusters env left bm)
  | 0, [] => .pure _
  | 0, _ :: _ => .pure _
  | _ + 1, [] => .pure _
  | left + 1, b :: bm => by
    refine .bind (h.readBlock _ _) fun bytes => ?_
    rcases bytes with _ | bytes
    · exact .pure _
    · refine .bind (readClusters h _ bm) fun rest => ?_
      rcases rest with _ | rest <;> exact .pure _

theorem analyzeNonResidentAttributeList (h : Stable env I) {entry : List UInt8 → ℕ → M Unit}
    (hentry : ∀ buf e, Keeps A Φ I K (entry buf e)) (bm : List Block) (listSize : ℕ) :
    Keeps A Φ I K (Mft.analyzeNonResidentAttributeList env entry bm listSize) := by
  refine .ite (fun _ => .pure _) fun _ => .bind (h.readClusters _ bm) fun cluster => ?_
  rcases cluster with _ | cluster
  · exact .pure _
  · exact h.attributeListLoop (hentry cluster) _ _ (Nat.succ_pos _) (by omega)

theorem modifyDisp (h : Stable env I) {s : State} {i pnr : ℕ} {r : List UInt8}
    {disp : Disposition} (hs : I s)
    (hdisp : readRunList env.ml r pnr ((s.filelist[i]?.map FileInfo.disp).getD .zero)
      = some disp) :
    I { s with filelist := s.filelist.modify i fun f => { f with disp := disp } } := by
  rcases hi : s.filelist[i]? with _ | f
  · rwa [List.modify_eq_self (List.getElem?_eq_none_iff.1 hi)]
  · rw [hi] at hdisp
    exact h.dumped s i r pnr f disp hi hdisp hs

theorem dumpStream (h : Stable env I) (r : List UInt8) (pnr i : ℕ) :
    Keeps A Φ I K (Mft.dumpStream env r pnr i) := by
  intro s hs
  refine Meets.get_bind (Meets.lift_bind (fun disp hdisp => ?_) fun _ _ => hs)
  exact Meets.modify (h.modifyDisp hs (read_eq_some hdisp))

theorem processRunList (h : Stable env I) {entry : List UInt8 → ℕ → M Unit} {isAttrList : Bool}
    (hentry : isAttrList = true → ∀ buf e, Keeps A Φ I K (entry buf e)) (name : WString)
    (r : List UInt8) (pnr : ℕ) :
    Keeps A Φ I K (Mft.processRunList env entry name r pnr isAttrList) := by
  refine .bind (h.findFilelistEntry name) fun i => keeps_read fun flags _ => ?_
  refine .bind (.when fun _ => .modify fun s hs => h.flagged s i _ hs) fun _ => ?_
  refine .get_bind fun s => .ite (fun _ => .pure _) fun _ => ?_
  refine .bind (.when fun _ => h.dumpStream r pnr i) fun _ => .when fun hlist => ?_
  exact .get_bind fun s' => keeps_read fun listSize _ =>
    h.analyzeNonResidentAttributeList (hentry hlist) _ _

theorem flagReparsePoint (h : Stable env I) : Keeps A Φ I K flagReparsePoint :=
  h.inform (g := fun mfi => { mfi with flags := mfi.flags ||| attributeReparsePoint }) fun _ => rfl

/-- An attribute leads to the entries of a list only if it is one. -/
theorem analyzeNonResidentStream (h : Stable env I) {entry : List UInt8 → ℕ → M Unit}
    {r : List UInt8} {pnr : ℕ}
    (hentry : attributeType r pnr = some 0x20 → ∀ buf e, Keeps A Φ I K (entry buf e)) :
    Keeps A Φ I K (Mft.analyzeNonResidentStream env entry r pnr) := by
  refine keeps_read fun type htype => .bind (.when fun _ => h.flagReparsePoint) fun _ =>
    keeps_read fun name _ => ?_
  rcases name with _ | name
  · exact .pure _
  · refine h.processRunList (fun hlist => hentry ?_) name r pnr
    rw [htype, of_decide_eq_true hlist]

theorem updateFileName (h : Stable env I) (r : List UInt8) (value valueLength : ℕ) :
    Keeps A Φ I K (Mft.updateFileName r value valueLength) := by
  refine keeps_read fun fn _ => ?_
  rcases fn with _ | fn
  · exact .pure _
  · exact h.inform (g := fun mfi => mfi.addName fn) fun mfi => by
      unfold FileInformation.addName
      split_ifs <;> rfl

theorem addStream (h : Stable env I) (name : Option WString) :
    Keeps A Φ I K (Mft.addStream name) := by
  rcases name with _ | name
  · exact .pure _
  · exact .bind (h.findFilelistEntry name) fun _ => .pure _

theorem analyzeResidentStream (h : Stable env I) {entry : List UInt8 → ℕ → M Unit}
    {r : List UInt8} {pr : ℕ}
    (hentry : attributeType r pr = some 0x20 → ∀ buf e, Keeps A Φ I K (entry buf e)) :
    Keeps A Φ I K (Mft.analyzeResidentStream env entry r pr) := by
  refine keeps_read fun name _ => .bind (h.addStream name) fun _ =>
    keeps_read fun valueOffset _ => keeps_read fun valueLength _ => .ite (fun _ => .pure _) fun _ =>
    keeps_read fun type htype => .ite (fun _ => ?_) fun _ => .ite (fun _ => ?_) fun _ =>
    .ite (fun hlist => ?_) fun _ => ?_
  · exact .ite (fun _ => .pure _) fun _ => keeps_read fun attributes _ =>
      h.inform (g := fun mfi => { mfi with flags := mfi.flags ||| BitVec.ofNat 32 attributes })
        fun _ => rfl
  · exact h.updateFileName r _ _
  · exact h.attributeListLoop (hentry (htype.trans (congrArg some hlist)) r) _ _ (Nat.succ_pos _)
      (by omega)
  · exact .when fun _ => h.flagReparsePoint

theorem analyzeAttribute (h : Stable env I) {entry : List UInt8 → ℕ → M Unit}
    {r : List UInt8} {pattr : ℕ}
    (hentry : attributeType r pattr = some 0x20 → ∀ buf e, Keeps A Φ I K (entry buf e)) :
    Keeps A Φ I K (Mft.analyzeAttribute env entry r pattr) :=
  keeps_read fun _ _ => .ite (fun _ => h.analyzeNonResidentStream hentry) fun _ =>
    h.analyzeResidentStream hentry

/-- The attribute found is of the type wanted. -/
theorem analyzeSingleAttribute (h : Stable env I) {analyze : List UInt8 → ℕ → M Unit}
    {r : List UInt8} {wanted : Wanted}
    (hp : Passes env.ml A Φ P)
    (hanalyze : ∀ pattr, attributeType r pattr = some wanted.type →
      Keeps A Φ I K (analyze r pattr)) :
    Keeps A Φ I K (Mft.analyzeSingleAttribute env analyze r wanted) := by
  refine h.asked.walkRecord hp (fun name attr => keeps_read fun found hfound => ?_) none
  rcases found with ⟨_ | _, name'⟩
  · exact .pure _
  · exact .bind (hanalyze attr (matchAttribute_type hfound)) fun _ => .pure _

theorem analyzeAttributeFromMftRecord (h : Stable env I) {analyze : List UInt8 → ℕ → M Unit}
    {wanted : Wanted}
    (hp : Passes env.ml A Φ P)
    (hanalyze : ∀ r pattr, attributeType r pattr = some wanted.type →
      Keeps A Φ I K (analyze r pattr)) (mftId : ℕ) :
    Keeps A Φ I K (Mft.analyzeAttributeFromMftRecord env analyze mftId wanted) := by
  refine .get_bind fun s => .ite (fun _ => .pure _) fun _ =>
    .bind (h.asked.getFileRecord mftId) fun record => ?_
  rcases record with _ | record
  · exact .pure _
  · exact .ite (fun _ => .pure _) fun _ => keeps_read fun _ _ => .ite (fun _ => .pure _) fun _ =>
      keeps_read fun _ _ => .ite (fun _ => .pure _) fun _ => keeps_read fun _ _ =>
      .ite (fun _ => .pure _) fun _ => h.analyzeSingleAttribute hp (hanalyze _)

/-- The entries of attribute lists, with a bound on how deep lists lead to lists. -/
theorem analyzeEntry (h : Stable env I)
    (hp : Passes env.ml A Φ P)
    (hentry : ∀ type s, A (.entry type) s → Φ (.entry type) s) (hspent : ∀ s, I s → K s) :
    ∀ (depth : ℕ) (buf : List UInt8) (e : ℕ), Keeps A Φ I K (Mft.analyzeEntry env depth buf e)
  | 0, _, _ => .spent hspent
  | depth + 1, _, _ => keeps_read fun _ _ => .bind (.mark (hentry _)) fun _ =>
      h.analyzeAttributeFromMftRecord hp
        (fun _ _ _ => h.analyzeAttribute fun _ => analyzeEntry h hp hentry hspent depth) _

/-- Where no entry names a list, one level is enough. -/
theorem analyzeEntry_flat (h : Stable env I)
    (hp : Passes env.ml A Φ P)
    (hentry : ∀ type s, A (.entry type) s → Φ (.entry type) s) (hflat : ∀ s, ¬ A (.entry 0x20) s)
    (depth : ℕ) (buf : List UInt8) (e : ℕ) :
    Keeps A Φ I K (Mft.analyzeEntry env (depth + 1) buf e) := by
  refine keeps_read fun p _ s hs => Meets.mark_bind (hentry _ s) fun hA =>
    h.analyzeAttributeFromMftRecord hp (fun r pattr htype => h.analyzeAttribute fun h20 => ?_) _
      s hs
  rw [htype] at h20
  exact absurd (Option.some.inj h20 ▸ hA) (hflat s)

/-- A record leaves the list as it is, or it is analyzed: the file information is set anew, streams
are added and filled, and named at the end. -/
theorem analyzeFileRecord (h : Stable env I) {J : State → Prop} {depth : ℕ} {record : FileRecord}
    (hp : Passes env.ml A Φ P)
    (hentry : ∀ buf e, Keeps A Φ I K (Mft.analyzeEntry env depth buf e)) {s : State} (hskip : J s)
    (hstart : ∀ mfi : FileInformation, mfi.baseMftId = mftIdOf record.fileReferenceNumber →
      I { s with mfi := mfi })
    (hend : ∀ s', I s' → J { s' with filelist := nameStreams s'.mfi s'.filelist }) :
    Meets A Φ (Mft.analyzeFileRecord env depth record) s
      ⟨fun _ => J, fun _ => False, fun _ _ => True, K⟩ := by
  refine Meets.lift_bind (fun tag _ => .ite (fun _ => .pure hskip) fun _ => ?_) fun _ _ => trivial
  refine Meets.lift_bind (fun flags _ => .ite (fun _ => .pure hskip) fun _ => ?_) fun _ _ => trivial
  refine Meets.lift_bind (fun base _ => .ite (fun _ => .pure hskip) fun _ => ?_) fun _ _ => trivial
  refine Meets.modify_bind ?_
  have hanalyze : ∀ c : ℕ → Prop, ∀ [DecidablePred c], Keeps A Φ I K
      (Mft.enumerateAttributes env record.buffer fun pattr => do
        let type ← read (attributeType record.buffer pattr)
        when (c type)
          (Mft.analyzeAttribute env (Mft.analyzeEntry env depth) record.buffer pattr)) :=
    fun c _ => h.asked.enumerateAttributes hp fun pattr => keeps_read fun type _ => .when fun _ =>
      h.analyzeAttribute fun _ => hentry
  refine (hanalyze (· ≠ 0x20) _ (hstart _ rfl)).bind (fun _ s₁ hs₁ => ?_) (by simp) (by simp)
    fun _ hK => hK
  refine (hanalyze (· = 0x20) s₁ hs₁).bind (fun _ s₂ hs₂ => ?_) (by simp) (by simp) fun _ hK => hK
  exact Meets.modify (hend s₂ hs₂)

end Stable

/-- The loop over the records: `J` holds whenever a record is asked for, `Q` at the end. It asks for
an earlier one each time, so that as many steps as there are records are enough. -/
theorem scanRecords_rule {J : ℕ → State → Prop} {Q : State → Prop} {depth : ℕ}
    (hask : ∀ n, Asks (J n))
    (hdown : ∀ n s, J (n + 1) s → J n s) (hquit : ∀ n s, J n s → Q s)
    (hmark : ∀ n id s, A (.record n id) s → Φ (.record n id) s)
    (hanalyze : ∀ n s record, J n s → A (.record n (mftIdOf record.fileReferenceNumber)) s →
      Meets A Φ (analyzeFileRecord env depth record) s
        ⟨fun _ s' => Q s' ∧ ∀ m, m < n → m < mftIdOf record.fileReferenceNumber → J m s',
          fun _ => False, fun _ _ => True, K⟩) :
    ∀ (fuel n : ℕ) (s : State), n < fuel → J n s → Meets A Φ (scanRecords env depth fuel n) s
      ⟨fun _ s' => Q s', fun _ => False, fun _ _ => True, K⟩
  | 0, _, _, hfuel, _ => absurd hfuel (Nat.not_lt_zero _)
  | fuel + 1, n, s, hfuel, hs => by
    refine ((hask n).checkForTermination s hs).bind
      (fun stop s₁ hs₁ => .ite (fun _ => .pure (hquit n s₁ hs₁)) fun _ => ?_) (by simp) (by simp)
      fun _ hK => hK
    refine ((hask n).getFileRecord n s₁ hs₁).bind (fun record s₂ hs₂ => ?_) (by simp) (by simp)
      fun _ hK => hK
    rcases record with _ | record
    · refine .ite (fun _ => .pure (hquit n s₂ hs₂)) fun h0 => ?_
      obtain ⟨m, rfl⟩ := Nat.exists_eq_succ_of_ne_zero h0
      exact scanRecords_rule hask hdown hquit hmark hanalyze fuel m s₂ (by omega)
        (hdown m s₂ hs₂)
    · refine Meets.mark_bind (hmark _ _ s₂) fun hA => ?_
      refine (hanalyze n s₂ record hs₂ hA).bind (fun _ s₃ hs₃ => ?_) (by simp) (by simp)
        fun _ hK => hK
      obtain ⟨hQ, hnext⟩ := hs₃
      refine .ite (fun _ => .pure hQ) fun h0 => .ite (fun hlt => ?_) fun hge => ?_
      · exact scanRecords_rule hask hdown hquit hmark hanalyze fuel _ s₃ (by omega)
          (hnext _ (by omega) (by omega))
      · exact scanRecords_rule hask hdown hquit hmark hanalyze fuel _ s₃ (by omega)
          (hnext _ (by omega) (by omega))

/-- `I` is kept by all that is done to the state once the records are read. Of the path of a stream
in the root directory it is known which one it is. -/
structure Settles (env : Env) (I : State → Prop) : Prop where
  asked : Asks I
  failed : ∀ s, I s → I { s with errors := s.errors + 1 }
  pathed : ∀ s i f path, s.filelist[i]? = some f →
    (f.parentDirectoryMftId = fileRoot → path = nativePath env (snwprintf f.name)) → I s →
    I { s with filelist := s.filelist.modify i fun f => { f with path := some path } }
  validated : ∀ s i, I s →
    I { s with filelist := s.filelist.modify i fun f => { f with disp := validateBlockmap f.disp } }

/-- The walk up through the parent directories asks and counts errors, no more. -/
theorem Asks.parentLoop (h : Asks I) (hfail : ∀ s, I s → I { s with errors := s.errors + 1 })
    (hspent : ∀ s, I s → K s) :
    ∀ (fuel parent : ℕ) (child : WString), Keeps A Φ I K (Mft.parentLoop env fuel parent child)
  | 0, _, _ => .spent hspent
  | fuel + 1, parent, _ => by
    refine .ite (fun _ => .pure _) fun _ => .bind h.checkForTermination fun _ =>
      .ite (fun _ => .pure _) fun _ => .bind (.get_bind fun s => ?_) fun _ =>
      .ite (fun _ => .pure _) fun _ => parentLoop h hfail hspent fuel _ _
    rcases findDirectoryByMftId env s.filelist parent with _ | f
    · exact .bind (.modify hfail) fun _ => .pure _
    · exact .pure _

namespace Settles

theorem buildFilePath (h : Settles env I) (hspent : ∀ s, I s → K s) (fuel : ℕ) {i : ℕ}
    {f : FileInfo} {s : State} (hs : I s) (hf : s.filelist[i]? = some f) :
    Meets A Φ (Mft.buildFilePath env fuel i f) s
      ⟨fun _ => I, fun _ => False, fun _ => I, K⟩ := by
  have hwalk : Meets A Φ (Mft.parentLoop env fuel f.parentDirectoryMftId (snwprintf f.name)) s
      ⟨fun r s' => (I s' ∧ s'.filelist[i]? = some f)
        ∧ (f.parentDirectoryMftId = fileRoot → ∀ child, r = some child → child = snwprintf f.name),
        fun _ => False, fun _ => I, K⟩ := by
    by_cases hroot : f.parentDirectoryMftId = fileRoot
    · rcases fuel with _ | fuel
      · exact .spent (hspent s hs)
      · exact .ite (fun _ => .pure ⟨⟨hs, hf⟩, fun _ _ hr => (Option.some.inj hr).symm⟩)
          fun hne => absurd hroot hne
    · have hask : Asks fun s => I s ∧ s.filelist[i]? = some f :=
        fun s hs => ⟨h.asked s hs.1, hs.2⟩
      exact (hask.parentLoop (K := K) (fun s hs => ⟨h.failed s hs.1, hs.2⟩)
        (fun s hs => hspent s hs.1) fuel _ _ s ⟨hs, hf⟩).mono
        (fun r s' hs' => ⟨hs', fun hr => absurd hr hroot⟩) (by simp) fun _ _ hs' => hs'.1
  refine hwalk.bind fun child s' ⟨hs', hchild⟩ => ?_
  rcases child with _ | child
  · exact .pure hs'.1
  · exact .modify (h.pathed s' i f _ hs'.2 (fun hr => by rw [hchild hr child rfl]) hs'.1)

theorem buildFullPaths (h : Settles env I) (hspent : ∀ s, I s → K s) (fuel : ℕ) :
    ∀ left i : ℕ, Keeps A Φ I K (Mft.buildFullPaths env fuel left i)
  | 0, _ => .pure _
  | left + 1, i => by
    refine .bind h.asked.checkForTermination fun _ => .ite (fun _ => .pure _) fun _ s hs =>
      .get_bind ?_
    rcases hf : s.filelist[i]? with _ | f
    · exact .pure hs
    · exact (h.buildFilePath hspent fuel hs hf).bind fun _ s' hs' =>
        buildFullPaths h hspent fuel left (i + 1) s' hs'

theorem validateStreams (h : Settles env I) :
    ∀ left i : ℕ, Keeps A Φ I K (Mft.validateStreams env left i)
  | 0, _ => .pure _
  | left + 1, i => .bind h.asked.checkForTermination fun _ => .ite (fun _ => .pure _) fun _ =>
      .bind (.modify fun s hs => h.validated s i hs) fun _ => validateStreams h left (i + 1)

end Settles

theorem Asks.getNumberOfFileRecords (h : Asks I)
    (hp : Passes env.ml A Φ P)
    (hnumber : ∀ s n, I s → I { s with numberOfFileRecords := n }) {s : State} (hs : I s) :
    Meets A Φ (Mft.getNumberOfFileRecords env) s
      ⟨fun ok s' => I s' ∧ (ok = true → 0 < s'.numberOfFileRecords), fun _ => False, fun _ => I,
        K⟩ := by
  have hfail : ∀ {s : State}, I s → I s ∧ (false = true → 0 < s.numberOfFileRecords) :=
    fun hs => ⟨hs, fun h => absurd h (by simp)⟩
  refine Meets.modify_bind ((h.getFileRecord 0).bind_meets (hnumber s 0 hs) (fun o s₁ hs₁ => ?_)
    (fun _ _ h => h) fun _ h => h)
  rcases o with _ | record
  · exact .pure (hfail hs₁)
  refine .ite (fun _ => .pure (hfail hs₁)) fun _ => ?_
  refine .lift_bind (fun tag _ => .ite (fun _ => .pure (hfail hs₁)) fun _ => ?_) fun _ _ => hs₁
  refine .lift_bind (fun flags _ => .ite (fun _ => .pure (hfail hs₁)) fun _ => ?_) fun _ _ => hs₁
  refine (h.enumerateAttributes hp fun pattr => ?_).bind_meets hs₁
    (fun _ s₂ hs₂ => .get_bind (.pure ⟨hs₂, fun hn => ?_⟩)) (fun _ _ h => h) fun _ h => h
  · exact keeps_read fun _ _ => keeps_read fun _ _ => .when fun _ => keeps_read fun _ _ =>
      .modify fun s hs => hnumber s _ hs
  · exact Nat.pos_of_ne_zero (of_decide_eq_true hn)

/-- A whole scan: `J n` holds whenever record `n` is asked for, `Q` from the last record on. -/
theorem ntfsScanDisk_rule {J : ℕ → State → Prop} {Q : State → Prop} {depth pathFuel : ℕ}
    (hask : ∀ n, Asks (J n)) (hdown : ∀ n s, J (n + 1) s → J n s) (hquit : ∀ n s, J n s → Q s)
    (hnumber : ∀ s n, (∀ m, J m s) → ∀ m, J m { s with numberOfFileRecords := n })
    (hp : Passes env.ml A Φ P) (hmark : ∀ n id s, A (.record n id) s → Φ (.record n id) s)
    (hanalyze : ∀ n s record, J n s → A (.record n (mftIdOf record.fileReferenceNumber)) s →
      Meets A Φ (analyzeFileRecord env depth record) s
        ⟨fun _ s' => Q s' ∧ ∀ m, m < n → m < mftIdOf record.fileReferenceNumber → J m s',
          fun _ => False, fun _ _ => True, fun _ => True⟩)
    (hsettle : Settles env Q) {s : State} (hs : ∀ m, J m s) :
    Meets A Φ (ntfsScanDisk env depth pathFuel) s
      ⟨fun files s' => Q s' ∧ ∀ l, files = some l → s'.filelist = l, fun _ => False,
        fun _ _ => True, fun _ => True⟩ := by
  have hall : Asks fun s => ∀ m, J m s := fun s hs m => hask m s (hs m)
  have hscan : Meets A Φ (scanMft env depth pathFuel) s
      ⟨fun _ => Q, fun _ => False, fun _ _ => True, fun _ => True⟩ := by
    refine (hall.getNumberOfFileRecords (K := fun _ => True) hp hnumber hs).bind
      (fun ok s₁ hs₁ => .ite (fun hok => .get_bind ?_) fun _ => .pure (hquit 0 s₁ (hs₁.1 0)))
      (by simp) (by simp) (by simp)
    have hpos := hs₁.2 hok
    refine (scanRecords_rule hask hdown hquit hmark hanalyze _ _ s₁ (by omega)
      (hs₁.1 _)).bind (fun ok s₂ hs₂ => .ite (fun _ => .get_bind ?_) fun _ => .pure hs₂)
    exact (hsettle.buildFullPaths (K := fun _ => True) (fun _ _ => trivial) _ _ _).bind_meets hs₂
      (fun _ s₃ hs₃ => .pure hs₃) (by simp) (by simp)
  refine Meets.bind (Q := ⟨fun _ => Q, fun _ => False, fun _ _ => True, fun _ => True⟩) ?_
    fun ok s' hs' => .get_bind (.pure ⟨hs', fun l hl => ?_⟩)
  · refine hscan.bind fun ok s₁ hs₁ => .ite (fun _ => .get_bind ?_) fun _ => .pure hs₁
    exact (hsettle.validateStreams (K := fun _ => True) _ _).bind_meets hs₁
      (fun _ s₂ hs₂ => .get_bind (.pure hs₂)) (by simp) (by simp)
  · split_ifs at hl
    exact Option.some.inj hl

/-- What holds of the list whichever file is analyzed holds at the end of a whole scan. -/
theorem ntfsScanDisk_keeps {Q : State → Prop} {depth pathFuel : ℕ} (h : Stable env I)
    (hp : Passes env.ml A Φ P) (hentry : ∀ type s, A (.entry type) s → Φ (.entry type) s)
    (hrecord : ∀ n id s, A (.record n id) s → Φ (.record n id) s)
    (hfile : ∀ s mfi, I s → I { s with mfi := mfi })
    (hname : ∀ s, I s → I { s with filelist := nameStreams s.mfi s.filelist })
    (hnumber : ∀ s n, I s → I { s with numberOfFileRecords := n }) (hquit : ∀ s, I s → Q s)
    (hsettle : Settles env Q) {s : State} (hs : I s) :
    Meets A Φ (ntfsScanDisk env depth pathFuel) s
      ⟨fun files s' => Q s' ∧ ∀ l, files = some l → s'.filelist = l, fun _ => False,
        fun _ _ => True, fun _ => True⟩ := by
  refine ntfsScanDisk_rule (J := fun _ => I) (fun _ => h.asked) (fun _ _ hs => hs)
    (fun _ => hquit) (fun s n hs m => hnumber s n (hs m)) hp hrecord (fun n s record hs _ => ?_)
    hsettle fun _ => hs
  exact (h.analyzeFileRecord (J := I) (K := fun _ => True) hp
    (h.analyzeEntry hp hentry (fun _ _ => trivial) depth) hs (fun mfi _ => hfile s mfi hs)
    hname).mono fun _ s' hs' => ⟨hquit s' hs', fun _ _ _ => hs'⟩

end Keeps

end Mft

end StopGap
