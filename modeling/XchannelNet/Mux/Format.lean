import XchannelNet.Channel.Log
import XchannelNet.Lib.Bytes

/-!
# Topic record format

The bytes a mux commits into its topic. A data record carries an 18-byte
provenance prefix in front of the member's own payload; the mux's control
records live in a reserved range of message types. A slot table says which
member each `member_ref` denotes from its position in the log onwards, and
how far that member had been merged when the table was written.
-/

namespace XchannelNet.Mux

/-- Bytes of the provenance prepended to every data record. -/
def PROVENANCE_LEN : ℕ := 18

/-- Message types from here on are the mux's own. -/
def RESERVED_MSG_TYPE_MIN : UInt16 := 0xFFF0

def MSG_TYPE_SLOT_TABLE : UInt16 := 0xFFFF
def MSG_TYPE_TOPIC_GAP : UInt16 := 0xFFFE
def MSG_TYPE_MEMBER_CLOSED : UInt16 := 0xFFFD
def MSG_TYPE_TERMINAL : UInt16 := 0xFFFC
def MSG_TYPE_MEMBER_REGRESSED : UInt16 := 0xFFFB

/-- The slot table is re-emitted at least once per this many merged records. -/
def SLOT_TABLE_REFRESH : ℕ := 4096

/-- Framing overhead of a record, for deciding when to roll. -/
def RECORD_OVERHEAD : ℕ := 16

def SLOT_TABLE_VERSION : UInt8 := 2

/-- Whether a message type is a mux control record. -/
def isControl (msgType : UInt16) : Bool := RESERVED_MSG_TYPE_MIN ≤ msgType

theorem ne_slotTable_of_not_control {msgType : UInt16} (h : isControl msgType = false) :
    msgType ≠ MSG_TYPE_SLOT_TABLE := by
  rintro rfl
  cases h

/-- How one write to the topic can go wrong. -/
inductive WriteError where
  | exceedsMtu
  | failed
  | killed
  deriving DecidableEq, Repr

inductive MuxError where
  | shortProvenance
  | shortMarker
  | truncatedSlotTable
  | slotTableVersion (version : UInt8)
  | slotNameNotUtf8
  | retired
  | refSpaceExhausted
  | source
  | seekBlocked
  | writer (e : WriterError)
  | write (e : WriteError)
  deriving DecidableEq, Repr

/-! ## Data records -/

structure Provenance where
  memberRef : UInt16
  memberIndex : UInt64
  origUserMeta : UInt64
  deriving DecidableEq, Repr

namespace Provenance

def toPrefix (p : Provenance) : List UInt8 :=
  Bytes.encode 2 p.memberRef.toNat ++ Bytes.encode 8 p.memberIndex.toNat ++
    Bytes.encode 8 p.origUserMeta.toNat

/-- Parse the provenance off the front of a topic record's payload. -/
def split (payload : List UInt8) : Except MuxError (Provenance × List UInt8) :=
  if payload.length < PROVENANCE_LEN then .error .shortProvenance
  else
    let head := payload.take PROVENANCE_LEN
    .ok
      ({ memberRef := UInt16.ofNat (Bytes.decode (head.take 2))
         memberIndex := UInt64.ofNat (Bytes.decode ((head.drop 2).take 8))
         origUserMeta := UInt64.ofNat (Bytes.decode ((head.drop 10).take 8)) },
        payload.drop PROVENANCE_LEN)

end Provenance

/-- The payload of a data record. -/
def frameData (p : Provenance) (body : List UInt8) : List UInt8 := p.toPrefix ++ body

/-! ## Markers -/

/-- A marker of a member reference and two indices. -/
def markerPayload (memberRef : UInt16) (a b : UInt64) : List UInt8 :=
  Bytes.encode 2 memberRef.toNat ++ Bytes.encode 8 a.toNat ++ Bytes.encode 8 b.toNat

def decodeMarker (b : List UInt8) : Except MuxError (UInt16 × UInt64 × UInt64) :=
  if b.length < 18 then .error .shortMarker
  else
    .ok (UInt16.ofNat (Bytes.decode (b.take 2)),
      UInt64.ofNat (Bytes.decode ((b.drop 2).take 8)),
      UInt64.ofNat (Bytes.decode ((b.drop 10).take 8)))

/-- Records `[fromIndex, resumedAt)` of a member had aged out. -/
structure TopicGap where
  memberRef : UInt16
  fromIndex : UInt64
  resumedAt : UInt64
  deriving DecidableEq, Repr

def TopicGap.toPayload (g : TopicGap) : List UInt8 :=
  markerPayload g.memberRef g.fromIndex g.resumedAt

def TopicGap.decode (b : List UInt8) : Except MuxError TopicGap :=
  (decodeMarker b).map fun x => ⟨x.1, x.2.1, x.2.2⟩

/-- A member's log ended before the cursor recovered for it. -/
structure MemberRegressed where
  memberRef : UInt16
  expected : UInt64
  head : UInt64
  deriving DecidableEq, Repr

def MemberRegressed.toPayload (r : MemberRegressed) : List UInt8 :=
  markerPayload r.memberRef r.expected r.head

def MemberRegressed.decode (b : List UInt8) : Except MuxError MemberRegressed :=
  (decodeMarker b).map fun x => ⟨x.1, x.2.1, x.2.2⟩

/-- A member left cleanly, drained to `finalIndex`. -/
structure MemberClosed where
  memberRef : UInt16
  finalIndex : UInt64
  deriving DecidableEq, Repr

def MemberClosed.toPayload (c : MemberClosed) : List UInt8 :=
  Bytes.encode 2 c.memberRef.toNat ++ Bytes.encode 8 c.finalIndex.toNat

def MemberClosed.decode (b : List UInt8) : Except MuxError MemberClosed :=
  if b.length < 10 then .error .shortMarker
  else .ok ⟨UInt16.ofNat (Bytes.decode (b.take 2)),
    UInt64.ofNat (Bytes.decode ((b.drop 2).take 8))⟩

/-! ## Slot tables -/

/-- The topic's writer configuration. -/
structure TopicGeometry where
  regionSize : UInt32
  mtu : UInt32
  fileRollSize : UInt64
  keepFiles : UInt32
  deriving DecidableEq, Repr

structure SlotEntry where
  memberRef : UInt16
  name : ChannelName
  epoch : UInt64
  cursor : UInt64
  deriving DecidableEq, Repr

structure SlotTable where
  geometry : TopicGeometry
  members : List SlotEntry
  deriving DecidableEq, Repr

/-- The UTF-8 bytes of a name. -/
def nameBytes (name : ChannelName) : List UInt8 := name.toUTF8.data.toList

/-- The name some bytes spell, if they are UTF-8. -/
def nameOfBytes (b : List UInt8) : Option ChannelName := String.fromUTF8? ⟨b.toArray⟩

def encodeEntry (e : SlotEntry) : List UInt8 :=
  Bytes.encode 2 e.memberRef.toNat ++ (Bytes.encode 8 e.epoch.toNat ++
    (Bytes.encode 8 e.cursor.toNat ++ (Bytes.encode 2 (nameBytes e.name).length ++
      nameBytes e.name)))

def encodeSlotTable (g : TopicGeometry) (entries : List SlotEntry) : List UInt8 :=
  SLOT_TABLE_VERSION :: (Bytes.encode 4 g.regionSize.toNat ++ (Bytes.encode 4 g.mtu.toNat ++
    (Bytes.encode 8 g.fileRollSize.toNat ++ (Bytes.encode 4 g.keepFiles.toNat ++
      (Bytes.encode 2 entries.length ++ entries.flatMap encodeEntry)))))

/-- `take` with the error of a truncated slot table. -/
def take (n : ℕ) (b : List UInt8) : Except MuxError (List UInt8 × List UInt8) :=
  match Bytes.take n b with
  | some x => .ok x
  | none => .error .truncatedSlotTable

def decodeEntry (b : List UInt8) : Except MuxError (SlotEntry × List UInt8) := do
  let (memberRef, b) ← take 2 b
  let (epoch, b) ← take 8 b
  let (cursor, b) ← take 8 b
  let (nameLen, b) ← take 2 b
  let (name, b) ← take (Bytes.decode nameLen) b
  match nameOfBytes name with
  | none => .error .slotNameNotUtf8
  | some name =>
    .ok (⟨UInt16.ofNat (Bytes.decode memberRef), name, UInt64.ofNat (Bytes.decode epoch),
      UInt64.ofNat (Bytes.decode cursor)⟩, b)

/-- Decode `count` entries; what follows them is not looked at. -/
def decodeEntries : ℕ → List UInt8 → Except MuxError (List SlotEntry)
  | 0, _ => .ok []
  | count + 1, b => do
    let (e, b) ← decodeEntry b
    let es ← decodeEntries count b
    .ok (e :: es)

def decodeSlotTable (b : List UInt8) : Except MuxError SlotTable := do
  let (version, b) ← take 1 b
  if version ≠ [SLOT_TABLE_VERSION] then
    .error (.slotTableVersion (version.headD 0))
  else
    let (regionSize, b) ← take 4 b
    let (mtu, b) ← take 4 b
    let (fileRollSize, b) ← take 8 b
    let (keepFiles, b) ← take 4 b
    let (count, b) ← take 2 b
    let members ← decodeEntries (Bytes.decode count) b
    .ok
      { geometry :=
          { regionSize := UInt32.ofNat (Bytes.decode regionSize)
            mtu := UInt32.ofNat (Bytes.decode mtu)
            fileRollSize := UInt64.ofNat (Bytes.decode fileRollSize)
            keepFiles := UInt32.ofNat (Bytes.decode keepFiles) }
        members }

/-! ## Round trips -/

theorem split_frameData (p : Provenance) (body : List UInt8) :
    Provenance.split (frameData p body) = .ok (p, body) := by
  obtain ⟨memberRef, memberIndex, origUserMeta⟩ := p
  have hlen : ¬ (frameData ⟨memberRef, memberIndex, origUserMeta⟩ body).length <
      PROVENANCE_LEN := by
    simp only [frameData, Provenance.toPrefix, PROVENANCE_LEN, List.length_append,
      Bytes.length_encode]
    omega
  rw [Provenance.split, if_neg hlen]
  simp [frameData, Provenance.toPrefix, PROVENANCE_LEN, List.take_append, List.drop_append]

theorem decodeMarker_markerPayload (memberRef : UInt16) (a b : UInt64) :
    decodeMarker (markerPayload memberRef a b) = .ok (memberRef, a, b) := by
  have hlen : ¬ (markerPayload memberRef a b).length < 18 := by simp [markerPayload]
  rw [decodeMarker, if_neg hlen]
  simp [markerPayload, List.drop_append]

theorem nameOfBytes_nameBytes (name : ChannelName) : nameOfBytes (nameBytes name) = some name := by
  have hbytes : (⟨(nameBytes name).toArray⟩ : ByteArray) = name.toUTF8 := by
    simp [nameBytes]
  rw [nameOfBytes, hbytes]
  exact dif_pos name.isValidUTF8

/-- An entry whose name length fits its two bytes is read back. -/
theorem decodeEntry_encodeEntry {e : SlotEntry} (h : (nameBytes e.name).length < 65536)
    (rest : List UInt8) : decodeEntry (encodeEntry e ++ rest) = .ok (e, rest) := by
  have hlen : Bytes.decode (Bytes.encode 2 (nameBytes e.name).length) =
      (nameBytes e.name).length := Bytes.decode_encode_of_lt (by omega)
  simp [decodeEntry, encodeEntry, take, bind, Except.bind, hlen, Bytes.take_append rfl,
    nameOfBytes_nameBytes]

theorem decodeEntries_flatMap {es : List SlotEntry}
    (h : ∀ e ∈ es, (nameBytes e.name).length < 65536) :
    decodeEntries es.length (es.flatMap encodeEntry) = .ok es := by
  induction es with
  | nil => rfl
  | cons e es ih =>
      rw [List.flatMap_cons, List.length_cons, decodeEntries,
        decodeEntry_encodeEntry (h e (by simp))]
      simp only [bind, Except.bind]
      rw [ih fun x hx => h x (by simp [hx])]

/-- **Slot tables round-trip** while their counts fit their fields. -/
theorem decodeSlotTable_encodeSlotTable (g : TopicGeometry) {es : List SlotEntry}
    (hlen : es.length < 65536) (hname : ∀ e ∈ es, (nameBytes e.name).length < 65536) :
    decodeSlotTable (encodeSlotTable g es) = .ok ⟨g, es⟩ := by
  have hcount : Bytes.decode (Bytes.encode 2 es.length) = es.length :=
    Bytes.decode_encode_of_lt (by omega)
  have hversion : ∀ b : List UInt8,
      Bytes.take 1 (SLOT_TABLE_VERSION :: b) = some ([SLOT_TABLE_VERSION], b) :=
    fun b => Bytes.take_append (show [SLOT_TABLE_VERSION].length = 1 from rfl) b
  simp [decodeSlotTable, encodeSlotTable, take, bind, Except.bind, hversion, hcount,
    decodeEntries_flatMap hname]

/-! ## Tables that are not whole -/

theorem take_of_cut {n : ℕ} {xs ys b t : List UInt8} (hxs : xs.length = n)
    (h : b ++ t = xs ++ ys) :
    take n b = .error .truncatedSlotTable ∨ ∃ b', b' ++ t = ys ∧ take n b = .ok (xs, b') := by
  unfold take
  rcases Bytes.take_of_cut hxs h with hb | ⟨b', hy, hb⟩ <;> rw [hb]
  · exact .inl rfl
  · exact .inr ⟨b', hy, rfl⟩

/-- Of bytes that begin with an entry and were cut off, the entry is missing
something, or it is read. -/
theorem decodeEntry_of_cut {e : SlotEntry} (hname : (nameBytes e.name).length < 65536)
    {b t rest : List UInt8} (h : b ++ t = encodeEntry e ++ rest) :
    decodeEntry b = .error .truncatedSlotTable ∨
      ∃ b', b' ++ t = rest ∧ decodeEntry b = .ok (e, b') := by
  have hlen : Bytes.decode (Bytes.encode 2 (nameBytes e.name).length) =
      (nameBytes e.name).length := Bytes.decode_encode_of_lt (by omega)
  simp only [encodeEntry, List.append_assoc] at h
  unfold decodeEntry
  simp only [bind, Except.bind]
  rcases take_of_cut (Bytes.length_encode 2 _) h with hb | ⟨b₁, h₁, hb⟩ <;> rw [hb]
  · exact .inl rfl
  rcases take_of_cut (Bytes.length_encode 8 _) h₁ with hb | ⟨b₂, h₂, hb⟩ <;> simp only [hb]
  · exact .inl trivial
  rcases take_of_cut (Bytes.length_encode 8 _) h₂ with hb | ⟨b₃, h₃, hb⟩ <;> simp only [hb]
  · exact .inl trivial
  rcases take_of_cut (Bytes.length_encode 2 _) h₃ with hb | ⟨b₄, h₄, hb⟩ <;> simp only [hb]
  · exact .inl trivial
  rcases take_of_cut hlen.symm h₄ with hb | ⟨b₅, h₅, hb⟩ <;> simp only [hb]
  · exact .inl trivial
  · refine .inr ⟨b₅, h₅, ?_⟩
    simp [nameOfBytes_nameBytes]

/-- By induction over the entries: the cut is in the first one, or after it. -/
theorem decodeEntries_of_cut {es : List SlotEntry}
    (hname : ∀ e ∈ es, (nameBytes e.name).length < 65536) {b t : List UInt8} (ht : t ≠ [])
    (h : b ++ t = es.flatMap encodeEntry) :
    decodeEntries es.length b = .error .truncatedSlotTable := by
  induction es generalizing b with
  | nil => exact absurd (List.append_eq_nil_iff.mp h).2 ht
  | cons e es ih =>
      rw [List.flatMap_cons] at h
      rw [List.length_cons, decodeEntries]
      simp only [bind, Except.bind]
      rcases decodeEntry_of_cut (hname e (by simp)) h with hb | ⟨b', h', hb⟩ <;> simp only [hb]
      rw [ih (fun x hx => hname x (by simp [hx])) h']

/-- **A table that was cut off is refused**, wherever it was cut. -/
theorem decodeSlotTable_of_cut (g : TopicGeometry) {es : List SlotEntry}
    (hlen : es.length < 65536) (hname : ∀ e ∈ es, (nameBytes e.name).length < 65536)
    {b t : List UInt8} (ht : t ≠ []) (h : b ++ t = encodeSlotTable g es) :
    decodeSlotTable b = .error .truncatedSlotTable := by
  have hcount : Bytes.decode (Bytes.encode 2 es.length) = es.length :=
    Bytes.decode_encode_of_lt (by omega)
  have hversion : [SLOT_TABLE_VERSION].length = 1 := rfl
  rw [encodeSlotTable, ← List.singleton_append] at h
  unfold decodeSlotTable
  simp only [bind, Except.bind]
  rcases take_of_cut hversion h with hb | ⟨b₁, h₁, hb⟩ <;> rw [hb]
  simp only [ne_eq, not_true_eq_false, if_false]
  rcases take_of_cut (Bytes.length_encode 4 _) h₁ with hb | ⟨b₂, h₂, hb⟩ <;> simp only [hb]
  rcases take_of_cut (Bytes.length_encode 4 _) h₂ with hb | ⟨b₃, h₃, hb⟩ <;> simp only [hb]
  rcases take_of_cut (Bytes.length_encode 8 _) h₃ with hb | ⟨b₄, h₄, hb⟩ <;> simp only [hb]
  rcases take_of_cut (Bytes.length_encode 4 _) h₄ with hb | ⟨b₅, h₅, hb⟩ <;> simp only [hb]
  rcases take_of_cut (Bytes.length_encode 2 _) h₅ with hb | ⟨b₆, h₆, hb⟩ <;> simp only [hb]
  rw [hcount, decodeEntries_of_cut hname ht h₆]

theorem decodeSlotTable_of_version {v : UInt8} (hv : v ≠ SLOT_TABLE_VERSION) (b : List UInt8) :
    decodeSlotTable (v :: b) = .error (.slotTableVersion v) := by
  have htake : take 1 (v :: b) = .ok ([v], b) := by simp [take, Bytes.take]
  simp [decodeSlotTable, htake, bind, Except.bind, hv]

end XchannelNet.Mux
