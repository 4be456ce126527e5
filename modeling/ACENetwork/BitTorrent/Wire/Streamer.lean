import ACENetwork.BitTorrent.Common
import ACENetwork.Library.ByteOrder

/-!
# The peer-wire encoder

`BitTorrent_Module_Streamer_T::handleDataMessage` copies the fields of a record
into the free space of a message; the block of a PIECE is attached behind it. What
it writes for each kind of message is a length word and a body, and for every kind
but BITFIELD the word is the length of that body.
-/
namespace ACENetwork.BitTorrent
open Library

structure PeerHandShake where
  pstr : List UInt8
  reserved : List UInt8
  infoHash : List UInt8
  peerId : List UInt8
  deriving DecidableEq, Repr

def defaultPstr : List UInt8 :=
  [0x42, 0x69, 0x74, 0x54, 0x6F, 0x72, 0x72, 0x65, 0x6E, 0x74, 0x20,
    0x70, 0x72, 0x6F, 0x74, 0x6F, 0x63, 0x6F, 0x6C]

/-- A message as the two sides of the wire mean it. -/
inductive Message where
  | choke
  | unchoke
  | interested
  | notInterested
  | have (index : UInt32)
  | bitfield (bits : List UInt8)
  | request (index begin length : UInt32)
  | piece (index begin : UInt32) (block : List UInt8)
  | cancel (index begin length : UInt32)
  deriving DecidableEq, Repr

/-- The message that a record and the block behind it stand for: the record's type
selects the fields that count. -/
def PeerRecord.message (r : PeerRecord) (block : List UInt8) : Option Message :=
  r.type.map fun
    | .choke => .choke
    | .unchoke => .unchoke
    | .interested => .interested
    | .notInterested => .notInterested
    | .have => .have r.payload.index
    | .bitfield => .bitfield r.bitfield
    | .request => .request r.payload.index r.payload.begin r.payload.length
    | .piece => .piece r.payload.index r.payload.begin block
    | .cancel => .cancel r.payload.index r.payload.begin r.payload.length

namespace Wire

/-- A message under construction: the bytes written and the space behind them. -/
structure Buffer where
  written : List UInt8
  space : ℕ

/-- The label `error` of the encoder, which releases the message, or a fault. -/
inductive StreamError where
  | released
  | fault (f : Fault)
  deriving DecidableEq, Repr

/-- `ACE_Message_Block::copy` fails when the space is too small. -/
def Buffer.copy (b : Buffer) (bytes : List UInt8) : Except StreamError Buffer :=
  if bytes.length ≤ b.space then .ok ⟨b.written ++ bytes, b.space - bytes.length⟩
  else .error .released

/-- Successive copies, each of which may go to the label `error`. -/
def Buffer.copyAll (b : Buffer) (fields : List (List UInt8)) : Except StreamError Buffer :=
  fields.foldlM Buffer.copy b

/-- The first `n` characters of a string; its terminator can still be read. -/
def readChars (n : ℕ) (s : List UInt8) : Except StreamError (List UInt8) :=
  if n ≤ s.length + 1 then .ok ((s ++ [0]).take n) else .error (.fault .outOfRange)

def streamAssert (ndebug condition : Bool) : Except StreamError Unit :=
  (aceAssert ndebug condition).mapError .fault

/-- `value_i`, swapped on little-endian hosts and copied from memory. -/
def word (o : ByteOrder) (value : UInt32) : List UInt8 := o.storeSwapped 4 value.toNat

/-- The handshake branch of `handleDataMessage`. -/
def streamHandShake (ndebug : Bool) (space : ℕ) (h : PeerHandShake) :
    Except StreamError Buffer := do
  streamAssert ndebug (49 + h.pstr.length ≤ space)
  let pstrlen := UInt8.ofNat h.pstr.length
  let b ← Buffer.copyAll ⟨[], space⟩ [[pstrlen], h.pstr.take pstrlen.toNat, h.reserved]
  let b ← b.copy (← readChars 20 h.infoHash)
  b.copy (← readChars 20 h.peerId)

/-- The switch over the record's type in `handleDataMessage`. -/
def streamRecord (ndebug : Bool) (o : ByteOrder) (space : ℕ) (r : PeerRecord)
    (cont : Option MessageBlock) : Except StreamError Buffer :=
  match r.type with
  | none => .error .released
  | some t =>
    let header (length : UInt32) := [word o length, [t.code]]
    match t with
    | .choke | .unchoke | .interested | .notInterested =>
      Buffer.copyAll ⟨[], space⟩ (header 1)
    | .have =>
      Buffer.copyAll ⟨[], space⟩ (header (1 + 4) ++ [word o r.payload.index])
    | .bitfield => do
      let b ← Buffer.copyAll ⟨[], space⟩ (header (1 + 4 + UInt32.ofNat r.bitfield.length))
      -- `&bitfield[0]`
      if r.bitfield = [] then .error (.fault .outOfRange) else b.copy r.bitfield
    | .request | .cancel =>
      Buffer.copyAll ⟨[], space⟩ (header (1 + 4 + 4 + 4) ++
        [word o r.payload.index, word o r.payload.begin, word o r.payload.length])
    | .piece =>
      match cont with
      | none => .error (.fault (if ndebug then .nullPointer else .assertion))
      | some block =>
        Buffer.copyAll ⟨[], space⟩ (header (1 + 4 + 4 + UInt32.ofNat block.totalLength) ++
          [word o r.payload.index, word o r.payload.begin])

def handleDataMessage (ndebug : Bool) (o : ByteOrder) (space : ℕ)
    (record : PeerHandShake ⊕ PeerRecord) (cont : Option MessageBlock) :
    Except StreamError (List UInt8) := do
  let b ← match record with
    | .inl handShake => streamHandShake ndebug space handShake
    | .inr peerRecord => streamRecord ndebug o space peerRecord cont
  .ok (b.written ++ (cont.map MessageBlock.bytes).getD [])

end Wire

namespace Message

def body : Message → List UInt8
  | .choke => [0]
  | .unchoke => [1]
  | .interested => [2]
  | .notInterested => [3]
  | .have index => 4 :: encodeBE 4 index.toNat
  | .bitfield bits => 5 :: bits
  | .request index begin length =>
    6 :: (encodeBE 4 index.toNat ++ encodeBE 4 begin.toNat ++ encodeBE 4 length.toNat)
  | .piece index begin block => 7 :: (encodeBE 4 index.toNat ++ encodeBE 4 begin.toNat ++ block)
  | .cancel index begin length =>
    8 :: (encodeBE 4 index.toNat ++ encodeBE 4 begin.toNat ++ encodeBE 4 length.toNat)

/-- What the encoder announces; the length of a BITFIELD counts four bytes too many. -/
def lengthField : Message → ℕ
  | .bitfield bits => 1 + 4 + bits.length
  | m => m.body.length

end Message

namespace Wire

@[simp] theorem word_eq (o : ByteOrder) (value : UInt32) :
    word o value = encodeBE 4 value.toNat := by
  simp [word]

theorem Buffer.copy_ok {b c : Buffer} {bytes : List UInt8} (h : b.copy bytes = .ok c) :
    c.written = b.written ++ bytes := by
  unfold Buffer.copy at h
  split at h
  · obtain rfl := Except.ok.inj h
    rfl
  · simp at h

theorem Buffer.copyAll_ok {b c : Buffer} {fields : List (List UInt8)}
    (h : b.copyAll fields = .ok c) : c.written = b.written ++ fields.flatten := by
  induction fields generalizing b with
  | nil =>
    obtain rfl := Except.ok.inj h
    simp
  | cons field fields ih =>
    rw [Buffer.copyAll, List.foldlM_cons] at h
    cases hcopy : b.copy field with
    | error e => simp [hcopy, bind, Except.bind] at h
    | ok b' =>
      rw [hcopy] at h
      rw [ih h, Buffer.copy_ok hcopy]
      simp

theorem bind_ok {α β : Type} {x : Except StreamError α} {f : α → Except StreamError β} {y : β}
    (h : (x >>= f) = .ok y) : ∃ a, x = .ok a ∧ f a = .ok y := by
  cases x with
  | error e => simp [bind, Except.bind] at h
  | ok a => exact ⟨a, rfl, h⟩

/-- What `handleDataMessage` passes downstream for a record of some message. -/
def Emits (ndebug : Bool) (o : ByteOrder) (m : Message) (out : List UInt8) : Prop :=
  ∃ (r : PeerRecord) (cont : Option MessageBlock) (space : ℕ),
    (cont.isSome ↔ r.type = some .piece) ∧
    r.message ((cont.map MessageBlock.bytes).getD []) = some m ∧
    handleDataMessage ndebug o space (.inr r) cont = .ok out

theorem streamRecord_ok {ndebug : Bool} {o : ByteOrder} {space : ℕ} {r : PeerRecord}
    {cont : Option MessageBlock} {m : Message} {b : Buffer} (hcont : cont.isSome ↔ r.type = some .piece)
    (hm : r.message ((cont.map MessageBlock.bytes).getD []) = some m)
    (h : streamRecord ndebug o space r cont = .ok b) :
    b.written ++ (cont.map MessageBlock.bytes).getD [] = encodeBE 4 m.lengthField ++ m.body := by
  obtain ⟨t, ht, rfl⟩ := Option.map_eq_some_iff.mp hm
  have hnone : t ≠ .piece → cont = none := fun hp => by
    by_contra hne
    have := hcont.mp (Option.isSome_iff_ne_none.mpr hne)
    exact hp (by simpa [ht] using this)
  simp only [streamRecord, ht] at h
  cases t with
  | choke | unchoke | interested | notInterested | «have» | request | cancel =>
    obtain rfl := hnone (by simp)
    rw [Buffer.copyAll_ok h]
    simp only [List.cons_append, List.nil_append, word_eq, List.flatten_cons, List.flatten_nil,
      List.append_nil, Option.map_none, Option.getD_none, Message.lengthField, Message.body]
    rfl
  | bitfield =>
    obtain rfl := hnone (by simp)
    obtain ⟨b', hb', h⟩ := bind_ok h
    split at h
    · simp at h
    · rw [Buffer.copy_ok h, Buffer.copyAll_ok hb']
      simp only [List.nil_append, word_eq, List.flatten_cons, List.flatten_nil, List.append_nil,
        Option.map_none, Option.getD_none, Message.lengthField, Message.body, List.append_assoc,
        MessageType.code, List.singleton_append]
      rw [encodeBE_congr (m := (1 + 4 + UInt32.ofNat r.bitfield.length).toNat)
        (n := 1 + 4 + r.bitfield.length) (by simp)]
  | piece =>
    cases cont with
    | none => simp at h
    | some block =>
      rw [Buffer.copyAll_ok h]
      have hlen : encodeBE 4 (1 + 4 + 4 + UInt32.ofNat block.totalLength).toNat =
          encodeBE 4 (1 + 4 + 4 + block.totalLength) := encodeBE_congr (by simp)
      have hbody : (Message.piece r.payload.index r.payload.begin block.bytes).body.length =
          1 + 4 + 4 + block.totalLength := by
        simp [Message.body, MessageBlock.length_bytes]
        omega
      simp only [word_eq, hlen, Message.lengthField, Option.map_some, Option.getD_some, hbody]
      simp [Message.body, MessageType.code]

theorem Emits.eq {ndebug : Bool} {o : ByteOrder} {m : Message} {out : List UInt8}
    (h : Emits ndebug o m out) : out = encodeBE 4 m.lengthField ++ m.body := by
  obtain ⟨r, cont, space, hcont, hm, h⟩ := h
  obtain ⟨b, hb, h⟩ := bind_ok h
  rw [← streamRecord_ok hcont hm hb]
  exact (Except.ok.inj h).symm

/-- A handshake with the default protocol string and fields of their fixed sizes. -/
structure WellFormed (h : PeerHandShake) : Prop where
  pstr : h.pstr = defaultPstr
  reserved : h.reserved.length = 8
  infoHash : h.infoHash.length = 20
  peerId : h.peerId.length = 20

def handShakePrefix : List UInt8 := 19 :: defaultPstr

theorem readChars_ok {n : ℕ} {s c : List UInt8} (hs : s.length = n)
    (h : readChars n s = .ok c) : c = s := by
  unfold readChars at h
  split at h
  · rw [← Except.ok.inj h, ← hs]
    simp
  · simp at h

theorem handShake_emits {ndebug : Bool} {o : ByteOrder} {space : ℕ} {h : PeerHandShake}
    {out : List UInt8} (hwf : WellFormed h)
    (hout : handleDataMessage ndebug o space (.inl h) none = .ok out) :
    out = handShakePrefix ++ (h.reserved ++ (h.infoHash ++ h.peerId)) := by
  obtain ⟨b, hb, hout⟩ := bind_ok hout
  obtain ⟨_, -, hb⟩ := bind_ok hb
  obtain ⟨b₁, hb₁, hb⟩ := bind_ok hb
  obtain ⟨hash, hhash, hb⟩ := bind_ok hb
  obtain ⟨b₂, hb₂, hb⟩ := bind_ok hb
  obtain ⟨id, hid, hb⟩ := bind_ok hb
  rw [← Except.ok.inj hout, Buffer.copy_ok hb, Buffer.copy_ok hb₂, Buffer.copyAll_ok hb₁,
    readChars_ok hwf.infoHash hhash, readChars_ok hwf.peerId hid, hwf.pstr]
  simp [handShakePrefix, defaultPstr]

end Wire
end ACENetwork.BitTorrent
