import Mathlib

/-!
# Peer messages, message blocks and pieces

The data that the session, its tools and the wire code share. Machine words
have the widths of the source, and a chain of message blocks always has a first
block.
-/
namespace ACENetwork.BitTorrent

/-- How an execution leaves the behaviour that the source defines: a failed `ACE_ASSERT`,
an index or an advance beyond a vector, a null pointer, an iterator at or beyond the end
that is read, a copy beyond a buffer, memory that is read before it is written, and
arithmetic of a signed integer that overflows. -/
inductive Fault where
  | assertion
  | outOfRange
  | nullPointer
  | endIterator
  | bufferOverflow
  | uninitialized
  | signedOverflow
  deriving DecidableEq, Repr

theorem fault_bind_ok {α β : Type} {x : Except Fault α} {f : α → Except Fault β} {y : β} :
    (x >>= f) = .ok y ↔ ∃ a, x = .ok a ∧ f a = .ok y := by
  cases x <;> simp [bind, Except.bind]

theorem fault_bind_error {α β : Type} {x : Except Fault α} {f : α → Except Fault β}
    {e : Fault} :
    (x >>= f) = .error e ↔ x = .error e ∨ ∃ a, x = .ok a ∧ f a = .error e := by
  cases x <;> simp [bind, Except.bind]

/-- The computation does not leave the bounds of a vector. -/
def InRange {α : Type} (x : Except Fault α) : Prop := x ≠ .error .outOfRange

section InRange

variable {α β : Type}

@[simp] theorem inRange_ok (a : α) : InRange (.ok a : Except Fault α) := by
  simp [InRange]

@[simp] theorem inRange_error {e : Fault} :
    InRange (.error e : Except Fault α) ↔ e ≠ .outOfRange := by
  simp [InRange]

theorem inRange_bind {x : Except Fault α} {f : α → Except Fault β} (hx : InRange x)
    (hf : ∀ a, x = .ok a → InRange (f a)) : InRange (x >>= f) := by
  cases x with
  | error e => exact fun h => hx (by simpa [bind, Except.bind] using h)
  | ok a => exact hf a rfl

end InRange

theorem toNat_word {n : ℕ} (h : n < 2 ^ 32) : (UInt32.ofNat n).toNat = n :=
  UInt32.toNat_ofNat_of_lt' h

theorem toNat_sub_word {k : UInt32} {n : ℕ} (h : n ≤ k.toNat) :
    (k - UInt32.ofNat n).toNat = k.toNat - n := by
  have hn : (UInt32.ofNat n).toNat = n := toNat_word (h.trans_lt k.toNat_lt)
  rw [UInt32.toNat_sub_of_le _ _ (UInt32.le_iff_toNat_le.mpr (by rwa [hn])), hn]

/-- `ACE_ASSERT`: builds that define `ACE_NDEBUG` do not evaluate it. -/
def aceAssert (ndebug : Bool) (condition : Bool) : Except Fault Unit :=
  if ndebug || condition then .ok () else .error .assertion

@[simp] theorem aceAssert_true (ndebug : Bool) : aceAssert ndebug true = .ok () := by
  simp [aceAssert]

theorem inRange_aceAssert {ndebug condition : Bool} : InRange (aceAssert ndebug condition) := by
  unfold aceAssert
  split <;> simp

theorem aceAssert_ok {ndebug condition : Bool} :
    aceAssert ndebug condition = .ok () ↔ ndebug = true ∨ condition = true := by
  cases ndebug <;> simp [aceAssert]

theorem aceAssert_error {ndebug condition : Bool} {f : Fault}
    (h : aceAssert ndebug condition = .error f) : f = .assertion := by
  unfold aceAssert at h
  split at h
  · simp at h
  · simpa using h.symm

inductive MessageType where
  | choke
  | unchoke
  | interested
  | notInterested
  | have
  | bitfield
  | request
  | piece
  | cancel
  deriving DecidableEq, Repr

/-- The value of the enumerator, which is also its byte on the wire. -/
def MessageType.code : MessageType → UInt8
  | .choke => 0
  | .unchoke => 1
  | .interested => 2
  | .notInterested => 3
  | .have => 4
  | .bitfield => 5
  | .request => 6
  | .piece => 7
  | .cancel => 8

def MessageType.ofCode : UInt8 → Option MessageType
  | 0 => some .choke
  | 1 => some .unchoke
  | 2 => some .interested
  | 3 => some .notInterested
  | 4 => some .have
  | 5 => some .bitfield
  | 6 => some .request
  | 7 => some .piece
  | 8 => some .cancel
  | _ => none

@[simp] theorem MessageType.ofCode_code (t : MessageType) : ofCode t.code = some t := by
  cases t <;> rfl

theorem MessageType.code_ofCode {b : UInt8} {t : MessageType} (h : ofCode b = some t) :
    t.code = b := by
  unfold ofCode at h
  split at h <;> simp_all [code] <;> (subst h; rfl)

/-- The words of the record's payload union. `have` is its first word, and the
`piece`, `request` and `cancel` payloads overlay each other from there. -/
structure Payload where
  index : UInt32
  begin : UInt32
  length : UInt32
  deriving DecidableEq, Repr

/-- `BitTorrent_PeerRecord`; the default constructor has no supported type. -/
structure PeerRecord where
  length : UInt32
  type : Option MessageType
  bitfield : List UInt8
  payload : Payload
  deriving DecidableEq, Repr

/-- A chain of `ACE_Message_Block`: the bytes between the read and the write
pointer of the first block, and those of its continuations. -/
structure MessageBlock where
  data : List UInt8
  cont : List (List UInt8)
  deriving DecidableEq, Repr

namespace MessageBlock

def blocks (b : MessageBlock) : List (List UInt8) := b.data :: b.cont

def bytes (b : MessageBlock) : List UInt8 := b.blocks.flatten

def totalLength (b : MessageBlock) : ℕ := (b.blocks.map List.length).sum

theorem length_bytes (b : MessageBlock) : b.bytes.length = b.totalLength := by
  simp [bytes, totalLength, List.length_flatten]

end MessageBlock

structure PieceChunk where
  data : MessageBlock
  offset : UInt32
  deriving DecidableEq, Repr

/-- `BitTorrent_Piece`; the hash is a SHA-1 digest. -/
structure Piece where
  chunks : List PieceChunk
  filename : List Char
  hash : Vector UInt8 20
  length : UInt32
  onDisk : Bool
  deriving DecidableEq, Repr

end ACENetwork.BitTorrent
