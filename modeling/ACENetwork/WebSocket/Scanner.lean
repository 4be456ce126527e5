import ACENetwork.BitTorrent.Common
import ACENetwork.Library.ByteOrder
import ACENetwork.Library.Text

/-!
# The WebSocket scanner

The rules of the scanner over one buffer, with the members of the parser that they read and
write. The two payload states take one octet before they look at the counter.
-/
namespace ACENetwork.WebSocket
open BitTorrent (Fault)
open Library

inductive Condition where
  | initial
  | maskPayloadSizeFirst
  | payloadSize16
  | payloadSize64
  | payload
  | data
  deriving DecidableEq, Repr

def opcodeInvalid : UInt8 := 16

/-- `WebSocket_Record`, as far as the scanner fills it. -/
structure Record where
  final : Bool := true
  opcode : UInt8 := opcodeInvalid
  payloadSize : UInt64 := 0
  deriving DecidableEq

/-- The start condition, and the members of the driver and the module. Whether
`dataBytesToSkip_` has wrapped is kept for the proofs only. -/
structure Parser where
  condition : Condition := .initial
  record : Record := {}
  offset : ℕ := 0
  finished : Bool := false
  dataSize : UInt64 := 0
  dataBytesToSkip : UInt64 := 0
  wrapped : Bool := false
  deriving DecidableEq

def Parser.setDataSize (p : Parser) (size : UInt64) : Parser :=
  { p with dataSize := size, dataBytesToSkip := size }

def Parser.skipped (p : Parser) : Parser :=
  { p with dataBytesToSkip := p.dataBytesToSkip - 1,
           wrapped := p.wrapped || p.dataBytesToSkip == 0 }

def Parser.header (p : Parser) (count : ℕ) (next : Condition) : Parser :=
  { p with offset := p.offset + count, condition := next }

def Parser.first (p : Parser) (b : UInt8) : Parser :=
  { p.header 1 .maskPayloadSizeFirst with
    record := { p.record with final := b &&& 0x80 != 0, opcode := b &&& 0x0F } }

def Parser.sized (p : Parser) (count : ℕ) (size : UInt64) (next : Condition) : Parser :=
  ({ p.header count next with record := { p.record with payloadSize := size } }).setDataSize size

/-- The eight octets that are read behind four of them: a NUL stands in place of the octet behind
the match, and what is read behind the buffer is not defined. -/
def quadWord (b c d e : UInt8) : Bytes → Option UInt64
  | _ :: f :: rest =>
    some (UInt64.ofNat (decodeBE [b, c, d, e, 0, f, rest.headD 0, rest.tail.headD 0]))
  | _ => none

/-- The tokens of the grammar, and the rule for octets that no other rule takes. -/
inductive Token where
  | frame
  | finished
  | invalid
  deriving DecidableEq, Repr

/-- `WebSocket_Scanner_lex` on the octets that are left of the buffer, where no data follow. -/
def lex (p : Parser) : Bytes → Except Fault (Parser × Token × Bytes)
  | [] => .ok (p, .finished, [])
  | b :: rest =>
    match p.condition with
    | .initial => lex (p.first b) rest
    | .maskPayloadSizeFirst =>
      let size := (b &&& 0x7F).toUInt64
      if b &&& 0x80 ≠ 0 then .error .assertion
      else if size = 0 then .ok (p.sized 1 0 .initial, .frame, rest)
      else if size ≤ 125 then lex (p.sized 1 size .payload) rest
      else
        lex { p.header 1 (if size = 126 then .payloadSize16 else .payloadSize64) with
              record := { p.record with payloadSize := size } } rest
    | .payloadSize16 =>
      match rest with
      | c :: rest => lex (p.sized 2 (UInt64.ofNat (decodeBE [b, c])) .payload) rest
      | [] => .ok (p, .invalid, [b])
    | .payloadSize64 =>
      match rest with
      | c :: d :: e :: rest =>
        match quadWord b c d e rest with
        | none => .error .outOfRange
        | some size =>
          if b &&& 0x80 ≠ 0 then .error .assertion else lex (p.sized 4 size .payload) rest
      | rest => .ok (p, .invalid, b :: rest)
    | .payload =>
      if p.dataBytesToSkip = 0 then .ok ({ p with condition := .initial }, .frame, rest)
      else lex { p.skipped with condition := .data } rest
    | .data =>
      if p.skipped.dataBytesToSkip = 0 then
        .ok ({ p.skipped with condition := .initial, finished := true }, .frame, rest)
      else lex p.skipped rest

section Rules

variable {p : Parser} {b : UInt8} {rest : Bytes}

theorem lex_initial (h : p.condition = .initial) : lex p (b :: rest) = lex (p.first b) rest := by
  rw [lex.eq_def]
  simp only [h]

theorem lex_maskPayloadSizeFirst (h : p.condition = .maskPayloadSizeFirst) :
    lex p (b :: rest) =
      if b &&& 0x80 ≠ 0 then .error .assertion
      else if (b &&& 0x7F).toUInt64 = 0 then .ok (p.sized 1 0 .initial, .frame, rest)
      else if (b &&& 0x7F).toUInt64 ≤ 125 then
        lex (p.sized 1 (b &&& 0x7F).toUInt64 .payload) rest
      else
        lex { p.header 1
                (if (b &&& 0x7F).toUInt64 = 126 then .payloadSize16 else .payloadSize64) with
              record := { p.record with payloadSize := (b &&& 0x7F).toUInt64 } } rest := by
  rw [lex.eq_def]
  simp only [h]

theorem lex_payloadSize16 {c : UInt8} (h : p.condition = .payloadSize16) :
    lex p (b :: c :: rest) =
      lex (p.sized 2 (UInt64.ofNat (decodeBE [b, c])) .payload) rest := by
  rw [lex.eq_def]
  simp only [h]

theorem lex_payloadSize64 {c d e : UInt8} {size : UInt64} (h : p.condition = .payloadSize64)
    (hsize : quadWord b c d e rest = some size) :
    lex p (b :: c :: d :: e :: rest) =
      if b &&& 0x80 ≠ 0 then .error .assertion else lex (p.sized 4 size .payload) rest := by
  rw [lex.eq_def]
  simp only [h, hsize]

theorem lex_payload_cons (h : p.condition = .payload) :
    lex p (b :: rest) =
      if p.dataBytesToSkip = 0 then .ok ({ p with condition := .initial }, .frame, rest)
      else lex { p.skipped with condition := .data } rest := by
  rw [lex.eq_def]
  simp only [h]

theorem lex_data_cons (h : p.condition = .data) :
    lex p (b :: rest) =
      if p.skipped.dataBytesToSkip = 0 then
        .ok ({ p.skipped with condition := .initial, finished := true }, .frame, rest)
      else lex p.skipped rest := by
  rw [lex.eq_def]
  simp only [h]

end Rules

end ACENetwork.WebSocket
