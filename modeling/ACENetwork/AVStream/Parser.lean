import ACENetwork.Library.ByteOrder
import ACENetwork.Library.Cuts

/-!
# Streamer and parser of the AV stream test

A frame is a packed header of a type and a length, and its data. The scanner is the one
that flex makes of the rules: a match does not extend past the current buffer, and
`yywrap` switches to the next block of the chain when the buffer is exhausted. It scans a copy
of a block or the block itself, which has two null octets behind its data; there it puts a null
octet behind each match, which it takes back when it goes on, and two at the beginning of a block
that `yyinput` has come to the end of.
-/
namespace ACENetwork.AVStream
open Library

/-- A failed `ACE_ASSERT`, and a null pointer that is followed. -/
inductive Fault where
  | assertion
  | nullPointer
  deriving DecidableEq, Repr

/-- `ACE_ASSERT`: builds that define `ACE_NDEBUG` do not evaluate it. -/
def aceAssert (ndebug : Bool) (condition : Bool) : Except Fault Unit :=
  if ndebug || condition then .ok () else .error .assertion

/-- `Stream_MediaType_Type`, as far as the streamer tells its values apart. -/
inductive MediaType where
  | audio
  | video
  | invalid
  deriving DecidableEq, Repr

/-- The values of `acestream_av_stream_message_type` that the streamer sends. -/
def MediaType.messageType : MediaType → Option UInt8
  | .audio => some 0
  | .video => some 1
  | .invalid => none

/-- `acestream_av_stream_header`, which is packed. -/
structure Header where
  type : UInt8
  length : UInt32
  deriving DecidableEq, Repr

/-- `sizeof (struct acestream_av_stream_header)`. -/
def headerSize : ℕ := 5

def Header.bytes (o : ByteOrder) (h : Header) : List UInt8 := h.type :: o.store 4 h.length.toNat

/-- A message of the sender: a block with its continuations. -/
structure DataMessage where
  mediaType : MediaType
  data : List UInt8
  cont : List (List UInt8)
  deriving DecidableEq, Repr

/-- `Test_I_AVStream_Streamer_T::handleDataMessage`: the chain that is put downstream, or
none. -/
def handleDataMessage (ndebug : Bool) (o : ByteOrder) (message : DataMessage) :
    Except Fault (Option (List (List UInt8))) := do
  aceAssert ndebug (message.cont = [])
  match message.mediaType.messageType with
  | none => return none
  | some type =>
    return some (Header.bytes o ⟨type, UInt32.ofNat message.data.length⟩ ::
      message.data :: message.cont)

/-- Whether blocks are scanned in place: the first one of a call of `parse` as
`COMMON_PARSER_DEFAULT_FLEX_USE_YY_SCAN_BUFFER` says, the next ones as `useYYScanBuffer` does. -/
structure Scanning where
  first : Bool
  next : Bool
  deriving DecidableEq, Repr

/-- `AVStream_ParserDriver::scan_begin`: flex counts the octets of a block in an `int`, those of a
copy with the two null octets behind them. -/
def scanBegin (useYYScanBuffer : Bool) (block : List UInt8) : Bool :=
  block.length + (if useYYScanBuffer then 0 else 2) < 2 ^ 31

def endOfBuffer : List UInt8 → List UInt8
  | [] => []
  | [_] => [0]
  | _ :: _ :: octets => 0 :: 0 :: octets

/-- The blocks of `headFragment_` in front of `buffer_`, the octets of `buffer_` that flex has
matched and those that it has not, whether these are scanned in place, the continuations of
`buffer_`, and the blocks in the message queue. -/
structure Fragments where
  front : List (List UInt8)
  matched : List UInt8
  input : List UInt8
  inPlace : Bool
  linked : List (List UInt8)
  queue : List (List UInt8)
  deriving DecidableEq, Repr

namespace Fragments

/-- A block becomes `buffer_`, unless it is too long for flex. -/
def load (useYYScanBuffer : Bool) (front : List (List UInt8)) (block : List UInt8)
    (linked queue : List (List UInt8)) : Option Fragments :=
  if scanBegin useYYScanBuffer block then some ⟨front, [], block, useYYScanBuffer, linked, queue⟩
  else none

/-- `AVStream_ParserDriver::switchBuffer`, with the `waitBuffer` that links a block of the
queue; there is no result while the queue is empty. -/
def switchBuffer (scan : Scanning) (s : Fragments) : Option Fragments :=
  match s.linked, s.queue with
  | block :: linked, queue => load scan.next (s.front ++ [s.matched ++ s.input]) block linked queue
  | [], block :: queue => load scan.next (s.front ++ [s.matched ++ s.input]) block [] queue
  | [], [] => none

theorem load_eq_some {useYYScanBuffer : Bool} {front linked queue : List (List UInt8)}
    {block : List UInt8} {s : Fragments} :
    load useYYScanBuffer front block linked queue = some s ↔
      scanBegin useYYScanBuffer block = true ∧
        s = ⟨front, [], block, useYYScanBuffer, linked, queue⟩ := by
  rw [load]
  split_ifs with h
  · simp [h, eq_comm]
  · simp [h]

theorem switchBuffer_lt {scan : Scanning} {s s' : Fragments} (h : s.switchBuffer scan = some s') :
    s'.linked.length + s'.queue.length < s.linked.length + s.queue.length := by
  obtain ⟨front, matched, input, inPlace, linked, queue⟩ := s
  cases linked with
  | cons block linked =>
    obtain ⟨-, rfl⟩ := load_eq_some.mp h
    exact Nat.add_lt_add_right (Nat.lt_succ_self _) _
  | nil =>
    cases queue with
    | cons block queue =>
      obtain ⟨-, rfl⟩ := load_eq_some.mp h
      simp
    | nil => cases h

/-- The first buffer with an octet that has not been matched. -/
def fill (scan : Scanning) (s : Fragments) : Option Fragments :=
  if s.input = [] then
    match _h : s.switchBuffer scan with
    | none => none
    | some s' => fill scan s'
  else some s
termination_by s.linked.length + s.queue.length
decreasing_by exact switchBuffer_lt _h

/-- `yyrestart`, which ends a buffer with its first two octets. -/
def restart (s : Fragments) : Fragments :=
  if s.inPlace then { s with matched := endOfBuffer s.matched } else s

/-- `yyinput`, which restarts a buffer that it has come to the end of. -/
def yyinput (scan : Scanning) (s : Fragments) : Option (UInt8 × Fragments) :=
  ((if s.input = [] then s.restart else s).fill scan).bind fun s =>
    match s.input with
    | [] => none
    | octet :: input => some (octet, { s with matched := s.matched ++ [octet], input := input })

def skip (scan : Scanning) : ℕ → Fragments → Option Fragments
  | 0, s => some s
  | n + 1, s => (s.yyinput scan).bind fun result => skip scan n result.2

/-- The null octet that is left behind the last match. -/
def terminate (s : Fragments) : Fragments :=
  match s.inPlace, s.input with
  | true, _ :: input => { s with input := 0 :: input }
  | _, _ => s

end Fragments

inductive StartCondition where
  | initial
  | header
  | length
  | body
  deriving DecidableEq, Repr

/-- The tokens that the rules return; none returns "data". -/
inductive Token where
  | type (value : UInt8)
  | length (value : UInt32)
  | body (value : UInt32)
  | endOfMessage
  deriving DecidableEq, Repr

/-- The state of the scanner, and the members of `AVStream_ParserDriver` that the grammar
uses. -/
structure Driver where
  condition : StartCondition
  header : Header
  missing : UInt32
  deriving DecidableEq, Repr

/-- `AVStream_Scanner_lex`; there is no result while it waits for a block. The rule of the
initial state enters the next one and matches again. -/
def lex (scan : Scanning) (o : ByteOrder) (d : Driver) (s : Fragments) :
    Option (Token × Driver × Fragments) :=
  (s.fill scan).bind fun s =>
    match d.condition, s.input with
    | _, [] => none
    | .initial, octet :: input | .header, octet :: input =>
      some (.type octet, { d with condition := .length },
        { s with matched := s.matched ++ [octet], input := input })
    | .length, o₀ :: o₁ :: o₂ :: o₃ :: input =>
      some (.length (UInt32.ofNat (o.load [o₀, o₁, o₂, o₃])), { d with condition := .body },
        { s with matched := s.matched ++ [o₀, o₁, o₂, o₃], input := input })
    -- an invalid character
    | .length, octet :: input =>
      some (.endOfMessage, d, { s with matched := s.matched ++ [octet], input := input })
    | .body, octet :: input =>
      let first := { s with matched := s.matched ++ [octet], input := input }
      match (d.missing - 1).toNat with
      -- the grammar accepts, so that flex does not go on behind the match
      | 0 => some (.body d.missing, { d with condition := .header }, first.terminate)
      | n + 1 => (Fragments.skip scan (n + 1) first).map fun s =>
        (.body d.missing, { d with condition := .header }, s)

/-- How a call of `yyparse` ends: not, because it waits for a block or flex has no room for one;
with a syntax error; with the empty message; or with a message that has been put downstream with
its header, which leaves `headFragment_` and the queue. -/
inductive Outcome where
  | waiting
  | failed
  | empty
  | accepted (header : Header) (message : List (List UInt8)) (d : Driver)
      (headFragment queue : List (List UInt8))
  deriving DecidableEq, Repr

def nullBlock (ndebug : Bool) : Fault := if ndebug then .nullPointer else .assertion

/-- The first loop of `message_cb`, which divides the chain behind the message. -/
def frameMessage (ndebug : Bool) (bytesToSkip : ℕ) :
    List (List UInt8) → Except Fault (List (List UInt8) × List (List UInt8))
  | [] => .error (nullBlock ndebug)
  | block :: cont =>
    if block.length < bytesToSkip then do
      let (message, head) ← frameMessage ndebug (bytesToSkip - block.length) cont
      return (block :: message, head)
    else if bytesToSkip = block.length then return ([block], cont)
    else return ([block.take bytesToSkip], block.drop bytesToSkip :: cont)

/-- The second loop, which advances the read pointers behind the header. Without assertions
it may end behind the last block. -/
def frameData (ndebug : Bool) (bytesToSkip : ℕ) :
    List (List UInt8) → Except Fault (List (List UInt8))
  | [] => if ndebug && bytesToSkip = 0 then .ok [] else .error (nullBlock ndebug)
  | block :: cont =>
    if bytesToSkip = 0 then return block :: cont
    else if block.length ≤ bytesToSkip then do
      let message ← frameData ndebug (bytesToSkip - block.length) cont
      return [] :: message
    else return block.drop bytesToSkip :: cont

def messageCb (ndebug : Bool) (d : Driver) (s : Fragments) : Except Fault Outcome := do
  let (message, head) ←
    frameMessage ndebug (headerSize + d.header.length.toNat)
      (s.front ++ (s.matched ++ s.input) :: s.linked)
  let message ← frameData ndebug headerSize message
  return .accepted d.header message d head s.queue

def parseBody (ndebug : Bool) (scan : Scanning) (o : ByteOrder) (d : Driver) (s : Fragments) :
    Except Fault Outcome :=
  match lex scan o d s with
  | none => .ok .waiting
  | some (.body missing, d, s) => do
    let d := { d with missing := d.missing - missing }
    aceAssert ndebug (d.missing = 0)
    messageCb ndebug d s
  | some _ => .ok .failed

def parseLength (ndebug : Bool) (scan : Scanning) (o : ByteOrder) (d : Driver) (s : Fragments) :
    Except Fault Outcome :=
  match lex scan o d s with
  | none => .ok .waiting
  | some (.length length, d, s) =>
    parseBody ndebug scan o
      { d with header := { d.header with length := length }, missing := length } s
  | some _ => .ok .failed

/-- `AVStream_ParserDriver::parse` on `headFragment_`, while blocks come in the queue. -/
def parse (ndebug : Bool) (scan : Scanning) (o : ByteOrder) (d : Driver)
    (headFragment queue : List (List UInt8)) : Except Fault Outcome :=
  match headFragment with
  | [] => .error (nullBlock ndebug)
  | buffer :: linked =>
    match (Fragments.load scan.first [] buffer linked queue).bind (lex scan o d) with
    | none => .ok .waiting
    | some (.type type, d, s) =>
      parseLength ndebug scan o { d with header := { d.header with type := type } } s
    | some (.endOfMessage, _, _) => .ok .empty
    | some _ => .ok .failed

end ACENetwork.AVStream
