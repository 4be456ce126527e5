import ACENetwork.Library.ByteOrder
import ACENetwork.Library.Cuts

/-!
# Netlink messages of the WLAN monitor

`Net_WLAN_Monitor_T::processMessage` for nl80211: the bytes that have been read form a chain of
blocks, from which headers and bodies are copied into a message of libnl. Every callback returns
`NL_OK`.
-/
namespace ACENetwork.WLAN.Netlink
open Library

/-- A failed `ACE_ASSERT`, a null pointer that is followed, bytes that are written behind the buffer
of a message, and a loop that has not ended. -/
inductive Fault where
  | assertion
  | nullPointer
  | bufferOverflow
  | diverges
  deriving DecidableEq, Repr

/-- `ACE_ASSERT`: builds that define `ACE_NDEBUG` do not evaluate it. -/
def aceAssert (ndebug : Bool) (condition : Bool) : Except Fault Unit :=
  if ndebug || condition then .ok () else .error .assertion

/-- The callbacks in `cb_set` that a received message may run, and `cb_err`. -/
inductive Callback where
  | valid
  | finish
  | overrun
  | skipped
  | ack
  | msgIn
  | invalid
  | seqCheck
  | sendAck
  | dumpIntr
  | error
  deriving DecidableEq, Repr

/-- What `processMessage` finds: the build and its byte order, the callbacks that are set, and the
buffer that `nlmsg_alloc` provides. -/
structure Environment where
  ndebug : Bool
  order : ByteOrder
  isSet : Callback → Bool
  allocated : List UInt8

/-- What `processMessage` reads and writes of the socket. -/
structure Socket where
  autoAck : Bool
  seqExpect : UInt32
  deriving DecidableEq, Repr

def headerLength : ℕ := 16

def messageLength (o : ByteOrder) (message : List UInt8) : ℕ := o.load (message.take 4)

def messageType (o : ByteOrder) (message : List UInt8) : ℕ := o.load ((message.drop 4).take 2)

def messageFlags (o : ByteOrder) (message : List UInt8) : ℕ := o.load ((message.drop 6).take 2)

def messageSeq (o : ByteOrder) (message : List UInt8) : ℕ := o.load ((message.drop 8).take 4)

/-- `nlmsg_datalen`, as an `unsigned int`. -/
def dataLength (o : ByteOrder) (message : List UInt8) : UInt32 :=
  UInt32.ofNat (messageLength o message) - 16

def errorCode (o : ByteOrder) (message : List UInt8) : ℕ := o.load ((message.drop 16).take 4)

section Dispatch

variable (env : Environment)

def call (callback : Callback) : List Callback :=
  if env.isSet callback then [callback] else []

/-- The check of the sequence number; the flag says that the label `error` comes next. -/
def checkSequence (socket : Socket) (message : List UInt8) : List Callback × Bool :=
  if env.isSet .seqCheck then ([.seqCheck], false)
  else if socket.autoAck && UInt32.ofNat (messageSeq env.order message) ≠ socket.seqExpect then
    (call env .invalid, !env.isSet .invalid)
  else ([], false)

def dispatchType (message : List UInt8) : List Callback × Bool :=
  match messageType env.order message with
  | 3 => (call env .finish, false)
  | 1 => (call env .skipped, false)
  | 4 => (call env .overrun, !env.isSet .overrun)
  | 2 =>
    if messageLength env.order message < 36 then (call env .invalid, !env.isSet .invalid)
    else if errorCode env.order message ≠ 0 then (call env .error, !env.isSet .error)
    else (call env .ack, false)
  | _ => (call env .valid, false)

/-- What the third step runs: callbacks, each with the message. -/
structure Dispatched where
  callbacks : List Callback
  socket : Socket
  error : Bool
  deriving DecidableEq, Repr

/-- The third step of `processMessage`. -/
def dispatch (socket : Socket) (message : List UInt8) : Dispatched :=
  let sequence := checkSequence env socket message
  let callbacks := call env .msgIn ++ sequence.1
  if sequence.2 then ⟨callbacks, socket, true⟩
  else
    let type := messageType env.order message
    let flags := messageFlags env.order message
    let socket :=
      if type = 3 ∨ type = 2 ∨ type = 1 ∨ type = 4 then
        { socket with seqExpect := socket.seqExpect + 1 }
      else socket
    let last := dispatchType env message
    ⟨callbacks ++ (if flags &&& 0x10 ≠ 0 then call env .dumpIntr else []) ++
      (if flags &&& 4 ≠ 0 then call env .sendAck else []) ++ last.1, socket, last.2⟩

end Dispatch

/-- The members `buffer_`, where no block is the null pointer, `headerReceived_` and `message_`. -/
structure Monitor where
  buffer : List (List UInt8)
  headerReceived : Bool
  message : Option (List UInt8)
  socket : Socket
  deriving DecidableEq, Repr

def copy (offset : ℕ) (bytes message : List UInt8) : Except Fault (List UInt8) :=
  if bytes = [] then .ok message
  else if offset + bytes.length ≤ message.length then
    .ok (message.take offset ++ bytes ++ message.drop (offset + bytes.length))
  else .error .bufferOverflow

/-- The loop that assembles the header: the message, and the chain with its read pointers
advanced. The destination is a pointer to headers, so that an offset counts 16 bytes. -/
def copyHeader (ndebug : Bool) (missingBytes offset : ℕ) (message : List UInt8) :
    List (List UInt8) → Except Fault (List UInt8 × List (List UInt8))
  | [] => .error .nullPointer
  | block :: cont => do
    let bytesToCopy := min block.length missingBytes
    let message ← copy (headerLength * offset) (block.take bytesToCopy) message
    let block := block.drop bytesToCopy
    aceAssert ndebug (block ≠ [] ∨ cont ≠ [])
    if missingBytes - bytesToCopy = 0 then return (message, block :: cont)
    else do
      let (message, cont) ←
        copyHeader ndebug (missingBytes - bytesToCopy) (offset + bytesToCopy) message cont
      return (message, block :: cont)

def skipEmpty : List (List UInt8) → Except Fault (List (List UInt8))
  | [] => .error .nullPointer
  | block :: cont => if block = [] then skipEmpty cont else .ok (block :: cont)

/-- The loop that assembles the body: the message, and the chain from the block at which it ends. -/
def copyBody (missingBytes offset : ℕ) (message : List UInt8) :
    List (List UInt8) → Except Fault (List UInt8 × List (List UInt8))
  | [] => .error .nullPointer
  | block :: cont => do
    let bytesToCopy := min block.length missingBytes
    let message ← copy (headerLength + offset) (block.take bytesToCopy) message
    if missingBytes - bytesToCopy = 0 then
      return (message, Blocks.remaining (block.drop bytesToCopy) cont)
    else copyBody (missingBytes - bytesToCopy) (offset + bytesToCopy) message cont

/-- A callback that has been run with the bytes of a message. -/
structure Event where
  callback : Callback
  message : List UInt8
  deriving DecidableEq, Repr

def Dispatched.events (d : Dispatched) (message : List UInt8) : List Event :=
  d.callbacks.map (⟨·, message⟩)

/-- How a pass behind the label `next` ends: more data is needed, or a message has been dispatched. -/
inductive Pass where
  | returned (s : Monitor)
  | dispatched (events : List Event) (error : Bool) (s : Monitor)
  deriving DecidableEq, Repr

section Process

variable (env : Environment)

/-- The assertions at which fully processed blocks are released. -/
def assertRemaining (buffer rest : List (List UInt8)) (bufferSize : UInt32) : Except Fault Unit :=
  if rest = [] then aceAssert env.ndebug (bufferSize = 0)
  else if rest.length ≠ buffer.length then aceAssert env.ndebug (bufferSize ≠ 0)
  else .ok ()

/-- The second and third step of a pass, behind the label `continue_`. -/
def dissectBody (s : Monitor) (message : List UInt8) (bufferSize : UInt32) : Except Fault Pass :=
  let missingBytes := dataLength env.order message
  if bufferSize < missingBytes then
    .ok (.returned { s with headerReceived := true, message := some message })
  else do
    let chain ← skipEmpty s.buffer
    let (message, rest) ← copyBody missingBytes.toNat 0 message chain
    assertRemaining env s.buffer rest (bufferSize - missingBytes)
    let received := message.take (messageLength env.order message)
    let dispatched := dispatch env s.socket received
    return .dispatched (dispatched.events received) dispatched.error
      ⟨rest, false, none, dispatched.socket⟩

def dissect (s : Monitor) : Except Fault Pass :=
  let bufferSize := UInt32.ofNat s.buffer.flatten.length
  if bufferSize < 16 then .ok (.returned s)
  else
    let message := s.message.getD env.allocated
    if s.headerReceived then dissectBody env s message bufferSize
    else do
      let (message, buffer) ← copyHeader env.ndebug headerLength 0 message s.buffer
      dissectBody env { s with buffer := buffer } message (bufferSize - 16)

/-- The passes of a call; the fuel is an upper bound of their number. -/
def passes : ℕ → Monitor → Except Fault (List Event × Monitor)
  | 0, _ => .error .diverges
  | fuel + 1, s => do
    match ← dissect env s with
    | .returned s => return ([], s)
    | .dispatched events error s =>
      if error ∨ s.buffer = [] then return (events, s)
      else
        let (later, s) ← passes fuel s
        return (events ++ later, s)

def processMessage (s : Monitor) (block : List UInt8) : Except Fault (List Event × Monitor) :=
  passes env (s.buffer.flatten.length + block.length + 1) { s with buffer := s.buffer ++ [block] }

def run (s : Monitor) : List (List UInt8) → Except Fault (List Event × Monitor)
  | [] => .ok ([], s)
  | block :: blocks => do
    let (events, s) ← processMessage env s block
    let (later, s) ← run s blocks
    return (events ++ later, s)

end Process

end ACENetwork.WLAN.Netlink
