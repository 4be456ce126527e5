import ACENetwork.BitTorrent.Common
import ACENetwork.IRC.Record
import ACENetwork.IRC.Scanner

/-!
# The parser

The automaton of the grammar reads the tokens of a frame, `IRC_ParserDriver` keeps the scanner
from one frame to the next, and `IRC_Module_Parser_T` copies each frame into a buffer of its own
and parses it there.
-/
namespace ACENetwork.IRC.Parser
open BitTorrent (Fault)
open Library

/-- The place in the grammar: the symbol that comes next. -/
inductive State where
  | message
  | origin
  | extPrefix
  | user
  | host
  | command
  | params
  | trailing
  | endOfMessage
  | accepted
  deriving DecidableEq, Repr

/-- The parser with the symbols on its stack whose rules are not complete, the last one first. -/
structure Automaton where
  state : State := .message
  symbols : List Token := []
  record : Record := {}
  deriving DecidableEq

/-- The action of the rule that a symbol of the prefix or the parameters belongs to. -/
def act (r : Record) : Token → Record
  | .origin name => { r with sender := { r.sender with origin := name } }
  | .user name => { r with sender := { r.sender with user := name } }
  | .host name => { r with sender := { r.sender with host := name } }
  | .param value => { r with parameters := value :: r.parameters }
  | _ => r

def Automaton.move (p : Automaton) (next : State) : Automaton := { p with state := next }

def Automaton.push (p : Automaton) (next : State) (t : Token) : Automaton :=
  { p with state := next, symbols := t :: p.symbols }

/-- The rules are right recursive: their actions run from the last symbol to the first. -/
def Automaton.reduce (p : Automaton) (next : State) : Automaton :=
  ⟨next, [], p.symbols.foldl act p.record⟩

def Automaton.command (p : Automaton) (command : Command) : Automaton :=
  { p with state := .params, record := { p.record with command := command } }

def Automaton.commandString (p : Automaton) (name : Bytes) : Except Fault (Option Automaton) :=
  match p.record.command with
  | .string _ => .error .assertion
  | _ => .ok (some (p.command (.string name)))

/-- The automaton after a token, unless that is a syntax error. -/
def Automaton.shift (p : Automaton) (t : Token) : Except Fault (Option Automaton) :=
  match p.state, t with
  | .message, .colon => .ok (some (p.move .origin))
  | .message, .cmdString name => p.commandString name
  | .message, .cmdNumeric code => .ok (some (p.command (.numeric code)))
  | .message, .finished => .ok (some (p.move .accepted))
  | .origin, .origin name => .ok (some (p.push .extPrefix (.origin name)))
  | .extPrefix, .exclamation => .ok (some (p.move .user))
  | .extPrefix, .atSign => .ok (some (p.move .host))
  | .extPrefix, .space => .ok (some (p.reduce .command))
  | .user, .user name => .ok (some (p.push .extPrefix (.user name)))
  | .host, .host name => .ok (some (p.push .extPrefix (.host name)))
  | .command, .cmdString name => p.commandString name
  | .command, .cmdNumeric code => .ok (some (p.command (.numeric code)))
  | .params, .space => .ok (some p)
  | .params, .colon => .ok (some (p.move .trailing))
  | .params, .param value => .ok (some (p.push .params (.param value)))
  | .params, .finished => .ok (some (p.reduce .accepted))
  | .trailing, .param value => .ok (some (p.push .endOfMessage (.param value)))
  | .trailing, .finished => .ok (some (p.reduce .accepted))
  | .endOfMessage, .finished => .ok (some (p.reduce .accepted))
  | _, _ => .ok none

theorem dropWhile_length_lt {p : UInt8 → Bool} {b : UInt8} {rest : Bytes} (h : p b = true) :
    ((b :: rest).dropWhile p).length < (b :: rest).length := by
  rw [List.dropWhile_cons_of_pos h]
  exact Nat.lt_succ_of_le (List.length_dropWhile_le p rest)

theorem commandRule_rest {c next : Condition} {b : UInt8} {rest left : Bytes} {t : Token}
    (h : commandRule c b rest = .give t next left) : left.length ≤ rest.length := by
  rw [commandRule, spaces, longest] at h
  split_ifs at h with hblank halpha hdigits
  · cases h
    exact List.length_dropWhile_le _ rest
  · cases h
    exact Nat.le_of_lt_succ (dropWhile_length_lt halpha)
  · cases h
    simp
  · cases h
    exact le_rfl

theorem rule_rest {c next : Condition} {b : UInt8} {rest left : Bytes} {t : Token}
    (h : rule c b rest = .give t next left) : left.length ≤ rest.length := by
  have hspaces : (rest.dropWhile (· == blank)).length ≤ rest.length :=
    List.length_dropWhile_le _ rest
  have hlongest {p : UInt8 → Bool} (hp : p b = true) :
      ((b :: rest).dropWhile p).length ≤ rest.length := Nat.le_of_lt_succ (dropWhile_length_lt hp)
  cases c with
  | initial =>
    rw [rule] at h
    split_ifs at h
    · cases h; exact le_rfl
    · exact commandRule_rest h
  | sender =>
    rw [rule] at h
    split_ifs at h with _ _ _ hlength <;> cases h
    · exact hspaces
    · exact le_rfl
    · exact le_rfl
    · rw [List.length_drop, List.length_cons]
      omega
    · exact le_rfl
  | user =>
    rw [rule] at h
    split_ifs at h with _ _ huser <;> cases h
    · exact hspaces
    · exact le_rfl
    · exact hlongest huser
    · exact le_rfl
  | host =>
    rw [rule] at h
    split_ifs at h with _ hhost <;> cases h
    · exact hspaces
    · exact hlongest hhost
    · exact le_rfl
  | command => exact commandRule_rest h
  | params =>
    rw [rule] at h
    split_ifs at h with _ _ _ hparam <;> cases h
    · exact hspaces
    · exact le_rfl
    · exact hlongest hparam
    · exact le_rfl
  | trailing =>
    rw [rule] at h
    split_ifs at h with _ htrailing <;> cases h
    · exact hlongest htrailing
    · exact le_rfl
  | endOfFrame =>
    rw [rule] at h
    split_ifs at h
    cases h
    exact le_rfl

theorem lex_rest (c : Condition) (text : Bytes) :
    (lex c text).2.2.length ≤ text.length - 1 := by
  induction text generalizing c with
  | nil => exact le_rfl
  | cons b rest ih =>
    rw [lex]
    cases h : rule c b rest with
    | goOn next => exact (ih next).trans (Nat.sub_le _ _)
    | give t next left => exact rule_rest h

theorem shift_finished {p q : Automaton} (h : p.shift .finished = .ok (some q)) :
    q.state = .accepted := by
  obtain ⟨state, symbols, record⟩ := p
  cases state <;> simp [Automaton.shift, Automaton.move, Automaton.reduce] at h <;> rw [← h]

/-- `IRC_Parser::parse`: the condition that is left, and the record unless the parser aborts. The
end of the message is a token of the grammar and the end of the input after it. -/
def parse (p : Automaton) (c : Condition) (text : Bytes) :
    Except Fault (Condition × Option Record) :=
  match _h : lex c text with
  | (t, next, rest) =>
    if _haccepted : p.state = .accepted ∧ t = .finished then .ok (next, some p.record)
    else
      match _hshift : p.shift t with
      | .error f => .error f
      | .ok none => .ok (next, none)
      | .ok (some q) => parse q next rest
termination_by 2 * text.length + (if p.state = .accepted then 0 else 1)
decreasing_by
  have hrest := lex_rest c text
  rw [_h] at hrest
  cases text with
  | nil =>
    obtain ⟨rfl, rfl, rfl⟩ : .finished = t ∧ c = next ∧ [] = rest := by simpa [lex] using _h
    have hp : p.state ≠ .accepted := fun hp => _haccepted ⟨hp, rfl⟩
    simp [hp, shift_finished _hshift]
  | cons b text =>
    simp only [List.length_cons, Nat.add_sub_cancel] at hrest ⊢
    split_ifs <;> omega

/-- The scanner and the flag that survive a frame. -/
structure Driver where
  condition : Condition := .initial
  isInitialized : Bool := false
  deriving DecidableEq

/-- The octets behind the data of a block, and whether they are its two NULs. -/
structure Buffer where
  data : Bytes
  behind : Bytes
  deriving DecidableEq

def Driver.setup (d : Driver) : Except Fault Driver :=
  if d.isInitialized then .error .assertion else .ok { d with isInitialized := true }

/-- `scan_begin`: `yy_scan_buffer` refuses a buffer that does not end in two NULs. -/
def scanBegin (buffer : Buffer) (useYYScanBuffer : Bool) : Option Bytes :=
  if useYYScanBuffer ∧ buffer.behind.take 2 ≠ [0, 0] then none else some buffer.data

/-- `IRC_ParserDriver::parse`; without a buffer to scan the driver stays initialized. -/
def Driver.parse (d : Driver) (buffer : Buffer) (useYYScanBuffer : Bool) :
    Except Fault (Driver × Option Record) :=
  if !d.isInitialized then .error .assertion
  else
    match scanBegin buffer useYYScanBuffer with
    | none => .ok (d, none)
    | some text => do
      let (condition, record) ← IRC.Parser.parse {} d.condition text
      .ok (⟨condition, false⟩, record)

def maximumFrameSize : ℕ := 512

def flexBoundarySize : ℕ := 2

def copyBlocks (copied : Bytes) : List Bytes → Except Fault Bytes
  | [] => .ok copied
  | block :: blocks =>
    if block.length ≤ maximumFrameSize - copied.length then copyBlocks (copied ++ block) blocks
    else .error .assertion

/-- `IRC_Module_Parser_T::handleDataMessage` with the capacity of the data block that it
allocates: the record that is passed on, unless the frame is dropped. -/
def handleDataMessage (capacity : ℕ) (d : Driver) (blocks : List Bytes) :
    Except Fault (Driver × Option Record) := do
  let data ← copyBlocks [] blocks
  if capacity - data.length < flexBoundarySize then .error .assertion
  else do
    let d ← d.setup
    d.parse ⟨data, [0, 0]⟩ true

end ACENetwork.IRC.Parser
