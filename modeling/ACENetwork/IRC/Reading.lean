import ACENetwork.IRC.Parser

/-!
# What the parser reads

Each piece of a frame, followed by an octet that cannot belong to it, takes the parser from one
place of the grammar to the next.
-/
namespace ACENetwork.IRC.Parser
open BitTorrent (Fault)
open Library

section Classes

variable {b : UInt8}

theorem isParam_iff :
    isParam b = true ↔ b ≠ blank ∧ b ≠ 0x00 ∧ b ≠ carriageReturn ∧ b ≠ lineFeed := by
  simp [isParam]

theorem isTrailing_iff :
    isTrailing b = true ↔ b ≠ 0x00 ∧ b ≠ carriageReturn ∧ b ≠ lineFeed := by
  simp [isTrailing]

theorem isAlpha_of_isDigit : isDigit b = true → isAlpha b ≠ true := by
  revert b
  decide +kernel

end Classes

section Steps

variable {p q : Automaton} {c next : Condition} {t : Token} {text rest : Bytes}

theorem lex_give {b : UInt8} (h : rule c b text = .give t next rest) :
    lex c (b :: text) = (t, next, rest) := by
  rw [lex, h]

theorem shift_accepted (h : p.state = .accepted) : p.shift t = .ok none := by
  obtain ⟨state, symbols, record⟩ := p
  obtain rfl : state = .accepted := h
  rfl

theorem parse_shift (hlex : lex c text = (t, next, rest)) (hshift : p.shift t = .ok (some q)) :
    parse p c text = parse q next rest := by
  have hstate : p.state ≠ .accepted := fun h => by cases hshift.symm.trans (shift_accepted h)
  obtain ⟨rfl, rfl, rfl⟩ : (lex c text).1 = t ∧ (lex c text).2.1 = next ∧ (lex c text).2.2 = rest := by
    simp [hlex]
  rw [parse]
  dsimp only
  rw [dif_neg fun h => hstate h.1]
  split
  · next f h => cases hshift.symm.trans h
  · next h => cases hshift.symm.trans h
  · next q' h =>
    cases hshift.symm.trans h
    rfl

theorem parse_fault {f : Fault} (hlex : lex c text = (t, next, rest))
    (hshift : p.shift t = .error f) : parse p c text = .error f := by
  have hstate : p.state ≠ .accepted := fun h => by cases hshift.symm.trans (shift_accepted h)
  obtain ⟨rfl, rfl, rfl⟩ : (lex c text).1 = t ∧ (lex c text).2.1 = next ∧ (lex c text).2.2 = rest := by
    simp [hlex]
  rw [parse]
  dsimp only
  rw [dif_neg fun h => hstate h.1]
  split
  · next f' h =>
    cases hshift.symm.trans h
    rfl
  · next h => cases hshift.symm.trans h
  · next q' h => cases hshift.symm.trans h

theorem parse_reject (hlex : lex c text = (t, next, rest)) (hshift : p.shift t = .ok none)
    (ht : p.state = .accepted → t ≠ .finished) : parse p c text = .ok (next, none) := by
  obtain ⟨rfl, rfl, rfl⟩ : (lex c text).1 = t ∧ (lex c text).2.1 = next ∧ (lex c text).2.2 = rest := by
    simp [hlex]
  rw [parse]
  dsimp only
  rw [dif_neg fun h => ht h.1 h.2]
  split
  · next f h => cases hshift.symm.trans h
  · rfl
  · next q' h => cases hshift.symm.trans h

theorem parse_accept (hlex : lex c text = (.finished, next, rest)) (hstate : p.state = .accepted) :
    parse p c text = .ok (next, some p.record) := by
  rw [parse]
  dsimp only
  rw [dif_pos ⟨hstate, by rw [hlex]⟩, hlex]

end Steps

section Pieces

variable {symbols : List Token} {r : Record} {rest : Bytes}

def Blanks (text : Bytes) : Prop := text ≠ [] ∧ ∀ b ∈ text, b = blank

theorem blanks_singleton : Blanks [blank] := by
  simp [Blanks]

theorem spaces_run {next : Condition} {text : Bytes} (h : ∀ b ∈ text, b = blank) (hrest : Stops (· == blank) rest) :
    spaces next (text ++ rest) = .give .space next rest := by
  rw [spaces, dropWhile_run (by simpa using h) hrest]

theorem longest_run {P : UInt8 → Bool} {token : Bytes → Token} {next : Condition}
    {text : Bytes} (h : ∀ b ∈ text, P b = true) (hrest : Stops P rest) :
    longest P token next (text ++ rest) = .give (token text) next rest := by
  rw [longest, takeWhile_run h hrest, dropWhile_run h hrest]

theorem lex_blanks_sender {blanks : Bytes} (hblanks : Blanks blanks)
    (hrest : Stops (· == blank) rest) :
    lex .sender (blanks ++ rest) = (.space, .command, rest) := by
  obtain ⟨b, blanks, rfl⟩ := List.exists_cons_of_ne_nil hblanks.1
  obtain ⟨rfl, hall⟩ := List.forall_mem_cons.mp hblanks.2
  refine lex_give ?_
  rw [List.append_eq, rule, if_pos rfl]
  exact spaces_run hall hrest

theorem lex_blanks_params {blanks : Bytes} (hblanks : Blanks blanks)
    (hrest : Stops (· == blank) rest) :
    lex .params (blanks ++ rest) = (.space, .params, rest) := by
  obtain ⟨b, blanks, rfl⟩ := List.exists_cons_of_ne_nil hblanks.1
  obtain ⟨rfl, hall⟩ := List.forall_mem_cons.mp hblanks.2
  refine lex_give ?_
  rw [List.append_eq, rule, if_pos rfl]
  exact spaces_run hall hrest

def Condition.Commanding (c : Condition) : Prop := c = .initial ∨ c = .command

theorem rule_commanding {c : Condition} (hc : c.Commanding) {b : UInt8} (hcolon : b ≠ colon)
    (hreturn : b ≠ carriageReturn) : rule c b rest = commandRule c b rest := by
  rcases hc with rfl | rfl
  · rw [rule, if_neg hcolon, if_neg hreturn]
  · rfl

theorem lex_blanks_commanding {c : Condition} (hc : c.Commanding) {blanks : Bytes}
    (hblanks : Blanks blanks) (hrest : Stops (· == blank) rest) :
    lex c (blanks ++ rest) = (.space, .params, rest) := by
  obtain ⟨b, blanks, rfl⟩ := List.exists_cons_of_ne_nil hblanks.1
  obtain ⟨rfl, hall⟩ := List.forall_mem_cons.mp hblanks.2
  refine lex_give ((rule_commanding hc (by decide) (by decide)).trans ?_)
  exact (if_pos rfl).trans (spaces_run hall hrest)

theorem lex_cmdString {c : Condition} (hc : c.Commanding) {name : Bytes} (hname : name ≠ [])
    (hall : ∀ b ∈ name, isAlpha b = true) (hrest : Stops isAlpha rest) :
    lex c (name ++ rest) = (.cmdString name, c, rest) := by
  obtain ⟨b, tail, rfl⟩ := List.exists_cons_of_ne_nil hname
  have hb : isAlpha b = true := hall b List.mem_cons_self
  have hother (d : UInt8) (hd : isAlpha d = false) : b ≠ d := fun heq => by simp [← heq, hb] at hd
  refine lex_give ((rule_commanding hc (hother _ rfl) (hother _ rfl)).trans ?_)
  rw [commandRule, if_neg (hother _ rfl), if_pos hb]
  exact longest_run hall hrest

theorem lex_cmdNumeric {c : Condition} (hc : c.Commanding) {digits : Bytes}
    (hlength : digits.length = 3) (hall : ∀ b ∈ digits, isDigit b = true) :
    lex c (digits ++ rest) = (.cmdNumeric (decimalValue digits), c, rest) := by
  obtain ⟨b, d, e, rfl⟩ := List.length_eq_three.mp hlength
  have hb : isDigit b = true := hall b List.mem_cons_self
  have hother (d : UInt8) (hd : isDigit d = false) : b ≠ d := fun heq => by simp [← heq, hb] at hd
  have halpha : isAlpha b ≠ true := isAlpha_of_isDigit hb
  refine lex_give ((rule_commanding hc (hother _ rfl) (hother _ rfl)).trans ?_)
  rw [commandRule, if_neg (hother _ rfl), if_neg halpha, if_pos]
  · rfl
  · exact ⟨le_rfl, by simpa using hall⟩

def IsNick (name : Bytes) : Prop :=
  ∃ b tail, name = b :: tail ∧ isAlpha b = true ∧ ∀ d ∈ tail, isNick d = true

def IsOrigin (name : Bytes) : Prop :=
  IsNick name ∨ name ≠ [] ∧ ∀ b ∈ name, isHost b = true

theorem nickLength_le {name : Bytes} (hname : name ≠ []) (hrest : Stops isNick rest) :
    nickLength (name ++ rest) ≤ name.length := by
  obtain ⟨b, tail, rfl⟩ := List.exists_cons_of_ne_nil hname
  rw [List.cons_append, nickLength]
  split
  · exact Nat.succ_le_succ (takeWhile_length_le hrest)
  · exact Nat.zero_le _

theorem originLength_origin {name : Bytes} (hname : IsOrigin name) (hnick : Stops isNick rest)
    (hhost : Stops isHost rest) : originLength (name ++ rest) = name.length := by
  have hne : name ≠ [] := by
    rcases hname with ⟨b, tail, rfl, -⟩ | ⟨hne, -⟩
    · exact List.cons_ne_nil b tail
    · exact hne
  have hle : originLength (name ++ rest) ≤ name.length :=
    max_le (nickLength_le hne hnick) (takeWhile_length_le hhost)
  refine le_antisymm hle ?_
  rcases hname with ⟨b, tail, rfl, hb, htail⟩ | ⟨-, hall⟩
  · refine le_trans (le_of_eq ?_) (le_max_left _ _)
    rw [List.cons_append, nickLength, if_pos hb, takeWhile_run htail hnick]
    rfl
  · refine le_trans (le_of_eq ?_) (le_max_right _ _)
    rw [takeWhile_run hall hhost]

theorem isHost_of_isAlpha {b : UInt8} (h : isAlpha b = true) : isHost b = true := by
  simp [isHost, h]

theorem lex_origin {name : Bytes} (hname : IsOrigin name) (hnick : Stops isNick rest)
    (hhost : Stops isHost rest) : lex .sender (name ++ rest) = (.origin name, .sender, rest) := by
  have hlength := originLength_origin hname hnick hhost
  obtain ⟨b, tail, rfl, hb⟩ : ∃ b tail, name = b :: tail ∧ isHost b = true := by
    rcases hname with ⟨b, tail, rfl, hb, -⟩ | ⟨hne, hall⟩
    · exact ⟨b, tail, rfl, isHost_of_isAlpha hb⟩
    · obtain ⟨b, tail, rfl⟩ := List.exists_cons_of_ne_nil hne
      exact ⟨b, tail, rfl, hall b List.mem_cons_self⟩
  have hother (d : UInt8) (hd : isHost d = false) : b ≠ d := fun heq => by simp [← heq, hb] at hd
  refine lex_give ?_
  rw [rule, if_neg (hother _ rfl), if_neg (hother _ rfl), if_neg (hother _ rfl)]
  rw [List.append_eq, ← List.cons_append, hlength, if_pos (by simp), List.take_left' rfl,
    List.drop_left' rfl]

inductive Part where
  | user (name : Bytes)
  | host (name : Bytes)
  deriving DecidableEq, Repr

def Part.mark : Part → UInt8
  | .user _ => exclamation
  | .host _ => atSign

def Part.name : Part → Bytes
  | .user name => name
  | .host name => name

def Part.text (part : Part) : Bytes := part.mark :: part.name

def Part.token : Part → Token
  | .user name => .user name
  | .host name => .host name

def Part.octet : Part → UInt8 → Bool
  | .user _ => isUser
  | .host _ => isHost

def Part.Valid (part : Part) : Prop := part.name ≠ [] ∧ ∀ b ∈ part.name, part.octet b = true

theorem lex_user {name : Bytes} (hname : name ≠ []) (hall : ∀ b ∈ name, isUser b = true)
    (hrest : Stops isUser rest) : lex .user (name ++ rest) = (.user name, .sender, rest) := by
  obtain ⟨b, tail, rfl⟩ := List.exists_cons_of_ne_nil hname
  have hb : isUser b = true := hall b List.mem_cons_self
  have hother (d : UInt8) (hd : isUser d = false) : b ≠ d := fun heq => by simp [← heq, hb] at hd
  refine lex_give ?_
  rw [rule, if_neg (hother _ rfl), if_neg (hother _ rfl), if_pos hb]
  exact longest_run hall hrest

theorem lex_host {name : Bytes} (hname : name ≠ []) (hall : ∀ b ∈ name, isHost b = true)
    (hrest : Stops isHost rest) : lex .host (name ++ rest) = (.host name, .sender, rest) := by
  obtain ⟨b, tail, rfl⟩ := List.exists_cons_of_ne_nil hname
  have hb : isHost b = true := hall b List.mem_cons_self
  have hother (d : UInt8) (hd : isHost d = false) : b ≠ d := fun heq => by simp [← heq, hb] at hd
  refine lex_give ?_
  rw [rule, if_neg (hother _ rfl), if_pos hb]
  exact longest_run hall hrest

theorem parse_part {part : Part} (hpart : part.Valid) (hrest : Stops part.octet rest) :
    parse ⟨.extPrefix, symbols, r⟩ .sender (part.text ++ rest) =
      parse ⟨.extPrefix, part.token :: symbols, r⟩ .sender rest := by
  obtain ⟨hname, hall⟩ := hpart
  cases part with
  | user name =>
    have hmark : lex .sender (exclamation :: (name ++ rest)) =
        (.exclamation, .user, name ++ rest) := lex_give rfl
    exact (parse_shift hmark rfl).trans
      (parse_shift (lex_user hname hall hrest) rfl)
  | host name =>
    have hmark : lex .sender (atSign :: (name ++ rest)) = (.atSign, .host, name ++ rest) :=
      lex_give rfl
    exact (parse_shift hmark rfl).trans
      (parse_shift (lex_host hname hall hrest) rfl)

/-- The mark of a part ends the part before it: no user follows a user. -/
def Separate (parts : List Part) : Prop := parts.IsChain fun a b => a.octet b.mark = false

theorem stops_part {part : Part} {parts : List Part} (hseparate : Separate (part :: parts))
    (hrest : rest.head? = some blank) :
    Stops part.octet (parts.flatMap Part.text ++ rest) := by
  intro b hb
  cases parts with
  | nil =>
    obtain rfl : blank = b := Option.some.inj (hrest.symm.trans hb)
    cases part <;> rfl
  | cons next parts =>
    obtain rfl : next.mark = b := Option.some.inj hb
    exact (List.isChain_cons_cons.mp hseparate).1

theorem parse_parts {parts : List Part} (hparts : ∀ part ∈ parts, part.Valid)
    (hseparate : Separate parts) (hrest : rest.head? = some blank) :
    parse ⟨.extPrefix, symbols, r⟩ .sender (parts.flatMap Part.text ++ rest) =
      parse ⟨.extPrefix, (parts.map Part.token).reverse ++ symbols, r⟩ .sender rest := by
  induction parts generalizing symbols with
  | nil => rfl
  | cons part parts ih =>
    obtain ⟨hpart, hall⟩ := List.forall_mem_cons.mp hparts
    rw [List.flatMap_cons, List.append_assoc, parse_part hpart (stops_part hseparate hrest),
      ih hall hseparate.tail]
    simp

theorem parse_sender {origin blanks : Bytes} {parts : List Part} (horigin : IsOrigin origin)
    (hparts : ∀ part ∈ parts, part.Valid) (hseparate : Separate parts) (hblanks : Blanks blanks)
    (hrest : Stops (· == blank) rest) :
    parse ⟨.message, [], r⟩ .initial
        (colon :: (origin ++ (parts.flatMap Part.text ++ (blanks ++ rest)))) =
      parse ⟨.command, [], ((parts.map Part.token).reverse ++ [Token.origin origin]).foldl act r⟩
        .command rest := by
  have hblank : (blanks ++ rest).head? = some blank := by
    obtain ⟨b, tail, rfl⟩ := List.exists_cons_of_ne_nil hblanks.1
    exact congrArg some (hblanks.2 b List.mem_cons_self)
  have hstops (octet : UInt8 → Bool) (hmarks : octet exclamation = false ∧
      octet atSign = false ∧ octet blank = false) :
      Stops octet (parts.flatMap Part.text ++ (blanks ++ rest)) := by
    intro b hb
    cases parts with
    | nil =>
      obtain rfl : blank = b := Option.some.inj (hblank.symm.trans hb)
      exact hmarks.2.2
    | cons part parts =>
      obtain rfl : part.mark = b := Option.some.inj hb
      cases part with
      | user name => exact hmarks.1
      | host name => exact hmarks.2.1
  have hcolon : lex .initial (colon :: (origin ++ (parts.flatMap Part.text ++ (blanks ++ rest)))) =
      (.colon, .sender, origin ++ (parts.flatMap Part.text ++ (blanks ++ rest))) := lex_give rfl
  rw [parse_shift hcolon rfl,
    parse_shift (lex_origin horigin (hstops isNick (by decide +kernel))
      (hstops isHost (by decide +kernel))) rfl]
  refine (parse_parts hparts hseparate hblank).trans ?_
  exact parse_shift (lex_blanks_sender hblanks hrest) rfl

inductive Shifted (p : Automaton) (t : Token) : Automaton → Prop where
  | keep : Shifted p t p
  | move (state : State) : Shifted p t (p.move state)
  | push (state : State) : Shifted p t (p.push state t)
  | reduce (state : State) : Shifted p t (p.reduce state)
  | command (command : Command) : Shifted p t (p.command command)

theorem shifted_of_shift {p q : Automaton} {t : Token} (h : p.shift t = .ok (some q)) :
    Shifted p t q := by
  have hstring {name : Bytes} (h : p.commandString name = .ok (some q)) : Shifted p t q := by
    rw [Automaton.commandString] at h
    split at h
    · cases h
    · cases h
      exact .command (.string name)
  unfold Automaton.shift at h
  split at h
  case h_2 | h_11 => exact hstring h
  all_goals cases h
  all_goals constructor

/-- What a command reads like: letters, or three digits. -/
def Spells (text : Bytes) : Command → Prop
  | .string name => text = name ∧ name ≠ [] ∧ ∀ b ∈ name, isAlpha b = true
  | .numeric code =>
    text.length = 3 ∧ (∀ b ∈ text, isDigit b = true) ∧ decimalValue text = code
  | .invalid => False

theorem parse_command {c : Condition} {state : State} {text : Bytes} {command : Command}
    (hc : c.Commanding) (hstate : state = .message ∨ state = .command)
    (hr : r.command = .invalid) (htext : Spells text command)
    (hrest : ∀ name, command = .string name → Stops isAlpha rest) :
    parse ⟨state, [], r⟩ c (text ++ rest) =
      parse ⟨.params, [], { r with command := command }⟩ c rest := by
  cases command with
  | string name =>
    obtain ⟨rfl, hname, hall⟩ := htext
    refine parse_shift (lex_cmdString hc hname hall (hrest text rfl)) ?_
    rcases hstate with rfl | rfl <;> simp [Automaton.shift, Automaton.commandString, hr] <;> rfl
  | numeric code =>
    obtain ⟨hlength, hall, rfl⟩ := htext
    refine parse_shift (lex_cmdNumeric hc hlength hall) ?_
    rcases hstate with rfl | rfl <;> rfl
  | invalid => exact htext.elim

def IsMiddle (param : Bytes) : Prop :=
  param ≠ [] ∧ (∀ b ∈ param, isParam b = true) ∧ param.head? ≠ some colon

theorem lex_param {param : Bytes} (hparam : IsMiddle param) (hrest : Stops isParam rest) :
    lex .params (param ++ rest) = (.param param, .params, rest) := by
  obtain ⟨hne, hall, hcolon⟩ := hparam
  obtain ⟨b, tail, rfl⟩ := List.exists_cons_of_ne_nil hne
  have hb := hall b List.mem_cons_self
  obtain ⟨hblank, -, hreturn, -⟩ := isParam_iff.1 hb
  have hcolon' : b ≠ colon := fun heq => hcolon (congrArg some heq)
  refine lex_give ?_
  rw [rule, if_neg hblank, if_neg hcolon', if_neg hreturn, if_pos hb]
  exact longest_run hall hrest

theorem lex_trailing {param : Bytes} (hne : param ≠ []) (hall : ∀ b ∈ param, isTrailing b = true)
    (hrest : Stops isTrailing rest) :
    lex .trailing (param ++ rest) = (.param param, .trailing, rest) := by
  obtain ⟨b, tail, rfl⟩ := List.exists_cons_of_ne_nil hne
  have hb := hall b List.mem_cons_self
  refine lex_give ?_
  rw [rule, if_neg (isTrailing_iff.1 hb).2.1, if_pos hb]
  exact longest_run hall hrest

def State.MayEnd (s : State) : Prop := s = .params ∨ s = .trailing ∨ s = .endOfMessage

def Condition.Bounded (c : Condition) : Prop := c = .initial ∨ c = .params ∨ c = .trailing

theorem shift_end {state : State} (hstate : state.MayEnd) :
    Automaton.shift ⟨state, symbols, r⟩ .finished =
      .ok (some ⟨.accepted, [], symbols.foldl act r⟩) := by
  rcases hstate with rfl | rfl | rfl <;> rfl

theorem lex_boundary {c : Condition} (hc : c.Bounded) : lex c crlf = (.finished, .initial, []) := by
  rcases hc with rfl | rfl | rfl <;> rfl

theorem parse_boundary {c : Condition} {state : State} (hc : c.Bounded) (hstate : state.MayEnd) :
    parse ⟨state, symbols, r⟩ c crlf = .ok (.initial, some (symbols.foldl act r)) := by
  rw [parse_shift (lex_boundary hc) (shift_end hstate)]
  exact parse_accept rfl rfl

end Pieces

end ACENetwork.IRC.Parser
