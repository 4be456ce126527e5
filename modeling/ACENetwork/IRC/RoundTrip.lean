import ACENetwork.IRC.Reading
import ACENetwork.IRC.Streamer

/-!
# Decoding what was encoded

The streamer marks the last parameter with a colon only where it contains a blank. A frame is
read back with its parameters as they were received, and the record is the one that was written
exactly where the last parameter can be told without its mark.
-/
namespace ACENetwork.IRC
open BitTorrent (Fault fault_bind_ok)
open Library
open IRC.Parser IRC.Streamer

section Numbers

theorem decimalValue_zero_cons (text : Bytes) :
    decimalValue ('0'.toUInt8 :: text) = decimalValue text := by
  have hzero : digitValue '0'.toUInt8 = 0 := rfl
  simp [decimalValue, Nat.ofDigits_append, hzero]

theorem decimalValue_numeral (code : ℕ) : decimalValue (numeral code) = code := by
  have hzeros (n : ℕ) (text : Bytes) :
      decimalValue (List.replicate n '0'.toUInt8 ++ text) = decimalValue text := by
    induction n with
    | zero => rfl
    | succ n ih => rw [List.replicate_succ, List.cons_append, decimalValue_zero_cons, ih]
  rw [numeral, hzeros, decimalValue_decimal]

theorem decimal_length_le {code n : ℕ} (hn : 0 < n) (h : code < 10 ^ n) :
    (decimal code).length ≤ n := by
  rw [decimal]
  split_ifs
  · exact hn
  · rw [List.length_reverse, List.length_map]
    exact (Nat.digits_length_le_iff (by decide) code).mpr h

theorem numeral_length {code : ℕ} (h : code < 1000) : (numeral code).length = 3 := by
  have hlength : (decimal code).length ≤ 3 := decimal_length_le (by decide) h
  rw [numeral, List.length_append, List.length_replicate]
  omega

theorem isDigit_of_mem_numeral {code : ℕ} {b : UInt8} (h : b ∈ numeral code) :
    isDigit b = true := by
  rcases List.mem_append.mp h with hzero | hdigit
  · rw [List.eq_of_mem_replicate hzero]
    rfl
  · exact isDigit_of_mem_decimal hdigit

end Numbers

def Command.Legal : Command → Prop
  | .numeric code => code < 1000
  | .string name => name ≠ [] ∧ ∀ b ∈ name, isAlpha b = true
  | .invalid => False

/-- A record of the protocol: an optional origin, which may have a user and a host, a command,
parameters without separators, and a last parameter of any octets that a frame may contain. -/
structure Record.Legal (r : Record) : Prop where
  unprefixed : r.sender.origin = [] → r.sender.user = [] ∧ r.sender.host = []
  origin : r.sender.origin ≠ [] → IsOrigin r.sender.origin
  user : ∀ b ∈ r.sender.user, isParam b = true
  host : ∀ b ∈ r.sender.host, isHost b = true
  command : r.command.Legal
  middle : ∀ parameter ∈ r.parameters.dropLast, IsMiddle parameter
  last : ∀ parameter ∈ r.parameters.getLast?, ∀ b ∈ parameter, isTrailing b = true

/-- The user is one token, and the last parameter is not empty and has a blank where it starts
with a colon. -/
def Record.Decodable (r : Record) : Prop :=
  (∀ b ∈ r.sender.user, isUser b = true) ∧
    ∀ parameter ∈ r.parameters.getLast?,
      parameter ≠ [] ∧ (parameter.head? = some colon → blank ∈ parameter)

theorem spells_commandText {command : Command} (h : command.Legal) :
    Spells (commandText command) command := by
  cases command with
  | numeric code =>
    exact ⟨numeral_length h, fun b hb => isDigit_of_mem_numeral hb, decimalValue_numeral code⟩
  | string name => exact ⟨rfl, h.1, h.2⟩
  | invalid => exact h

theorem streams_of_legal {command : Command} (h : command.Legal) : Streams command := by
  cases command with
  | numeric code => exact numeral_length h
  | string name => trivial
  | invalid => exact h

section Parameters

variable {symbols : List Token} {r : Record} {last : Bytes} {parameters : List Bytes}

/-- The trailing parameter, unless it is empty. -/
def trailingParameter (text : Bytes) : List Bytes := if text = [] then [] else [text]

def receivedLast (last : Bytes) : List Bytes :=
  if blank ∈ last then [last]
  else if last.head? = some colon then trailingParameter last.tail
  else trailingParameter last

def received : List Bytes → List Bytes
  | [] => []
  | [last] => receivedLast last
  | parameter :: parameters => parameter :: received parameters

theorem parse_trailing {text : Bytes} (htext : ∀ b ∈ text, isTrailing b = true) :
    parse ⟨.params, symbols, r⟩ .params (colon :: (text ++ crlf)) =
      .ok (.initial,
        some (((trailingParameter text).map Token.param ++ symbols).foldl act r)) := by
  have hcolon : lex .params (colon :: (text ++ crlf)) = (.colon, .trailing, text ++ crlf) :=
    lex_give rfl
  rw [parse_shift hcolon rfl, trailingParameter]
  split_ifs with hempty
  · rw [hempty]
    exact parse_boundary (Or.inr (Or.inr rfl)) (Or.inr (Or.inl rfl))
  · have hstops : Stops isTrailing crlf := fun b hb => by
      obtain rfl : carriageReturn = b := Option.some.inj hb
      rfl
    refine (parse_shift (lex_trailing hempty htext hstops) rfl).trans ?_
    exact parse_boundary (Or.inr (Or.inr rfl)) (Or.inr (Or.inr rfl))

theorem isParam_of_isTrailing {b : UInt8} (h : isTrailing b = true) (hblank : b ≠ blank) :
    isParam b = true :=
  isParam_iff.mpr ⟨hblank, isTrailing_iff.mp h⟩

theorem parse_middle {parameter rest : Bytes} (hparameter : IsMiddle parameter)
    (hrest : Stops isParam rest) :
    parse ⟨.params, symbols, r⟩ .params (parameter ++ rest) =
      parse ⟨.params, .param parameter :: symbols, r⟩ .params rest :=
  parse_shift (lex_param hparameter hrest) rfl

theorem stops_isParam_crlf : Stops isParam crlf := fun b hb => by
  obtain rfl : carriageReturn = b := Option.some.inj hb
  rfl

theorem parse_last (hlast : ∀ b ∈ last, isTrailing b = true) :
    parse ⟨.params, symbols, r⟩ .params (parametersText [last] ++ crlf) =
      .ok (.initial, some (((receivedLast last).map Token.param ++ symbols).foldl act r)) := by
  rw [parametersText, receivedLast]
  by_cases hblank : blank ∈ last
  · have hne : last ≠ [] := List.ne_nil_of_mem hblank
    have hparse : parse ⟨.params, symbols, r⟩ .params (colon :: (last ++ crlf)) = _ :=
      parse_trailing hlast
    rw [trailingParameter, if_neg hne] at hparse
    simpa [hblank] using hparse
  · have hplain : ∀ b ∈ last, isParam b = true := fun b hb =>
      isParam_of_isTrailing (hlast b hb) fun heq => hblank (heq ▸ hb)
    rw [if_neg (by simpa using hblank), if_neg hblank, List.nil_append]
    by_cases hcolon : last.head? = some colon
    · obtain ⟨tail, rfl⟩ : ∃ tail, last = colon :: tail := List.head?_eq_some_iff.mp hcolon
      rw [if_pos hcolon]
      exact parse_trailing fun b hb => hlast b (List.mem_cons_of_mem colon hb)
    · rw [if_neg hcolon, trailingParameter]
      split_ifs with hempty
      · rw [hempty]
        exact parse_boundary (Or.inr (Or.inl rfl)) (Or.inl rfl)
      · refine (parse_middle ⟨hempty, hplain, hcolon⟩ stops_isParam_crlf).trans ?_
        exact parse_boundary (Or.inr (Or.inl rfl)) (Or.inl rfl)

theorem stops_parametersText (hmiddle : ∀ parameter ∈ parameters.dropLast, IsMiddle parameter) :
    Stops (· == blank) (parametersText parameters ++ crlf) := by
  intro b hb
  cases parameters with
  | nil =>
    obtain rfl : carriageReturn = b := Option.some.inj hb
    rfl
  | cons parameter parameters =>
    cases parameters with
    | nil =>
      rw [parametersText] at hb
      by_cases hblank : blank ∈ parameter
      · obtain rfl : colon = b := by simpa [hblank] using hb
        rfl
      · cases parameter with
        | nil =>
          obtain rfl : carriageReturn = b := by simpa [crlf] using hb
          rfl
        | cons d tail =>
          obtain rfl : d = b := by simpa [hblank] using hb
          have hne : d ≠ blank := fun heq => hblank (heq ▸ List.mem_cons_self)
          simpa using hne
    | cons next parameters =>
      obtain ⟨hne, hall, -⟩ := hmiddle parameter (by simp)
      obtain ⟨d, tail, rfl⟩ := List.exists_cons_of_ne_nil hne
      obtain rfl : d = b := by
        simpa [parametersText] using hb
      simpa using (isParam_iff.mp (hall d List.mem_cons_self)).1

theorem parse_parameters (hne : parameters ≠ [])
    (hmiddle : ∀ parameter ∈ parameters.dropLast, IsMiddle parameter)
    (hlast : ∀ parameter ∈ parameters.getLast?, ∀ b ∈ parameter, isTrailing b = true) :
    parse ⟨.params, symbols, r⟩ .params (parametersText parameters ++ crlf) =
      .ok (.initial,
        some ((((received parameters).map Token.param).reverse ++ symbols).foldl act r)) := by
  induction parameters generalizing symbols with
  | nil => exact absurd rfl hne
  | cons parameter parameters ih =>
    cases parameters with
    | nil =>
      have hreverse : ((receivedLast parameter).map Token.param).reverse =
          (receivedLast parameter).map Token.param := by
        simp only [receivedLast, trailingParameter]
        split_ifs <;> rfl
      rw [received, hreverse]
      exact parse_last (hlast parameter rfl)
    | cons next parameters =>
      have hstops : Stops (· == blank) (parametersText (next :: parameters) ++ crlf) :=
        stops_parametersText fun p hp => hmiddle p (by simp [hp])
      have hblank : lex .params (blank :: (parametersText (next :: parameters) ++ crlf)) =
          (.space, .params, parametersText (next :: parameters) ++ crlf) :=
        lex_blanks_params blanks_singleton hstops
      rw [parametersText, List.append_assoc, parse_middle (hmiddle parameter (by simp))]
      · rw [List.cons_append, parse_shift hblank rfl,
          ih (List.cons_ne_nil next parameters) (fun p hp => hmiddle p (by simp [hp])) hlast]
        simp [received]
      · intro b hb
        obtain rfl : blank = b := Option.some.inj hb
        rfl
      · exact List.cons_ne_nil next parameters

theorem foldl_act_params (parameters : List Bytes) :
    ((parameters.map Token.param).reverse).foldl act r =
      { r with parameters := parameters ++ r.parameters } := by
  induction parameters with
  | nil => rfl
  | cons parameter parameters ih =>
    rw [List.map_cons, List.reverse_cons, List.foldl_append, ih]
    rfl

theorem received_eq_iff : received parameters = parameters ↔
    ∀ parameter ∈ parameters.getLast?,
      parameter ≠ [] ∧ (parameter.head? = some colon → blank ∈ parameter) := by
  induction parameters with
  | nil => simp [received]
  | cons parameter parameters ih =>
    cases parameters with
    | nil =>
      rw [received, receivedLast]
      by_cases hblank : blank ∈ parameter
      · simp [hblank, List.ne_nil_of_mem hblank]
      · by_cases hcolon : parameter.head? = some colon
        · obtain ⟨tail, rfl⟩ := List.head?_eq_some_iff.mp hcolon
          simp only [hblank, hcolon, trailingParameter]
          cases tail <;> simp [hblank]
        · cases parameter <;> simp_all [trailingParameter]
    | cons next parameters =>
      rw [received, List.cons_inj_right, ih]
      · simp
      · exact List.cons_ne_nil next parameters

end Parameters

section Frames

variable {r : Record}

def senderParts (sender : Prefix) : List Part :=
  (if sender.user = [] then [] else [.user sender.user]) ++
    (if sender.host = [] then [] else [.host sender.host])

theorem senderParts_text (sender : Prefix) :
    (senderParts sender).flatMap Part.text =
      partText exclamation sender.user ++ partText atSign sender.host := by
  rw [senderParts, partText, partText]
  split_ifs <;> simp [Part.text, Part.mark, Part.name]

theorem senderParts_valid {sender : Prefix} (huser : ∀ b ∈ sender.user, isUser b = true)
    (hhost : ∀ b ∈ sender.host, isHost b = true) :
    ∀ part ∈ senderParts sender, part.Valid := by
  intro part hpart
  rcases List.mem_append.mp hpart with hpart | hpart <;> split_ifs at hpart with hempty
  · cases hpart
  · obtain rfl := List.mem_singleton.mp hpart
    exact ⟨hempty, huser⟩
  · cases hpart
  · obtain rfl := List.mem_singleton.mp hpart
    exact ⟨hempty, hhost⟩

theorem senderParts_separate (sender : Prefix) : Separate (senderParts sender) := by
  rw [Separate, senderParts]
  split_ifs <;> simp [Part.octet, Part.mark, isUser]

theorem foldl_act_sender (sender : Prefix) :
    (((senderParts sender).map Part.token).reverse ++ [Token.origin sender.origin]).foldl act {} =
      { sender := sender } := by
  obtain ⟨origin, user, host⟩ := sender
  rw [senderParts]
  split_ifs with huser hhost hhost <;> simp_all [Part.token, act]

theorem stops_commandText {command : Command} (h : command.Legal) (rest : Bytes) :
    Stops (· == blank) (commandText command ++ rest) := by
  have hfirst : ∀ b ∈ commandText command, b ≠ blank := by
    rintro b hb rfl
    cases command with
    | numeric code => exact absurd (isDigit_of_mem_numeral hb) (by decide)
    | string name => exact absurd (h.2 blank hb) (by decide)
    | invalid => exact h
  have hne : commandText command ≠ [] := by
    cases command with
    | numeric code => exact List.ne_nil_of_length_pos (by simp [commandText, numeral_length h])
    | string name => exact h.1
    | invalid => exact h.elim
  obtain ⟨d, tail, hcommand⟩ := List.exists_cons_of_ne_nil hne
  rw [hcommand] at hfirst ⊢
  intro b hb
  obtain rfl : d = b := Option.some.inj hb
  simpa using hfirst d List.mem_cons_self

theorem stops_restText (parameters : List Bytes) : Stops isAlpha (restText parameters) := by
  intro b hb
  cases parameters with
  | nil =>
    obtain rfl : carriageReturn = b := Option.some.inj hb
    rfl
  | cons parameter parameters =>
    obtain rfl : blank = b := Option.some.inj hb
    rfl

theorem parse_restText {c : Condition} (hc : c.Commanding) (hparameters : r.parameters = [])
    {parameters : List Bytes} (hmiddle : ∀ p ∈ parameters.dropLast, IsMiddle p)
    (hlast : ∀ p ∈ parameters.getLast?, ∀ b ∈ p, isTrailing b = true) :
    ∃ next, parse ⟨.params, [], r⟩ c (restText parameters) =
      .ok (next, some { r with parameters := received parameters }) := by
  by_cases hne : parameters = []
  · have hr : r = { r with parameters := [] } := by rw [← hparameters]
    rw [hne]
    rcases hc with rfl | rfl
    · refine ⟨.initial, (parse_boundary (Or.inl rfl) (Or.inl rfl)).trans ?_⟩
      rw [received, ← hr]
      rfl
    · -- the scanner takes the carriage return for an invalid character
      have hreturn : lex .command crlf = (.finished, .command, [lineFeed]) := lex_give rfl
      refine ⟨.command, (parse_shift hreturn rfl).trans ?_⟩
      have hfeed : lex .command [lineFeed] = (.finished, .command, []) := lex_give rfl
      rw [parse_accept hfeed rfl, received, ← hr]
      rfl
  · have hblank : lex c (blank :: (parametersText parameters ++ crlf)) =
        (.space, .params, parametersText parameters ++ crlf) :=
      lex_blanks_commanding hc blanks_singleton (stops_parametersText hmiddle)
    refine ⟨.initial, ?_⟩
    rw [restText, if_pos hne, List.singleton_append, parse_shift hblank rfl,
      parse_parameters hne hmiddle hlast, List.append_nil, foldl_act_params, hparameters,
      List.append_nil]

theorem parse_frameText (hlegal : r.Legal) (huser : ∀ b ∈ r.sender.user, isUser b = true) :
    ∃ next, parse {} .initial (frameText r) =
      .ok (next, some { r with parameters := received r.parameters }) := by
  have hspells := spells_commandText hlegal.command
  have hstops (name : Bytes) (_ : r.command = .string name) : Stops isAlpha (restText r.parameters) :=
    stops_restText r.parameters
  rw [frameText, prefixText]
  split_ifs with horigin
  · obtain ⟨hnone, hhost⟩ := hlegal.unprefixed horigin
    obtain ⟨next, hrest⟩ := parse_restText (r := { command := r.command }) (Or.inl rfl) rfl
      hlegal.middle hlegal.last
    refine ⟨next, ?_⟩
    rw [List.nil_append, parse_command (Or.inl rfl) (Or.inl rfl) rfl hspells hstops, hrest]
    have hsender : r.sender = {} := by
      cases hr : r.sender
      simp_all
    rw [hsender]
  · obtain ⟨next, hrest⟩ := parse_restText (r := { sender := r.sender, command := r.command })
      (Or.inr rfl) rfl hlegal.middle hlegal.last
    have hsender := parse_sender (r := {}) (hlegal.origin horigin)
      (senderParts_valid huser hlegal.host) (senderParts_separate r.sender)
      blanks_singleton (stops_commandText hlegal.command (restText r.parameters))
    rw [senderParts_text, foldl_act_sender] at hsender
    refine ⟨next, ?_⟩
    simp only [List.cons_append, List.append_assoc, List.nil_append] at hsender ⊢
    rw [hsender, parse_command (Or.inr rfl) (Or.inr rfl) rfl hspells hstops, hrest]

end Frames

section Users

def ReadsUser (t : Token) : Prop := ∀ name, t = .user name → ∀ b ∈ name, isUser b = true

theorem readsUser_of_rule {c next : Condition} {b : UInt8} {rest left : Bytes} {t : Token}
    (h : rule c b rest = .give t next left) : ReadsUser t := by
  have hcommand {c : Condition} (h : commandRule c b rest = .give t next left) : ReadsUser t := by
    rintro name rfl
    rw [commandRule, spaces, longest] at h
    split_ifs at h <;> cases h
  rintro name rfl
  cases c with
  | user =>
    rw [rule, spaces, longest] at h
    split_ifs at h with hblank hat huser <;> cases h
    exact fun b hb => List.mem_takeWhile_imp hb
  | initial =>
    rw [rule] at h
    split_ifs at h
    · cases h
    · exact hcommand h name rfl
  | command => exact hcommand h name rfl
  | sender | host | params | trailing | endOfFrame =>
    simp only [rule, spaces, longest] at h
    split_ifs at h <;> cases h

theorem readsUser_lex (c : Condition) (text : Bytes) : ReadsUser (lex c text).1 := by
  induction text generalizing c with
  | nil => exact fun name h => Token.noConfusion h
  | cons b rest ih =>
    rw [lex]
    cases h : rule c b rest with
    | goOn next => exact ih next
    | give t next left => exact readsUser_of_rule h

/-- The user of the record and those on the stack are tokens that were read. -/
def UsersRead (p : Automaton) : Prop :=
  (∀ b ∈ p.record.sender.user, isUser b = true) ∧ ∀ t ∈ p.symbols, ReadsUser t

variable {p q : Automaton}

theorem foldl_act_user {symbols : List Token} {r : Record}
    (hr : ∀ b ∈ r.sender.user, isUser b = true) (hsymbols : ∀ t ∈ symbols, ReadsUser t) :
    ∀ b ∈ (symbols.foldl act r).sender.user, isUser b = true := by
  induction symbols generalizing r with
  | nil => exact hr
  | cons t symbols ih =>
    obtain ⟨ht, hall⟩ := List.forall_mem_cons.mp hsymbols
    refine ih ?_ hall
    cases t with
    | user name => exact ht name rfl
    | _ => exact hr

theorem usersRead_shift {t : Token} (hp : UsersRead p) (ht : ReadsUser t)
    (h : p.shift t = .ok (some q)) : UsersRead q := by
  cases shifted_of_shift h with
  | keep => exact hp
  | move state => exact hp
  | push state => exact ⟨hp.1, List.forall_mem_cons.mpr ⟨ht, hp.2⟩⟩
  | reduce state => exact ⟨foldl_act_user hp.1 hp.2, by simp [Automaton.reduce]⟩
  | command command => exact hp

theorem user_of_parse {c next : Condition} {text : Bytes} {r : Record} (hp : UsersRead p)
    (h : parse p c text = .ok (next, some r)) : ∀ b ∈ r.sender.user, isUser b = true := by
  induction p, c, text using parse.induct with
  | case1 p c text t next' rest hlex haccepted =>
    rw [haccepted.2] at hlex
    rw [parse_accept hlex haccepted.1] at h
    cases h
    exact hp.1
  | case2 p c text t next' rest hlex hopen f hshift =>
    rw [parse_fault hlex hshift] at h
    cases h
  | case3 p c text t next' rest hlex hopen hshift =>
    rw [parse_reject hlex hshift fun hp ht => hopen ⟨hp, ht⟩] at h
    cases h
  | case4 p c text t next' rest hlex hopen q hshift ih =>
    rw [parse_shift hlex hshift] at h
    have ht : ReadsUser t := by
      have hread := readsUser_lex c text
      rwa [hlex] at hread
    exact ih (usersRead_shift hp ht hshift) h

end Users

/-- What a new driver, initialized with an empty record, makes of the octets of a message. -/
def decode (useYYScanBuffer : Bool) (octets : Bytes) : Except Fault (Option Record) := do
  let d ← Driver.setup {}
  let (_, record) ← d.parse ⟨octets, [0, 0]⟩ useYYScanBuffer
  .ok record

def transmit (m : Message) (useYYScanBuffer : Bool) (r : Record) :
    Except Fault (Option Record) := do
  let emitted ← Streamer.handleDataMessage m r
  match emitted with
  | none => .ok none
  | some n => decode useYYScanBuffer n.content

theorem decode_eq (useYYScanBuffer : Bool) (octets : Bytes) :
    decode useYYScanBuffer octets = (parse {} .initial octets >>= fun x => .ok x.2) := by
  have hscan : scanBegin ⟨octets, [0, 0]⟩ useYYScanBuffer = some octets := by
    simp [scanBegin]
  have hparse : Driver.parse ⟨.initial, true⟩ ⟨octets, [0, 0]⟩ useYYScanBuffer =
      (parse {} .initial octets >>= fun x => .ok (⟨x.1, false⟩, x.2)) := by
    rw [Driver.parse, hscan]
    rfl
  change (Driver.parse ⟨.initial, true⟩ _ _ >>= fun x => .ok x.2) = _
  rw [hparse, bind_assoc]
  rfl

/-- A record that fits the frame size is decoded from its frame exactly where it is decodable. -/
theorem transmit_iff_decodable {m : Message} {r : Record} (useYYScanBuffer : Bool)
    (hempty : m.content = []) (hspace : maximumFrameSize ≤ m.space) (hlegal : r.Legal)
    (hfits : (frameText r).length ≤ maximumFrameSize) :
    transmit m useYYScanBuffer r = .ok (some r) ↔ r.Decodable := by
  have hemit : Streamer.handleDataMessage m r =
      .ok (some ⟨m.content ++ frameText r, m.space - (frameText r).length⟩) := by
    rw [handleDataMessage_eq m (streams_of_legal hlegal.command) hempty hspace, Message.copy,
      if_pos (hfits.trans hspace)]
  have htransmit : transmit m useYYScanBuffer r =
      (parse {} .initial (frameText r) >>= fun x => .ok x.2) := by
    rw [← decode_eq useYYScanBuffer, transmit, hemit, hempty]
    rfl
  rw [htransmit, Record.Decodable, ← received_eq_iff]
  constructor
  · intro h
    obtain ⟨next, hparse⟩ : ∃ next, parse {} .initial (frameText r) = .ok (next, some r) := by
      obtain ⟨x, hparse, hx⟩ := fault_bind_ok.mp h
      exact ⟨x.1, by rw [hparse, ← Except.ok.inj hx]⟩
    have huser := user_of_parse (p := {}) ⟨by simp, by simp⟩ hparse
    obtain ⟨next', hframe⟩ := parse_frameText hlegal huser
    have hsame := (Prod.mk.inj (Except.ok.inj (hparse.symm.trans hframe))).2
    exact ⟨huser, (congrArg Record.parameters (Option.some.inj hsame)).symm⟩
  · rintro ⟨huser, hreceived⟩
    obtain ⟨next, hframe⟩ := parse_frameText hlegal huser
    rw [hframe, hreceived]
    rfl

def privateMessage : Record :=
  { sender := ⟨text "nick", text "user", text "host.org"⟩, command := .string (text "PRIVMSG"),
    parameters := [text "#channel", text ":-) hello"] }

theorem privateMessage_legal : privateMessage.Legal where
  unprefixed := by decide
  origin _ := Or.inr (by decide +kernel)
  user := by decide +kernel
  host := by decide +kernel
  command := by
    show _ ∧ _
    decide +kernel
  middle parameter hparameter := by
    obtain rfl : parameter = text "#channel" := by simpa [privateMessage] using hparameter
    exact ⟨by decide +kernel, by decide +kernel, by decide +kernel⟩
  last := by decide +kernel

theorem privateMessage_transmitted :
    transmit { space := 512 } true privateMessage = .ok (some privateMessage) :=
  (transmit_iff_decodable true rfl le_rfl privateMessage_legal (by decide +kernel)).mpr
    ⟨by decide +kernel, by decide +kernel⟩

def clearTopic : Record :=
  { command := .string (text "TOPIC"), parameters := [text "#channel", []] }

theorem clearTopic_legal : clearTopic.Legal where
  unprefixed _ := ⟨rfl, rfl⟩
  origin h := absurd rfl h
  user := by decide +kernel
  host := by decide +kernel
  command := by
    show _ ∧ _
    decide +kernel
  middle parameter hparameter := by
    obtain rfl : parameter = text "#channel" := by simpa [clearTopic] using hparameter
    exact ⟨by decide +kernel, by decide +kernel, by decide +kernel⟩
  last := by decide +kernel

theorem clearTopic_not_transmitted :
    clearTopic.Legal ∧ (frameText clearTopic).length ≤ maximumFrameSize ∧
      transmit { space := 512 } true clearTopic =
        .ok (some { clearTopic with parameters := [text "#channel"] }) ∧
      transmit { space := 512 } true clearTopic ≠ .ok (some clearTopic) :=
  ⟨clearTopic_legal, by decide +kernel, by decide +kernel, by decide +kernel⟩

end ACENetwork.IRC
