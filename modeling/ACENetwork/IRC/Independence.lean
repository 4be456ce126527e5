import ACENetwork.IRC.Reading
import ACENetwork.Library.Runs

/-!
# Frames are parsed independently

The start condition of the scanner survives a frame. A frame that leaves it at `INITIAL` and fits
the buffer of the parser does not touch the frames after it.
-/
namespace ACENetwork.IRC.Parser
open BitTorrent (Fault fault_bind_ok)
open Library
open Library.Runs

/-- The parser with the outcomes of the frames so far. -/
structure Module where
  driver : Driver := {}
  outcomes : List (Option Record) := []
  deriving DecidableEq

def Module.receive (capacity : ℕ) (m : Module) (blocks : List Bytes) : Except Fault Module := do
  let (driver, outcome) ← handleDataMessage capacity m.driver blocks
  .ok ⟨driver, m.outcomes ++ [outcome]⟩

def IsCommand (text : Bytes) : Prop := ∃ command, Spells text command

def IsLead (lead : Bytes) : Prop :=
  lead = [] ∨ ∃ (origin : Bytes) (parts : List Part) (blanks : Bytes), IsOrigin origin ∧
    (∀ part ∈ parts, part.Valid) ∧ Separate parts ∧ Blanks blanks ∧
    lead = colon :: (origin ++ (parts.flatMap Part.text ++ blanks))

/-- No NUL, but possibly at the end. -/
def Undisturbed (params : Bytes) : Prop := 0x00 ∉ params.dropLast

def StartsCommand (rest : Bytes) : Prop :=
  (∃ b ∈ rest.head?, isAlpha b = true) ∨ ∃ digits tail, rest = digits ++ tail ∧
    digits.length = 3 ∧ ∀ b ∈ digits, isDigit b = true

/-- What stands in front of a frame boundary where the scanner returns to `INITIAL`: nothing; a
message with parameters; a command without prefix and parameters; a second command behind a
command; or an octet that nothing starts with, a line feed for instance, and neither colon nor blank
nor carriage return behind it. -/
inductive Returns : Bytes → Prop where
  | empty : Returns []
  | message {lead command params : Bytes} (hlead : IsLead lead) (hcommand : IsCommand command)
      (hplain : ∀ b ∈ params, isPlain b = true) (hparams : Undisturbed params) : Returns (lead ++ (command ++ blank :: params))
  | command {command : Bytes} (hcommand : IsCommand command) : Returns command
  | twice {command rest : Bytes} (hcommand : IsCommand command) (hrest : StartsCommand rest)
      (hstops : (∀ b ∈ command, isAlpha b = true) → Stops isAlpha rest) : Returns (command ++ rest)
  | stray {front rest : Bytes} {b : UInt8} (hfront : front = [] ∨ IsCommand front)
      (hnone : ¬ StartsCommand (b :: rest)) (hb : b ≠ colon ∧ b ≠ blank ∧ b ≠ carriageReturn)
      (hrest : ∀ d ∈ rest.head?, d ≠ colon ∧ d ≠ blank ∧ d ≠ carriageReturn) :
      Returns (front ++ b :: rest)

/-- A frame that fits the buffer with the NULs behind it, and that leaves the scanner as it was. -/
structure Regular (capacity : ℕ) (frame : Bytes) : Prop where
  fits : frame.length ≤ maximumFrameSize
  boundary : frame.length + flexBoundarySize ≤ capacity
  returns : ∃ body, frame = body ++ crlf ∧ Returns body

section Params

variable {symbols : List Token} {r : Record} {state : State}

def EndsInitial (x : Except Fault (Condition × Option Record)) : Prop :=
  ∃ outcome, x = .ok (.initial, outcome)

theorem isTrailing_of_isPlain {b : UInt8} (hplain : isPlain b = true) (hb : b ≠ 0x00) :
    isTrailing b = true :=
  isTrailing_iff.mpr ⟨hb, ne_of_isPlain hplain⟩

/-- A NUL ends the message, and the frame boundary behind it is still read. -/
theorem endsInitial_nul {c : Condition} (hc : c = .params ∨ c = .trailing)
    (hstate : state.MayEnd) : EndsInitial (parse ⟨state, symbols, r⟩ c (0x00 :: crlf)) := by
  have hnul : lex c (0x00 :: crlf) = (.finished, c, crlf) := by
    rcases hc with rfl | rfl <;> exact lex_give rfl
  rw [EndsInitial, parse_shift hnul (shift_end hstate)]
  exact ⟨_, parse_accept (lex_boundary (Or.inr hc)) rfl⟩

theorem undisturbed_of_append {text rest : Bytes} (h : Undisturbed (text ++ rest)) :
    Undisturbed rest := by
  intro hin
  have hne : rest ≠ [] := by
    rintro rfl
    exact List.not_mem_nil hin
  refine h ?_
  rw [List.dropLast_append_of_ne_nil hne]
  exact List.mem_append_right text hin

theorem eq_nil_of_nul {rest : Bytes} (h : Undisturbed (0x00 :: rest)) : rest = [] := by
  by_contra hne
  refine h ?_
  rw [List.dropLast_cons_of_ne_nil hne]
  exact List.mem_cons_self

theorem stops_append_crlf {p : UInt8 → Bool} {rest : Bytes} (hrest : Stops p rest)
    (hreturn : p carriageReturn = false) : Stops p (rest ++ crlf) := by
  intro b hb
  cases rest with
  | nil =>
    obtain rfl : carriageReturn = b := Option.some.inj hb
    exact hreturn
  | cons d rest => exact hrest b hb

theorem endsInitial_trailing {text : Bytes} (hplain : ∀ b ∈ text, isPlain b = true)
    (htext : Undisturbed text) :
    EndsInitial (parse ⟨.trailing, symbols, r⟩ .trailing (text ++ crlf)) := by
  obtain ⟨run, rest, rfl, hrun, hstops⟩ := exists_run isTrailing text
  have hrest : rest = [] ∨ rest = [0x00] := by
    cases rest with
    | nil => exact Or.inl rfl
    | cons b rest =>
      have hb : b = 0x00 := by
        by_contra hne
        have hin : isTrailing b = true :=
          isTrailing_of_isPlain (hplain b (by simp)) hne
        rw [hstops b rfl] at hin
        exact absurd hin (by decide)
      subst hb
      exact Or.inr (congrArg _ (eq_nil_of_nul (undisturbed_of_append htext)))
  have hend (state : State) (hstate : state.MayEnd) (symbols : List Token) :
      EndsInitial (parse ⟨state, symbols, r⟩ .trailing (rest ++ crlf)) := by
    rcases hrest with rfl | rfl
    · exact ⟨_, parse_boundary (Or.inr (Or.inr rfl)) hstate⟩
    · exact endsInitial_nul (Or.inr rfl) hstate
  by_cases hempty : run = []
  · rw [hempty]
    exact hend .trailing (Or.inr (Or.inl rfl)) symbols
  · have hstops' : Stops isTrailing (rest ++ crlf) := stops_append_crlf hstops rfl
    rw [List.append_assoc, parse_shift (lex_trailing hempty hrun hstops') rfl]
    exact hend .endOfMessage (Or.inr (Or.inr rfl)) (.param run :: symbols)

theorem endsInitial_params {text : Bytes} (hplain : ∀ b ∈ text, isPlain b = true)
    (htext : Undisturbed text) :
    EndsInitial (parse ⟨.params, symbols, r⟩ .params (text ++ crlf)) := by
  induction hn : text.length using Nat.strong_induction_on generalizing text symbols with
  | _ n ih =>
    subst hn
    cases text with
    | nil => exact ⟨_, parse_boundary (Or.inr (Or.inl rfl)) (Or.inl rfl)⟩
    | cons b rest =>
      have hsuffix {run tail : Bytes} (htail : b :: rest = run ++ tail) :
          (∀ d ∈ tail, isPlain d = true) ∧ Undisturbed tail :=
        ⟨fun d hd => hplain d (htail ▸ List.mem_append_right run hd),
          undisturbed_of_append (htail ▸ htext)⟩
      have hshorter {p : UInt8 → Bool} (hb : p b = true) :
          ∃ run tail, b :: rest = run ++ tail ∧ run ≠ [] ∧ (∀ d ∈ run, p d = true) ∧
            Stops p tail ∧ tail.length < (b :: rest).length := by
        obtain ⟨run, tail, htail, hrun, hstops⟩ := exists_run p (b :: rest)
        have hne : run ≠ [] := by
          rintro rfl
          rw [List.nil_append] at htail
          exact absurd (hstops b (htail ▸ rfl)) (by simp [hb])
        refine ⟨run, tail, htail, hne, hrun, hstops, ?_⟩
        have := List.length_pos_iff.mpr hne
        rw [htail, List.length_append]
        omega
      by_cases hblank : b = blank
      · obtain ⟨run, tail, htail, hne, hrun, hstops, hlt⟩ := hshorter (p := (· == blank))
          (by simpa using hblank)
        have hblanks : Blanks run := ⟨hne, by simpa using hrun⟩
        have hspace := lex_blanks_params hblanks (stops_append_crlf hstops rfl)
        rw [htail, List.append_assoc, parse_shift hspace rfl]
        exact ih _ hlt (hsuffix htail).1 (hsuffix htail).2 rfl
      by_cases hcolon : b = colon
      · subst hcolon
        have hlex : lex .params (colon :: (rest ++ crlf)) = (.colon, .trailing, rest ++ crlf) :=
          lex_give rfl
        rw [List.cons_append, parse_shift hlex rfl]
        have hrest := hsuffix (show colon :: rest = [colon] ++ rest from rfl)
        exact endsInitial_trailing hrest.1 hrest.2
      by_cases hnul : b = 0x00
      · subst hnul
        rw [eq_nil_of_nul htext]
        exact endsInitial_nul (Or.inl rfl) (Or.inl rfl)
      · have hb : isParam b = true :=
          isParam_iff.mpr ⟨hblank, hnul, ne_of_isPlain (hplain b List.mem_cons_self)⟩
        obtain ⟨run, tail, htail, hne, hrun, hstops, hlt⟩ := hshorter hb
        have hmiddle : IsMiddle run := by
          refine ⟨hne, hrun, fun hhead => hcolon ?_⟩
          obtain ⟨d, run, rfl⟩ := List.exists_cons_of_ne_nil hne
          exact (List.cons.inj htail).1.trans (Option.some.inj hhead)
        rw [htail, List.append_assoc,
          parse_shift (lex_param hmiddle (stops_append_crlf hstops rfl)) rfl]
        exact ih _ hlt (hsuffix htail).1 (hsuffix htail).2 rfl

end Params

section Bodies

variable {r : Record} {p : Automaton} {text : Bytes}

theorem plain_of_append {front rest : Bytes} (h : ∀ b ∈ front ++ rest, isPlain b = true) :
    ∀ b ∈ rest, isPlain b = true :=
  fun b hb => h b (List.mem_append_right front hb)

theorem stops_command {command : Bytes} (rest : Bytes) (hcommand : IsCommand command) :
    Stops (· == blank) (command ++ rest) := by
  obtain ⟨value, hspells⟩ := hcommand
  obtain ⟨d, tail, rfl, hd⟩ : ∃ d tail, command = d :: tail ∧ d ≠ blank := by
    cases value with
    | string name =>
      obtain ⟨rfl, hne, hall⟩ := hspells
      obtain ⟨d, tail, rfl⟩ := List.exists_cons_of_ne_nil hne
      refine ⟨d, tail, rfl, fun heq => ?_⟩
      exact absurd (heq ▸ hall d List.mem_cons_self) (by decide)
    | numeric code =>
      obtain ⟨hlength, hall, -⟩ := hspells
      obtain ⟨d, e, f, rfl⟩ := List.length_eq_three.mp hlength
      refine ⟨d, [e, f], rfl, fun heq => ?_⟩
      exact absurd (heq ▸ hall d List.mem_cons_self) (by decide)
    | invalid => exact hspells.elim
  intro b hb
  obtain rfl : d = b := Option.some.inj hb
  simpa using hd

theorem parse_isCommand {c : Condition} {state : State} {command rest : Bytes}
    (hc : c.Commanding) (hstate : state = .message ∨ state = .command)
    (hr : r.command = .invalid) (hcommand : IsCommand command)
    (hrest : (∀ b ∈ command, isAlpha b = true) → Stops isAlpha rest) :
    ∃ r', parse ⟨state, [], r⟩ c (command ++ rest) = parse ⟨.params, [], r'⟩ c rest := by
  obtain ⟨value, hspells⟩ := hcommand
  refine ⟨{ r with command := value }, parse_command hc hstate hr hspells fun name hname => ?_⟩
  subst hname
  obtain ⟨rfl, -, hall⟩ := hspells
  exact hrest hall

theorem foldl_act_command (symbols : List Token) (r : Record) :
    (symbols.foldl act r).command = r.command := by
  induction symbols generalizing r with
  | nil => rfl
  | cons t symbols ih =>
    refine (ih (act r t)).trans ?_
    cases t <;> rfl

theorem endsInitial_commanding {c : Condition} {state : State} {command params : Bytes}
    (hc : c.Commanding) (hstate : state = .message ∨ state = .command)
    (hr : r.command = .invalid) (hcommand : IsCommand command)
    (hplain : ∀ b ∈ params, isPlain b = true) (hparams : Undisturbed params) :
    EndsInitial (parse ⟨state, [], r⟩ c (command ++ (blank :: params ++ crlf))) := by
  have hstops (_ : ∀ b ∈ command, isAlpha b = true) :
      Stops isAlpha (blank :: params ++ crlf) := by
    intro b hb
    obtain rfl : blank = b := Option.some.inj hb
    rfl
  obtain ⟨r', hparse⟩ := parse_isCommand hc hstate hr hcommand hstops
  obtain ⟨run, rest, rfl, hrun, hrest⟩ := exists_run (· == blank) params
  have hspace : lex c (blank :: run ++ (rest ++ crlf)) = (.space, .params, rest ++ crlf) :=
    lex_blanks_commanding hc ⟨by simp, by simpa using hrun⟩ (stops_append_crlf hrest rfl)
  rw [hparse, ← List.cons_append, List.append_assoc, parse_shift hspace rfl]
  exact endsInitial_params (plain_of_append hplain) (undisturbed_of_append hparams)

theorem endsInitial_message {lead command params : Bytes}
    (hplain : ∀ b ∈ params, isPlain b = true)
    (hlead : IsLead lead) (hcommand : IsCommand command) (hparams : Undisturbed params) :
    EndsInitial (parse {} .initial (lead ++ (command ++ (blank :: params ++ crlf)))) := by
  rcases hlead with rfl | ⟨origin, parts, blanks, horigin, hparts, hseparate, hblanks, rfl⟩
  · exact endsInitial_commanding (Or.inl rfl) (Or.inl rfl) rfl hcommand hplain hparams
  · have hsender := parse_sender (r := {}) horigin hparts hseparate hblanks
      (stops_command (blank :: params ++ crlf) hcommand)
    simp only [List.cons_append, List.append_assoc] at hsender ⊢
    rw [hsender]
    refine endsInitial_commanding (Or.inr rfl) (Or.inr rfl) ?_ hcommand hplain hparams
    exact foldl_act_command _ {}

theorem parse_accepted (c : Condition) (text : Bytes) (hp : p.state = .accepted) :
    ∃ outcome, parse p c text = .ok ((lex c text).2.1, outcome) := by
  by_cases ht : (lex c text).1 = .finished
  · have hlex : lex c text = (.finished, (lex c text).2.1, (lex c text).2.2) := by rw [← ht]
    exact ⟨_, parse_accept hlex hp⟩
  · exact ⟨_, parse_reject rfl (shift_accepted hp) fun _ => ht⟩

/-- Where neither a prefix nor a boundary nor blanks start, `INITIAL` stays. -/
theorem lex_initial {b : UInt8} {rest : Bytes} (hcolon : b ≠ colon) (hblank : b ≠ blank)
    (hreturn : b ≠ carriageReturn) : (lex .initial (b :: rest)).2.1 = .initial := by
  have hrule : rule .initial b rest = commandRule .initial b rest :=
    rule_commanding (Or.inl rfl) hcolon hreturn
  rw [commandRule, if_neg hblank] at hrule
  rw [lex, hrule]
  split_ifs <;> rfl

theorem endsInitial_accepted (hp : p.state = .accepted)
    (hfirst : ∀ d ∈ text.head?, d ≠ colon ∧ d ≠ blank ∧ d ≠ carriageReturn) :
    EndsInitial (parse p .initial (text ++ crlf)) := by
  obtain ⟨outcome, hparse⟩ := parse_accepted .initial (text ++ crlf) hp
  refine ⟨outcome, hparse.trans ?_⟩
  cases text with
  | nil => rfl
  | cons d rest =>
    obtain ⟨hcolon, hblank, hreturn⟩ := hfirst d rfl
    rw [List.cons_append, lex_initial hcolon hblank hreturn]

theorem lex_stray {b : UInt8} {rest : Bytes} (hnone : ¬ StartsCommand (b :: rest))
    (hcolon : b ≠ colon) (hblank : b ≠ blank) (hreturn : b ≠ carriageReturn) :
    lex .initial (b :: (rest ++ crlf)) = (.finished, .initial, rest ++ crlf) := by
  refine lex_give ((rule_commanding (Or.inl rfl) hcolon hreturn).trans ?_)
  have halpha : ¬ isAlpha b = true := fun h => hnone (Or.inl ⟨b, rfl, h⟩)
  have hdigits : ¬ (3 ≤ (b :: (rest ++ crlf).take 2).length ∧
      (b :: (rest ++ crlf).take 2).all isDigit = true) := by
    rintro ⟨-, hall⟩
    refine hnone (Or.inr ?_)
    have hreturn' : isDigit carriageReturn = false := rfl
    rcases rest with _ | ⟨d, _ | ⟨e, tail⟩⟩
    · exact absurd hall (by simp [crlf, hreturn'])
    · exact absurd hall (by simp [crlf, hreturn'])
    · exact ⟨[b, d, e], tail, rfl, rfl, by simpa using hall⟩
  rw [commandRule, if_neg hblank, if_neg halpha, if_neg hdigits]

theorem endsInitial_twice {symbols : List Token} {rest : Bytes} (hrest : StartsCommand rest) :
    EndsInitial (parse ⟨.params, symbols, r⟩ .initial (rest ++ crlf)) := by
  rcases hrest with ⟨b, hb, halpha⟩ | ⟨digits, tail, rfl, hlength, hall⟩
  · obtain ⟨tail, rfl⟩ := List.head?_eq_some_iff.mp hb
    obtain ⟨run, rest, htail, hrun, hstops⟩ := exists_run isAlpha (b :: tail)
    have hne : run ≠ [] := by
      rintro rfl
      rw [List.nil_append] at htail
      exact absurd (hstops b (htail ▸ rfl)) (by simp [halpha])
    have hlex := lex_cmdString (Or.inl rfl) hne hrun (stops_append_crlf hstops rfl)
    rw [htail, List.append_assoc]
    exact ⟨none, parse_reject hlex rfl State.noConfusion⟩
  · have hlex : lex .initial (digits ++ (tail ++ crlf)) =
        (.cmdNumeric (decimalValue digits), .initial, tail ++ crlf) :=
      lex_cmdNumeric (Or.inl rfl) hlength hall
    rw [List.append_assoc]
    exact ⟨none, parse_reject hlex rfl State.noConfusion⟩

theorem endsInitial_of_returns {body : Bytes} (h : Returns body) :
    EndsInitial (parse {} .initial (body ++ crlf)) := by
  cases h with
  | empty =>
    have hend : lex .initial crlf = (.finished, .initial, []) := lex_boundary (Or.inl rfl)
    rw [List.nil_append, parse_shift hend rfl]
    exact ⟨_, parse_accept rfl rfl⟩
  | @message lead command params hlead hcommand hplain hparams =>
    rw [List.append_assoc, List.append_assoc]
    exact endsInitial_message hplain hlead hcommand hparams
  | command hcommand =>
    have hstops : Stops isAlpha crlf := fun b hb => by
      obtain rfl : carriageReturn = b := Option.some.inj hb
      rfl
    obtain ⟨r', hparse⟩ := parse_isCommand (r := {}) (Or.inl rfl) (Or.inl rfl) rfl hcommand
      fun _ => hstops
    exact ⟨_, hparse.trans (parse_boundary (Or.inl rfl) (Or.inl rfl))⟩
  | @twice command rest hcommand hrest hstops =>
    have hstops' (hall : ∀ b ∈ command, isAlpha b = true) : Stops isAlpha (rest ++ crlf) :=
      stops_append_crlf (hstops hall) rfl
    obtain ⟨r', hparse⟩ := parse_isCommand (r := {}) (Or.inl rfl) (Or.inl rfl) rfl hcommand hstops'
    rw [List.append_assoc]
    exact hparse ▸ endsInitial_twice hrest
  | @stray front rest b hfront hnone hb hrest =>
    have hlex := lex_stray hnone hb.1 hb.2.1 hb.2.2
    have hbehind (p : Automaton) (hp : p.state = .accepted) :
        EndsInitial (parse p .initial (rest ++ crlf)) := endsInitial_accepted hp hrest
    rw [List.append_assoc]
    rcases hfront with rfl | hfront
    · rw [List.nil_append, List.cons_append, parse_shift hlex rfl]
      exact hbehind _ rfl
    · have hstops (_ : ∀ d ∈ front, isAlpha d = true) : Stops isAlpha (b :: rest ++ crlf) := by
        intro d hd
        obtain rfl : b = d := Option.some.inj hd
        by_contra halpha
        exact hnone (Or.inl ⟨b, rfl, by simpa using halpha⟩)
      obtain ⟨r', hparse⟩ := parse_isCommand (r := {}) (Or.inl rfl) (Or.inl rfl) rfl hfront hstops
      refine hparse ▸ ?_
      rw [List.cons_append, parse_shift hlex (shift_end (Or.inl rfl))]
      exact hbehind _ rfl

end Bodies

section Frames

variable {capacity : ℕ}

theorem copyBlocks_fits {copied : Bytes} {blocks : List Bytes}
    (h : copied.length + blocks.flatten.length ≤ maximumFrameSize) :
    copyBlocks copied blocks = .ok (copied ++ blocks.flatten) := by
  induction blocks generalizing copied with
  | nil => simp [copyBlocks]
  | cons block blocks ih =>
    rw [List.flatten_cons, List.length_append] at h
    have hblock : block.length ≤ maximumFrameSize - copied.length := by omega
    rw [copyBlocks, if_pos hblock, ih (by rw [List.length_append]; omega), List.flatten_cons,
      List.append_assoc]

/-- A frame that fits is parsed in the condition that the frames before it have left. -/
theorem handleDataMessage_fits {condition : Condition} {blocks : List Bytes}
    (hfits : blocks.flatten.length ≤ maximumFrameSize)
    (hboundary : blocks.flatten.length + flexBoundarySize ≤ capacity) :
    handleDataMessage capacity ⟨condition, false⟩ blocks =
      (parse {} condition blocks.flatten >>= fun x => .ok (⟨x.1, false⟩, x.2)) := by
  have hcopy : copyBlocks [] blocks = .ok blocks.flatten :=
    copyBlocks_fits (by simpa using hfits)
  have hroom : ¬ capacity - blocks.flatten.length < flexBoundarySize := by omega
  rw [handleDataMessage, hcopy]
  change (if capacity - blocks.flatten.length < flexBoundarySize then _ else _) = _
  rw [if_neg hroom]
  rfl

theorem handleDataMessage_regular {blocks : List Bytes} (h : Regular capacity blocks.flatten) :
    ∃ outcome, handleDataMessage capacity {} blocks = .ok ({}, outcome) := by
  obtain ⟨body, hbody, hreturns⟩ := h.returns
  obtain ⟨outcome, hparse⟩ := endsInitial_of_returns hreturns
  refine ⟨outcome, ?_⟩
  rw [handleDataMessage_fits h.fits h.boundary, hbody, hparse]
  rfl

/-- What the frames yield is what each of them yields as the first frame of a new parser. -/
def Module.Independent (capacity : ℕ) (frames : List (List Bytes)) (m : Module) : Prop :=
  List.Forall₂ (fun blocks outcome => ∃ driver,
    handleDataMessage capacity {} blocks = .ok (driver, outcome)) frames m.outcomes

/-- Regular frames are parsed independently, and no assertion fails. -/
theorem independent_of_regular (capacity : ℕ) {frames : List (List Bytes)}
    (h : ∀ blocks ∈ frames, Regular capacity blocks.flatten) :
    ∃ m, run (Module.receive capacity) {} frames = .ok m ∧ m.Independent capacity frames := by
  have hstep (seen : List (List Bytes)) (m : Module) (blocks : List Bytes)
      (hm : m.driver = {} ∧ m.Independent capacity seen) (hregular : Regular capacity blocks.flatten) :
      ∃ m', m.receive capacity blocks = .ok m' ∧ m'.driver = {} ∧
        m'.Independent capacity (seen ++ [blocks]) := by
    obtain ⟨driver, outcomes⟩ := m
    obtain ⟨rfl, hindependent⟩ := hm
    obtain ⟨outcome, hframe⟩ := handleDataMessage_regular hregular
    refine ⟨⟨{}, outcomes ++ [outcome]⟩, ?_, rfl, ?_⟩
    · rw [Module.receive, hframe]
      rfl
    · exact List.rel_append hindependent (List.Forall₂.cons ⟨{}, hframe⟩ List.Forall₂.nil)
  have hnew : ({} : Module).driver = {} ∧ ({} : Module).Independent capacity [] :=
    ⟨rfl, List.Forall₂.nil⟩
  obtain ⟨m, hrun, -, hindependent⟩ := run_total
    (fun seen (m : Module) => m.driver = {} ∧ m.Independent capacity seen) hstep hnew
    (along_of_forall fun blocks hblocks _ => h blocks hblocks)
  exact ⟨m, hrun, hindependent⟩

/-- A message with a prefix in two blocks, stray octets, and a `PING`. -/
def sampleFrames : List (List Bytes) :=
  [[text ":nick!user@host JO", text "IN #a\r\n"], [text "?x\r\n"], [text "PING :a b\r\n"]]

theorem sampleFrames_independent :
    ∃ m, run (Module.receive 512) {} sampleFrames = .ok m ∧ m.Independent 512 sampleFrames := by
  refine independent_of_regular 512 fun blocks hblocks => ?_
  have hping : IsCommand (text "PING") :=
    ⟨.string (text "PING"), rfl, by decide +kernel, by decide +kernel⟩
  have hjoin : IsCommand (text "JOIN") :=
    ⟨.string (text "JOIN"), rfl, by decide +kernel, by decide +kernel⟩
  have hlead : IsLead (text ":nick!user@host ") :=
    Or.inr ⟨text "nick", [.user (text "user"), .host (text "host")], text " ",
      Or.inr ⟨by decide +kernel, by decide +kernel⟩,
      List.forall_mem_cons.mpr ⟨⟨by decide +kernel, by decide +kernel⟩,
        List.forall_mem_cons.mpr ⟨⟨by decide +kernel, by decide +kernel⟩, by simp⟩⟩,
      by simp [Separate, Part.octet, Part.mark, isUser], ⟨by decide +kernel, by decide +kernel⟩,
      by decide +kernel⟩
  rcases List.mem_cons.mp hblocks with rfl | hblocks
  · refine ⟨by decide +kernel, by decide +kernel, text ":nick!user@host JOIN #a",
      by decide +kernel, ?_⟩
    have hbody : text ":nick!user@host JOIN #a" =
        text ":nick!user@host " ++ (text "JOIN" ++ blank :: text "#a") := by decide +kernel
    rw [hbody]
    exact Returns.message hlead hjoin (by decide +kernel) (by unfold Undisturbed; decide +kernel)
  rcases List.mem_cons.mp hblocks with rfl | hblocks
  · refine ⟨by decide +kernel, by decide +kernel, text "?x", by decide +kernel, ?_⟩
    have hbody : text "?x" = [] ++ [0x3F, 0x78] := by decide +kernel
    rw [hbody]
    refine Returns.stray (Or.inl rfl) ?_ (by decide +kernel) (by decide +kernel)
    rintro (⟨b, hb, halpha⟩ | ⟨digits, tail, htext, hlength, -⟩)
    · obtain rfl : 0x3F = b := Option.some.inj hb
      exact absurd halpha (by decide +kernel)
    · have hlong := congrArg List.length htext
      rw [List.length_append, hlength] at hlong
      simp at hlong
      omega
  · obtain rfl := List.mem_singleton.mp hblocks
    refine ⟨by decide +kernel, by decide +kernel, text "PING :a b", by decide +kernel, ?_⟩
    have hbody : text "PING :a b" = [] ++ (text "PING" ++ blank :: text ":a b") := by
      decide +kernel
    rw [hbody]
    exact Returns.message (Or.inl rfl) hping (by decide +kernel) (by unfold Undisturbed; decide +kernel)

/-- A command behind a prefix and without parameters, a second frame, and a frame of 511
octets. -/
def touchingFrames : List (List Bytes) := [[text ":a B\r\n"], [text ":a B c\r\n"]]

def longFrame : Bytes := text "A " ++ List.replicate 507 0x78 ++ crlf

/-- The second frame is dropped behind the first one, but parsed by a new parser; and the long
frame fails an assertion. -/
theorem touchingFrames_fail :
    run (Module.receive 512) {} touchingFrames =
        .ok ⟨⟨.command, false⟩,
          [some { sender := { origin := text "a" }, command := .string (text "B") }, none]⟩ ∧
      handleDataMessage 512 {} [text ":a B c\r\n"] =
        .ok ({}, some ⟨{ origin := text "a" }, .string (text "B"), [text "c"]⟩) ∧
      longFrame.length = 511 ∧ handleDataMessage 512 {} [longFrame] = .error .assertion := by
  decide +kernel

end Frames

end ACENetwork.IRC.Parser
