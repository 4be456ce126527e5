import ACENetwork.Library.Runs
import ACENetwork.SMTP.Send

/-!
# The dialogue with the server

The commands of a mail transaction in the order of RFC 5321, and a monitor that follows
the commands of a sender. A sender keeps to the dialogue while its commands are accepted.
-/
namespace ACENetwork.SMTP
open BitTorrent (Fault)
open Library

inductive Sent where
  | nothing
  | ehlo (secured : Bool)
  | startTls
  | auth
  | userName
  | password
  | mail
  | rcpt (count : ℕ)
  | data
  | text
  | quit
  deriving DecidableEq, Repr

/-- A dialogue: its last command; whether a reply has rejected a command; whether no command
may follow. -/
structure Dialogue where
  last : Sent := .nothing
  rejected : Bool := false
  closed : Bool := false
  deriving DecidableEq

/-- The reply does not reject the last command. -/
def Sent.accepts (code : ℕ) : Sent → Bool
  | .auth | .userName => code = serverChallenge
  | .data => code = startMailInput
  | _ => isSuccess code

section

variable (cfg : Configuration) (encodeBase64 : Bytes → Bytes)

def Sent.next (last : Sent) (r : Request) : Option Sent :=
  match last, r.command with
  | .nothing, .ehlo => some (.ehlo false)
  | .ehlo false, .startTls => if cfg.request.useStartTls then some .startTls else none
  | .startTls, .ehlo => some (.ehlo true)
  | .ehlo _, .auth => if r.parameters = [] then some .auth else none
  | .auth, .auth =>
    if r.parameters = [encodeBase64 cfg.protocol.username] then some .userName else none
  | .userName, .auth =>
    if r.parameters = [encodeBase64 cfg.protocol.password] then some .password else none
  | .ehlo _, .mail | .password, .mail =>
    if r.from = cfg.request.from then some .mail else none
  | .mail, .rcpt => if r.to = cfg.request.to.take 1 then some (.rcpt 1) else none
  | .rcpt count, .rcpt =>
    if count < cfg.request.to.length ∧ r.to = (cfg.request.to.drop count).take 1 then
      some (.rcpt (count + 1))
    else none
  | .rcpt count, .data => if count = cfg.request.to.length then some .data else none
  | .data, .data2 => if r.data = cfg.request.data then some .text else none
  | .text, .quit => some .quit
  | _, _ => none

/-- A reply, what becomes of the message of its command, and the command that is sent. -/
structure Exchange where
  reply : Reply
  sending : Sending
  command : Option Request
  deriving DecidableEq

/-- The dialogue after an exchange, where it is legal. Each reply has its command, but for
the reply to QUIT, unless the command could not be sent. -/
def Dialogue.next (d : Dialogue) (e : Exchange) : Option Dialogue :=
  let accepted := d.last.accepts e.reply.code
  let rejected := d.rejected || !accepted
  match e.command with
  | none =>
    if d.last = .quit then
      some { d with rejected := rejected, closed := d.closed || accepted }
    else if e.sending = .sent then none
    else some { d with rejected := rejected }
  | some r =>
    if d.closed then none
    else if rejected then
      if r.command = .quit then some { last := .quit, rejected := true, closed := true } else none
    else (d.last.next cfg encodeBase64 r).map fun last => { d with last := last }

def dialogue (log : List Exchange) : Option Dialogue :=
  log.foldlM (Dialogue.next cfg encodeBase64) {}

/-- The state names the last command. It is reset when QUIT has been answered, and
`SMTP_STATE_RCPTS_SENT` still names the last RCPT. -/
def ProtocolState.Identifies : ProtocolState → Sent → Prop
  | .invalid, last => last = .nothing ∨ last = .quit
  | .greetingReceived, last => last = .nothing
  | .ehloSent, last => last = .ehlo false ∨ last = .ehlo true
  | .startTlsSent, last => last = .startTls
  | .authSent, last => last = .auth
  | .authLoginUserSent, last => last = .userName
  | .authLoginPasswordSent, last => last = .password
  | .authComplete, _ => False
  | .mailSent, last => last = .mail
  | .rcptSent, last | .rcptsSent, last => ∃ count, last = .rcpt count
  | .dataSent, last => last = .data
  | .data2Sent, last => last = .text
  | .quitSent, last => last = .quit
  | .max, _ => False

/-- The module and its exchanges so far. -/
structure Session where
  sender : Sender := {}
  log : List Exchange := []
  deriving DecidableEq

def Session.step (s : Session) (e : Reply × Sending) : Except Fault Session := do
  let (sender, command) ← handleDataMessage cfg encodeBase64 s.sender e.1 e.2
  .ok ⟨sender, s.log ++ [⟨e.1, e.2, command⟩]⟩

/-- The exchanges are a legal dialogue, and the state names its last command. -/
def Session.Legal (s : Session) : Prop :=
  ∃ d, dialogue cfg encodeBase64 s.log = some d ∧ s.sender.protocolState.Identifies d.last

def ProtocolState.expects (code : ℕ) : ProtocolState → Bool
  | .authSent | .authLoginUserSent => code = serverChallenge
  | .dataSent => code = startMailInput
  | _ => isSuccess code

/-- The next command takes the state one step on, so that the state goes back to where it
was if the command cannot be sent. -/
def Sender.Undone (m : Sender) : Prop :=
  match m.protocolState with
  | .ehloSent => cfg.request.useStartTls = true ∧ m.startTlsSent = false
  | .rcptSent => m.recipients = []
  | .startTlsSent | .authLoginPasswordSent => False
  | _ => True

instance Sender.Undone.decidable : (m : Sender) → Decidable (m.Undone cfg)
  | ⟨.ehloSent, _, startTlsSent⟩ =>
    inferInstanceAs (Decidable (cfg.request.useStartTls = true ∧ startTlsSent = false))
  | ⟨.rcptSent, recipients, _⟩ => inferInstanceAs (Decidable (recipients = []))
  | ⟨.startTlsSent, _, _⟩ | ⟨.authLoginPasswordSent, _, _⟩ => inferInstanceAs (Decidable False)
  | ⟨.greetingReceived, _, _⟩ | ⟨.authSent, _, _⟩ | ⟨.authLoginUserSent, _, _⟩
  | ⟨.authComplete, _, _⟩ | ⟨.mailSent, _, _⟩ | ⟨.rcptsSent, _, _⟩ | ⟨.dataSent, _, _⟩
  | ⟨.data2Sent, _, _⟩ | ⟨.quitSent, _, _⟩ | ⟨.max, _, _⟩ | ⟨.invalid, _, _⟩ =>
    inferInstanceAs (Decidable True)

/-- The reply is the greeting or answers a command, and it accepts the command, or it is the
first one to reject a command and that is QUIT. If the next command cannot be sent, the
state has moved one step. -/
def Session.Regular (s : Session) (e : Reply × Sending) : Prop :=
  (s.sender.protocolState = .invalid →
    (dialogue cfg encodeBase64 s.log).all (·.last == .nothing) = true) ∧
  (s.sender.protocolState.expects e.1.code = true ∨
    s.sender.protocolState = .quitSent ∧ e.2 = .sent ∧
      (dialogue cfg encodeBase64 s.log).all (!·.closed) = true) ∧
  (e.2 = .failed → s.sender.Undone cfg)

instance Session.Regular.decidable (s : Session) (e : Reply × Sending) :
    Decidable (s.Regular cfg encodeBase64 e) :=
  inferInstanceAs (Decidable (_ ∧ _ ∧ _))

end

variable {cfg : Configuration} {encodeBase64 : Bytes → Bytes}

def Sender.Keeps (cfg : Configuration) (m : Sender) (d : Dialogue) : Prop :=
  match m.protocolState with
  | .invalid => d = {} ∨ d.last = .quit
  | .greetingReceived => d = {}
  | .ehloSent => ∃ secured, d = { last := .ehlo secured } ∧ (secured = true → m.startTlsSent = true)
  | .startTlsSent => d = { last := .startTls } ∧ m.startTlsSent = true
  | .authSent => d = { last := .auth }
  | .authLoginUserSent => d = { last := .userName }
  | .authLoginPasswordSent => d = { last := .password }
  | .mailSent => d = { last := .mail }
  | .rcptSent => ∃ count, d = { last := .rcpt count } ∧ count ≤ cfg.request.to.length ∧
      m.recipients = cfg.request.to.drop count
  | .rcptsSent => d = { last := .rcpt cfg.request.to.length }
  | .dataSent => d = { last := .data }
  | .data2Sent => d = { last := .text }
  | .quitSent => d.last = .quit
  | .authComplete | .max => False

theorem Sender.Keeps.identifies {m : Sender} {d : Dialogue} (h : m.Keeps cfg d) :
    m.protocolState.Identifies d.last := by
  obtain ⟨state, recipients, startTlsSent⟩ := m
  cases state with
  | invalid =>
    rcases h with rfl | h
    · exact Or.inl rfl
    · exact Or.inr h
  | ehloSent =>
    obtain ⟨secured, rfl, -⟩ := h
    cases secured with
    | false => exact Or.inl rfl
    | true => exact Or.inr rfl
  | startTlsSent => exact congrArg Dialogue.last h.1
  | rcptSent =>
    obtain ⟨count, rfl, -⟩ := h
    exact ⟨count, rfl⟩
  | rcptsSent => exact ⟨_, congrArg Dialogue.last h⟩
  | quitSent => exact h
  | authComplete => exact h.elim
  | max => exact h.elim
  | _ => exact congrArg Dialogue.last h

theorem Sender.Keeps.last_ne_quit {m : Sender} {d : Dialogue} (h : m.Keeps cfg d)
    (hlast : d.last ≠ .quit) : d = { last := d.last } := by
  obtain ⟨state, recipients, startTlsSent⟩ := m
  cases state with
  | invalid =>
    rcases h with rfl | h
    · rfl
    · exact absurd h hlast
  | ehloSent =>
    obtain ⟨secured, rfl, -⟩ := h
    rfl
  | startTlsSent =>
    obtain ⟨rfl, -⟩ := h
    rfl
  | rcptSent =>
    obtain ⟨count, rfl, -⟩ := h
    rfl
  | quitSent => exact absurd h hlast
  | authComplete => exact h.elim
  | max => exact h.elim
  | _ =>
    obtain rfl := h
    rfl

/-- The sender and the dialogue agree on which replies accept a command. -/
theorem Sender.Keeps.accepts {m : Sender} {d : Dialogue} (h : m.Keeps cfg d) (code : ℕ) :
    d.last.accepts code = m.protocolState.expects code := by
  obtain ⟨state, recipients, startTlsSent⟩ := m
  cases state with
  | invalid =>
    rcases h with rfl | h
    · rfl
    · rw [h]
      rfl
  | ehloSent =>
    obtain ⟨secured, rfl, -⟩ := h
    rfl
  | startTlsSent =>
    obtain ⟨rfl, -⟩ := h
    rfl
  | rcptSent =>
    obtain ⟨count, rfl, -⟩ := h
    rfl
  | quitSent =>
    rw [show d.last = .quit from h]
    rfl
  | authComplete => exact h.elim
  | max => exact h.elim
  | _ =>
    obtain rfl := h
    rfl

/-- The command behind an accepted one is in order, and the state names it; the state goes
back to the last command where it has moved one step. -/
def Sender.Continues (cfg : Configuration) (encodeBase64 : Bytes → Bytes) (m : Sender)
    (d : Dialogue) (reply : Reply) : Prop :=
  ∃ m' r last, respond cfg encodeBase64 m reply = .ok (m', some r) ∧
    d.last.next cfg encodeBase64 r = some last ∧ m'.Keeps cfg { last := last } ∧
    (m.Undone cfg → ∃ state, m'.protocolState.decrease = .ok state ∧
      ({ m' with protocolState := state } : Sender).Keeps cfg d)

theorem continues_ehlo {m : Sender} {d : Dialogue} {reply : Reply}
    (hstate : m.protocolState = .ehloSent) (h : m.Keeps cfg d)
    (hcode : isSuccess reply.code = true) : m.Continues cfg encodeBase64 d reply := by
  obtain ⟨state, recipients, startTlsSent⟩ := m
  obtain rfl : state = .ehloSent := hstate
  obtain ⟨secured, rfl, hsecured⟩ := h
  by_cases htls : cfg.request.useStartTls = true ∧ startTlsSent = false
  · obtain ⟨huse, rfl⟩ := htls
    obtain rfl : secured = false := by simpa using hsecured
    refine ⟨⟨.startTlsSent, recipients, true⟩, { command := .startTls }, .startTls, ?_, ?_,
      ⟨rfl, rfl⟩, fun _ => ⟨.ehloSent, rfl, false, rfl, fun h => Bool.noConfusion h⟩⟩
    · simp [respond, hcode, huse, ProtocolState.increase, bind, Except.bind]
    · simp [Sent.next, huse]
  · have hflag : (cfg.request.useStartTls && !startTlsSent) = false := by
      simpa using htls
    by_cases hlogin : text "LOGIN" ∈ authenticationMechanisms reply.text
    · refine ⟨⟨.authSent, recipients, startTlsSent⟩, { command := .auth }, .auth, ?_, ?_, rfl,
        fun hundone => absurd hundone htls⟩
      · simp [respond, hcode, hflag, hlogin, ProtocolState.increase, bind, Except.bind]
      · simp [Sent.next]
    · refine ⟨⟨.mailSent, recipients, startTlsSent⟩, mail cfg, .mail, ?_, ?_, rfl,
        fun hundone => absurd hundone htls⟩
      · simp [respond, hcode, hflag, hlogin, ProtocolState.increase, bind, Except.bind]
      · simp [Sent.next, mail]

theorem continues_rcpt {m : Sender} {d : Dialogue} {reply : Reply}
    (hstate : m.protocolState = .rcptSent) (h : m.Keeps cfg d)
    (hcode : isSuccess reply.code = true) : m.Continues cfg encodeBase64 d reply := by
  obtain ⟨state, recipients, startTlsSent⟩ := m
  obtain rfl : state = .rcptSent := hstate
  obtain ⟨count, rfl, hcount, hrecipients⟩ := h
  cases recipients with
  | nil =>
    have hlength : count = cfg.request.to.length :=
      le_antisymm hcount (List.drop_eq_nil_iff.mp hrecipients.symm)
    refine ⟨⟨.dataSent, [], startTlsSent⟩, { command := .data }, .data, ?_, ?_, rfl,
      fun _ => ⟨.rcptsSent, rfl, congrArg (fun n => ({ last := .rcpt n } : Dialogue)) hlength⟩⟩
    · simp [respond, rcptsSent, hcode, ProtocolState.increase, bind, Except.bind]
    · simp [Sent.next, hlength]
  | cons recipient recipients =>
    have hlt : count < cfg.request.to.length := by
      by_contra hge
      rw [List.drop_eq_nil_of_le (not_lt.mp hge)] at hrecipients
      cases hrecipients
    have htail : recipients = cfg.request.to.drop (count + 1) := by
      rw [← List.tail_drop, ← hrecipients]
      rfl
    refine ⟨⟨.rcptSent, recipients, startTlsSent⟩, rcpt cfg recipient, .rcpt (count + 1), ?_, ?_,
      ⟨count + 1, rfl, hlt, htail⟩, fun hundone => (List.cons_ne_nil _ _ hundone).elim⟩
    · simp [respond, hcode]
    · simp [Sent.next, rcpt, hlt, ← hrecipients]

theorem Sender.Keeps.continues {m : Sender} {d : Dialogue} (h : m.Keeps cfg d) {reply : Reply}
    (hto : cfg.request.to ≠ []) (hlast : d.last ≠ .quit)
    (hcode : m.protocolState.expects reply.code = true) :
    m.Continues cfg encodeBase64 d reply := by
  obtain ⟨state, recipients, startTlsSent⟩ := m
  obtain hd := h.last_ne_quit hlast
  cases state with
  | invalid =>
    rcases h with rfl | h
    · exact ⟨⟨.ehloSent, recipients, startTlsSent⟩, ehlo cfg, .ehlo false,
        if_pos hcode, rfl, ⟨false, rfl, fun h => Bool.noConfusion h⟩, fun _ => ⟨.greetingReceived, rfl, rfl⟩⟩
    · exact absurd h hlast
  | greetingReceived =>
    obtain rfl := h
    exact ⟨⟨.ehloSent, recipients, startTlsSent⟩, ehlo cfg, .ehlo false,
      if_pos hcode, rfl, ⟨false, rfl, fun h => Bool.noConfusion h⟩, fun _ => ⟨.greetingReceived, rfl, rfl⟩⟩
  | ehloSent => exact continues_ehlo rfl h hcode
  | startTlsSent =>
    obtain ⟨rfl, hsent⟩ := h
    exact ⟨⟨.ehloSent, recipients, startTlsSent⟩, ehlo cfg, .ehlo true,
      if_pos hcode, rfl, ⟨true, rfl, fun _ => hsent⟩, fun hundone => False.elim hundone⟩
  | authSent =>
    obtain rfl := h
    exact ⟨⟨.authLoginUserSent, recipients, startTlsSent⟩, _, .userName,
      if_pos (of_decide_eq_true hcode), if_pos rfl, rfl, fun _ => ⟨.authSent, rfl, rfl⟩⟩
  | authLoginUserSent =>
    obtain rfl := h
    exact ⟨⟨.authLoginPasswordSent, recipients, startTlsSent⟩, _, .password,
      if_pos (of_decide_eq_true hcode), if_pos rfl, rfl, fun _ => ⟨.authLoginUserSent, rfl, rfl⟩⟩
  | authLoginPasswordSent =>
    obtain rfl := h
    exact ⟨⟨.mailSent, recipients, startTlsSent⟩, mail cfg, .mail,
      if_pos hcode, if_pos rfl, rfl, fun hundone => False.elim hundone⟩
  | mailSent =>
    obtain rfl := h
    obtain ⟨recipient, rest, hcons⟩ := List.exists_cons_of_ne_nil hto
    refine ⟨⟨.rcptSent, rest, startTlsSent⟩, rcpt cfg recipient, .rcpt 1, ?_, ?_,
      ⟨1, rfl, ?_, ?_⟩, fun _ => ⟨.mailSent, rfl, rfl⟩⟩
    · have hsuccess : isSuccess reply.code = true := hcode
      simp [respond, hsuccess, ProtocolState.increase, hcons, bind, Except.bind]
    · simp [Sent.next, rcpt, hcons]
    · simp [hcons]
    · simp [hcons]
  | rcptSent => exact continues_rcpt rfl h hcode
  | rcptsSent =>
    obtain rfl := h
    exact ⟨⟨.dataSent, recipients, startTlsSent⟩, { command := .data }, .data, rfl, if_pos rfl, rfl,
      fun _ => ⟨.rcptsSent, rfl, rfl⟩⟩
  | dataSent =>
    obtain rfl := h
    exact ⟨⟨.data2Sent, recipients, startTlsSent⟩, content cfg, .text,
      if_pos (of_decide_eq_true hcode), if_pos rfl, rfl, fun _ => ⟨.dataSent, rfl, rfl⟩⟩
  | data2Sent =>
    obtain rfl := h
    exact ⟨⟨.quitSent, recipients, startTlsSent⟩, { command := .quit }, .quit,
      if_pos hcode, rfl, rfl, fun _ => ⟨.data2Sent, rfl, rfl⟩⟩
  | quitSent => exact absurd h hlast
  | authComplete => exact h.elim
  | max => exact h.elim

def Session.Kept (cfg : Configuration) (encodeBase64 : Bytes → Bytes) (s : Session) : Prop :=
  ∃ d, dialogue cfg encodeBase64 s.log = some d ∧ s.sender.Keeps cfg d

theorem dialogue_snoc (log : List Exchange) (e : Exchange) :
    dialogue cfg encodeBase64 (log ++ [e]) =
      (dialogue cfg encodeBase64 log).bind (·.next cfg encodeBase64 e) := by
  rw [dialogue, List.foldlM_append]
  simp [dialogue]

theorem Sender.Keeps.state_of_quit {m : Sender} {d : Dialogue} (h : m.Keeps cfg d)
    (hlast : d.last = .quit) : m.protocolState = .invalid ∨ m.protocolState = .quitSent := by
  obtain ⟨state, recipients, startTlsSent⟩ := m
  cases state with
  | invalid => exact Or.inl rfl
  | quitSent => exact Or.inr rfl
  | ehloSent =>
    obtain ⟨secured, rfl, -⟩ := h
    cases hlast
  | startTlsSent =>
    obtain ⟨rfl, -⟩ := h
    cases hlast
  | rcptSent =>
    obtain ⟨count, rfl, -⟩ := h
    cases hlast
  | authComplete => exact h.elim
  | max => exact h.elim
  | _ =>
    obtain rfl := h
    cases hlast

/-- An accepted command before QUIT: the next one is sent, or the state goes back. -/
theorem kept_step {s : Session} {d : Dialogue} {e : Reply × Sending}
    (hto : cfg.request.to ≠ []) (hd : dialogue cfg encodeBase64 s.log = some d)
    (hkeeps : s.sender.Keeps cfg d) (hlast : d.last ≠ .quit)
    (hcode : s.sender.protocolState.expects e.1.code = true)
    (hundone : e.2 = .failed → s.sender.Undone cfg) :
    ∃ s', s.step cfg encodeBase64 e = .ok s' ∧ s'.Kept cfg encodeBase64 := by
  obtain ⟨reply, sending⟩ := e
  have haccepts : d.last.accepts reply.code = true := (hkeeps.accepts reply.code).trans hcode
  have hfresh := hkeeps.last_ne_quit hlast
  have hrejected : d.rejected = false := congrArg Dialogue.rejected hfresh
  have hclosed : d.closed = false := congrArg Dialogue.closed hfresh
  -- where no command is sent the dialogue stays
  have hsilent (hne : sending ≠ .sent) : d.next cfg encodeBase64 ⟨reply, sending, none⟩ = some d := by
    simp only [Dialogue.next, haccepts, if_neg hlast, if_neg hne, hrejected, Bool.not_true,
      Bool.or_self]
    rw [← hrejected]
  have hcontinues : s.sender.Continues cfg encodeBase64 d reply :=
    hkeeps.continues hto hlast hcode
  obtain ⟨m', r, last, hrespond, hnext, hkeeps', hback⟩ := hcontinues
  cases sending with
  | noRecord =>
    refine ⟨⟨s.sender, s.log ++ [⟨reply, .noRecord, none⟩]⟩, rfl, d, ?_, hkeeps⟩
    rw [dialogue_snoc, hd]
    exact hsilent (by decide)
  | failed =>
    obtain ⟨state, hstate, hkept⟩ := hback (hundone rfl)
    refine ⟨⟨{ m' with protocolState := state }, s.log ++ [⟨reply, .failed, none⟩]⟩, ?_, d, ?_,
      hkept⟩
    · simp [Session.step, handleDataMessage, hrespond, hstate, bind, Except.bind]
    · rw [dialogue_snoc, hd]
      exact hsilent (by decide)
  | sent =>
    refine ⟨⟨m', s.log ++ [⟨reply, .sent, some r⟩]⟩, ?_, { last := last }, ?_, hkeeps'⟩
    · simp [Session.step, handleDataMessage, hrespond, bind, Except.bind]
    · rw [dialogue_snoc, hd]
      simp [Dialogue.next, haccepts, hrejected, hclosed, hnext]

theorem kept_quit {s : Session} {d : Dialogue} {e : Reply × Sending}
    (hd : dialogue cfg encodeBase64 s.log = some d) (hlast : d.last = .quit)
    (hstate : s.sender.protocolState = .quitSent)
    (hcode : isSuccess e.1.code = true ∨ e.2 = .sent ∧ d.closed = false) :
    ∃ s', s.step cfg encodeBase64 e = .ok s' ∧ s'.Kept cfg encodeBase64 := by
  obtain ⟨⟨state, recipients, startTlsSent⟩, log⟩ := s
  obtain ⟨reply, sending⟩ := e
  obtain rfl : state = .quitSent := hstate
  obtain ⟨d', hnext, hlast'⟩ :
      ∃ d', d.next cfg encodeBase64 ⟨reply, sending, none⟩ = some d' ∧ d'.last = .quit := by
    refine ⟨⟨d.last, d.rejected || !d.last.accepts reply.code,
      d.closed || d.last.accepts reply.code⟩, ?_, hlast⟩
    simp only [Dialogue.next, if_pos hlast]
  by_cases hsuccess : isSuccess reply.code = true
  · by_cases hrecord : sending = .noRecord
    · refine ⟨⟨⟨.quitSent, recipients, startTlsSent⟩, log ++ [⟨reply, sending, none⟩]⟩, ?_, d', ?_,
        hlast'⟩
      · simp [Session.step, handleDataMessage, hrecord, bind, Except.bind]
      · rw [dialogue_snoc, hd]
        exact hnext
    · refine ⟨⟨⟨.invalid, recipients, startTlsSent⟩, log ++ [⟨reply, sending, none⟩]⟩, ?_, d', ?_,
        Or.inr hlast'⟩
      · simp [Session.step, handleDataMessage, respond, hsuccess, hrecord, bind, Except.bind]
      · rw [dialogue_snoc, hd]
        exact hnext
  · obtain ⟨hsent, hclosed⟩ := hcode.resolve_left hsuccess
    obtain rfl : sending = .sent := hsent
    have haccepts : d.last.accepts reply.code = false := by
      rw [hlast]
      exact Bool.not_eq_true _ ▸ hsuccess
    refine ⟨⟨⟨.quitSent, recipients, startTlsSent⟩,
      log ++ [⟨reply, .sent, some { command := .quit }⟩]⟩, ?_, ⟨.quit, true, true⟩, ?_, rfl⟩
    · simp [Session.step, handleDataMessage, respond, hsuccess, bind, Except.bind]
    · rw [dialogue_snoc, hd]
      simp [Dialogue.next, haccepts, hclosed]

theorem kept_regular (hto : cfg.request.to ≠ []) {s : Session} {e : Reply × Sending}
    (hkept : s.Kept cfg encodeBase64) (hregular : s.Regular cfg encodeBase64 e) :
    ∃ s', s.step cfg encodeBase64 e = .ok s' ∧ s'.Kept cfg encodeBase64 := by
  obtain ⟨d, hd, hkeeps⟩ := hkept
  obtain ⟨hgreeting, hcode, hundone⟩ := hregular
  rw [hd] at hgreeting hcode
  by_cases hlast : d.last = .quit
  · have hstate : s.sender.protocolState = .quitSent := by
      rcases hkeeps.state_of_quit hlast with hinvalid | hquit
      · have hnothing := hgreeting hinvalid
        simp [hlast] at hnothing
      · exact hquit
    refine kept_quit hd hlast hstate ?_
    rcases hcode with hcode | ⟨-, hsent, hclosed⟩
    · rw [hstate] at hcode
      exact Or.inl hcode
    · exact Or.inr ⟨hsent, by simpa using hclosed⟩
  · refine kept_step hto hd hkeeps hlast ?_ hundone
    rcases hcode with hcode | ⟨hquit, -⟩
    · exact hcode
    · rw [Sender.Keeps, hquit] at hkeeps
      exact absurd hkeeps hlast

/-- In a run whose replies accept the commands, the exchanges are a legal dialogue and the
state names its last command, in every state. -/
theorem legal_of_regular (cfg : Configuration) (encodeBase64 : Bytes → Bytes)
    (hto : cfg.request.to ≠ []) (events : List (Reply × Sending))
    (halong : Runs.Along (Session.step cfg encodeBase64) (Session.Regular cfg encodeBase64) {}
      events) :
    ∃ s, Runs.run (Session.step cfg encodeBase64) {} events = .ok s ∧
      s.Legal cfg encodeBase64 := by
  have hkept : Session.Kept cfg encodeBase64 {} := ⟨{}, rfl, Or.inl rfl⟩
  obtain ⟨s, hrun, d, hd, hkeeps⟩ := Runs.run_total_invariant (Session.Kept cfg encodeBase64)
    (fun _ _ hkept hregular => kept_regular hto hkept hregular) hkept halong
  exact ⟨s, hrun, d, hd, hkeeps.identifies⟩

section

def mailConfiguration : Configuration where
  protocol := { domain := .ipv4 0x7F000001 0, username := text "user", password := text "secret" }
  request := { «from» := text "a@b.c", «to» := [text "d@e.f"], data := text "hello" }

def acceptingReplies : List (Reply × Sending) :=
  [⟨⟨220, []⟩, .sent⟩, ⟨⟨250, []⟩, .sent⟩, ⟨⟨250, []⟩, .sent⟩, ⟨⟨250, []⟩, .sent⟩,
    ⟨⟨354, []⟩, .sent⟩, ⟨⟨250, []⟩, .sent⟩, ⟨⟨221, []⟩, .sent⟩]

theorem legal_of_accepting : Runs.Along (Session.step mailConfiguration id)
      (Session.Regular mailConfiguration id) {} acceptingReplies ∧
    ∃ s, Runs.run (Session.step mailConfiguration id) {} acceptingReplies = .ok s ∧
      s.Legal mailConfiguration id :=
  have halong : Runs.Along (Session.step mailConfiguration id)
      (Session.Regular mailConfiguration id) {} acceptingReplies := by decide +kernel
  ⟨halong, legal_of_regular mailConfiguration id (by decide) acceptingReplies halong⟩

/-- MAIL is rejected and QUIT sent, but the state is that of MAIL: the reply to QUIT makes the
sender go on with RCPT. -/
def rejectedMail : List (Reply × Sending) :=
  [⟨⟨220, []⟩, .sent⟩, ⟨⟨250, []⟩, .sent⟩, ⟨⟨550, []⟩, .sent⟩, ⟨⟨221, []⟩, .sent⟩]

theorem rejected_not_legal : ¬ ∃ s,
    Runs.run (Session.step mailConfiguration id) {} rejectedMail = .ok s ∧
      s.Legal mailConfiguration id := by
  rintro ⟨s, hrun, d, hd, -⟩
  have hnone : (Runs.run (Session.step mailConfiguration id) {} rejectedMail).toOption.map
      (fun s => dialogue mailConfiguration id s.log) = some none := by decide +kernel
  rw [hrun] at hnone
  simp [Except.toOption, hd] at hnone

end

end ACENetwork.SMTP
