import ACENetwork.SMTP.Delivery
import ACENetwork.SMTP.Dialogue

/-!
# The client of a mail transaction

The parser and the sender of a connection, with a server at the other end that answers the commands
so far. Where the server accepts every command, the client sends the commands of the transaction in
their order, each of them once, and is ready for the next greeting.
-/
namespace ACENetwork.SMTP
open BitTorrent (Fault)
open Library

structure Client where
  parse : Parser.Parse := {}
  session : Session := {}
  deriving DecidableEq

/-- The parser or the sender has failed. -/
inductive Client.Failure where
  | parser (abort : Glr.Abort Fault)
  | sender (fault : Fault)
  deriving DecidableEq

def Client.commands (c : Client) : List Request := c.session.log.filterMap Exchange.command

def unanswered (before after : Parser.Parse) : List (Reply × Sending) :=
  (after.records.drop before.records.length).map fun entry => (entry.1, .sent)

section Exchanges

variable (cfg : Configuration) (encodeBase64 : Bytes → Bytes)

/-- A block is parsed, and the sender answers the records that are delivered. -/
def Client.receive (c : Client) (block : Bytes) : Except Client.Failure Client :=
  match Blocks.read Parser.step c.parse [block] with
  | .closed abort => .error (.parser abort)
  | .opened parse =>
    match Runs.run (Session.step cfg encodeBase64) c.session (unanswered c.parse parse) with
    | .ok session => .ok ⟨parse, session⟩
    | .error fault => .error (.sender fault)

/-- The server answers the commands so far, and the client receives the blocks of the answer. -/
def Client.exchange (server : List Request → List Bytes) (c : Client) :
    Except Client.Failure Client :=
  Runs.run (Client.receive cfg encodeBase64) c (server c.commands)

def Client.exchanges (server : List Request → List Bytes) :
    ℕ → Client → Except Client.Failure Client
  | 0, c => .ok c
  | n + 1, c => c.exchange cfg encodeBase64 server >>= Client.exchanges server n

end Exchanges

section Transaction

variable (cfg : Configuration) (encodeBase64 : Bytes → Bytes)

/-- The rest of a transaction whose recipients have been named. -/
def closing : List (Request × Sent) :=
  [({ command := .data }, .data), (content cfg, .text), ({ command := .quit }, .quit)]

def recipientsFrom : ℕ → List Bytes → List (Request × Sent)
  | _, [] => []
  | count, recipient :: recipients =>
    (rcpt cfg recipient, .rcpt (count + 1)) :: recipientsFrom (count + 1) recipients

def envelope : List (Request × Sent) :=
  (mail cfg, .mail) :: (recipientsFrom cfg 0 cfg.request.to ++ closing cfg)

def credentials (login : Bool) : List (Request × Sent) :=
  if login then
    [({ command := .auth }, .auth), (credential encodeBase64 cfg.protocol.username, .userName),
      (credential encodeBase64 cfg.protocol.password, .password)]
  else []

def securing : List (Request × Sent) :=
  if cfg.request.useStartTls then
    [({ command := .startTls }, .startTls), (ehlo cfg, .ehlo true)]
  else []

def transaction (login : Bool) : List (Request × Sent) :=
  (ehlo cfg, .ehlo false) ::
    (securing cfg ++ (credentials cfg encodeBase64 login ++ envelope cfg))

def lastSent (done : List (Request × Sent)) : Sent := (done.getLast?.map Prod.snd).getD .nothing

/-- The reply accepts the command, and the one to the last EHLO offers the login or not. -/
def Answers (login : Bool) (last : Sent) (reply : Reply) : Prop :=
  last.accepts reply.code = true ∧
    (last = .ehlo cfg.request.useStartTls →
      (text "LOGIN" ∈ authenticationMechanisms reply.text ↔ login = true))

/-- A server that accepts the commands of a transaction: each of its replies can be read. -/
def Serves (login : Bool) (server : List Request → List Bytes)
    (reply : List Request → Parser.Written) : Prop :=
  ∀ done, done <+: transaction cfg encodeBase64 login →
    (reply (done.map Prod.fst)).WellFormed ∧
      (reply (done.map Prod.fst)).Readable (server (done.map Prod.fst)) [] ∧
      Answers cfg login (lastSent done) (reply (done.map Prod.fst)).record

/-- What a sender sends while its commands are accepted. -/
inductive Sender.Follows (login : Bool) : Sender → Sent → List (Request × Sent) → Prop where
  | quit {m} : m.protocolState = .quitSent → Follows login m .quit []
  | next {m m' last r sent rest} :
      (∀ reply, Answers cfg login last reply →
        respond cfg encodeBase64 m reply = .ok (m', some r)) →
      last.next cfg encodeBase64 r = some sent →
      Follows login m' sent rest → Follows login m last ((r, sent) :: rest)

end Transaction

variable {cfg : Configuration} {encodeBase64 : Bytes → Bytes} {login : Bool}

section Follows

variable {recipients : List Bytes} {startTlsSent : Bool}

theorem follows_closing : Sender.Follows cfg encodeBase64 login ⟨.rcptSent, [], startTlsSent⟩
    (.rcpt cfg.request.to.length) (closing cfg) := by
  have hdata (reply : Reply) (h : Answers cfg login (.rcpt cfg.request.to.length) reply) :
      respond cfg encodeBase64 ⟨.rcptSent, [], startTlsSent⟩ reply =
        .ok (⟨.dataSent, [], startTlsSent⟩, some { command := .data }) := by
    have hcode : isSuccess reply.code = true := h.1
    simp [respond, rcptsSent, hcode, ProtocolState.increase, bind, Except.bind]
  refine .next hdata (if_pos rfl) ?_
  refine .next (fun reply h => if_pos (of_decide_eq_true h.1)) (if_pos rfl) ?_
  exact .next (fun reply h => if_pos h.1) rfl (.quit rfl)

theorem follows_recipients {count : ℕ} (hcount : count ≤ cfg.request.to.length)
    (hrecipients : recipients = cfg.request.to.drop count) :
    Sender.Follows cfg encodeBase64 login ⟨.rcptSent, recipients, startTlsSent⟩ (.rcpt count)
      (recipientsFrom cfg count recipients ++ closing cfg) := by
  induction recipients generalizing count with
  | nil =>
    have hlength : count = cfg.request.to.length :=
      le_antisymm hcount (List.drop_eq_nil_iff.mp hrecipients.symm)
    rw [hlength]
    exact follows_closing
  | cons recipient recipients ih =>
    have hlt : count < cfg.request.to.length := by
      by_contra hge
      rw [List.drop_eq_nil_of_le (not_lt.mp hge)] at hrecipients
      cases hrecipients
    have htail : recipients = cfg.request.to.drop (count + 1) := by
      rw [← List.tail_drop, ← hrecipients]
      rfl
    refine .next (fun reply h => ?_) ?_ (ih hlt htail)
    · have hcode : isSuccess reply.code = true := h.1
      simp [respond, hcode]
    · simp [Sent.next, rcpt, hlt, ← hrecipients]

theorem follows_mail (hto : cfg.request.to ≠ []) :
    Sender.Follows cfg encodeBase64 login ⟨.mailSent, recipients, startTlsSent⟩ .mail
      (recipientsFrom cfg 0 cfg.request.to ++ closing cfg) := by
  obtain ⟨recipient, rest, hcons⟩ := List.exists_cons_of_ne_nil hto
  have hrest : rest = cfg.request.to.drop 1 := by rw [hcons]; rfl
  have hfollows : Sender.Follows cfg encodeBase64 login ⟨.rcptSent, rest, startTlsSent⟩ (.rcpt 1)
      (recipientsFrom cfg 1 rest ++ closing cfg) :=
    follows_recipients (List.length_pos_iff.mpr hto) hrest
  rw [hcons]
  refine .next (fun reply h => ?_) ?_ hfollows
  · have hcode : isSuccess reply.code = true := h.1
    simp [respond, hcode, ProtocolState.increase, hcons, bind, Except.bind]
  · simp [Sent.next, rcpt, hcons]

theorem follows_capabilities (hto : cfg.request.to ≠ [])
    (htls : (cfg.request.useStartTls && !startTlsSent) = false) :
    Sender.Follows cfg encodeBase64 login ⟨.ehloSent, recipients, startTlsSent⟩
      (.ehlo cfg.request.useStartTls) (credentials cfg encodeBase64 login ++ envelope cfg) := by
  have hmail : Sender.Follows cfg encodeBase64 login ⟨.mailSent, recipients, startTlsSent⟩ .mail
      (recipientsFrom cfg 0 cfg.request.to ++ closing cfg) := follows_mail hto
  cases login with
  | false =>
    refine .next (fun reply h => ?_) (by simp [Sent.next, mail]) hmail
    have hcode : isSuccess reply.code = true := h.1
    have hlogin : ¬ text "LOGIN" ∈ authenticationMechanisms reply.text := by simpa using h.2 rfl
    simp [respond, hcode, htls, hlogin, ProtocolState.increase, bind, Except.bind]
  | true =>
    have hauth (reply : Reply) (h : Answers cfg true (.ehlo cfg.request.useStartTls) reply) :
        respond cfg encodeBase64 ⟨.ehloSent, recipients, startTlsSent⟩ reply =
          .ok (⟨.authSent, recipients, startTlsSent⟩, some { command := .auth }) := by
      have hcode : isSuccess reply.code = true := h.1
      have hlogin := (h.2 rfl).2 rfl
      simp [respond, hcode, htls, hlogin, ProtocolState.increase, bind, Except.bind]
    refine .next hauth (by simp [Sent.next]) ?_
    refine .next (fun reply h => if_pos (of_decide_eq_true h.1)) (if_pos rfl) ?_
    refine .next (fun reply h => if_pos (of_decide_eq_true h.1)) (if_pos rfl) ?_
    exact .next (fun reply h => if_pos h.1) (if_pos rfl) hmail

theorem follows_transaction (hto : cfg.request.to ≠ []) :
    Sender.Follows cfg encodeBase64 login {} .nothing (transaction cfg encodeBase64 login) := by
  refine .next (fun reply h => if_pos h.1) rfl ?_
  rw [securing]
  split_ifs with htls
  · have hsecured : Sender.Follows cfg encodeBase64 login ⟨.ehloSent, [], true⟩ (.ehlo true)
        (credentials cfg encodeBase64 login ++ envelope cfg) := by
      have hfollows : Sender.Follows cfg encodeBase64 login ⟨.ehloSent, [], true⟩
          (.ehlo cfg.request.useStartTls) (credentials cfg encodeBase64 login ++ envelope cfg) :=
        follows_capabilities hto (by simp)
      rwa [htls] at hfollows
    have hstart (reply : Reply) (h : Answers cfg login (.ehlo false) reply) :
        respond cfg encodeBase64 ⟨.ehloSent, [], false⟩ reply =
          .ok (⟨.startTlsSent, [], true⟩, some { command := .startTls }) := by
      have hcode : isSuccess reply.code = true := h.1
      simp [respond, hcode, htls, ProtocolState.increase, bind, Except.bind]
    refine .next hstart (if_pos htls) ?_
    exact .next (fun reply h => if_pos h.1) rfl hsecured
  · have hplain : cfg.request.useStartTls = false := Bool.not_eq_true _ ▸ htls
    have hfollows : Sender.Follows cfg encodeBase64 login ⟨.ehloSent, [], false⟩
        (.ehlo cfg.request.useStartTls) (credentials cfg encodeBase64 login ++ envelope cfg) :=
      follows_capabilities hto (by rw [hplain]; rfl)
    rwa [hplain] at hfollows

end Follows

section Receiving

variable {c : Client} {blocks : List Bytes} {parse : Parser.Parse} {session : Session}

theorem read_records {p p' : Parser.Parse} (h : Blocks.read Parser.step p blocks = .opened p') :
    p.records <+: p'.records := by
  have hkeeps := Blocks.read_keeps (Parser.step_records p.records) (List.prefix_refl p.records) blocks
  rw [h] at hkeeps
  exact hkeeps

theorem unanswered_trans {before between after : Parser.Parse}
    (hbefore : before.records <+: between.records) (hafter : between.records <+: after.records) :
    unanswered before after = unanswered before between ++ unanswered between after := by
  obtain ⟨more, hmore⟩ := hbefore
  obtain ⟨most, hmost⟩ := hafter
  rw [← hmore] at hmost
  rw [unanswered, unanswered, unanswered, ← hmost, ← hmore, ← List.map_append]
  congr 1
  simp

theorem run_receive (h : Blocks.read Parser.step c.parse blocks = .opened parse)
    (hsession : Runs.run (Session.step cfg encodeBase64) c.session (unanswered c.parse parse) =
      .ok session) :
    Runs.run (Client.receive cfg encodeBase64) c blocks = .ok ⟨parse, session⟩ := by
  induction blocks generalizing c with
  | nil =>
    cases h
    have hnone : unanswered c.parse c.parse = [] := by simp [unanswered]
    rw [hnone] at hsession
    cases hsession
    rfl
  | cons block blocks ih =>
    rw [← List.singleton_append, Blocks.read_append] at h
    cases hfirst : Blocks.read Parser.step c.parse [block] with
    | closed abort =>
      rw [hfirst] at h
      cases h
    | opened between =>
      rw [hfirst] at h
      rw [unanswered_trans (read_records hfirst) (read_records h)] at hsession
      obtain ⟨session', hfront, -⟩ := Runs.run_front (fun _ => True) (fun _ _ _ _ _ => trivial)
        trivial hsession
      rw [Runs.run_append hfront] at hsession
      have hreceive : c.receive cfg encodeBase64 block = .ok ⟨between, session'⟩ := by
        simp only [Client.receive, hfirst, hfront]
      exact Runs.run_cons_ok.2 ⟨_, hreceive, ih h hsession⟩

variable {v : Bytes} {records : List (Reply × ℕ)} {r : Parser.Written}
  {server : List Request → List Bytes}

theorem exchange_reply (hparse : c.parse = ⟨.initial, v, none, false, 0, records⟩)
    (hr : r.WellFormed) (hreadable : r.Readable (server c.commands) [])
    (hstep : c.session.step cfg encodeBase64 (r.record, .sent) = .ok session) :
    c.exchange cfg encodeBase64 server = .ok ⟨⟨.initial, r.last, none, false, 0,
      records ++ [(r.record, r.octets.length)]⟩, session⟩ := by
  refine run_receive ?_ ?_
  · rw [hparse]
    exact Parser.readNext_readable hr hreadable
  · have hreply : unanswered c.parse ⟨.initial, r.last, none, false, 0,
        records ++ [(r.record, r.octets.length)]⟩ = [(r.record, .sent)] := by
      simp [unanswered, hparse]
    rw [hreply]
    exact Runs.run_cons_ok.2 ⟨session, hstep, rfl⟩

end Receiving

section Running

variable {m : Sender} {last : Sent} {done rest : List (Request × Sent)} {c : Client} {v : Bytes}
  {records : List (Reply × ℕ)} {reply : Reply} {server : List Request → List Bytes}
  {replies : List Request → Parser.Written}

theorem lastSent_snoc (done : List (Request × Sent)) (r : Request) (sent : Sent) :
    lastSent (done ++ [(r, sent)]) = sent := by simp [lastSent]

theorem commands_sent {parse parse' : Parser.Parse} {m' : Sender} {log : List Exchange} {r : Request}
    {sent : Sent} (h : Client.commands ⟨parse, ⟨m, log⟩⟩ = done.map Prod.fst) :
    Client.commands ⟨parse', ⟨m', log ++ [⟨reply, .sent, some r⟩]⟩⟩ =
      (done ++ [(r, sent)]).map Prod.fst := by
  rw [List.map_append, ← h]
  simp [Client.commands]

theorem step_accepted {r : Request} {sent : Sent} {m' : Sender} {log : List Exchange}
    (hlog : dialogue cfg encodeBase64 log = some { last := last })
    (haccepts : last.accepts reply.code = true)
    (hrespond : respond cfg encodeBase64 m reply = .ok (m', some r))
    (hnext : last.next cfg encodeBase64 r = some sent) :
    Session.step cfg encodeBase64 ⟨m, log⟩ (reply, .sent) =
        .ok ⟨m', log ++ [⟨reply, .sent, some r⟩]⟩ ∧
      dialogue cfg encodeBase64 (log ++ [⟨reply, .sent, some r⟩]) = some { last := sent } := by
  constructor
  · simp [Session.step, handleDataMessage, hrespond, bind, Except.bind]
  · rw [dialogue_snoc, hlog]
    simp [Dialogue.next, haccepts, hnext]

theorem step_quit {log : List Exchange} (hstate : m.protocolState = .quitSent)
    (hlog : dialogue cfg encodeBase64 log = some { last := .quit })
    (hcode : isSuccess reply.code = true) :
    Session.step cfg encodeBase64 ⟨m, log⟩ (reply, .sent) =
        .ok ⟨{ m with protocolState := .invalid }, log ++ [⟨reply, .sent, none⟩]⟩ ∧
      dialogue cfg encodeBase64 (log ++ [⟨reply, .sent, none⟩]) =
        some { last := .quit, closed := true } := by
  constructor
  · simp [Session.step, handleDataMessage, respond, hstate, hcode, bind, Except.bind]
  · have haccepts : Sent.quit.accepts reply.code = true := hcode
    rw [dialogue_snoc, hlog]
    simp [Dialogue.next, haccepts]

/-- The commands have been sent, and the client is ready for the next greeting. -/
structure Client.Finished (cfg : Configuration) (encodeBase64 : Bytes → Bytes) (c : Client)
    (commands : List Request) : Prop where
  commands : c.commands = commands
  sender : c.session.sender.protocolState = .invalid
  dialogue : dialogue cfg encodeBase64 c.session.log = some { last := .quit, closed := true }
  parser : c.parse.condition = .initial ∧ c.parse.record = none

theorem exchanges_succ {c' : Client} {n : ℕ} (h : c.exchange cfg encodeBase64 server = .ok c') :
    c.exchanges cfg encodeBase64 server (n + 1) = c'.exchanges cfg encodeBase64 server n := by
  show Client.exchange .. >>= _ = _
  rw [h]
  rfl

theorem exchanges_follows (hserves : Serves cfg encodeBase64 login server replies)
    (hfollows : Sender.Follows cfg encodeBase64 login m last rest)
    (hdone : done ++ rest = transaction cfg encodeBase64 login) (hlast : lastSent done = last)
    (hsender : c.session.sender = m) (hcommands : c.commands = done.map Prod.fst)
    (hdialogue : dialogue cfg encodeBase64 c.session.log = some { last := last })
    (hparse : c.parse = ⟨.initial, v, none, false, 0, records⟩) :
    ∃ c', c.exchanges cfg encodeBase64 server (rest.length + 1) = .ok c' ∧
      c'.Finished cfg encodeBase64 ((done ++ rest).map Prod.fst) := by
  induction hfollows generalizing done c v records with
  | @quit m hstate =>
    obtain ⟨hwellFormed, hreadable, hanswers⟩ := hserves done ⟨[], hdone⟩
    obtain ⟨parse, sender, log⟩ := c
    obtain rfl : sender = m := hsender
    rw [hlast] at hanswers
    rw [← hcommands] at hwellFormed hreadable hanswers
    have hcode : isSuccess (replies _).record.code = true := hanswers.1
    obtain ⟨hstep, hclosed⟩ := step_quit hstate hdialogue hcode
    have hexchange := exchange_reply hparse hwellFormed hreadable hstep
    refine ⟨_, exchanges_succ hexchange, ⟨?_, rfl, hclosed, rfl, rfl⟩⟩
    rw [List.append_nil, ← hcommands]
    simp [Client.commands]
  | @next m m' last r sent rest hrespond hnext hrest ih =>
    obtain ⟨hwellFormed, hreadable, hanswers⟩ := hserves done ⟨_, hdone⟩
    obtain ⟨parse, sender, log⟩ := c
    obtain rfl : sender = m := hsender
    rw [hlast] at hanswers
    rw [← hcommands] at hwellFormed hreadable hanswers
    obtain ⟨hstep, hdialogue'⟩ := step_accepted hdialogue hanswers.1 (hrespond _ hanswers) hnext
    have hexchange := exchange_reply hparse hwellFormed hreadable hstep
    have hdone' : (done ++ [(r, sent)]) ++ rest = transaction cfg encodeBase64 login := by
      rw [← hdone, List.append_assoc]
      rfl
    obtain ⟨c', hrun, hfinished⟩ := ih hdone' (lastSent_snoc done r sent) rfl
      (commands_sent hcommands) hdialogue' rfl
    rw [List.append_assoc] at hfinished
    exact ⟨c', (exchanges_succ hexchange).trans hrun, hfinished⟩

/-- With a server that accepts every command and whose replies can be read, the client sends the
commands of the transaction, and the session ends. -/
theorem transaction_finishes (hto : cfg.request.to ≠ [])
    (hserves : Serves cfg encodeBase64 login server replies) :
    ∃ c, Client.exchanges cfg encodeBase64 server
        ((transaction cfg encodeBase64 login).length + 1) {} = .ok c ∧
      c.Finished cfg encodeBase64 ((transaction cfg encodeBase64 login).map Prod.fst) :=
  exchanges_follows hserves (follows_transaction hto) (List.nil_append _) rfl rfl rfl rfl rfl

def securedConfiguration : Configuration where
  protocol := mailConfiguration.protocol
  request := { mailConfiguration.request with
    useStartTls := true, «to» := [text "d@e.f", text "g@h.i"] }

def accepting (commands : List Request) : Parser.Written :=
  match (commands.getLast?.map Request.command).getD .invalid with
  | .ehlo => ⟨text "250", [text "mx"], text "AUTH LOGIN"⟩
  | .auth =>
    if (commands.filter (·.command = .auth)).length < 3 then ⟨text "334", [], text "ok"⟩
    else ⟨text "235", [], text "ok"⟩
  | .data => ⟨text "354", [], text "ok"⟩
  | _ => ⟨text "250", [], text "ok"⟩

instance Answers.decidable (login : Bool) (last : Sent) (reply : Reply) :
    Decidable (Answers cfg login last reply) := inferInstanceAs (Decidable (_ ∧ _))

theorem accepting_readable (commands : List Request) : (accepting commands).WellFormed ∧
    (accepting commands).Readable [(accepting commands).octets] [] := by
  have hsingle (digits : Bytes) : (⟨digits, [], text "ok"⟩ : Parser.Written).Readable
      [Parser.Written.octets ⟨digits, [], text "ok"⟩] [] :=
    have hroom : 0 + 5 ≤ Glr.maxItems := by decide
    have hne : text "ok" ≠ [] := by decide
    ⟨hroom, .last hne rfl⟩
  rw [accepting]
  split
  · exact ⟨by decide +kernel, by decide, .line ⟨_, [], rfl, rfl⟩ (.last (by decide) rfl)⟩
  · split_ifs
    · exact ⟨by decide +kernel, hsingle _⟩
    · exact ⟨by decide +kernel, hsingle _⟩
  · exact ⟨by decide +kernel, hsingle _⟩
  · exact ⟨by decide +kernel, hsingle _⟩

theorem secured_transaction_finishes : ∃ c, Client.exchanges securedConfiguration id
      (fun commands => [(accepting commands).octets]) 13 {} = .ok c ∧
    c.Finished securedConfiguration id
      ((transaction securedConfiguration id true).map Prod.fst) := by
  have hanswers : ∀ done ∈ (transaction securedConfiguration id true).inits,
      Answers securedConfiguration true (lastSent done) (accepting (done.map Prod.fst)).record := by
    decide +kernel
  exact transaction_finishes (by decide) fun done hdone =>
    ⟨(accepting_readable _).1, (accepting_readable _).2,
      hanswers done ((List.mem_inits done _).2 hdone)⟩

end Running

end ACENetwork.SMTP
