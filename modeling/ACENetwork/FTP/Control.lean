import ACENetwork.FTP.Data

/-!
# Transfers and their data connections

`FTP_Control_T`: what a response and a data connection do to the queue of requests, and the
transfers of a client over any sequence of operations, responses and connections.
-/
namespace ACENetwork.FTP
open BitTorrent (Fault)
open Library

inductive Command where
  | user | pass | acct | cwd | cdup | smnt | rein | quit
  | port | pasv | type | stru | mode
  | retr | stor | stou | appe | allo | rest | rnfr | rnto | abor | dele | rmd | mkd | pwd | list
  | nlst | site | syst | stat | help | noop
  | invalid
  deriving DecidableEq, Repr

structure Request where
  command : Command := .invalid
  isDirectoryList : Bool := true
  deriving DecidableEq, Repr

def Request.dataState (request : Request) : DataState :=
  if request.command = .list then
    if request.isDirectoryList then .listDirectory else .listFile
  else .data

def ok : ℕ := 200

def enteringPassiveMode : ℕ := 227

def userOkNeedPassword : ℕ := 331

/-- What becomes of the data connection that a 227 asks for: it is not made, or it is made and the
connection manager has it or has lost it again. -/
inductive DataConnection where
  | failed
  | made (managed : Bool)
  deriving DecidableEq, Repr

/-- What is sent on the control connection. -/
inductive Sending where
  | password
  | request (number : ℕ) (request : Request)
  deriving DecidableEq, Repr

/-- `FTP_Control_T`: each request that waits in the queue, with its number. -/
structure Control where
  queue : List (ℕ × Request) := []
  expectingPORTResponse : Bool := false
  deriving DecidableEq, Repr

/-- The end of `responseCB`: a request that has been set is sent where the control connection can be
had. -/
def sendRequest (request : ℕ × Request) (reachable : Bool) : List Sending :=
  if request.2.command ≠ .invalid ∧ reachable = true then [.request request.1 request.2] else []

/-- `responseCB`, with the state that the data parser of a new connection is set to. -/
def responseCB (c : Control) (record : Record) (connection : DataConnection) (reachable : Bool) :
    Except Fault (Control × Option DataState × List Sending) :=
  if record.code = ok then
    if c.expectingPORTResponse then
      match c.queue with
      | [] => .error .assertion
      | request :: _ =>
        .ok ({ c with expectingPORTResponse := false }, none, sendRequest request reachable)
    else .ok (c, none, [])
  else if record.code = enteringPassiveMode then
    if record.text = [] then .error .assertion
    else
      match connection with
      | .failed => .ok (c, none, [])
      | .made managed =>
        match c.queue with
        | [] => .error .assertion
        | request :: queue =>
          if managed then
            .ok ({ c with queue := queue }, some request.2.dataState, sendRequest request reachable)
          else .error .assertion
  else if record.code = userOkNeedPassword then
    .ok (c, none, if reachable then [.password] else [])
  else .ok (c, none, [])

def connect (c : Control) (managed : Bool) : Except Fault (Control × DataState) :=
  if managed then
    match c.queue with
    | [] => .ok (c, .listDirectory)
    | request :: queue => .ok ({ c with queue := queue }, request.2.dataState)
  else .error .assertion

/-- A command that the server has got: PASV or PORT for the request of a number, or any other
one. -/
inductive Issued where
  | pasv (number : ℕ)
  | port (number : ℕ)
  | other
  deriving DecidableEq, Repr

/-- A request that has been sent, with the command whose response it was sent for. -/
structure Sent where
  number : ℕ
  acknowledged : Option Issued
  deriving DecidableEq, Repr

/-- A data connection that has been opened: the number of the request that it was opened for, and the
state of its parser. -/
structure Opened where
  number : Option ℕ
  state : DataState
  deriving DecidableEq, Repr

/-- A client: its control, all the requests that have been queued, the commands whose responses are
to come, and what has been sent and opened so far. -/
structure Client where
  control : Control := {}
  requests : List Request := []
  pending : List Issued := []
  sent : List Sent := []
  opened : List Opened := []
  deriving DecidableEq, Repr

/-- What happens to a client. A handle that is valid stands for the request that its connection was
opened for. -/
inductive Event where
  | queue (request : Request)
  | expectPORTResponse
  | request (command : Issued)
  | response (record : Record) (connection : DataConnection) (reachable : Bool)
  | connect (handle : Option ℕ) (managed : Bool)
  deriving DecidableEq

def Issued.passive : Issued → Option ℕ
  | .pasv number => some number
  | _ => none

def Issued.active : Issued → Option ℕ
  | .port number => some number
  | _ => none

def Client.answered (s : Client) : Option Issued := s.pending.head?

/-- A preliminary response is not the last one to its command. -/
def Client.pendingAfter (s : Client) (code : ℕ) : List Issued :=
  if code < ok then s.pending else s.pending.tail

def requestsOf (sendings : List Sending) : List ℕ :=
  sendings.filterMap fun
    | .password => none
    | .request number _ => some number

def Client.step (s : Client) : Event → Except Fault Client
  | .queue request =>
    .ok { s with
      control := { s.control with queue := s.control.queue ++ [(s.requests.length, request)] }
      requests := s.requests ++ [request] }
  | .expectPORTResponse =>
    .ok { s with control := { s.control with expectingPORTResponse := true } }
  | .request command => .ok { s with pending := s.pending ++ [command] }
  | .response record connection reachable => do
    let (control, state, sendings) ← responseCB s.control record connection reachable
    .ok { s with
      control := control
      pending := s.pendingAfter record.code ++ sendings.map fun _ => .other
      sent := s.sent ++ (requestsOf sendings).map fun number => ⟨number, s.answered⟩
      opened := s.opened ++ state.toList.map fun state => ⟨s.answered.bind Issued.passive, state⟩ }
  | .connect none _ => .ok s
  | .connect (some number) managed => do
    let (control, state) ← connect s.control managed
    .ok { s with
      control := control
      opened := s.opened ++ [⟨some number, state⟩] }

def Client.Connected (s : Client) (number : ℕ) : Prop := ∃ o ∈ s.opened, o.number = some number

def Client.HasSent (s : Client) (number : ℕ) : Prop := ∃ r ∈ s.sent, r.number = number

/-- Each request has been sent once at most and in the order of the queue, for the response to its
own PASV or PORT; and each data connection has the state of the request it was opened for. -/
structure Client.InOrder (s : Client) : Prop where
  once : (s.sent.map Sent.number).Pairwise (· < ·)
  acknowledged : ∀ r ∈ s.sent,
    r.acknowledged = some (.pasv r.number) ∨ r.acknowledged = some (.port r.number)
  states : ∀ o ∈ s.opened, ∃ number request, o.number = some number ∧
    s.requests[number]? = some request ∧ o.state = request.dataState

/-- A server opens a data connection for a request that it has got after PORT, and one only. -/
def Client.Possible (s : Client) : Event → Prop
  | .connect (some number) _ =>
    (∃ r ∈ s.sent, r.number = number ∧ r.acknowledged.bind Issued.active ≠ none) ∧
      ¬ s.Connected number
  | _ => True

/-- It is the turn of the request: all before it have got their data connections, and it has not been
sent. -/
def Client.Turn (s : Client) (number : ℕ) : Prop :=
  (∀ n < number, s.Connected n) ∧ ¬ s.HasSent number ∧ ¬ s.Connected number

/-- A 200 that is taken for the response to PORT is that, and a 227 that opens a connection is the
response to PASV; and it is the turn of the request that the command was for. -/
def Client.Regular (s : Client) (e : Event) : Prop :=
  s.Possible e ∧
    match e with
    | .response record connection _ =>
      (record.code = ok → s.control.expectingPORTResponse = true →
        ∃ number ∈ s.answered.bind Issued.active, s.Turn number) ∧
      (record.code = enteringPassiveMode → connection ≠ .failed →
        ∃ number ∈ s.answered.bind Issued.passive, s.Turn number)
    | _ => True

section Queue

def numbered (first : ℕ) : List Request → List (ℕ × Request)
  | [] => []
  | request :: requests => (first, request) :: numbered (first + 1) requests

theorem numbered_concat (first : ℕ) (requests : List Request) (request : Request) :
    numbered first (requests ++ [request]) =
      numbered first requests ++ [(first + requests.length, request)] := by
  induction requests generalizing first with
  | nil => rfl
  | cons r requests ih =>
    rw [List.cons_append, numbered, ih, numbered, List.length_cons, Nat.add_right_comm, Nat.add_assoc]
    rfl

theorem requestsOf_sendRequest (request : ℕ × Request) (reachable : Bool) :
    requestsOf (sendRequest request reachable) = [] ∨
      requestsOf (sendRequest request reachable) = [request.1] := by
  rw [sendRequest]
  split_ifs
  · exact Or.inr rfl
  · exact Or.inl rfl

end Queue

section Run

variable {s s' : Client} {served waiting : List Request}

/-- What holds of a client while its transfers are in order: the requests that have got their data
connections, and those that still wait in the queue. -/
structure Client.Kept (s : Client) (served waiting : List Request) : Prop where
  inOrder : s.InOrder
  requests : s.requests = served ++ waiting
  queue : s.control.queue = numbered served.length waiting
  connected : ∀ number, s.Connected number ↔ number < served.length
  sent : ∀ r ∈ s.sent, r.number ≤ served.length ∧ r.number < s.requests.length

theorem Client.Kept.turn (h : s.Kept served waiting) {number : ℕ} (hturn : s.Turn number) :
    number = served.length := by
  obtain ⟨hbefore, -, hnot⟩ := hturn
  have hge : ¬ number < served.length := fun hlt => hnot ((h.connected number).mpr hlt)
  have hle : ¬ served.length < number := fun hlt =>
    absurd ((h.connected served.length).mp (hbefore _ hlt)) (lt_irrefl _)
  omega

theorem Client.Kept.connected_snoc (h : s.Kept served waiting) {t : Client} {state : DataState}
    {request : Request} (hopened : t.opened = s.opened ++ [⟨some served.length, state⟩]) (number : ℕ) :
    t.Connected number ↔ number < (served ++ [request]).length := by
  have hsplit : t.Connected number ↔ s.Connected number ∨ served.length = number := by
    rw [Client.Connected, hopened]
    simp [Client.Connected, or_and_right, exists_or]
  rw [hsplit, h.connected, List.length_append, List.length_singleton]
  omega

theorem responseCB_cases {c c' : Control} {record : Record} {connection : DataConnection}
    {reachable : Bool} {state : Option DataState} {sendings : List Sending}
    (h : responseCB c record connection reachable = .ok (c', state, sendings)) :
    (c' = c ∧ state = none ∧ requestsOf sendings = []) ∨
    (record.code = ok ∧ c.expectingPORTResponse = true ∧ ∃ request queue,
      c.queue = request :: queue ∧ c' = { c with expectingPORTResponse := false } ∧ state = none ∧
      sendings = sendRequest request reachable) ∨
    (record.code = enteringPassiveMode ∧ connection ≠ .failed ∧ ∃ request queue,
      c.queue = request :: queue ∧ c' = { c with queue := queue } ∧
      state = some request.2.dataState ∧ sendings = sendRequest request reachable) := by
  unfold responseCB at h
  by_cases hok : record.code = ok
  · rw [if_pos hok] at h
    by_cases hflag : c.expectingPORTResponse = true
    · rw [if_pos hflag] at h
      cases hqueue : c.queue with
      | nil =>
        rw [hqueue] at h
        cases h
      | cons request queue =>
        rw [hqueue] at h
        cases h
        exact Or.inr (Or.inl ⟨hok, hflag, request, queue, rfl, rfl, rfl, rfl⟩)
    · rw [if_neg hflag] at h
      cases h
      exact Or.inl ⟨rfl, rfl, rfl⟩
  · rw [if_neg hok] at h
    by_cases hpassive : record.code = enteringPassiveMode
    · rw [if_pos hpassive] at h
      by_cases htext : record.text = []
      · rw [if_pos htext] at h
        cases h
      · rw [if_neg htext] at h
        cases connection with
        | failed =>
          cases h
          exact Or.inl ⟨rfl, rfl, rfl⟩
        | made managed =>
          cases hqueue : c.queue with
          | nil =>
            rw [hqueue] at h
            cases h
          | cons request queue =>
            rw [hqueue] at h
            cases managed with
            | false => cases h
            | true =>
              cases h
              exact Or.inr (Or.inr ⟨hpassive, DataConnection.noConfusion, request, queue, rfl, rfl,
                rfl, rfl⟩)
    · rw [if_neg hpassive] at h
      split_ifs at h <;> cases h <;> exact Or.inl ⟨rfl, rfl, rfl⟩

theorem connect_cases {c c' : Control} {managed : Bool} {state : DataState}
    (h : connect c managed = .ok (c', state)) :
    (c.queue = [] ∧ c' = c) ∨ ∃ request queue, c.queue = request :: queue ∧
      c' = { c with queue := queue } ∧ state = request.2.dataState := by
  rw [connect] at h
  split_ifs at h
  cases hqueue : c.queue with
  | nil =>
    rw [hqueue] at h
    cases h
    exact Or.inl ⟨rfl, rfl⟩
  | cons request queue =>
    rw [hqueue] at h
    cases h
    exact Or.inr ⟨request, queue, rfl, rfl, rfl⟩

theorem Client.Kept.front (h : s.Kept served waiting) {request : ℕ × Request}
    {queue : List (ℕ × Request)} (hqueue : s.control.queue = request :: queue) :
    ∃ rest, waiting = request.2 :: rest ∧ request.1 = served.length ∧
      queue = numbered (served.length + 1) rest ∧ s.requests[served.length]? = some request.2 := by
  have hnumbered := h.queue
  rw [hqueue] at hnumbered
  cases waiting with
  | nil => cases hnumbered
  | cons r rest =>
    cases hnumbered
    refine ⟨rest, rfl, rfl, rfl, ?_⟩
    rw [h.requests, List.getElem?_append_right (le_refl _), Nat.sub_self]
    rfl

theorem passive_some {command : Option Issued} {number : ℕ}
    (h : number ∈ command.bind Issued.passive) : command = some (.pasv number) := by
  cases command with
  | none => cases h
  | some command => cases command <;> cases h; rfl

theorem active_some {command : Option Issued} {number : ℕ}
    (h : number ∈ command.bind Issued.active) : command = some (.port number) := by
  cases command with
  | none => cases h
  | some command => cases command <;> cases h; rfl

/-- The request of a number is sent for its own acknowledgement, or nothing is. -/
def Client.Sends (s s' : Client) (number : ℕ) : Prop :=
  s'.sent = s.sent ∨ ¬ s.HasSent number ∧ ∃ command,
    (command = .pasv number ∨ command = .port number) ∧
      s'.sent = s.sent ++ [⟨number, some command⟩]

theorem sends_sendRequest {number : ℕ} {request : ℕ × Request} (reachable : Bool)
    {command : Issued} (hnumber : request.1 = number) (hcommand : command = .pasv number ∨ command = .port number)
    (hnot : ¬ s.HasSent number)
    (hsent : s'.sent = s.sent ++ (requestsOf (sendRequest request reachable)).map
      fun number => ⟨number, some command⟩) : s.Sends s' number := by
  rcases requestsOf_sendRequest request reachable with hnone | hone
  · rw [hnone, List.map_nil, List.append_nil] at hsent
    exact Or.inl hsent
  · rw [hone, List.map_singleton, hnumber] at hsent
    exact Or.inr ⟨hnot, command, hcommand, hsent⟩

/-- The request in front of the queue is sent after all that have been sent. -/
theorem Client.Kept.of_sends (h : s.Kept served waiting) (hsends : s.Sends s' served.length)
    (hlength : served.length < s.requests.length) :
    (s'.sent.map Sent.number).Pairwise (· < ·) ∧
    (∀ r ∈ s'.sent,
      r.acknowledged = some (.pasv r.number) ∨ r.acknowledged = some (.port r.number)) ∧
    ∀ r ∈ s'.sent, r.number ≤ served.length ∧ r.number < s.requests.length := by
  rcases hsends with hsent | ⟨hnot, command, hcommand, hsent⟩
  · rw [hsent]
    exact ⟨h.inOrder.once, h.inOrder.acknowledged, h.sent⟩
  · rw [hsent]
    refine ⟨?_, fun r hr => ?_, fun r hr => ?_⟩
    · rw [List.map_append, List.pairwise_append]
      refine ⟨h.inOrder.once, List.pairwise_singleton _ _, fun a ha b hb => ?_⟩
      obtain ⟨r, hr, rfl⟩ := List.mem_map.mp ha
      obtain rfl := List.mem_singleton.mp hb
      exact lt_of_le_of_ne (h.sent r hr).1 fun heq => hnot ⟨r, hr, heq⟩
    · rcases List.mem_append.mp hr with hr | hr
      · exact h.inOrder.acknowledged r hr
      · obtain rfl := List.mem_singleton.mp hr
        exact hcommand.imp (congrArg some) (congrArg some)
    · rcases List.mem_append.mp hr with hr | hr
      · exact h.sent r hr
      · obtain rfl := List.mem_singleton.mp hr
        exact ⟨le_refl _, hlength⟩

/-- The requests wait in the queue as before; the one in front may be sent. -/
theorem Client.Kept.waits (h : s.Kept served waiting)
    (hsends : s'.sent = s.sent ∨ s.Sends s' served.length ∧ served.length < s.requests.length)
    (hqueue : s'.control.queue = s.control.queue) (hrequests : s'.requests = s.requests)
    (hopened : s'.opened = s.opened) : s'.Kept served waiting := by
  have hconnected (number : ℕ) : s'.Connected number ↔ s.Connected number := by
    rw [Client.Connected, Client.Connected, hopened]
  have hall : (s'.sent.map Sent.number).Pairwise (· < ·) ∧
      (∀ r ∈ s'.sent,
        r.acknowledged = some (.pasv r.number) ∨ r.acknowledged = some (.port r.number)) ∧
      ∀ r ∈ s'.sent, r.number ≤ served.length ∧ r.number < s.requests.length := by
    rcases hsends with hsent | ⟨hsends, hlength⟩
    · rw [hsent]
      exact ⟨h.inOrder.once, h.inOrder.acknowledged, h.sent⟩
    · exact h.of_sends hsends hlength
  exact {
    inOrder := ⟨hall.1, hall.2.1, by rw [hopened, hrequests]; exact h.inOrder.states⟩
    requests := hrequests.trans h.requests
    queue := hqueue.trans h.queue
    connected := fun number => (hconnected number).trans (h.connected number)
    sent := by rw [hrequests]; exact hall.2.2 }

/-- The request in front of the queue gets its data connection; it may be sent. -/
theorem Client.Kept.serves (h : s.Kept served waiting) {request : ℕ × Request}
    {queue : List (ℕ × Request)} (hfront : s.control.queue = request :: queue)
    (hsends : s.Sends s' served.length) (hqueue : s'.control.queue = queue)
    (hrequests : s'.requests = s.requests)
    (hopened : s'.opened = s.opened ++ [⟨some served.length, request.2.dataState⟩]) :
    ∃ served' waiting', s'.Kept served' waiting' := by
  obtain ⟨rest, rfl, -, rfl, hrequest⟩ := h.front hfront
  have hlength : served.length < s.requests.length := (List.getElem?_eq_some_iff.mp hrequest).1
  obtain ⟨honce, hacknowledged, hsent⟩ := h.of_sends hsends hlength
  refine ⟨served ++ [request.2], rest, ⟨honce, hacknowledged, ?_⟩, ?_, ?_, ?_, ?_⟩
  · rw [hopened, hrequests]
    intro o ho
    rcases List.mem_append.mp ho with ho | ho
    · exact h.inOrder.states o ho
    · obtain rfl := List.mem_singleton.mp ho
      exact ⟨served.length, request.2, rfl, hrequest, rfl⟩
  · rw [hrequests, h.requests, List.append_assoc]
    rfl
  · rw [hqueue, List.length_append, List.length_singleton]
  · exact h.connected_snoc hopened
  · rw [hrequests]
    intro r hr
    refine ⟨le_trans (hsent r hr).1 ?_, (hsent r hr).2⟩
    rw [List.length_append]
    exact Nat.le_add_right _ _

theorem kept_response {record : Record} {connection : DataConnection} {reachable : Bool}
    (h : s.Kept served waiting) (hregular : s.Regular (.response record connection reachable))
    (hstep : s.step (.response record connection reachable) = .ok s') :
    ∃ served' waiting', s'.Kept served' waiting' := by
  obtain ⟨-, hactive, hpassive⟩ := hregular
  obtain ⟨⟨c, state, sendings⟩, hresponse, hstep⟩ := BitTorrent.fault_bind_ok.mp hstep
  rcases responseCB_cases hresponse with ⟨rfl, rfl, hnone⟩ |
    ⟨hok, hflag, request, queue, hqueue, rfl, rfl, rfl⟩ |
    ⟨hcode, hmade, request, queue, hqueue, rfl, rfl, rfl⟩
  · cases hstep
    refine ⟨served, waiting, h.waits (Or.inl ?_) rfl rfl (List.append_nil _)⟩
    simp only [hnone, List.map_nil, List.append_nil]
  · -- the request is sent, and stays in front of the queue
    obtain ⟨number, hnumber, hturn⟩ := hactive hok hflag
    obtain ⟨-, -, hfirst, -, hrequest⟩ := h.front hqueue
    obtain rfl := h.turn hturn
    cases hstep
    refine ⟨served, waiting, h.waits (Or.inr ⟨?_, (List.getElem?_eq_some_iff.mp hrequest).1⟩) rfl rfl
      (List.append_nil _)⟩
    refine sends_sendRequest reachable hfirst (Or.inr rfl) hturn.2.1 ?_
    rw [active_some hnumber]
  · -- the request is taken and sent, and its connection has been opened
    obtain ⟨number, hnumber, hturn⟩ := hpassive hcode hmade
    obtain ⟨-, -, hfirst, -, -⟩ := h.front hqueue
    obtain rfl := h.turn hturn
    cases hstep
    refine h.serves hqueue (sends_sendRequest reachable hfirst (Or.inl rfl) hturn.2.1 ?_) rfl rfl ?_
    · rw [passive_some hnumber]
    · rw [passive_some hnumber]
      rfl

theorem kept_connect {number : ℕ} {managed : Bool} (h : s.Kept served waiting)
    (hpossible : s.Possible (.connect (some number) managed))
    (hstep : s.step (.connect (some number) managed) = .ok s') :
    ∃ served' waiting', s'.Kept served' waiting' := by
  obtain ⟨⟨r, hr, rfl, -⟩, hnot⟩ := hpossible
  obtain ⟨hle, hlt⟩ := h.sent r hr
  have hnumber : r.number = served.length :=
    le_antisymm hle (not_lt.mp fun hserved => hnot ((h.connected _).mpr hserved))
  obtain ⟨⟨c, state⟩, hconnect, hstep⟩ := BitTorrent.fault_bind_ok.mp hstep
  cases hstep
  rcases connect_cases hconnect with ⟨hempty, -⟩ | ⟨request, queue, hqueue, rfl, rfl⟩
  · -- a request that has been sent after PORT waits in the queue
    have hwaiting := h.queue
    rw [hempty] at hwaiting
    have hnone : waiting = [] := by
      cases waiting with
      | nil => rfl
      | cons request waiting => cases hwaiting
    rw [h.requests, hnone, List.append_nil, hnumber] at hlt
    exact absurd hlt (lt_irrefl _)
  · refine h.serves hqueue (Or.inl rfl) rfl rfl ?_
    rw [hnumber]

theorem kept_queue (h : s.Kept served waiting) {request : Request}
    (hstep : s.step (.queue request) = .ok s') : s'.Kept served (waiting ++ [request]) := by
  cases hstep
  refine ⟨⟨h.inOrder.once, h.inOrder.acknowledged, fun o ho => ?_⟩, ?_, ?_, h.connected, fun r hr => ?_⟩
  · obtain ⟨number, r, hnumber, hr, hstate⟩ := h.inOrder.states o ho
    refine ⟨number, r, hnumber, ?_, hstate⟩
    show (s.requests ++ [request])[number]? = some r
    rw [List.getElem?_append_left (List.getElem?_eq_some_iff.mp hr).1, hr]
  · show s.requests ++ [request] = served ++ (waiting ++ [request])
    rw [h.requests, List.append_assoc]
  · show s.control.queue ++ [(s.requests.length, request)] = _
    rw [numbered_concat, h.queue, h.requests, List.length_append]
  · obtain ⟨hle, hlt⟩ := h.sent r hr
    refine ⟨hle, lt_of_lt_of_le hlt ?_⟩
    show s.requests.length ≤ (s.requests ++ [request]).length
    rw [List.length_append]
    exact Nat.le_add_right _ _

theorem kept_step {e : Event} (h : ∃ served waiting, s.Kept served waiting) (hregular : s.Regular e)
    (hstep : s.step e = .ok s') : ∃ served waiting, s'.Kept served waiting := by
  obtain ⟨served, waiting, h⟩ := h
  cases e with
  | queue request => exact ⟨_, _, kept_queue h hstep⟩
  | expectPORTResponse =>
    cases hstep
    exact ⟨served, waiting, h.waits (Or.inl rfl) rfl rfl rfl⟩
  | request command =>
    cases hstep
    exact ⟨served, waiting, h.waits (Or.inl rfl) rfl rfl rfl⟩
  | response record connection reachable => exact kept_response h hregular hstep
  | connect handle managed =>
    cases handle with
    | none =>
      cases hstep
      exact ⟨served, waiting, h⟩
    | some number => exact kept_connect h hregular.1 hstep

end Run

/-- Where each acknowledgement comes in the turn of its request, the transfers are in order in every
state the client reaches. -/
theorem inOrder_of_regular {s : Client} {events : List Event}
    (h : Runs.Along Client.step Client.Regular {} events)
    (hrun : Runs.run Client.step {} events = .ok s) : s.InOrder := by
  have hstart : ∃ served waiting, Client.Kept {} served waiting := by
    refine ⟨[], [], ⟨List.Pairwise.nil, fun r hr => ?_, fun o ho => ?_⟩, rfl, rfl, fun number => ?_,
      fun r hr => ?_⟩
    · cases hr
    · cases ho
    · exact iff_of_false (fun ⟨o, ho, _⟩ => by cases ho) (Nat.not_lt_zero number)
    · cases hr
  obtain ⟨served, waiting, hkept⟩ := Runs.run_invariant
    (fun s : Client => ∃ served waiting, s.Kept served waiting) (fun _ _ _ => kept_step) hstart h hrun
  exact hkept.inOrder

instance Client.Connected.decidable (s : Client) (number : ℕ) : Decidable (s.Connected number) :=
  inferInstanceAs (Decidable (∃ o ∈ s.opened, _))

instance Client.HasSent.decidable (s : Client) (number : ℕ) : Decidable (s.HasSent number) :=
  inferInstanceAs (Decidable (∃ r ∈ s.sent, _))

instance Client.Turn.decidable (s : Client) (number : ℕ) : Decidable (s.Turn number) :=
  inferInstanceAs (Decidable (_ ∧ _ ∧ _))

instance Client.Possible.decidable (s : Client) (e : Event) : Decidable (s.Possible e) :=
  match e with
  | .connect (some number) _ => inferInstanceAs (Decidable (_ ∧ ¬ s.Connected number))
  | .connect none _ | .queue _ | .expectPORTResponse | .request _ | .response .. => isTrue trivial

instance Client.Regular.decidable (s : Client) (e : Event) : Decidable (s.Regular e) :=
  match e with
  | .response .. => inferInstanceAs (Decidable (True ∧ _ ∧ _))
  | .connect handle managed => inferInstanceAs (Decidable (s.Possible (.connect handle managed) ∧ True))
  | .queue _ | .expectPORTResponse | .request _ => isTrue ⟨trivial, trivial⟩

/-- A listing in passive mode, and a file in active mode. -/
def twoTransfers : List Event :=
  [.queue { command := .list }, .request (.pasv 0),
    .response ⟨227, [text "127,0,0,1,4,1"]⟩ (.made true) true, .response ⟨226, [text "done"]⟩ .failed true,
    .queue { command := .retr }, .expectPORTResponse, .request (.port 1),
    .response ⟨200, [text "ok"]⟩ .failed true, .connect (some 1) true]

theorem two_transfers_in_order :
    (Runs.run Client.step {} twoTransfers).toOption.any
      (fun s => s.opened == [⟨some 0, .listDirectory⟩, ⟨some 1, .data⟩]) = true ∧
    ∀ s, Runs.run Client.step {} twoTransfers = .ok s → s.InOrder :=
  ⟨by decide, fun _ hrun => inOrder_of_regular (by decide) hrun⟩

/-- The server takes PORT, but cannot open the data connection; the next file is requested. -/
def failedTransfer : List Event :=
  [.queue { command := .list }, .expectPORTResponse, .request (.port 0),
    .response ⟨200, [text "ok"]⟩ .failed true, .response ⟨425, [text "no"]⟩ .failed true,
    .queue { command := .retr }, .expectPORTResponse, .request (.port 1),
    .response ⟨200, [text "ok"]⟩ .failed true]

/-- The listing is requested again. -/
theorem failed_transfer_sent_again :
    Runs.Along Client.step Client.Possible {} failedTransfer ∧
    ¬ ∀ s, Runs.run Client.step {} failedTransfer = .ok s → s.InOrder := by
  refine ⟨by decide, fun h => ?_⟩
  have hsent : (Runs.run Client.step {} failedTransfer).toOption.any
      (fun s => s.sent.map Sent.number == [0, 0]) = true := by decide
  cases hrun : Runs.run Client.step {} failedTransfer with
  | error fault =>
    rw [hrun] at hsent
    cases hsent
  | ok s =>
    rw [hrun] at hsent
    have honce := (h s hrun).once
    rw [beq_iff_eq.mp hsent] at honce
    exact absurd honce (by decide)

end ACENetwork.FTP
