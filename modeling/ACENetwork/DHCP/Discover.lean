import ACENetwork.DHCP.Record
import ACENetwork.DHCP.Dump
import ACENetwork.Library.Runs

/-!
# The DHCP client session

`DHCP_Module_Discover_T::handleDataMessage`: a message may give the session its server
address, and an offer may be answered with a request. The server address is taken
before the message is looked at, and an offer is recognized by its type alone. Another reply is
printed to the log, where the sizes of its addresses are asserted.
-/
namespace ACENetwork.DHCP
open Library

def requestedAddressTag : UInt8 := 50
def leaseTimeTag : UInt8 := 51
def messageTypeTag : UInt8 := 53
def serverIdentifierTag : UInt8 := 54

def messageOffer : UInt8 := 2

def messageRequest : UInt8 := 3

/-- An address, as its words lie in memory. -/
structure Address where
  port : UInt16
  ip : UInt32
  deriving DecidableEq, Repr

structure Session where
  serverAddress : Address
  xid : UInt32
  deriving DecidableEq, Repr

structure Configuration where
  order : ByteOrder
  sendRequestOnOffer : Bool
  requestBroadcastReplies : Bool
  linkLayerAddress : Vector UInt8 6

/-- What ends the program: an assertion on an option that is missing or has another size, or a read
behind the value of one. -/
inductive Failure where
  | missing (tag : UInt8)
  | size (tag : UInt8)
  | outOfRange (tag : UInt8)
  deriving DecidableEq, Repr

/-- `DHCP_Tools::type`; the string of the option ends in a NUL. -/
def type (m : Record) : Except Failure UInt8 :=
  match m.options.find? messageTypeTag with
  | none => .error (.missing messageTypeTag)
  | some value => .ok (value.headD 0)

inductive FieldType where
  | address
  | command
  | string
  | integer
  | addresses
  | length
  | invalid
  deriving DecidableEq, Repr

def optionToFieldType (tag : UInt8) : FieldType :=
  if tag ∈ ([1, 3, 6, 28, 54, 42] : List UInt8) then .address
  else if tag = 53 then .command
  else if tag ∈ ([2, 26, 51, 58, 59] : List UInt8) then .integer
  else if tag ∈ ([12, 15, 43] : List UInt8) then .string
  else if tag = 125 then .length
  else if tag = 158 then .addresses
  else .invalid

/-- What `DHCP_Tools::dump` does with an option, but for the text. Of a value without addresses
the word that is read is not used. -/
def dumpOption (e : UInt8 × List UInt8) : Except Failure Unit :=
  match optionToFieldType e.1 with
  | .address => if e.2.length % 4 = 0 then .ok () else .error (.size e.1)
  | .addresses =>
    match dumpAddresses e.2 with
    | .ok _ => .ok ()
    | .error .assertion => .error (.size e.1)
    | .error _ => .error (.outOfRange e.1)
  | _ => .ok ()

def dumpOptions : List (UInt8 × List UInt8) → Except Failure Unit
  | [] => .ok ()
  | e :: entries => do
    dumpOption e
    dumpOptions entries

/-- `DHCP_Tools::dump`, but for the text. -/
def dump (m : Record) : Except Failure Unit := dumpOptions m.options.entries

/-- The address of a server: its identifier is in network byte order already. -/
def serverAddress (c : Configuration) (identifier : List UInt8) : Address where
  port := if c.order = .littleEndian then swapWord 67 else 67
  ip := UInt32.ofNat (c.order.load identifier)

def setServerAddress (c : Configuration) (s : Session) (m : Record) : Except Failure Session :=
  if s.serverAddress.ip ≠ 0 then .ok s
  else match m.options.find? serverIdentifierTag with
    | none => .ok s
    | some identifier =>
      if identifier.length = 4 then .ok { s with serverAddress := serverAddress c identifier }
      else .error (.size serverIdentifierTag)

def request (c : Configuration) (m : Record) : Except Failure Record :=
  match m.options.find? leaseTimeTag, m.options.find? serverIdentifierTag with
  | some leaseTime, some identifier => .ok
    { op := opRequest, htype := 1, hlen := 6, xid := m.xid, secs := m.secs
      flags := if c.requestBroadcastReplies then 0x8000 else 0
      chaddr := c.linkLayerAddress.toList ++ List.replicate 10 0
      options := (((OrderedMap.empty.insert requestedAddressTag (c.order.store 4 m.yiaddr.toNat)).insert
        leaseTimeTag leaseTime).insert messageTypeTag [messageRequest]).insert
        serverIdentifierTag identifier }
  | none, _ => .error (.missing leaseTimeTag)
  | _, none => .error (.missing serverIdentifierTag)

def reply (m : Record) : Except Failure (Option Record) :=
  if m.op ≠ opReply then .ok none else (dump m).map fun _ => none

/-- Behind the label `continue_`: what is sent in an exchange. The message that is sent
may fail to be allocated. -/
def answer (c : Configuration) (xid : UInt32) (m : Record) (allocated : Bool) :
    Except Failure (Option Record) :=
  if !c.sendRequestOnOffer then reply m
  else do
    let t ← type m
    if t ≠ messageOffer then reply m
    else if m.xid ≠ xid then .ok none
    else if !allocated then .ok none
    else (request c m).map some

def handleMessage (c : Configuration) (s : Session) (m : Record) (allocated : Bool) :
    Session × Except Failure (Option Record) :=
  match setServerAddress c s m with
  | .error f => (s, .error f)
  | .ok s' => (s', answer c s'.xid m allocated)

/-- What happens to a session: a message arrives, or the application starts an exchange. -/
inductive Event where
  | message (m : Record) (allocated : Bool)
  | exchange (xid : UInt32)

def step (c : Configuration) (s : Session) : Event → Except Failure Session
  | .message m allocated => (handleMessage c s m allocated).2.map fun _ =>
    (handleMessage c s m allocated).1
  | .exchange xid => .ok { s with xid }

def OwnReply (s : Session) (m : Record) : Prop := m.op = opReply ∧ m.xid = s.xid

instance (s : Session) (m : Record) : Decidable (OwnReply s m) :=
  inferInstanceAs (Decidable (_ ∧ _))

structure Echoes (c : Configuration) (m q : Record) : Prop where
  op : q.op = opRequest
  xid : q.xid = m.xid
  type : type q = .ok messageRequest
  address : q.options.find? requestedAddressTag = some (c.order.store 4 m.yiaddr.toNat)
  identifier : q.options.find? serverIdentifierTag = m.options.find? serverIdentifierTag
  leaseTime : q.options.find? leaseTimeTag = m.options.find? leaseTimeTag

/-- An assertion on the presence or the size of the message type, the server identifier or the lease
time. -/
def Failure.IsOnExchange : Failure → Prop
  | .missing tag | .size tag => tag ∈ [messageTypeTag, serverIdentifierTag, leaseTimeTag]
  | .outOfRange _ => False

instance : DecidablePred Failure.IsOnExchange
  | .missing tag => inferInstanceAs (Decidable (tag ∈ _))
  | .size tag => inferInstanceAs (Decidable (tag ∈ _))
  | .outOfRange _ => inferInstanceAs (Decidable False)

/-- The session follows only its own exchange: no such assertion fails, the session changes
for its own replies only, and only its own offers are answered, with their echo. -/
def Follows (c : Configuration) (s : Session) : Event → Prop
  | .message m allocated =>
    ((handleMessage c s m allocated).1 ≠ s → OwnReply s m) ∧
    (∀ f, (handleMessage c s m allocated).2 = .error f → ¬ f.IsOnExchange) ∧
    ∀ q, (handleMessage c s m allocated).2 = .ok (some q) →
      OwnReply s m ∧ type m = .ok messageOffer ∧ Echoes c m q
  | .exchange _ => True

def PrintsIdentifier (m : Record) : Prop :=
  ∀ v, m.options.find? serverIdentifierTag = some v → v.length % 4 = 0 ∨
    ∃ e ∈ m.options.entries, e.1 < serverIdentifierTag ∧ dumpOption e ≠ .ok ()

structure Meets (c : Configuration) (s : Session) (m : Record) (allocated : Bool) : Prop where
  identifier : s.serverAddress.ip = 0 → ∀ v, m.options.find? serverIdentifierTag = some v →
    v.length = 4 ∧ (serverAddress c v ≠ s.serverAddress → OwnReply s m)
  messageType : c.sendRequestOnOffer = true → (m.options.find? messageTypeTag).isSome
  offer : c.sendRequestOnOffer = true → type m = .ok messageOffer → m.xid = s.xid →
    allocated = true → m.op = opReply ∧ (m.options.find? leaseTimeTag).isSome ∧
      (m.options.find? serverIdentifierTag).isSome
  printed : m.op = opReply → ¬ (c.sendRequestOnOffer = true ∧ type m = .ok messageOffer) →
    PrintsIdentifier m

def MeetsEvent (c : Configuration) (s : Session) : Event → Prop
  | .message m allocated => Meets c s m allocated
  | .exchange _ => True

section Printing

variable {m : Record} {e : UInt8 × List UInt8} {entries : List (UInt8 × List UInt8)} {f : Failure}

theorem dumpOption_isOnExchange :
    (∃ f, dumpOption e = .error f ∧ f.IsOnExchange) ↔
      e.1 = serverIdentifierTag ∧ e.2.length % 4 ≠ 0 := by
  obtain ⟨tag, value⟩ := e
  by_cases hidentifier : tag = serverIdentifierTag
  · subst hidentifier
    have htype : optionToFieldType serverIdentifierTag = .address := rfl
    by_cases hsize : value.length % 4 = 0
    · simp [dumpOption, htype, hsize]
    · simp [dumpOption, htype, hsize, Failure.IsOnExchange]
  · refine iff_of_false ?_ fun h => hidentifier h.1
    rintro ⟨f, hfails, hf⟩
    have htag : tag ∉ [messageTypeTag, serverIdentifierTag, leaseTimeTag] := by
      intro hmem
      simp only [List.mem_cons, List.not_mem_nil, or_false] at hmem
      rcases hmem with rfl | rfl | rfl
      · cases hfails
      · exact hidentifier rfl
      · cases hfails
    simp only [dumpOption] at hfails
    split at hfails
    · split_ifs at hfails
      cases hfails
      exact htag hf
    · split at hfails <;> cases hfails
      · exact htag hf
      · exact hf
    · cases hfails

/-- The first option that cannot be printed ends the loop. -/
theorem dumpOptions_error : dumpOptions entries = .error f ↔ ∃ front e rest,
    entries = front ++ e :: rest ∧ (∀ e' ∈ front, dumpOption e' = .ok ()) ∧
      dumpOption e = .error f := by
  induction entries with
  | nil => simp [dumpOptions]
  | cons first entries ih =>
    rw [dumpOptions]
    cases hfirst : dumpOption first with
    | error g =>
      constructor
      · intro h
        obtain rfl : g = f := by simpa [bind, Except.bind] using h
        exact ⟨[], first, entries, rfl, by simp, hfirst⟩
      · rintro ⟨front, e, rest, hsplit, hfront, he⟩
        cases front with
        | nil =>
          obtain ⟨rfl, -⟩ := List.cons.inj hsplit
          exact hfirst.symm.trans he
        | cons e' front =>
          obtain ⟨rfl, -⟩ := List.cons.inj hsplit
          rw [hfront first List.mem_cons_self] at hfirst
          cases hfirst
    | ok _ =>
      refine ih.trans ⟨?_, ?_⟩
      · rintro ⟨front, e, rest, rfl, hfront, he⟩
        exact ⟨first :: front, e, rest, rfl, List.forall_mem_cons.mpr ⟨hfirst, hfront⟩, he⟩
      · rintro ⟨front, e, rest, hsplit, hfront, he⟩
        cases front with
        | nil =>
          obtain ⟨rfl, -⟩ := List.cons.inj hsplit
          rw [hfirst] at he
          cases he
        | cons e' front =>
          obtain ⟨rfl, rfl⟩ := List.cons.inj hsplit
          exact ⟨front, e, rest, rfl, (List.forall_mem_cons.mp hfront).2, he⟩

/-- The assertion on the identifier fails exactly when the loop comes to it. -/
theorem dump_isOnExchange :
    (∃ f, dump m = .error f ∧ f.IsOnExchange) ↔ ¬ PrintsIdentifier m := by
  simp only [dump, dumpOptions_error, PrintsIdentifier, not_forall, not_or, not_exists, not_and,
    not_not]
  constructor
  · rintro ⟨f, ⟨front, e, rest, hsplit, hfront, he⟩, hf⟩
    obtain ⟨htag, hsize⟩ := dumpOption_isOnExchange.mp ⟨f, he, hf⟩
    have hmem : (serverIdentifierTag, e.2) ∈ m.options.entries := by
      rw [← htag, hsplit]
      exact List.mem_append_right _ List.mem_cons_self
    refine ⟨e.2, OrderedMap.find?_of_mem hmem, hsize, fun e' he' hlt => ?_⟩
    rw [hsplit] at he'
    have hsorted := m.options.sorted
    rw [hsplit] at hsorted
    rcases List.mem_append.mp he' with hin | hin
    · exact hfront e' hin
    · rcases List.mem_cons.mp hin with rfl | hin
      · exact absurd htag hlt.ne
      · have hbehind := (List.pairwise_cons.mp (List.pairwise_append.mp hsorted).2.1).1 e' hin
        rw [htag] at hbehind
        exact absurd hlt hbehind.asymm
  · rintro ⟨v, hv, hsize, hbefore⟩
    obtain ⟨front, rest, hsplit⟩ := List.append_of_mem (OrderedMap.mem_of_find? hv)
    obtain ⟨f, hfails, hf⟩ :=
      dumpOption_isOnExchange (e := (serverIdentifierTag, v)).mpr ⟨rfl, hsize⟩
    refine ⟨f, ⟨front, _, rest, hsplit, fun e' he' => hbefore e' ?_ ?_, hfails⟩, hf⟩
    · rw [hsplit]
      exact List.mem_append_left _ he'
    · have hsorted := m.options.sorted
      rw [hsplit] at hsorted
      exact (List.pairwise_append.mp hsorted).2.2 e' he' _ List.mem_cons_self

end Printing

section Steps

variable {c : Configuration} {s s' : Session} {m q : Record} {allocated : Bool}

/-- What is sent is right, and no assertion on the exchange fails. -/
def Sends (c : Configuration) (s : Session) (m : Record) (result : Except Failure (Option Record)) :
    Prop :=
  (∀ f, result = .error f → ¬ f.IsOnExchange) ∧
    ∀ q, result = .ok (some q) → OwnReply s m ∧ type m = .ok messageOffer ∧ Echoes c m q

theorem sends_none : Sends c s m (.ok none) := ⟨nofun, nofun⟩

theorem setServerAddress_xid (h : setServerAddress c s m = .ok s') : s'.xid = s.xid := by
  unfold setServerAddress at h
  split_ifs at h with hset
  · cases h
    rfl
  · split at h
    · cases h
      rfl
    · split_ifs at h
      cases h
      rfl

theorem setServerAddress_error {f : Failure} (h : setServerAddress c s m = .error f) :
    f.IsOnExchange := by
  unfold setServerAddress at h
  split_ifs at h
  split at h
  · cases h
  · split_ifs at h
    cases h
    decide

theorem setServerAddress_iff :
    (∃ s', setServerAddress c s m = .ok s' ∧ (s' ≠ s → OwnReply s m)) ↔
      (s.serverAddress.ip = 0 → ∀ v, m.options.find? serverIdentifierTag = some v →
        v.length = 4 ∧ (serverAddress c v ≠ s.serverAddress → OwnReply s m)) := by
  by_cases hany : s.serverAddress.ip = 0
  · cases hidentifier : m.options.find? serverIdentifierTag with
    | none => simp [setServerAddress, hany, hidentifier]
    | some v =>
      have hne : ({ s with serverAddress := serverAddress c v } : Session) ≠ s ↔
          serverAddress c v ≠ s.serverAddress := by
        obtain ⟨address, xid⟩ := s
        simp
      by_cases hlength : v.length = 4
      · simp [setServerAddress, hany, hidentifier, hlength, hne]
      · simp [setServerAddress, hany, hidentifier, hlength]
  · simp [setServerAddress, hany]

theorem request_echoes (h : request c m = .ok q) : Echoes c m q := by
  unfold request at h
  split at h
  case h_1 leaseTime identifier hlease hidentifier =>
    cases h
    exact ⟨rfl, rfl, rfl, rfl, hidentifier.symm ▸ rfl, hlease.symm ▸ rfl⟩
  case h_2 => cases h
  case h_3 => cases h

/-- An offer is answered with its echo, or an assertion fails. -/
theorem sends_request : Sends c s m ((request c m).map some) ↔
    (OwnReply s m ∧ type m = .ok messageOffer) ∧ (m.options.find? leaseTimeTag).isSome ∧
      (m.options.find? serverIdentifierTag).isSome := by
  cases hrequest : request c m with
  | ok q =>
    have hoptions : (m.options.find? leaseTimeTag).isSome ∧
        (m.options.find? serverIdentifierTag).isSome := by
      unfold request at hrequest
      split at hrequest
      case h_1 leaseTime identifier hlease hidentifier => simp [hlease, hidentifier]
      all_goals cases hrequest
    simp [Sends, Except.map, hoptions, request_echoes hrequest]
  | error f =>
    have hf : f.IsOnExchange ∧ ¬ ((m.options.find? leaseTimeTag).isSome ∧
        (m.options.find? serverIdentifierTag).isSome) := by
      unfold request at hrequest
      split at hrequest
      case h_1 => cases hrequest
      case h_2 hlease =>
        cases hrequest
        exact ⟨by decide, by simp [hlease]⟩
      case h_3 hidentifier _ =>
        cases hrequest
        exact ⟨by decide, by simp [hidentifier]⟩
    exact iff_of_false (fun h => h.1 f rfl hf.1) fun h => hf.2 h.2

theorem sends_reply : Sends c s m (reply m) ↔ (m.op = opReply → PrintsIdentifier m) := by
  by_cases hop : m.op = opReply
  · rw [← not_iff_not, Classical.not_imp, and_iff_right hop, ← dump_isOnExchange, reply,
      if_neg (not_not.mpr hop)]
    cases hdump : dump m with
    | ok _ => simp [Sends, Except.map]
    | error f => simp [Sends, Except.map]
  · rw [reply, if_pos hop]
    exact iff_of_true sends_none fun h => absurd h hop

theorem type_isOk : (∃ t, type m = .ok t) ↔ (m.options.find? messageTypeTag).isSome := by
  unfold type
  cases m.options.find? messageTypeTag <;> simp

theorem type_error {f : Failure} (h : type m = .error f) : f.IsOnExchange := by
  unfold type at h
  split at h <;> cases h
  decide

theorem answer_iff : Sends c s m (answer c s.xid m allocated) ↔
    (c.sendRequestOnOffer = true → (m.options.find? messageTypeTag).isSome) ∧
    (c.sendRequestOnOffer = true → type m = .ok messageOffer → m.xid = s.xid →
      allocated = true → m.op = opReply ∧ (m.options.find? leaseTimeTag).isSome ∧
        (m.options.find? serverIdentifierTag).isSome) ∧
    (m.op = opReply → ¬ (c.sendRequestOnOffer = true ∧ type m = .ok messageOffer) →
      PrintsIdentifier m) := by
  unfold answer
  by_cases hsend : c.sendRequestOnOffer = true
  · cases htype : type m with
    | error f =>
      have hmissing : ¬ (m.options.find? messageTypeTag).isSome := fun h => by
        obtain ⟨t, ht⟩ := type_isOk.mpr h
        cases htype.symm.trans ht
      simp only [hsend, bind, Except.bind, Bool.not_true, Bool.false_eq_true, if_false]
      exact iff_of_false (fun h => h.1 f rfl (type_error htype)) fun h => hmissing (h.1 trivial)
    | ok t =>
      have hpresent := type_isOk.mp ⟨t, htype⟩
      simp only [hsend, bind, Except.bind, Bool.not_true, Bool.false_eq_true, if_false, hpresent,
        implies_true, true_and, forall_const, Except.ok.injEq]
      split_ifs with hother hxid hlost
      · simp [hother, sends_reply]
      · rw [not_not] at hother
        simp [hother, hxid, sends_none]
      · rw [not_not] at hother
        simp at hlost
        simp [hother, hlost, sends_none]
      · rw [not_not] at hother hxid
        simp at hlost
        subst hother
        rw [sends_request]
        simp [OwnReply, hxid, hlost, htype]
  · simp [hsend, sends_reply]

theorem follows_message_iff :
    Follows c s (.message m allocated) ↔ Meets c s m allocated := by
  calc Follows c s (.message m allocated)
      ↔ (∃ s', setServerAddress c s m = .ok s' ∧ (s' ≠ s → OwnReply s m)) ∧
        Sends c s m (answer c s.xid m allocated) := by
        simp only [Follows, handleMessage]
        cases hset : setServerAddress c s m with
        | error f =>
          exact iff_of_false (fun h => h.2.1 f rfl (setServerAddress_error hset)) (by simp)
        | ok s' =>
          simp only [setServerAddress_xid hset, Except.ok.injEq, exists_eq_left']
          rfl
    _ ↔ Meets c s m allocated := by
        rw [setServerAddress_iff, answer_iff]
        exact ⟨fun ⟨h1, h2, h3, h4⟩ => ⟨h1, h2, h3, h4⟩, fun ⟨h1, h2, h3, h4⟩ => ⟨h1, h2, h3, h4⟩⟩

theorem follows_iff {e : Event} : Follows c s e ↔ MeetsEvent c s e := by
  cases e with
  | message m allocated => exact follows_message_iff
  | exchange xid => exact Iff.rfl

end Steps

/-- Every session follows only its own exchanges, over any run, exactly when every message
of the run meets the condition in the state that it finds. -/
theorem run_follows_iff (c : Configuration) (s : Session) (events : List Event) :
    Runs.Along (step c) (Follows c) s events ↔ Runs.Along (step c) (MeetsEvent c) s events := by
  have hfollows : Follows c = MeetsEvent c := by
    funext s e
    exact propext follows_iff
  rw [hfollows]

/-- A client that has started the exchange 7 and answers offers. -/
def client : Configuration := ⟨.littleEndian, true, false, Vector.replicate 6 2⟩
def waiting : Session := ⟨⟨0, 0⟩, 7⟩

/-- A message of another exchange with a server identifier, and one without options. -/
def foreign : Record :=
  { op := opRequest, xid := 8
    options := ⟨[(messageTypeTag, [5]), (serverIdentifierTag, [10, 0, 0, 66])], by decide⟩ }
def bare : Record := { op := opReply, xid := 7 }

/-- A reply that is printed, with a server identifier of three bytes. -/
def printed : Record :=
  { op := opReply, xid := 7
    options := ⟨[(messageTypeTag, [5]), (serverIdentifierTag, [1, 2, 3])], by decide⟩ }

/-- The session takes its server address from the other exchange, the message without
a type fails an assertion, and so does the printing of a reply. -/
theorem not_follows_foreign :
    handleMessage client waiting foreign true = (⟨⟨0x4300, 0x4200000A⟩, 7⟩, .ok none) ∧
    ¬ Runs.Along (step client) (Follows client) waiting [.message foreign true] ∧
    (handleMessage client waiting bare true).2 = .error (.missing messageTypeTag) ∧
    (handleMessage client ⟨⟨0x4300, 0x4200000A⟩, 7⟩ printed true).2 =
      .error (.size serverIdentifierTag) := by
  refine ⟨by decide +kernel, fun h => ?_, rfl, rfl⟩
  have hmeets : Meets client waiting foreign true := follows_message_iff.mp h.1
  have hown : OwnReply waiting foreign :=
    (hmeets.identifier rfl [10, 0, 0, 66] rfl).2 (by decide +kernel)
  exact absurd hown.1 (by decide)

end ACENetwork.DHCP
