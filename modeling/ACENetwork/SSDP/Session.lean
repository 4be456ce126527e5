import ACENetwork.HTTP.Headers
import ACENetwork.HTTP.URL
import ACENetwork.Library.Runs

/-!
# The session of a UPnP client

`SSDP_Session_T` with the events that `SSDP_Control_T` hands on to it. A reply to a discovery names
the description of a device, that names the description of a service, and that lists the arguments
of its actions; the session keeps them in one shared state.
-/
namespace ACENetwork.SSDP
open BitTorrent (Fault)
open HTTP Library Library.HashTable

def location : Bytes := text "Location"

def searchTarget : Bytes := text "ST"

def rootDevice : Bytes := text "upnp:rootdevice"

structure SessionState where
  actionArguments : List Bytes := []
  deviceDescriptionURL : Bytes := []
  presentationURL : Bytes := []
  serviceControlURI : Bytes := []
  serviceDescriptionURL : Bytes := []
  deriving DecidableEq, Repr

/-- What a call meets: whether the host is resolved, whether the connection is made, and whether it
is still there when it is looked up. -/
structure Network where
  resolves : Bool := true
  connects : Bool := true
  found : Bool := true
  deriving DecidableEq, Repr

inductive Document where
  | device
  | service
  deriving DecidableEq, Repr

/-- A request that has been sent, with the device whose host it went to. -/
structure Retrieval (δ : Type) where
  URL : Bytes
  document : Document
  host : Option δ
  deriving DecidableEq, Repr

/-- A request to map a port. -/
structure Mapping where
  hostName : Bytes
  controlURI : Bytes
  arguments : List Bytes
  deriving DecidableEq, Repr

/-- The session: its state, what it has requested, and where the parts of its state stem from: the
device whose reply has given `deviceDescriptionURL`, the one whose host `serviceDescriptionURL` has,
the one whose description has named the service, and the one whose service has listed
`actionArguments`. -/
structure Session (δ : Type) where
  state : SessionState := {}
  retrievals : List (Retrieval δ) := []
  mappings : List Mapping := []
  described : Option δ := none
  hosted : Option δ := none
  named : Option δ := none
  argued : Option δ := none
  deriving DecidableEq, Repr

/-- An event: a reply to a discovery, the presentation URL of a device, the service that the answer
to a retrieval has named or the arguments that it has listed; and a call of `map`. -/
inductive Event (δ : Type) where
  | discoveryResponse (device : δ) (headers : List (Bytes × Bytes)) (network : Network)
  | presentationURL (URL : Bytes)
  | serviceDescription (retrieval : ℕ) (descriptionURI controlURI : Bytes) (network : Network)
  | serviceArguments (retrieval : ℕ) (arguments : List Bytes)
  | map (network : Network)
  deriving DecidableEq, Repr

def assert (holds : Bool) : Except Fault Unit := if holds then .ok () else .error .assertion

def cString (s : Bytes) : Bytes := s.takeWhile (· != 0)

/-- The arguments of `AddPortMapping` that `map` has a value for. -/
def mappingArguments : List Bytes :=
  [text "NewRemoteHost", text "NewRemotePort", text "NewExternalPort", text "NewProtocol",
    text "NewInternalPort", text "NewInternalClient", text "NewEnabled",
    text "NewPortMappingDescription", text "NewLeaseDuration"]

section Session

variable {δ : Type}

namespace Session

variable (s : Session δ)

def getURL (URL : Bytes) (document : Document) (host : Option δ) (network : Network) :
    Session δ :=
  match parseURL URL network.resolves with
  | none => s
  | some _ =>
    if network.connects && network.found then
      { s with retrievals := s.retrievals ++ [⟨URL, document, host⟩] }
    else s

def notifySSDPResponse {hash : Bytes → UInt64} (c : Comparison ciKey hash)
    (preferredServerPort : ℕ) (device : δ) (headers : List (Bytes × Bytes)) (network : Network) :
    Except Fault (Session δ) :=
  match find c headers location, find c headers searchTarget with
  | some URL, some target =>
    if cString target = rootDevice then
      match parseURL URL network.resolves with
      | none => .ok s
      | some parts =>
        if parts.port ≠ preferredServerPort then .ok s
        else
          .ok (getURL { s with
            state := { s.state with deviceDescriptionURL := URL }
            described := some device } URL .device (some device) network)
    else .ok s
  | none, _ => .error .assertion
  | some _, none => .error .assertion

def notifyPresentationURL (URL : Bytes) : Session δ :=
  { s with state := { s.state with presentationURL := URL } }

def notifyServiceDescriptionControlURIs (device : Option δ) (descriptionURI controlURI : Bytes)
    (network : Network) : Except Fault (Session δ) := do
  assert !s.state.deviceDescriptionURL.isEmpty
  match parseURL s.state.deviceDescriptionURL network.resolves with
  | none => .ok s
  | some parts =>
    let URL := text "http" ++ (if parts.useSSL then text "s" else []) ++ text "://" ++
      parts.hostName ++ descriptionURI
    .ok (getURL { s with
      state := { s.state with serviceDescriptionURL := URL, serviceControlURI := controlURI }
      hosted := s.described
      named := device } URL .service s.described network)

def notifyServiceActionArguments (device : Option δ) (arguments : List Bytes) :
    Except Fault (Session δ) := do
  assert s.state.actionArguments.isEmpty
  .ok { s with
    state := { s.state with actionArguments := arguments }
    argued := device }

def map (network : Network) : Except Fault (Session δ) := do
  assert !s.state.serviceDescriptionURL.isEmpty
  match parseURL s.state.serviceDescriptionURL network.resolves with
  | none => .ok s
  | some parts =>
    if network.connects then
      assert network.found
      if s.state.actionArguments.all fun a => mappingArguments.contains (cString a) then
        .ok { s with mappings := s.mappings ++
          [⟨parts.hostName, s.state.serviceControlURI, s.state.actionArguments⟩] }
      else .ok s
    else .ok s

def answered (document : Document) (n : ℕ) : Option (Retrieval δ) :=
  s.retrievals[n]?.filter fun retrieval => retrieval.document = document

def drop (n : ℕ) : Session δ := { s with retrievals := s.retrievals.eraseIdx n }

def step {hash : Bytes → UInt64} (c : Comparison ciKey hash) (preferredServerPort : ℕ) :
    Event δ → Except Fault (Session δ)
  | .discoveryResponse device headers network =>
    s.notifySSDPResponse c preferredServerPort device headers network
  | .presentationURL URL => .ok (s.notifyPresentationURL URL)
  | .serviceDescription n descriptionURI controlURI network =>
    match s.answered .device n with
    | none => .ok s
    | some retrieval =>
      (s.drop n).notifyServiceDescriptionControlURIs retrieval.host descriptionURI controlURI
        network
  | .serviceArguments n arguments =>
    match s.answered .service n with
    | none => .ok s
    | some retrieval => (s.drop n).notifyServiceActionArguments retrieval.host arguments
  | .map network => s.map network

/-- `serviceDescriptionURL`, `serviceControlURI` and `actionArguments` stem from one device. -/
def Together : Prop :=
  s.hosted = s.named ∧ (s.state.actionArguments ≠ [] → s.argued = s.named)

/-- A reply has both headers; a description answers while its device is the last one that has been
found, and not after the arguments of another one; the arguments of a service come once, and for
the service that was named last; and `map` is called when a service has been named, and finds its
connection. -/
def Regular {hash : Bytes → UInt64} (c : Comparison ciKey hash) : Event δ → Prop
  | .discoveryResponse _ headers _ =>
    find c headers location ≠ none ∧ find c headers searchTarget ≠ none
  | .presentationURL _ => True
  | .serviceDescription n _ _ network => ∀ retrieval ∈ s.answered .device n,
    s.state.deviceDescriptionURL ≠ [] ∧
      (parseURL s.state.deviceDescriptionURL network.resolves ≠ none →
        s.described = retrieval.host ∧
          (s.state.actionArguments ≠ [] → s.argued = retrieval.host))
  | .serviceArguments n arguments => ∀ retrieval ∈ s.answered .service n,
    s.state.actionArguments = [] ∧ (arguments ≠ [] → retrieval.host = s.named)
  | .map network =>
    s.state.serviceDescriptionURL ≠ [] ∧
      (parseURL s.state.serviceDescriptionURL network.resolves ≠ none →
        network.connects → network.found)

end Session

end Session

section Together

variable {δ : Type} {s : Session δ} {document : Document} {host : Option δ} {network : Network}

def Keeps (x : Except Fault (Session δ)) : Prop := ∃ s', x = .ok s' ∧ s'.Together

@[simp] theorem keeps_ok : Keeps (.ok s) ↔ s.Together :=
  ⟨fun ⟨_, hs, h⟩ => Except.ok.inj hs ▸ h, fun h => ⟨s, rfl, h⟩⟩

@[simp] theorem not_keeps_error (fault : Fault) :
    ¬ Keeps (.error fault : Except Fault (Session δ)) := fun ⟨_, h, _⟩ => nomatch h

@[simp] theorem keeps_assert {holds : Bool} {f : Unit → Except Fault (Session δ)} :
    Keeps (assert holds >>= f) ↔ holds ∧ Keeps (f ()) := by
  cases holds with
  | false => simp [assert, bind, Except.bind]
  | true => simp [assert, bind, Except.bind]

@[simp] theorem together_getURL {URL : Bytes} :
    (s.getURL URL document host network).Together ↔ s.Together := by
  rw [Session.getURL]
  split
  · exact Iff.rfl
  · split_ifs <;> exact Iff.rfl

theorem keeps_discoveryResponse {hash : Bytes → UInt64} {c : Comparison ciKey hash}
    {preferredServerPort : ℕ} {device : δ} {headers : List (Bytes × Bytes)} (h : s.Together) :
    Keeps (s.notifySSDPResponse c preferredServerPort device headers network) ↔
      find c headers location ≠ none ∧ find c headers searchTarget ≠ none := by
  rw [Session.notifySSDPResponse]
  cases find c headers location with
  | none => simp
  | some URL =>
    cases find c headers searchTarget with
    | none => simp
    | some target =>
      refine iff_of_true ?_ (by simp)
      dsimp only
      split_ifs with hroot
      · cases parseURL URL network.resolves with
        | none => exact keeps_ok.2 h
        | some parts =>
          dsimp only
          split_ifs with hport
          · exact keeps_ok.2 h
          · exact keeps_ok.2 (together_getURL.2 h)
      · exact keeps_ok.2 h

theorem keeps_serviceDescription {device : Option δ} {descriptionURI controlURI : Bytes}
    (h : s.Together) :
    Keeps (s.notifyServiceDescriptionControlURIs device descriptionURI controlURI network) ↔
      s.state.deviceDescriptionURL ≠ [] ∧
        (parseURL s.state.deviceDescriptionURL network.resolves ≠ none →
          s.described = device ∧ (s.state.actionArguments ≠ [] → s.argued = device)) := by
  rw [Session.notifyServiceDescriptionControlURIs]
  simp only [keeps_assert]
  refine and_congr (by simp) ?_
  cases parseURL s.state.deviceDescriptionURL network.resolves with
  | none => simp [h]
  | some parts =>
    simp only [keeps_ok, together_getURL]
    simp [Session.Together]

theorem keeps_serviceArguments {device : Option δ} {arguments : List Bytes} (h : s.Together) :
    Keeps (s.notifyServiceActionArguments device arguments) ↔
      s.state.actionArguments = [] ∧ (arguments ≠ [] → device = s.named) := by
  rw [Session.notifyServiceActionArguments]
  simp [Session.Together, h.1]

theorem keeps_map (h : s.Together) :
    Keeps (s.map network) ↔
      s.state.serviceDescriptionURL ≠ [] ∧
        (parseURL s.state.serviceDescriptionURL network.resolves ≠ none →
          network.connects → network.found) := by
  have hmap {mappings : List Mapping} : Session.Together { s with mappings := mappings } := h
  rw [Session.map]
  simp only [keeps_assert]
  refine and_congr (by simp) ?_
  cases parseURL s.state.serviceDescriptionURL network.resolves with
  | none => simp [h]
  | some parts =>
    cases network.connects with
    | false => simp [h]
    | true =>
      simp only [if_true, keeps_assert]
      split_ifs <;> simp [h, hmap]

theorem keeps_step {hash : Bytes → UInt64} {c : Comparison ciKey hash} {preferredServerPort : ℕ}
    {e : Event δ} (h : s.Together) : Keeps (s.step c preferredServerPort e) ↔ s.Regular c e := by
  cases e with
  | discoveryResponse device headers network => exact keeps_discoveryResponse h
  | presentationURL URL => exact iff_of_true (keeps_ok.2 h) trivial
  | serviceDescription n descriptionURI controlURI network =>
    rw [Session.step, Session.Regular]
    cases s.answered .device n with
    | none => simp [h]
    | some retrieval =>
      have hdrop : (s.drop n).Together := h
      simpa [Session.drop] using keeps_serviceDescription hdrop
  | serviceArguments n arguments =>
    rw [Session.step, Session.Regular]
    cases s.answered .service n with
    | none => simp [h]
    | some retrieval =>
      have hdrop : (s.drop n).Together := h
      simpa [Session.drop] using keeps_serviceArguments hdrop
  | map network => exact keeps_map h

end Together

/-- No assertion fails and the parts of the state stem from one device, in every state of a run,
exactly where every event is regular. -/
theorem together_iff {δ : Type} {hash : Bytes → UInt64} (c : Comparison ciKey hash)
    (preferredServerPort : ℕ) (events : List (Event δ)) :
    (∀ front, front <+: events →
      ∃ s, Runs.run (Session.step · c preferredServerPort) ({} : Session δ) front = .ok s ∧
        s.Together) ↔
      Runs.Along (Session.step · c preferredServerPort) (Session.Regular · c) {} events :=
  Runs.run_total_iff Session.Together (fun _ _ h => keeps_step h) ⟨rfl, fun h => absurd rfl h⟩

/-- A single device is asked for a mapping. -/
example : (Runs.run (Session.step · (hashFirst ciKey fun _ => 0) 80) ({} : Session ℕ)
    [.discoveryResponse 1 [(location, text "http://10.0.0.1/d.xml"), (searchTarget, rootDevice)] {},
      .serviceDescription 0 (text "/wan.xml") (text "/control") {},
      .serviceArguments 0 [text "NewProtocol"], .map {}]).toOption.map Session.mappings =
    some [⟨text "10.0.0.1", text "/control", [text "NewProtocol"]⟩] := by decide +kernel

/-- Two devices that are found one after the other, before the first one's description comes. -/
def twoDevices : List (Event ℕ) :=
  [.discoveryResponse 1 [(location, text "http://10.0.0.1/d.xml"), (searchTarget, rootDevice)] {},
    .discoveryResponse 2 [(location, text "http://10.0.0.2/d.xml"), (searchTarget, rootDevice)] {},
    .serviceDescription 0 (text "/wan.xml") (text "/control") {}]

/-- The service of the first device is asked for at the second one. -/
theorem two_devices_not_together :
    ¬ ∀ (hash : Bytes → UInt64) (c : Comparison ciKey hash) (preferredServerPort : ℕ)
      (events : List (Event ℕ)), ∃ s,
        Runs.run (Session.step · c preferredServerPort) ({} : Session ℕ) events = .ok s ∧
          s.Together := by
  intro h
  obtain ⟨s, hrun, htogether, -⟩ := h (fun _ => 0) (hashFirst ciKey fun _ => 0) 80 twoDevices
  have hapart : (Runs.run (Session.step · (hashFirst ciKey fun _ => 0) 80) ({} : Session ℕ)
      twoDevices).toOption.any (fun s => s.hosted != s.named) = true := by decide +kernel
  rw [hrun] at hapart
  simp only [Except.toOption, Option.any_some, bne_iff_ne] at hapart
  exact hapart htogether

end ACENetwork.SSDP
