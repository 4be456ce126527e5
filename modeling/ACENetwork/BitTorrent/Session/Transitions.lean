import ACENetwork.BitTorrent.Session.Handlers

/-!
# The transitions of a session

What the scopes of the handlers can do, once and for all: every scope updates one
peer, has effects, stores a received block, attaches a stored one, or enters or erases
a connection.
-/
namespace ACENetwork.BitTorrent.Session
open Library

variable (cfg : Configuration) (job : Job)

def Job.key : UInt32 := connectionIdToPeerAddress cfg job.id

/-- The updates of a peer's state, by the scope and the call that makes them. -/
inductive PeerUpdate (point : Point) :
    {β : Type} → (List Piece → PeerState → Except Fault (β × PeerState)) → Prop where
  | choke (hpoint : point = .choke) :
      PeerUpdate point fun _ peer => .ok ((), { peer with status.amChoking := true })
  | unchoke : PeerUpdate point fun _ peer => .ok (1 < peer.connections.length || peer.pieces ≠ [],
      { peer with status.amChoking := false })
  | interested : PeerUpdate point fun _ peer =>
      .ok ((), { peer with status.peerInterested := true, status.peerChoking := false })
  | notInterested : PeerUpdate point fun _ peer =>
      .ok ((), { peer with status.peerInterested := false })
  | have {record : PeerRecord} {block : Option MessageBlock}
      (hcall : job.call = .record record block) (hlength : record.length ≠ 0)
      (htype : record.type = some .have) : PeerUpdate point (haveReceived cfg record.payload.index)
  | bitfield {record : PeerRecord} {block : Option MessageBlock}
      (hcall : job.call = .record record block) (hlength : record.length ≠ 0)
      (htype : record.type = some .bitfield) : PeerUpdate point (bitfieldReceived cfg record.bitfield)
  | read {β : Type} (f : PeerState → β) : PeerUpdate point fun _ peer => .ok (f peer, peer)
  | choosePiece : PeerUpdate point (choosePiece cfg job.env)
  | requested (requestingPiece : Bool) : PeerUpdate point fun _ peer => do
      .ok ((), ← if requestingPiece then countRequests 1 peer else .ok peer)
  | answered : PeerUpdate point fun _ peer => do .ok ((), ← countRequests (-1) peer)
  | populate (hcall : job.call = .connect) : PeerUpdate point (populatePeerPiecesBitfield cfg)

/-- A REQUEST is sent in a scope of its connection that is labelled so, and the controller
is told the file name of the configuration or its base name. -/
def Effect.IssuedAt (label : Label) : Effect → Prop
  | .send id (.request _ _ _) => label = ⟨id, .requesting⟩
  | .notify name _ _ | .notifyTracker name _ =>
    name = cfg.metaInfoFileName ∨ name = Tools.fileBasename cfg.metaInfoFileName
  | _ => True

def outcome {β : Type} (r : Except Fault (β × SessionState × List Effect)) :
    Except Fault (SessionState × List Effect) := r.map Prod.snd

inductive Transition : Label → SessionState → Except Fault (SessionState × List Effect) → Prop where
  | peer {β : Type} {update : List Piece → PeerState → Except Fault (β × PeerState)} {point : Point}
      {s : SessionState} (hupdate : PeerUpdate cfg job point update) :
      Transition ⟨job.id, point⟩ s (outcome (withPeer cfg (job.key cfg) update s))
  | effects {point : Point} {s s' : SessionState} {out : List Effect}
      (hpieces : s'.pieces = s.pieces) (hpeers : s'.peerState = s.peerState)
      (hout : ∀ effect ∈ out, effect.IssuedAt cfg ⟨job.id, point⟩) :
      Transition ⟨job.id, point⟩ s (.ok (s', out))
  | assertion {point : Point} {s : SessionState} : Transition ⟨job.id, point⟩ s (.error .assertion)
  | pieceReceived {record : PeerRecord} {block : Option MessageBlock} {point : Point}
      {s : SessionState} (hcall : job.call = .record record block) (hlength : record.length ≠ 0)
      (htype : record.type = some .piece) :
      Transition ⟨job.id, point⟩ s (outcome (pieceReceived cfg job.env (job.key cfg)
        record.payload.index record.payload.begin block s))
  | attachChunk {record : PeerRecord} {block : Option MessageBlock} {s : SessionState}
      (hcall : job.call = .record record block) (htype : record.type = some .request) :
      Transition ⟨job.id, .serve record.payload.index⟩ s (outcome (attachChunk cfg job.env
        record.payload.index record.payload.begin record.payload.length s))
  | insertConnection {point : Point} {s : SessionState} :
      Transition ⟨job.id, point⟩ s (outcome (insertConnection cfg job.id s))
  | enterPeer {point : Point} {s : SessionState} (hcall : job.call = .connect) :
      Transition ⟨job.id, point⟩ s (outcome (enterPeer (job.key cfg) job.id s))
  | eraseConnection {point : Point} {s : SessionState} :
      Transition ⟨job.id, point⟩ s (outcome (eraseConnection cfg job.id s))
  | leavePeer {s : SessionState} (hcall : job.call = .disconnect) :
      Transition ⟨job.id, .disconnect⟩ s (outcome (leavePeer cfg (job.key cfg) job.id s))

variable {cfg job}

theorem issuedAt_transmit {label : Label} {env : Environment} {id : ConnectionId} {message : Message}
    (h : message.type = .request → label = ⟨id, .requesting⟩) :
    ∀ effect ∈ transmit env id message, effect.IssuedAt cfg label := by
  intro effect heffect
  unfold transmit at heffect
  split at heffect
  · rw [List.mem_singleton.mp heffect]
    cases message with
    | request index begin length => exact h rfl
    | _ => trivial
  · cases heffect

theorem issuedAt_haveEffects {label : Label} {env : Environment} {tracker : Option ConnectionId}
    {index : UInt32} {ids : List ConnectionId} :
    ∀ effect ∈ haveEffects env tracker index ids, effect.IssuedAt cfg label := by
  induction ids with
  | nil => simp [haveEffects]
  | cons id ids ih =>
    intro effect heffect
    unfold haveEffects at heffect
    split at heffect
    · exact ih effect heffect
    · split at heffect
      · exact ih effect heffect
      · split at heffect
        · cases heffect
        · rcases List.mem_cons.mp heffect with rfl | hrest
          · trivial
          · exact ih effect hrest

section Handlers

theorem allScopes_withPeer {β : Type} {update : List Piece → PeerState → Except Fault (β × PeerState)}
    (point : Point) (hupdate : PeerUpdate cfg job point update) :
    (Process.atomically ⟨job.id, point⟩ (withPeer cfg (job.key cfg) update) :
      Handler β).AllScopes (Transition cfg job) :=
  Process.allScopes_atomically fun _ => .peer hupdate

theorem allScopes_emit (point : Point) {out : List Effect}
    (hout : ∀ effect ∈ out, effect.IssuedAt cfg ⟨job.id, point⟩) :
    (emit ⟨job.id, point⟩ out).AllScopes (Transition cfg job) :=
  Process.allScopes_atomically fun _ => .effects rfl rfl hout

theorem allScopes_requestNextPiece :
    (requestNextPiece cfg job.env job.id).AllScopes (Transition cfg job) := by
  apply (allScopes_withPeer .requesting .choosePiece).bind
  rintro (_ | ⟨index, block⟩)
  · exact (allScopes_emit .other (issuedAt_transmit (by simp [Message.type]))).bind fun _ => trivial
  · refine Process.AllScopes.bind (Process.allScopes_atomically fun s => ?_) fun _ => trivial
    cases hassert : aceAssert cfg.ndebug (block.length ≠ 0) with
    | error f =>
      rw [aceAssert_error hassert]
      exact .assertion
    | ok u => exact .effects rfl rfl (issuedAt_transmit fun _ => rfl)

theorem allScopes_requested (requestingPiece : Bool) :
    (requested cfg job.id requestingPiece).AllScopes (Transition cfg job) :=
  allScopes_withPeer .other (.requested requestingPiece)

theorem allScopes_notifyHave {record : PeerRecord} {block : Option MessageBlock}
    (hcall : job.call = .record record block) (hlength : record.length ≠ 0)
    (htype : record.type = some .have) :
    (notifyHave cfg job.env job.id record.payload.index).AllScopes (Transition cfg job) := by
  apply (allScopes_withPeer .other (.have hcall hlength htype)).bind
  rintro ⟨sendInterested, hasMissing⟩
  apply ((allScopes_emit .other (issuedAt_transmit (by simp [Message.type]))).guarded sendInterested).bind
  intro _
  apply (allScopes_withPeer .other (.read _)).bind
  rintro ⟨amChoking, requestPiece⟩
  by_cases hrequest : requestPiece = true
  · simp only [hrequest, if_true]
    exact allScopes_requestNextPiece.bind allScopes_requested
  · simp only [hrequest]
    apply Process.AllScopes.guarded
    apply (allScopes_withPeer .other (.read _)).bind
    intro connections
    apply Process.AllScopes.guarded
    apply allScopes_emit
    split
    · simp [Effect.IssuedAt]
    · simp

theorem allScopes_notifyPiece {record : PeerRecord} {block : Option MessageBlock}
    (hcall : job.call = .record record block) (hlength : record.length ≠ 0)
    (htype : record.type = some .piece) :
    (notifyPiece cfg job.env job.id record.payload.index record.payload.begin block).AllScopes
      (Transition cfg job) := by
  apply (Process.allScopes_atomically fun s => ?_ : Process.AllScopes _ _).bind
  · rintro (_ | flags)
    · trivial
    · apply ((Process.allScopes_atomically fun _ => .effects rfl rfl issuedAt_haveEffects).guarded
        flags.sendHave).bind
      intro _
      apply (allScopes_withPeer _ .answered).bind
      intro _
      apply Process.AllScopes.bind
      · apply Process.AllScopes.guarded
        exact allScopes_requestNextPiece.bind fun requestingPiece =>
          (allScopes_requested true).guarded requestingPiece
      · intro _
        exact (allScopes_emit .other (by simp [Effect.IssuedAt])).guarded flags.notifyCompletion
  · cases hassert : aceAssert cfg.ndebug block.isSome with
    | error f =>
      rw [aceAssert_error hassert]
      exact .assertion
    | ok u => exact .pieceReceived hcall hlength htype

theorem allScopes_piece {record : PeerRecord} {block : Option MessageBlock}
    (hcall : job.call = .record record block) (htype : record.type = some .request) :
    (piece cfg job.env job.id record.payload.index record.payload.begin
      record.payload.length).AllScopes (Transition cfg job) := by
  apply (Process.allScopes_atomically fun s => ?_ : Process.AllScopes _ _).bind
  · intro hasConnection
    by_cases hconnection : hasConnection = true
    · simp only [hconnection, if_true]
      apply (Process.allScopes_atomically fun s => .attachChunk hcall htype).bind
      rintro (_ | data)
      · trivial
      · exact allScopes_emit .other (issuedAt_transmit nofun)
    · simp only [hconnection]
      trivial
  · cases hassert : aceAssert cfg.ndebug (record.payload.length ≠ 0) with
    | error f =>
      rw [aceAssert_error hassert]
      exact .assertion
    | ok u => exact .effects rfl rfl (by simp)

theorem allScopes_notify {record : PeerRecord} {block : Option MessageBlock}
    (hcall : job.call = .record record block) :
    (notify cfg job.env job.id record block).AllScopes (Transition cfg job) := by
  unfold notify
  by_cases hlength : record.length = 0
  · simp only [hlength, if_true]
    trivial
  · simp only [hlength, if_false]
    cases htype : record.type with
    | none => trivial
    | some t =>
      cases t with
      | choke => exact allScopes_withPeer .choke (.choke rfl)
      | unchoke =>
        apply (allScopes_withPeer .other .unchoke).bind
        intro requestPiece
        apply Process.AllScopes.guarded
        exact allScopes_requestNextPiece.bind fun requestingPiece =>
          (allScopes_requested true).guarded requestingPiece
      | interested =>
        exact (allScopes_withPeer .other .interested).bind fun _ =>
          allScopes_emit .other (issuedAt_transmit nofun)
      | notInterested => exact allScopes_withPeer .other .notInterested
      | «have» => exact allScopes_notifyHave hcall hlength htype
      | bitfield =>
        exact (allScopes_withPeer .other (.bitfield hcall hlength htype)).bind fun sendInterested =>
          (allScopes_emit .other (issuedAt_transmit (by simp [Message.type]))).guarded sendInterested
      | request =>
        exact (allScopes_withPeer .other (.read _)).bind fun sendPiece =>
          (allScopes_piece hcall htype).guarded sendPiece
      | piece => exact allScopes_notifyPiece hcall hlength htype
      | cancel => trivial

theorem allScopes_connect (hcall : job.call = .connect) :
    (connect cfg job.env job.id).AllScopes (Transition cfg job) := by
  apply (Process.allScopes_atomically fun _ => .insertConnection).bind
  intro _
  apply (Process.allScopes_atomically fun _ => .enterPeer hcall).bind
  intro populate
  apply ((allScopes_withPeer .other (.populate hcall)).guarded populate).bind
  intro _
  apply Process.AllScopes.guarded
  apply (allScopes_emit .other (by simp [Effect.IssuedAt])).bind
  intro _
  apply Process.allScopes_atomically
  intro s
  apply Transition.effects rfl rfl
  split
  · exact (issuedAt_transmit nofun)
  · simp

theorem allScopes_disconnect (hcall : job.call = .disconnect) :
    (disconnect cfg job.id).AllScopes (Transition cfg job) := by
  apply (Process.allScopes_atomically fun _ => .eraseConnection).bind
  intro _
  apply (Process.allScopes_atomically fun _ => .leavePeer hcall).bind
  intro notifyController
  exact (allScopes_emit .other (by simp [Effect.IssuedAt])).guarded notifyController

theorem allScopes_trackerConnect :
    (trackerConnect cfg job.env job.id).AllScopes (Transition cfg job) := by
  refine Process.AllScopes.bind (Process.allScopes_atomically fun s => ?_) fun _ =>
    Process.allScopes_atomically fun _ => .insertConnection
  refine .effects rfl rfl ?_
  intro effect heffect
  split at heffect
  · split at heffect
    · rw [List.mem_singleton.mp heffect]
      trivial
    · cases heffect
  · cases heffect

theorem allScopes_trackerDisconnect :
    (trackerDisconnect cfg job.id).AllScopes (Transition cfg job) := by
  apply (Process.allScopes_atomically fun _ => .eraseConnection).bind
  intro _
  apply (Process.allScopes_atomically fun _ => .effects rfl rfl (by simp)).bind
  rintro (_ | event)
  · trivial
  · exact allScopes_emit .other (by simp [Effect.IssuedAt])

end Handlers

theorem Job.allScopes_handler (job : Job) : (job.handler cfg).AllScopes (Transition cfg job) := by
  unfold Job.handler
  cases hcall : job.call with
  | connect => exact allScopes_connect hcall
  | disconnect => exact allScopes_disconnect hcall
  | record record block => exact allScopes_notify hcall
  | trackerConnect => exact allScopes_trackerConnect
  | trackerDisconnect => exact allScopes_trackerDisconnect
  | trackerRedirect location => exact allScopes_emit .other (by simp [Effect.IssuedAt])
  | trackerError => exact allScopes_emit .other (by simp [Effect.IssuedAt])
  | trackerResponse failure =>
    refine Process.allScopes_atomically fun s => .effects ?_ ?_ (by simp)
    · split <;> rfl
    · split <;> rfl
  | peersConnected => exact Process.allScopes_atomically fun s => .effects rfl rfl (by simp)
  | rerequestPeers => exact allScopes_emit .other (by simp [Effect.IssuedAt])

abbrev SessionPool := Pool Label SessionState Effect Fault

def runPool (cfg : Configuration) (s : SessionState) (events : List (PoolEvent Job)) :
    Except Fault SessionPool :=
  Runs.run (Pool.step (Job.handler cfg)) (Pool.initial s) events

def Follows (cfg : Configuration) (c : Schedule Job Label SessionState Effect) (s : SessionState)
    (events : List (PoolEvent Job)) : Prop :=
  Runs.Along (Pool.step (Job.handler cfg)) (Pool.Admits c) (Pool.initial s) events

theorem outcome_ok {β : Type} {r : Except Fault (β × SessionState × List Effect)}
    {s' : SessionState} {out : List Effect} :
    outcome r = .ok (s', out) ↔ ∃ b, r = .ok (b, s', out) := by
  rcases r with e | ⟨b, t, out'⟩
  · simp [outcome, Except.map]
  · simp [outcome, Except.map]

theorem outcome_error {β : Type} {r : Except Fault (β × SessionState × List Effect)} {e : Fault} :
    outcome r = .error e ↔ r = .error e := by
  rcases r with e' | ⟨b, t, out⟩
  · simp [outcome, Except.map]
  · simp [outcome, Except.map]

section Updates

variable {env : Environment} {pieces : List Piece} {peer peer' : PeerState}

theorem countRequests_ok {change : ℤ} (h : countRequests change peer = .ok peer') :
    peer' = { peer with
      status.requestingPiece := peer.status.requestingPiece + change } := by
  simp only [countRequests] at h
  split at h
  · exact (Except.ok.inj h).symm
  · cases h

theorem choosePiece_status {chosen : Option (UInt32 × Tools.Block)}
    (h : choosePiece cfg env pieces peer = .ok (chosen, peer')) :
    peer'.status.requestingPiece = peer.status.requestingPiece ∧
      peer'.status.amChoking = peer.status.amChoking := by
  obtain ⟨has, -, h⟩ := fault_bind_ok.mp h
  cases has with
  | true =>
    obtain ⟨block, -, h⟩ := fault_bind_ok.mp h
    obtain ⟨-, rfl⟩ : _ ∧ peer = peer' := by simpa using h
    exact ⟨rfl, rfl⟩
  | false =>
    obtain ⟨-, rfl⟩ : _ ∧ _ = peer' := by simpa using h
    exact ⟨rfl, rfl⟩

theorem haveReceived_status {index : UInt32} {r : Bool × Bool}
    (h : haveReceived cfg index pieces peer = .ok (r, peer')) :
    peer'.status.requestingPiece = peer.status.requestingPiece ∧
      peer'.status.amChoking = peer.status.amChoking := by
  unfold haveReceived at h
  split at h
  · cases h
  · obtain ⟨hasMissing, -, h⟩ := fault_bind_ok.mp h
    obtain ⟨-, rfl⟩ : _ ∧ (becomeInterested hasMissing _).2 = peer' := by simpa using h
    unfold becomeInterested
    split <;> exact ⟨rfl, rfl⟩

theorem bitfieldReceived_status {bitfield : List UInt8} {sendInterested : Bool}
    (h : bitfieldReceived cfg bitfield pieces peer = .ok (sendInterested, peer')) :
    peer'.status.requestingPiece = peer.status.requestingPiece ∧
      peer'.status.amChoking = peer.status.amChoking := by
  simp only [bitfieldReceived] at h
  split at h
  · obtain ⟨-, rfl⟩ : _ ∧ _ = peer' := by simpa using h
    exact ⟨rfl, rfl⟩
  · obtain ⟨hasMissing, -, h⟩ := fault_bind_ok.mp h
    obtain rfl : (becomeInterested hasMissing { peer with pieces := bitfield }).2 = peer' :=
      congrArg Prod.snd (Except.ok.inj h)
    unfold becomeInterested
    split <;> exact ⟨rfl, rfl⟩

end Updates

theorem insertConnection_ok {id : ConnectionId} {s s' : SessionState} {u : Unit}
    {out : List Effect} (h : insertConnection cfg id s = .ok (u, s', out)) :
    s'.pieces = s.pieces ∧ s'.peerState = s.peerState ∧ out = [] := by
  unfold insertConnection at h
  split at h
  · obtain ⟨-, -, h⟩ := fault_bind_ok.mp h
    obtain ⟨rfl, rfl⟩ : s = s' ∧ [] = out := by simpa using h
    exact ⟨rfl, rfl, rfl⟩
  · obtain ⟨rfl, rfl⟩ : _ = s' ∧ [] = out := by simpa using h
    exact ⟨rfl, rfl, rfl⟩

theorem eraseConnection_ok {id : ConnectionId} {s s' : SessionState} {u : Unit}
    {out : List Effect} (h : eraseConnection cfg id s = .ok (u, s', out)) :
    s'.pieces = s.pieces ∧ s'.peerState = s.peerState ∧ out = [] := by
  obtain ⟨id', -, h⟩ := fault_bind_ok.mp h
  obtain ⟨rfl, rfl⟩ : _ = s' ∧ [] = out := by simpa using h
  exact ⟨rfl, rfl, rfl⟩

theorem enterPeer_ok {key : UInt32} {id : ConnectionId} {s s' : SessionState} {b : Bool}
    {out : List Effect} (h : enterPeer key id s = .ok (b, s', out)) :
    s' = s.setPeer key { (s.peerState key).getD {} with
        connections := ((s.peerState key).getD {}).connections ++ [id] } ∧
      b = decide (((s.peerState key).getD {}).pieces = []) ∧ out = [] := by
  obtain ⟨rfl, rfl, rfl⟩ : _ = b ∧ _ = s' ∧ [] = out := by simpa [enterPeer] using h
  exact ⟨rfl, rfl, rfl⟩

theorem leavePeer_ok {key : UInt32} {id : ConnectionId} {s s' : SessionState} {b : Bool}
    {out : List Effect} (h : leavePeer cfg key id s = .ok (b, s', out)) :
    ∃ peer, s.peerState key = some peer ∧ id ∈ peer.connections ∧ s'.pieces = s.pieces ∧
      s'.peerState = Function.update s.peerState key
        (if peer.connections.erase id = [] then none
          else some { peer with connections := peer.connections.erase id }) ∧ out = [] := by
  obtain ⟨peer, hpeer, hfind⟩ := fault_bind_ok.mp h
  obtain ⟨found, hfound, hdone⟩ := fault_bind_ok.mp hfind
  have hmem := List.mem_of_find?_eq_some (assertFound_ok.mp hfound)
  have hid : found = id := by simpa using List.find?_some (assertFound_ok.mp hfound)
  subst hid
  simp only [Except.ok.injEq, Prod.mk.injEq] at hdone
  obtain ⟨-, rfl, rfl⟩ := hdone
  refine ⟨peer, assertFound_ok.mp hpeer, hmem, ?_, ?_, rfl⟩
  · split <;> rfl
  · split <;> rfl

/-- All but the scopes that store and attach blocks leave the pieces alone. -/
theorem transition_storage {l : Label} {s s' : SessionState} {out : List Effect}
    {r : Except Fault (SessionState × List Effect)} (h : Transition cfg job l s r)
    (hr : r = .ok (s', out)) :
    s'.pieces = s.pieces ∨
      (∃ record block flags, job.call = .record record block ∧ record.type = some .piece ∧
        pieceReceived cfg job.env (job.key cfg) record.payload.index record.payload.begin block s =
          .ok (flags, s', out)) ∨
      ∃ record block data, job.call = .record record block ∧
        l = ⟨job.id, .serve record.payload.index⟩ ∧
        attachChunk cfg job.env record.payload.index record.payload.begin record.payload.length s =
          .ok (data, s', out) := by
  cases h with
  | peer hupdate =>
    obtain ⟨b, hb⟩ := outcome_ok.1 hr
    obtain ⟨peer, peer', -, -, rfl, rfl⟩ := withPeer_ok.mp hb
    exact .inl rfl
  | effects hpieces =>
    obtain ⟨rfl, rfl⟩ : _ = s' ∧ _ = out := by simpa using hr
    exact .inl hpieces
  | assertion => cases hr
  | pieceReceived hcall hlength htype =>
    obtain ⟨flags, hflags⟩ := outcome_ok.1 hr
    exact .inr (.inl ⟨_, _, flags, hcall, htype, hflags⟩)
  | attachChunk hcall htype =>
    obtain ⟨data, hdata⟩ := outcome_ok.1 hr
    exact .inr (.inr ⟨_, _, data, hcall, rfl, hdata⟩)
  | insertConnection =>
    obtain ⟨b, hb⟩ := outcome_ok.1 hr
    obtain ⟨hpieces, -, rfl⟩ := insertConnection_ok hb
    exact .inl hpieces
  | enterPeer hcall =>
    obtain ⟨b, hb⟩ := outcome_ok.1 hr
    obtain ⟨rfl, -, rfl⟩ := enterPeer_ok hb
    exact .inl rfl
  | eraseConnection =>
    obtain ⟨b, hb⟩ := outcome_ok.1 hr
    obtain ⟨hpieces, -, rfl⟩ := eraseConnection_ok hb
    exact .inl hpieces
  | leavePeer hcall =>
    obtain ⟨b, hb⟩ := outcome_ok.1 hr
    obtain ⟨peer, -, -, hpieces, -, rfl⟩ := leavePeer_ok hb
    exact .inl hpieces

section Pieces

open Tools

variable {env : Environment} {s t : SessionState} {out : List Effect}

theorem isMissing_onDisk {piece : Piece} (h : isMissing piece = true) : piece.onDisk = false := by
  simp only [isMissing, Bool.and_eq_true, Bool.not_eq_true'] at h
  exact h.1

/-- What the first scope of PIECE does to the pieces and their files. -/
inductive PieceOutcome (cfg : Configuration) (env : Environment) (index : UInt32)
    (s : SessionState) : SessionState → List Effect → Prop where
  | unchanged : PieceOutcome cfg env index s s []
  | chunks {piece : Piece} (chunks : List PieceChunk)
      (hpiece : s.pieces[index.toNat]? = some piece) (hmissing : isMissing piece = true)
      (hchunks : chunks = [] ∨ isPieceComplete piece.length chunks = false) :
      PieceOutcome cfg env index s (s.setPiece index { piece with chunks := chunks }) []
  | saved {piece : Piece} {chunks : List PieceChunk} {saved : SavedPiece}
      (hpiece : s.pieces[index.toNat]? = some piece) (hmissing : isMissing piece = true)
      (hhash : validatePieceHash cfg.ndebug cfg.sha1 { piece with chunks := chunks } = .ok true)
      (hsave : savePiece env.toFileResults { piece with chunks := chunks } = .ok saved)
      (hresult : saved.result = true ∨ cfg.ndebug = true) :
      PieceOutcome cfg env index s (s.setPiece index saved.piece)
        (writeEffects index (pieceFile cfg s.pieces.length index piece) saved.written)

/-- What the first scope of PIECE knows: a next piece is requested from a peer that does
not choke, and the switch is left only where storing a piece fails without an assertion. -/
def Flagged (cfg : Configuration) (env : Environment) (key : UInt32) (s : SessionState) :
    Option PieceFlags → Prop
  | none => cfg.ndebug = true ∧ ¬ env.toFileResults.Succeed
  | some flags => ∃ peer, s.peerState key = some peer ∧
      (flags.requestNextPiece = true → peer.status.amChoking = false)

variable (env) in
theorem continuePiece_ok {key : UInt32} {sendHave notifyCompletion : Bool}
    {effects : List Effect} {flags : Option PieceFlags}
    (h : continuePiece cfg key sendHave notifyCompletion effects s = .ok (flags, t, out)) :
    t = s ∧ out = effects ∧ Flagged cfg env key s flags := by
  obtain ⟨peer, hpeer, h⟩ := fault_bind_ok.mp h
  obtain ⟨rfl, rfl, rfl⟩ : _ = flags ∧ s = t ∧ effects = out := by simpa using h
  refine ⟨rfl, rfl, peer, assertFound_ok.mp hpeer, fun hrequest => ?_⟩
  have hneither : peer.status.amChoking = false ∧ notifyCompletion = false := by
    simpa using hrequest
  exact hneither.1

theorem aceAssert_false_ok {ndebug : Bool} {u : Unit} (h : aceAssert ndebug false = .ok u) :
    ndebug = true := by
  cases ndebug
  · cases h
  · rfl

theorem completePiece_ok {key index : UInt32} {piece : Piece} {flags : Option PieceFlags}
    (hhash : validatePieceHash cfg.ndebug cfg.sha1 piece = .ok true)
    (h : completePiece cfg env key index piece s = .ok (flags, t, out)) :
    (∃ saved, savePiece env.toFileResults piece = .ok saved ∧
      t = s.setPiece index saved.piece ∧
      out = writeEffects index (pieceFile cfg s.pieces.length index piece) saved.written ∧
      (saved.result = true ∨ cfg.ndebug = true)) ∧ Flagged cfg env key s flags := by
  obtain ⟨saved, hsave, h⟩ := fault_bind_ok.mp h
  by_cases hresult : saved.result = true
  · simp only [hresult, Bool.not_true, Bool.false_eq_true, if_false] at h
    split at h
    · obtain ⟨rfl, rfl, hflags⟩ := continuePiece_ok env h
      exact ⟨⟨saved, hsave, rfl, rfl, .inl hresult⟩, hflags⟩
    · split at h
      · rename_i hassembled
        obtain ⟨u, hassert, h⟩ := fault_bind_ok.mp h
        obtain ⟨rfl, rfl, rfl⟩ : none = flags ∧ _ = t ∧ _ = out := by simpa using h
        refine ⟨⟨saved, hsave, rfl, rfl, .inl hresult⟩, aceAssert_false_ok hassert, fun hfile => ?_⟩
        simp [hfile.assembled] at hassembled
      · obtain ⟨rfl, rfl, hflags⟩ := continuePiece_ok env h
        exact ⟨⟨saved, hsave, rfl, rfl, .inl hresult⟩, hflags⟩
  · have hlength := (validatePieceHash_true hhash).1
    simp only [hresult, Bool.not_false, if_true] at h
    obtain ⟨u, hassert, h⟩ := fault_bind_ok.mp h
    obtain ⟨rfl, rfl, rfl⟩ : none = flags ∧ _ = t ∧ _ = out := by simpa using h
    exact ⟨⟨saved, hsave, rfl, rfl, .inr (aceAssert_false_ok hassert)⟩,
      aceAssert_false_ok hassert, fun hfile => hresult (savePiece_succeed hfile hlength hsave)⟩

theorem pieceReceived_outcome {key index begin : UInt32} {block : Option MessageBlock}
    {flags : Option PieceFlags}
    (h : pieceReceived cfg env key index begin block s = .ok (flags, t, out)) :
    PieceOutcome cfg env index s t out ∧ Flagged cfg env key s flags := by
  unfold pieceReceived at h
  cases hpiece : s.pieces[index.toNat]? with
  | none => simp [hpiece] at h
  | some piece =>
    simp only [hpiece] at h
    by_cases hdone : (piece.onDisk || isPieceComplete piece.length piece.chunks) = true
    · rw [if_pos hdone] at h
      obtain ⟨rfl, rfl, hflags⟩ := continuePiece_ok env h
      exact ⟨.unchanged, hflags⟩
    · rw [if_neg hdone] at h
      have hmissing : isMissing piece = true := by simpa [isMissing] using hdone
      cases block with
      | none => cases h
      | some data =>
        by_cases hduplicated : env.duplicated = true
        · simp only [hduplicated, Bool.not_true, Bool.false_eq_true, if_false] at h
          obtain ⟨chunks, -, h⟩ := fault_bind_ok.mp h
          split at h
          · rename_i hincomplete
            obtain ⟨rfl, rfl, hflags⟩ := continuePiece_ok env h
            exact ⟨.chunks chunks hpiece hmissing (.inr (by simpa using hincomplete)), hflags⟩
          · obtain ⟨valid, hvalid, h⟩ := fault_bind_ok.mp h
            cases valid with
            | false =>
              obtain ⟨rfl, rfl, hflags⟩ := continuePiece_ok env h
              refine ⟨?_, hflags⟩
              change PieceOutcome cfg env index s
                (s.setPiece index { piece with chunks := [] }) []
              exact .chunks [] hpiece hmissing (.inl rfl)
            | true =>
              obtain ⟨⟨saved, hsave, rfl, rfl, hresult⟩, hflags⟩ := completePiece_ok hvalid h
              refine ⟨?_, hflags⟩
              change PieceOutcome cfg env index s (s.setPiece index saved.piece)
                (writeEffects index (pieceFile cfg s.pieces.length index piece) saved.written)
              exact .saved hpiece hmissing hvalid hsave hresult
        · simp only [hduplicated, Bool.not_false, if_true] at h
          obtain ⟨rfl, rfl, hflags⟩ := continuePiece_ok env h
          exact ⟨.unchanged, hflags⟩

/-- What the scope of `piece` does to the pieces: a piece on disk may have been read. -/
theorem attachChunk_ok {index begin length : UInt32} {data : Option (List UInt8)}
    (h : attachChunk cfg env index begin length s = .ok (data, t, out)) :
    t = s ∧ out = [] ∨
      ∃ piece loaded, s.pieces[index.toNat]? = some piece ∧ piece.onDisk = true ∧
        loadPiece cfg.ndebug env.toFileResults
          (piecesPath cfg.downloadDirectory cfg.metaInfoFileName) index piece = .ok loaded ∧
        t = s.setPiece index loaded.piece ∧ out = readEffects index loaded.read := by
  unfold attachChunk at h
  cases hpiece : s.pieces[index.toNat]? with
  | none => simp [hpiece] at h
  | some piece =>
    simp only [hpiece] at h
    by_cases honDisk : piece.onDisk = true
    · rw [if_pos honDisk] at h
      obtain ⟨loaded, hloaded, h⟩ := fault_bind_ok.mp h
      refine .inr ⟨piece, loaded, rfl, honDisk, hloaded, ?_⟩
      split at h
      · obtain ⟨-, rfl, rfl⟩ : _ ∧ _ = t ∧ _ = out := by simpa using h
        exact ⟨rfl, rfl⟩
      · obtain ⟨blocks, -, h⟩ := fault_bind_ok.mp h
        obtain ⟨-, rfl, rfl⟩ : _ ∧ _ = t ∧ _ = out := by simpa using h
        exact ⟨rfl, rfl⟩
    · rw [if_neg honDisk] at h
      split at h
      · obtain ⟨-, rfl, rfl⟩ : _ ∧ s = t ∧ [] = out := by simpa using h
        exact .inl ⟨rfl, rfl⟩
      · obtain ⟨blocks, -, h⟩ := fault_bind_ok.mp h
        obtain ⟨-, rfl, rfl⟩ : _ ∧ s = t ∧ [] = out := by simpa using h
        exact .inl ⟨rfl, rfl⟩

end Pieces

/-- The handler of a connection leaves the peers with other keys alone. -/
theorem transition_peers {l : Label} {s s' : SessionState} {out : List Effect}
    {r : Except Fault (SessionState × List Effect)} (h : Transition cfg job l s r)
    (hr : r = .ok (s', out)) {key : UInt32} (hkey : key ≠ job.key cfg) :
    s'.peerState key = s.peerState key := by
  cases h with
  | peer hupdate =>
    obtain ⟨b, hb⟩ := outcome_ok.1 hr
    obtain ⟨peer, peer', -, -, rfl, -⟩ := withPeer_ok.mp hb
    rw [setPeer_peerState, if_neg hkey]
  | effects hpieces hpeers =>
    obtain ⟨rfl, -⟩ : _ = s' ∧ _ = out := by simpa using hr
    rw [hpeers]
  | assertion => cases hr
  | pieceReceived hcall hlength htype =>
    obtain ⟨flags, hflags⟩ := outcome_ok.1 hr
    cases (pieceReceived_outcome hflags).1 <;> rfl
  | attachChunk hcall htype =>
    obtain ⟨data, hdata⟩ := outcome_ok.1 hr
    rcases attachChunk_ok hdata with ⟨rfl, -⟩ | ⟨piece, loaded, -, -, -, rfl, -⟩ <;> rfl
  | insertConnection =>
    obtain ⟨b, hb⟩ := outcome_ok.1 hr
    rw [(insertConnection_ok hb).2.1]
  | enterPeer hcall =>
    obtain ⟨b, hb⟩ := outcome_ok.1 hr
    obtain ⟨rfl, -, -⟩ := enterPeer_ok hb
    rw [setPeer_peerState, if_neg hkey]
  | eraseConnection =>
    obtain ⟨b, hb⟩ := outcome_ok.1 hr
    rw [(eraseConnection_ok hb).2.1]
  | leavePeer hcall =>
    obtain ⟨b, hb⟩ := outcome_ok.1 hr
    obtain ⟨peer, -, -, -, hleft, -⟩ := leavePeer_ok hb
    rw [hleft, Function.update_of_ne hkey]

theorem transition_issued {l : Label} {s s' : SessionState} {out : List Effect}
    {r : Except Fault (SessionState × List Effect)} (h : Transition cfg job l s r)
    (hr : r = .ok (s', out)) : ∀ effect ∈ out, effect.IssuedAt cfg l := by
  cases h with
  | peer hupdate =>
    obtain ⟨b, hb⟩ := outcome_ok.1 hr
    obtain ⟨-, -, -, -, -, rfl⟩ := withPeer_ok.mp hb
    simp
  | effects hpieces hpeers hout =>
    obtain ⟨-, rfl⟩ : _ = s' ∧ _ = out := by simpa using hr
    exact hout
  | assertion => cases hr
  | pieceReceived hcall hlength htype =>
    obtain ⟨flags, hflags⟩ := outcome_ok.1 hr
    cases (pieceReceived_outcome hflags).1 with
    | unchanged => simp
    | chunks => simp
    | saved =>
      unfold writeEffects
      split <;> simp [Effect.IssuedAt]
  | attachChunk hcall htype =>
    obtain ⟨data, hdata⟩ := outcome_ok.1 hr
    rcases attachChunk_ok hdata with ⟨-, rfl⟩ | ⟨piece, loaded, -, -, -, -, rfl⟩
    · simp
    · unfold readEffects
      split <;> simp [Effect.IssuedAt]
  | insertConnection =>
    obtain ⟨b, hb⟩ := outcome_ok.1 hr
    rw [(insertConnection_ok hb).2.2]
    simp
  | enterPeer hcall =>
    obtain ⟨b, hb⟩ := outcome_ok.1 hr
    rw [(enterPeer_ok hb).2.2]
    simp
  | eraseConnection =>
    obtain ⟨b, hb⟩ := outcome_ok.1 hr
    rw [(eraseConnection_ok hb).2.2]
    simp
  | leavePeer hcall =>
    obtain ⟨b, hb⟩ := outcome_ok.1 hr
    obtain ⟨-, -, -, -, -, rfl⟩ := leavePeer_ok hb
    simp

end ACENetwork.BitTorrent.Session
