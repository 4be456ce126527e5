import ACENetwork.BitTorrent.Session.Transitions

/-!
# Requests that await an answer

One record after the other: a ledger beside the session holds the blocks that have been
requested from each peer and neither answered nor discarded by a CHOKE. Every handler
changes `requesting_piece` by the REQUESTs that it sends, less the block of a PIECE.
-/
namespace ACENetwork.BitTorrent.Session
open Library Tools

variable (cfg : Configuration) (key : UInt32)

/-- The blocks that the REQUESTs to a peer ask for, by piece and offset. -/
def requestsTo (effects : List Effect) : List (UInt32 × UInt32) :=
  effects.filterMap fun
    | .send id (.request index begin _) =>
      if connectionIdToPeerAddress cfg id = key then some (index, begin) else none
    | _ => none

/-- A session and the requests that await an answer. -/
structure Ledger where
  session : SessionState
  pending : UInt32 → List (UInt32 × UInt32)

/-- What a job leaves of the pending requests to its peer: a PIECE answers one of them, a
CHOKE discards all. -/
def Job.settle (job : Job) (pending : List (UInt32 × UInt32)) : List (UInt32 × UInt32) :=
  match job.call with
  | .record record _ =>
    if record.length = 0 then pending
    else
      match record.type with
      | some .choke => []
      | some .piece => pending.erase (record.payload.index, record.payload.begin)
      | _ => pending
  | _ => pending

def settled (job : Job) (pending : List (UInt32 × UInt32)) (out : List Effect) :
    List (UInt32 × UInt32) :=
  (if key = job.key cfg then job.settle pending else pending) ++ requestsTo cfg key out

/-- A handler that runs alone; a peer that is gone takes its requests along. -/
def Ledger.step (ledger : Ledger) (job : Job) : Except Fault Ledger := do
  let result ← handle cfg ledger.session job
  .ok ⟨result.1, fun key =>
    if (result.1.peerState key).isSome then settled cfg key job (ledger.pending key) result.2
    else []⟩

/-- The counter of a peer; 0 without a peer. -/
def requestingPiece (s : SessionState) : ℤ :=
  ((s.peerState key).map fun peer => peer.status.requestingPiece).getD 0

variable {cfg key}

section Effects

variable {env : Environment} {id : ConnectionId}

@[simp] theorem requestsTo_nil : requestsTo cfg key [] = [] := rfl

@[simp] theorem requestsTo_append (first rest : List Effect) :
    requestsTo cfg key (first ++ rest) = requestsTo cfg key first ++ requestsTo cfg key rest :=
  List.filterMap_append

theorem requestsTo_transmit {message : Message} (h : message.type ≠ .request) :
    requestsTo cfg key (transmit env id message) = [] := by
  unfold transmit
  split
  · cases message <;> first | rfl | exact absurd rfl h
  · rfl

theorem requestsTo_haveEffects {tracker : Option ConnectionId} {index : UInt32}
    {ids : List ConnectionId} : requestsTo cfg key (haveEffects env tracker index ids) = [] := by
  induction ids with
  | nil => rfl
  | cons id ids ih =>
    unfold haveEffects
    split
    · exact ih
    · split
      · exact ih
      · split
        · rfl
        · exact ih

structure RequestsGo (env : Environment) (id : ConnectionId) : Prop where
  hasConnection : env.hasConnection id = true
  canSend : env.canSend id .request = true

theorem requestsTo_transmit_request (hgo : RequestsGo env id) {index begin length : UInt32} :
    requestsTo cfg key (transmit env id (.request index begin length)) =
      if connectionIdToPeerAddress cfg id = key then [(index, begin)] else [] := by
  have hsent : transmit env id (.request index begin length) =
      [.send id (.request index begin length)] := by
    simp [transmit, Message.type, hgo.hasConnection, hgo.canSend]
  rw [hsent]
  by_cases hkey : connectionIdToPeerAddress cfg id = key <;> simp [requestsTo, hkey]

end Effects

section Counted

variable {s t u : SessionState} {out rest : List Effect} {change change' : ℤ}

variable (cfg key) in
/-- The counter of the peer `key` changes by the REQUESTs to it and by `change`; other
peers keep their counters and get no REQUEST. -/
structure Counted (change : ℤ) (s t : SessionState) (out : List Effect) : Prop where
  own : requestingPiece key t =
    requestingPiece key s + (change + (requestsTo cfg key out).length)
  others : ∀ other, other ≠ key →
    requestingPiece other t = requestingPiece other s ∧ requestsTo cfg other out = []

theorem Counted.append (h : Counted cfg key change s t out)
    (h' : Counted cfg key change' t u rest) :
    Counted cfg key (change + change') s u (out ++ rest) := by
  refine ⟨?_, fun other hother => ⟨?_, ?_⟩⟩
  · rw [h'.own, h.own, requestsTo_append, List.length_append]
    push_cast
    ring
  · rw [(h'.others other hother).1, (h.others other hother).1]
  · rw [requestsTo_append, (h.others other hother).2, (h'.others other hother).2]
    rfl

theorem counted_of_eq (hstate : ∀ other, requestingPiece other t = requestingPiece other s)
    (hout : ∀ other, requestsTo cfg other out = []) : Counted cfg key 0 s t out := by
  refine ⟨?_, fun other _ => ⟨hstate other, hout other⟩⟩
  rw [hstate, hout]
  simp

theorem requestingPiece_setPeer {peer : PeerState} {other : UInt32} :
    requestingPiece other (s.setPeer key peer) =
      if other = key then peer.status.requestingPiece else requestingPiece other s := by
  unfold requestingPiece
  rw [setPeer_peerState]
  split <;> rfl

theorem counted_setPeer {peer peer' : PeerState} (hpeer : s.peerState key = some peer)
    (hcount : peer'.status.requestingPiece = peer.status.requestingPiece + change) :
    Counted cfg key change s (s.setPeer key peer') [] := by
  refine ⟨?_, fun other hother => ⟨?_, rfl⟩⟩
  · have hown : requestingPiece key s = peer.status.requestingPiece := by
      simp [requestingPiece, hpeer]
    rw [requestingPiece_setPeer, if_pos rfl, hown, hcount]
    simp
  · rw [requestingPiece_setPeer, if_neg hother]

end Counted

section Handlers

variable {α β : Type} {s : SessionState} {env : Environment} {id : ConnectionId}

variable (cfg key) in
/-- A process that changes the counter by what its result says. -/
def Changes (p : Handler α) (s : SessionState) (change : α → ℤ) : Prop :=
  p.Ensures s (fun a t out => Counted cfg key (change a) s t out) fun _ => True

/-- The rule of composition: what remains of the change is due to the second process. -/
theorem Changes.bind {p : Handler α} {q : α → Handler β} {c : α → ℤ} {total : β → ℤ}
    (hp : p.Ensures s (fun a t out => Counted cfg key (c a) s t out ∧
      Changes cfg key (q a) t fun b => total b - c a) fun _ => True) :
    Changes cfg key (p >>= q) s total := by
  unfold Changes
  rw [Process.ensures_bind]
  refine hp.mono (fun a t out h => ?_) fun _ _ => trivial
  refine h.2.mono (fun b u rest hrest => ?_) fun _ _ => trivial
  have hsum := h.1.append hrest
  rwa [add_sub_cancel] at hsum

theorem Changes.then {p : Handler α} {q : α → Handler β} {c : α → ℤ} {total : β → ℤ}
    (hp : Changes cfg key p s c) (hq : ∀ a t, Changes cfg key (q a) t fun b => total b - c a) :
    Changes cfg key (p >>= q) s total :=
  Changes.bind (hp.mono (fun a t _ h => ⟨h, hq a t⟩) fun _ _ => trivial)

theorem changes_pure {a : α} {change : α → ℤ} (h : change a = 0) :
    Changes cfg key (pure a) s change := by
  unfold Changes
  rw [Process.ensures_pure, h]
  exact counted_of_eq (fun _ => rfl) fun _ => rfl

theorem changes_guarded {condition : Bool} {p : Handler Unit} {change : ℤ}
    (hp : condition = true → Changes cfg key p s fun _ => change)
    (hskip : condition = false → change = 0) :
    Changes cfg key (Process.guarded condition p) s fun _ => change := by
  cases condition with
  | true => exact hp rfl
  | false => exact changes_pure (hskip rfl)

theorem ensures_withPeer {l : Label}
    {update : List Piece → PeerState → Except Fault (β × PeerState)}
    {Q : β → SessionState → List Effect → Prop}
    (h : ∀ peer b peer', s.peerState key = some peer → update s.pieces peer = .ok (b, peer') →
      Q b (s.setPeer key peer') []) :
    (Process.atomically l (withPeer cfg key update) : Handler β).Ensures s Q fun _ => True := by
  rw [Process.ensures_atomically]
  split
  · rename_i hbody
    obtain ⟨peer, peer', hpeer, hupdate, rfl, rfl⟩ := withPeer_ok.mp hbody
    exact h peer _ peer' hpeer hupdate
  · trivial

theorem changes_withPeer {l : Label}
    {update : List Piece → PeerState → Except Fault (β × PeerState)} {change : β → ℤ}
    (h : ∀ peer b peer', update s.pieces peer = .ok (b, peer') →
      peer'.status.requestingPiece = peer.status.requestingPiece + change b) :
    Changes cfg key (Process.atomically l (withPeer cfg key update)) s change :=
  ensures_withPeer fun peer b peer' hpeer hupdate => counted_setPeer hpeer (h peer b peer' hupdate)

/-- A scope that leaves the peers alone and sends no REQUEST. -/
theorem changes_scope {l : Label} {body : Scope β}
    (h : ∀ b t out, body s = .ok (b, t, out) →
      t.peerState = s.peerState ∧ ∀ k, requestsTo cfg k out = []) :
    Changes cfg key (Process.atomically l body) s fun _ => 0 := by
  unfold Changes
  rw [Process.ensures_atomically]
  split
  · rename_i hbody
    obtain ⟨hpeers, hout⟩ := h _ _ _ hbody
    exact counted_of_eq (fun _ => by rw [requestingPiece, hpeers]; rfl) hout
  · trivial

theorem changes_emit {l : Label} {out : List Effect} (h : ∀ k, requestsTo cfg k out = []) :
    Changes cfg key (emit l out) s fun _ => 0 := by
  apply changes_scope
  intro _ t out' hbody
  obtain ⟨rfl, rfl⟩ : s = t ∧ out = out' := by simpa using hbody
  exact ⟨rfl, h⟩

theorem changes_request (hgo : RequestsGo env id) {index begin length : UInt32} :
    Changes cfg (connectionIdToPeerAddress cfg id) (request cfg env id index begin length) s
      fun _ => -1 := by
  unfold Changes request
  rw [Process.ensures_atomically]
  cases hassert : aceAssert cfg.ndebug (length ≠ 0) with
  | error e => trivial
  | ok u =>
    refine ⟨?_, fun other hother => ⟨rfl, ?_⟩⟩
    · rw [requestsTo_transmit_request hgo, if_pos rfl]
      simp
    · rw [requestsTo_transmit_request hgo, if_neg (Ne.symm hother)]

theorem changes_requestNextPiece (hgo : RequestsGo env id) :
    Changes cfg (connectionIdToPeerAddress cfg id) (requestNextPiece cfg env id) s
      fun requestingPiece => if requestingPiece then -1 else 0 := by
  apply Changes.then (c := fun _ => 0)
  · apply changes_withPeer
    intro peer chosen peer' hchoose
    rw [(choosePiece_status hchoose).1, add_zero]
  · intro chosen t
    cases chosen with
    | some block => exact (changes_request hgo).then fun _ _ => changes_pure (by simp)
    | none =>
      apply Changes.then (changes_emit fun _ => requestsTo_transmit (by simp [Message.type]))
      exact fun _ _ => changes_pure (by simp)

theorem changes_requested (requestingPiece : Bool) :
    Changes cfg (connectionIdToPeerAddress cfg id) (requested cfg id requestingPiece) s
      fun _ => if requestingPiece then 1 else 0 := by
  apply changes_withPeer
  intro peer _ peer' hupdate
  cases requestingPiece with
  | true =>
    obtain ⟨counted, hcount, hdone⟩ := fault_bind_ok.mp hupdate
    obtain rfl : counted = peer' := by simpa using hdone
    rw [countRequests_ok hcount, if_pos rfl]
  | false =>
    obtain rfl : peer = peer' := by
      cases hupdate
      rfl
    simp

theorem changes_requestNext (hgo : RequestsGo env id) :
    Changes cfg (connectionIdToPeerAddress cfg id) (do
      let requestingPiece ← requestNextPiece cfg env id
      Process.guarded requestingPiece (requested cfg id true)) s fun _ => 0 := by
  apply (changes_requestNextPiece hgo).then
  intro requestingPiece t
  cases requestingPiece with
  | true => exact changes_requested true
  | false => exact changes_pure rfl

theorem Changes.after_emit {condition : Bool} {l : Label} {out : List Effect}
    {q : Unit → Handler β} {total : β → ℤ} (hout : ∀ k, requestsTo cfg k out = [])
    (hq : Changes cfg key (q ()) s total) :
    Changes cfg key (Process.guarded condition (emit l out) >>= q) s total := by
  have hquiet (quiet : List Effect) (h : ∀ k, requestsTo cfg k quiet = []) :
      Counted cfg key 0 s s quiet ∧ Changes cfg key (q ()) s fun b => total b - 0 := by
    refine ⟨counted_of_eq (fun _ => rfl) h, ?_⟩
    simpa only [sub_zero] using hq
  apply Changes.bind (c := fun _ => 0)
  rw [Process.ensures_guarded]
  split
  · exact Process.ensures_atomically.mpr (hquiet out hout)
  · exact hquiet [] fun _ => rfl

/-- HAVE requests a piece only from a peer that does not choke and whose counter is 0. -/
theorem changes_notifyHave {index : UInt32}
    (hgo : ∀ peer, s.peerState (connectionIdToPeerAddress cfg id) = some peer →
      peer.status.amChoking = false → peer.status.requestingPiece = 0 → RequestsGo env id) :
    Changes cfg (connectionIdToPeerAddress cfg id) (notifyHave cfg env id index) s fun _ => 0 := by
  apply Changes.bind (c := fun _ => 0)
  apply ensures_withPeer
  rintro peer ⟨sendInterested, hasMissing⟩ peer' hpeer hreceived
  obtain ⟨hcount, hchoking⟩ := haveReceived_status hreceived
  refine ⟨counted_setPeer hpeer (by rw [hcount, add_zero]), ?_⟩
  apply Changes.after_emit fun _ => requestsTo_transmit (by simp [Message.type])
  apply Changes.bind (c := fun _ => 0)
  apply ensures_withPeer
  rintro read ⟨amChoking, requestPiece⟩ read' hread hdecided
  obtain rfl : peer' = read := by simpa using hread
  obtain ⟨⟨rfl, hrequest⟩, rfl⟩ :
      (peer'.status.amChoking = amChoking ∧
        (!peer'.status.amChoking && peer'.status.requestingPiece == 0 && hasMissing) =
          requestPiece) ∧ peer' = read' := by
    simpa using hdecided
  refine ⟨counted_setPeer hread (by rw [add_zero]), ?_⟩
  cases requestPiece with
  | true =>
    simp only [Bool.and_eq_true, Bool.not_eq_true', beq_iff_eq] at hrequest
    have hgo := hgo peer hpeer (hchoking ▸ hrequest.1.1) (hcount ▸ hrequest.1.2)
    apply (changes_requestNextPiece hgo).then
    intro requestingPiece t
    cases requestingPiece with
    | true => exact changes_requested true
    | false => exact changes_requested false
  | false =>
    apply changes_guarded _ fun _ => by simp
    intro _
    apply Changes.then (c := fun _ => 0)
    · apply changes_withPeer
      intro peer connections peer' hread
      obtain ⟨-, rfl⟩ : _ ∧ peer = peer' := by simpa using hread
      rw [add_zero]
    · intro connections t
      apply changes_guarded _ fun _ => by simp
      intro _
      apply changes_emit
      intro other
      split <;> rfl

theorem changes_have {label : Label} {index : UInt32} :
    Changes cfg key («have» env label index) s fun _ => 0 := by
  unfold Changes «have»
  rw [Process.ensures_atomically]
  exact counted_of_eq (fun _ => rfl) fun _ => requestsTo_haveEffects

theorem changes_answered {label : Label} :
    Changes cfg key (Process.atomically label
      (withPeer cfg key fun _ peer => do .ok ((), ← countRequests (-1) peer))) s fun _ => -1 := by
  apply changes_withPeer
  intro peer _ peer' hupdate
  obtain ⟨counted, hcount, hdone⟩ := fault_bind_ok.mp hupdate
  obtain rfl : counted = peer' := by simpa using hdone
  rw [countRequests_ok hcount]

theorem PieceOutcome.counted {index : UInt32} {t : SessionState} {out : List Effect}
    (h : PieceOutcome cfg env index s t out) : Counted cfg key 0 s t out := by
  cases h with
  | unchanged => exact counted_of_eq (fun _ => rfl) fun _ => rfl
  | chunks chunks hpiece hmissing => exact counted_of_eq (fun _ => rfl) fun _ => rfl
  | saved hpiece hmissing hhash hsave hresult =>
    refine counted_of_eq (fun _ => rfl) fun _ => ?_
    unfold writeEffects
    split <;> rfl

/-- PIECE counts one answer, and requests a next piece only from a peer that does not choke. -/
theorem changes_notifyPiece {index begin : UInt32} {block : Option MessageBlock}
    (hgo : ∀ peer, s.peerState (connectionIdToPeerAddress cfg id) = some peer →
      peer.status.amChoking = false → RequestsGo env id)
    (hstored : cfg.ndebug = true → env.toFileResults.Succeed) :
    Changes cfg (connectionIdToPeerAddress cfg id) (notifyPiece cfg env id index begin block) s
      fun _ => -1 := by
  apply Changes.bind (c := fun _ => 0)
  rw [Process.ensures_atomically]
  split
  · rename_i flags t out hbody
    obtain ⟨_, -, hreceived⟩ := fault_bind_ok.mp hbody
    obtain ⟨houtcome, hflags⟩ := pieceReceived_outcome hreceived
    refine ⟨houtcome.counted, ?_⟩
    cases flags with
    | none => exact absurd (hstored hflags.1) hflags.2
    | some flags =>
      obtain ⟨peer, hpeer, hnext⟩ := hflags
      apply Changes.then (c := fun _ => 0) (changes_guarded (fun _ => changes_have) fun _ => rfl)
      intro _ t₁
      apply Changes.then (c := fun _ => -1) changes_answered
      intro _ t₂
      apply Changes.then (c := fun _ => 0)
      · apply changes_guarded _ fun _ => rfl
        exact fun hrequest => changes_requestNext (hgo peer hpeer (hnext hrequest))
      · intro _ t₃
        apply changes_guarded _ fun _ => by simp
        exact fun _ => changes_emit fun _ => rfl
  · trivial

theorem counted_attachChunk {index begin length : UInt32} {data : Option (List UInt8)}
    {t : SessionState} {out : List Effect}
    (h : attachChunk cfg env index begin length s = .ok (data, t, out)) :
    Counted cfg key 0 s t out := by
  rcases attachChunk_ok h with ⟨rfl, rfl⟩ | ⟨piece, loaded, -, -, -, rfl, rfl⟩
  · exact counted_of_eq (fun _ => rfl) fun _ => rfl
  · refine counted_of_eq (fun _ => rfl) fun _ => ?_
    unfold readEffects
    split <;> rfl

theorem changes_piece {index begin length : UInt32} :
    Changes cfg key (piece cfg env id index begin length) s fun _ => 0 := by
  apply Changes.then (c := fun _ => 0)
  · unfold Changes
    rw [Process.ensures_atomically]
    split
    · rename_i hbody
      obtain ⟨_, -, hdone⟩ := fault_bind_ok.mp hbody
      obtain ⟨-, rfl, rfl⟩ : _ ∧ s = _ ∧ [] = _ := by simpa using hdone
      exact counted_of_eq (fun _ => rfl) fun _ => rfl
    · trivial
  · intro hasConnection t
    by_cases hconnection : hasConnection = true
    · simp only [hconnection, if_true]
      apply Changes.then (c := fun _ => 0)
      · unfold Changes
        rw [Process.ensures_atomically]
        split
        · rename_i hbody
          exact counted_attachChunk hbody
        · trivial
      · intro data t
        cases data with
        | none => exact changes_pure rfl
        | some data =>
          apply changes_emit
          exact fun _ => requestsTo_transmit (by simp [Message.type])
    · simp only [hconnection]
      exact changes_pure rfl

/-- The handler may come to request a piece: the peer unchokes with a bitfield or another
connection, or it does not choke and sends a piece, or a HAVE while the counter is 0. -/
def MayRequest (cfg : Configuration) (s : SessionState) (job : Job) (record : PeerRecord) : Prop :=
  ∃ peer, s.peerState (job.key cfg) = some peer ∧
    match record.type with
    | some .unchoke => 1 < peer.connections.length ∨ peer.pieces ≠ []
    | some .have => peer.status.amChoking = false ∧ peer.status.requestingPiece = 0
    | some .piece => peer.status.amChoking = false
    | _ => False

def Job.answered (job : Job) : ℤ :=
  match job.call with
  | .record record _ =>
    if record.length = 0 then 0
    else
      match record.type with
      | some .piece => -1
      | _ => 0
  | _ => 0

/-- The job of a record changes the counter by the REQUESTs that are sent, less an answer. -/
theorem changes_notify {job : Job} {record : PeerRecord} {block : Option MessageBlock}
    (hcall : job.call = .record record block)
    (hgo : record.length ≠ 0 → MayRequest cfg s job record → RequestsGo job.env job.id)
    (hstored : record.length ≠ 0 → record.type = some .piece → cfg.ndebug = true →
      job.env.toFileResults.Succeed) :
    Changes cfg (job.key cfg) (notify cfg job.env job.id record block) s
      fun _ => job.answered := by
  unfold notify Job.answered
  rw [hcall]
  by_cases hlength : record.length = 0
  · simp only [hlength, if_true]
    exact changes_pure rfl
  simp only [hlength, if_false]
  -- an update of the peer that keeps its counter
  have hkept {β : Type} {p : Point} {update : List Piece → PeerState → Except Fault (β × PeerState)}
      (hupdate : ∀ peer b peer', update s.pieces peer = .ok (b, peer') →
        peer'.status.requestingPiece = peer.status.requestingPiece) :
      Changes cfg (job.key cfg)
        (Process.atomically ⟨job.id, p⟩ (withPeer cfg (job.key cfg) update)) s fun _ => 0 :=
    changes_withPeer fun peer b peer' h => by rw [hupdate peer b peer' h, add_zero]
  cases htype : record.type with
  | none => exact changes_pure rfl
  | some t =>
    cases t with
    | choke =>
      apply hkept
      rintro peer _ peer' h
      obtain rfl : _ = peer' := by simpa using h
      rfl
    | unchoke =>
      apply Changes.bind (c := fun _ => 0)
      apply ensures_withPeer
      rintro peer requestPiece peer' hpeer h
      obtain ⟨hrequest, rfl⟩ :
          (decide (1 < peer.connections.length) || decide (peer.pieces ≠ [])) = requestPiece ∧
            { peer with status.amChoking := false } = peer' := by
        simpa using h
      refine ⟨counted_setPeer hpeer (by simp), changes_guarded (fun hnext => ?_) fun _ => by simp⟩
      apply changes_requestNext
      apply hgo hlength
      refine ⟨peer, hpeer, ?_⟩
      rw [htype]
      simpa [← hrequest] using hnext
    | interested =>
      apply Changes.then (c := fun _ => 0)
      · apply hkept
        rintro peer _ peer' h
        obtain rfl : _ = peer' := by simpa using h
        rfl
      · exact fun _ _ => changes_emit fun _ => requestsTo_transmit (by simp [Message.type])
    | notInterested =>
      apply hkept
      rintro peer _ peer' h
      obtain rfl : _ = peer' := by simpa using h
      rfl
    | «have» =>
      apply changes_notifyHave
      intro peer hpeer hchoking hcount
      apply hgo hlength
      refine ⟨peer, hpeer, ?_⟩
      rw [htype]
      exact ⟨hchoking, hcount⟩
    | bitfield =>
      apply Changes.then (c := fun _ => 0)
      · apply hkept
        exact fun peer _ peer' h => (bitfieldReceived_status h).1
      · intro sendInterested t
        apply changes_guarded _ fun _ => by simp
        exact fun _ => changes_emit fun _ => requestsTo_transmit (by simp [Message.type])
    | request =>
      apply Changes.then (c := fun _ => 0)
      · apply hkept
        intro peer sendPiece peer' h
        obtain ⟨-, rfl⟩ : _ ∧ peer = peer' := by simpa using h
        rfl
      · intro sendPiece t
        exact changes_guarded (fun _ => changes_piece) fun _ => by simp
    | piece =>
      apply changes_notifyPiece
      · intro peer hpeer hchoking
        apply hgo hlength
        refine ⟨peer, hpeer, ?_⟩
        rw [htype]
        exact hchoking
      · exact hstored hlength htype
    | cancel => exact changes_pure rfl

end Handlers

section Run

variable {s : SessionState} {job : Job}

/-- The state of a peer that is new counts from 0. -/
theorem requestingPiece_getD :
    ((s.peerState key).getD {}).status.requestingPiece = requestingPiece key s := by
  unfold requestingPiece
  cases s.peerState key <;> rfl

theorem changes_connect {env : Environment} :
    Changes cfg (job.key cfg) (connect cfg env job.id) s fun _ => 0 := by
  apply Changes.then (c := fun _ => 0)
  · unfold Changes
    rw [Process.ensures_atomically]
    split
    · rename_i hbody
      obtain ⟨-, hpeers, rfl⟩ := insertConnection_ok hbody
      exact counted_of_eq (fun _ => by rw [requestingPiece, hpeers]; rfl) fun _ => rfl
    · trivial
  intro _ t
  apply Changes.then (c := fun _ => 0)
  · unfold Changes
    rw [Process.ensures_atomically]
    split
    · rename_i hbody
      obtain ⟨rfl, -, rfl⟩ := enterPeer_ok hbody
      refine counted_of_eq (fun other => ?_) fun _ => rfl
      rw [requestingPiece_setPeer]
      split
      · rename_i hkey
        subst hkey
        exact requestingPiece_getD
      · rfl
    · trivial
  intro populate t
  apply Changes.then (c := fun _ => 0)
  · apply changes_guarded _ fun _ => rfl
    intro _
    apply changes_withPeer
    intro peer _ peer' h
    obtain ⟨_, -, h⟩ := fault_bind_ok.mp h
    obtain ⟨_, -, h⟩ := fault_bind_ok.mp h
    obtain rfl : _ = peer' := by simpa using h
    simp
  intro _ t
  apply changes_guarded _ fun _ => by simp
  intro _
  apply Changes.then (c := fun _ => 0) (changes_emit fun _ => rfl)
  intro _ t
  unfold Changes
  rw [Process.ensures_atomically]
  refine counted_of_eq (fun _ => rfl) fun _ => ?_
  split
  · exact requestsTo_transmit (by simp [Message.type])
  · rfl

theorem changes_trackerConnect {env : Environment} :
    Changes cfg (job.key cfg) (trackerConnect cfg env job.id) s fun _ => 0 := by
  apply Changes.then (c := fun _ => 0)
  · apply changes_scope
    intro _ t out hbody
    obtain ⟨rfl, rfl⟩ : _ = t ∧ _ = out := by simpa using hbody
    refine ⟨rfl, fun k => ?_⟩
    split
    · split <;> rfl
    · rfl
  · intro _ t
    apply changes_scope
    intro _ t' out hbody
    obtain ⟨-, hpeers, rfl⟩ := insertConnection_ok hbody
    exact ⟨hpeers, fun _ => rfl⟩

theorem changes_trackerDisconnect :
    Changes cfg (job.key cfg) (trackerDisconnect cfg job.id) s fun _ => 0 := by
  apply Changes.then (c := fun _ => 0)
  · apply changes_scope
    intro _ t out hbody
    obtain ⟨-, hpeers, rfl⟩ := eraseConnection_ok hbody
    exact ⟨hpeers, fun _ => rfl⟩
  intro _ t
  apply Changes.then (c := fun _ => 0)
  · apply changes_scope
    intro event t' out hbody
    obtain ⟨-, rfl, rfl⟩ : _ ∧ _ = t' ∧ [] = out := by simpa using hbody
    exact ⟨rfl, fun _ => rfl⟩
  · intro event t'
    cases event with
    | none => exact changes_pure (by simp)
    | some event => exact changes_emit fun _ => rfl

theorem leavePeer_counter {id : ConnectionId} {t : SessionState} {b : Bool} {out : List Effect}
    (h : leavePeer cfg key id s = .ok (b, t, out)) {k : UInt32} (hstays : (t.peerState k).isSome) :
    requestingPiece k t = requestingPiece k s := by
  obtain ⟨peer, hpeer, -, -, hleft, -⟩ := leavePeer_ok h
  unfold requestingPiece
  rw [hleft] at hstays ⊢
  by_cases hkey : k = key
  · subst hkey
    rw [Function.update_self] at hstays ⊢
    split at hstays
    · cases hstays
    · rename_i hconnections
      rw [if_neg hconnections, hpeer]
      rfl
  · rw [Function.update_of_ne hkey]

theorem disconnect_counter :
    (disconnect cfg job.id).Ensures s (fun _ t out => ∀ k, (t.peerState k).isSome →
      requestingPiece k t = requestingPiece k s + (requestsTo cfg k out).length) fun _ => True := by
  unfold disconnect
  rw [Process.ensures_bind, Process.ensures_atomically]
  split
  · rename_i herase
    obtain ⟨-, hpeers, rfl⟩ := eraseConnection_ok herase
    rw [Process.ensures_bind, Process.ensures_atomically]
    split
    · rename_i t _ hleave
      obtain ⟨-, -, -, -, -, rfl⟩ := leavePeer_ok hleave
      have hkept {k : UInt32} (hstays : (t.peerState k).isSome) :
          requestingPiece k t = requestingPiece k s := by
        rw [leavePeer_counter hleave hstays, requestingPiece, hpeers]
        rfl
      rw [Process.ensures_guarded]
      split
      · exact Process.ensures_atomically.mpr fun k hstays => by simp [hkept hstays, requestsTo]
      · exact fun k hstays => by simp [hkept hstays]
    · trivial
  · trivial

variable (cfg) in
/-- A CHOKE comes when nothing is pending, a PIECE answers a pending request and, where a
failure is not asserted, can be stored, and a REQUEST that the handler comes to goes through. -/
def KeepsCount (ledger : Ledger) (job : Job) : Prop :=
  ∀ record block, job.call = .record record block → record.length ≠ 0 →
    (record.type = some .choke → ledger.pending (job.key cfg) = []) ∧
    (record.type = some .piece →
      (record.payload.index, record.payload.begin) ∈ ledger.pending (job.key cfg) ∧
        (cfg.ndebug = true → job.env.toFileResults.Succeed)) ∧
    (MayRequest cfg ledger.session job record → RequestsGo job.env job.id)

theorem KeepsCount.settle {ledger : Ledger} (h : KeepsCount cfg ledger job) :
    ((job.settle (ledger.pending (job.key cfg))).length : ℤ) =
      (ledger.pending (job.key cfg)).length + job.answered := by
  unfold Job.settle Job.answered
  cases hcall : job.call with
  | record record block =>
    by_cases hlength : record.length = 0
    · simp [hlength]
    obtain ⟨hchoke, hpiece, -⟩ := h record block hcall hlength
    simp only [hlength, if_false]
    split
    · rename_i htype
      simp [hchoke htype, htype]
    · rename_i htype
      have hmem := (hpiece htype).1
      have hpos := List.length_pos_of_mem hmem
      rw [List.length_erase_of_mem hmem, htype]
      simp only
      omega
    · rename_i hother
      split
      · rename_i htype
        exact absurd htype hother
      · simp
  | _ => simp

theorem KeepsCount.handler {ledger : Ledger} (h : KeepsCount cfg ledger job) :
    (job.handler cfg).Ensures ledger.session (fun _ t out => ∀ k, (t.peerState k).isSome →
      requestingPiece k t = requestingPiece k ledger.session +
        ((if k = job.key cfg then job.answered else 0) + (requestsTo cfg k out).length))
      fun _ => True := by
  have hchanges {p : Handler Unit}
      (hp : Changes cfg (job.key cfg) p ledger.session fun _ => job.answered) :
      p.Ensures ledger.session (fun _ t out => ∀ k, (t.peerState k).isSome →
        requestingPiece k t = requestingPiece k ledger.session +
          ((if k = job.key cfg then job.answered else 0) + (requestsTo cfg k out).length))
        fun _ => True := by
    refine hp.mono (fun _ t out hcounted k _ => ?_) fun _ _ => trivial
    by_cases hkey : k = job.key cfg
    · rw [if_pos hkey, hkey]
      exact hcounted.own
    · obtain ⟨hsame, hquiet⟩ := hcounted.others k hkey
      simp [if_neg hkey, hsame, hquiet]
  have hquiet {p : Handler Unit} (hcall : job.answered = 0)
      (hp : Changes cfg (job.key cfg) p ledger.session fun _ => 0) :
      p.Ensures ledger.session (fun _ t out => ∀ k, (t.peerState k).isSome →
        requestingPiece k t = requestingPiece k ledger.session +
          ((if k = job.key cfg then job.answered else 0) + (requestsTo cfg k out).length))
        fun _ => True := by
    apply hchanges
    rw [hcall]
    exact hp
  unfold Job.handler
  cases hcall : job.call with
  | connect => exact hquiet (by rw [Job.answered, hcall]) changes_connect
  | disconnect =>
    refine disconnect_counter.mono (fun _ t out hcounter k hstays => ?_) fun _ _ => trivial
    simp [Job.answered, hcall, hcounter k hstays]
  | record record block =>
    apply hchanges
    apply changes_notify hcall
    · exact fun hlength => (h record block hcall hlength).2.2
    · exact fun hlength htype => ((h record block hcall hlength).2.1 htype).2
  | trackerConnect => exact hquiet (by rw [Job.answered, hcall]) changes_trackerConnect
  | trackerDisconnect => exact hquiet (by rw [Job.answered, hcall]) changes_trackerDisconnect
  | trackerRedirect location =>
    exact hquiet (by rw [Job.answered, hcall]) (changes_emit fun _ => rfl)
  | trackerError => exact hquiet (by rw [Job.answered, hcall]) (changes_emit fun _ => rfl)
  | trackerResponse failure =>
    refine hquiet (by rw [Job.answered, hcall]) (changes_scope fun _ t out hbody => ?_)
    obtain ⟨rfl, rfl⟩ : _ = t ∧ out = [] := by simpa using hbody
    refine ⟨?_, fun _ => rfl⟩
    split <;> rfl
  | peersConnected =>
    refine hquiet (by rw [Job.answered, hcall]) (changes_scope fun _ t out hbody => ?_)
    obtain ⟨rfl, rfl⟩ : _ = t ∧ [] = out := by simpa using hbody
    exact ⟨rfl, fun _ => rfl⟩
  | rerequestPeers => exact hquiet (by rw [Job.answered, hcall]) (changes_emit fun _ => rfl)

/-- The counter of every peer is the number of its pending requests. -/
def Accounted (ledger : Ledger) : Prop :=
  ∀ k, requestingPiece k ledger.session = (ledger.pending k).length

theorem Accounted.step {ledger ledger' : Ledger} (h : Accounted ledger)
    (hkeeps : KeepsCount cfg ledger job) (hstep : Ledger.step cfg ledger job = .ok ledger') :
    Accounted ledger' := by
  obtain ⟨⟨t, out⟩, hhandle, hdone⟩ := fault_bind_ok.mp hstep
  obtain rfl := Except.ok.inj hdone
  have hcounter := (handle_ensures cfg hkeeps.handler).1 t out hhandle
  intro k
  by_cases hstays : (t.peerState k).isSome = true
  · simp only [hstays, if_true, settled]
    rw [hcounter k hstays, h k, List.length_append]
    by_cases hkey : k = job.key cfg
    · subst hkey
      have hsettle := hkeeps.settle
      simp only [if_true]
      push_cast
      omega
    · simp [hkey]
  · have hnone : t.peerState k = none := by simpa using hstays
    simp [hnone, requestingPiece]

end Run

/-- In every run whose records keep to the pending requests, `requesting_piece` is the
number of requests that await an answer: it is 0 where HAVE tests it just when none does. -/
theorem requestingPiece_eq_pending (cfg : Configuration) (s : SessionState)
    (hpeers : ∀ k, s.peerState k = none) (jobs : List Job)
    (hkeeps : Runs.Along (Ledger.step cfg) (KeepsCount cfg) ⟨s, fun _ => []⟩ jobs) (ledger : Ledger)
    (hrun : Runs.run (Ledger.step cfg) ⟨s, fun _ => []⟩ jobs = .ok ledger) (key : UInt32)
    (peer : PeerState) (hpeer : ledger.session.peerState key = some peer) :
    peer.status.requestingPiece = (ledger.pending key).length ∧
      0 ≤ peer.status.requestingPiece ∧
      ((peer.status.requestingPiece == 0) = true ↔ ledger.pending key = []) := by
  have hinitial : Accounted ⟨s, fun _ => []⟩ := by
    intro k
    simp [requestingPiece, hpeers k]
  have haccounted := Runs.run_invariant Accounted
    (fun _ _ _ h hjob hstep => h.step hjob hstep) hinitial hkeeps hrun key
  have hcount : peer.status.requestingPiece = (ledger.pending key).length := by
    simpa [requestingPiece, hpeer] using haccounted
  refine ⟨hcount, by omega, ?_⟩
  rw [hcount, beq_iff_eq, Nat.cast_eq_zero, List.length_eq_zero_iff]

/-- A peer connects, announces the piece, unchokes and sends it. -/
def sampleDownload : List Job :=
  [⟨1, .connect, sampleEnvironment⟩,
    ⟨1, .record ⟨2, some .bitfield, [0x80], ⟨0, 0, 0⟩⟩ none, sampleEnvironment⟩,
    ⟨1, .record ⟨1, some .unchoke, [], ⟨0, 0, 0⟩⟩ none, sampleEnvironment⟩,
    ⟨1, .record ⟨11, some .piece, [], ⟨0, 0, 0⟩⟩ (some ⟨[7, 8], []⟩), sampleEnvironment⟩]

theorem sampleDownload_keepsCount :
    Runs.Along (Ledger.step (sampleConfiguration false)) (KeepsCount (sampleConfiguration false))
      ⟨sampleSession [samplePiece false] [], fun _ => []⟩ sampleDownload := by
  refine ⟨nofun, fun l₁ h₁ => ⟨?_, fun l₂ h₂ => ⟨?_, fun l₃ h₃ => ⟨?_, fun _ _ => trivial⟩⟩⟩⟩
  · rintro record block hcall -
    obtain ⟨rfl, rfl⟩ := Call.record.inj hcall
    exact ⟨nofun, nofun, fun _ => ⟨rfl, rfl⟩⟩
  · rintro record block hcall -
    obtain ⟨rfl, rfl⟩ := Call.record.inj hcall
    exact ⟨nofun, nofun, fun _ => ⟨rfl, rfl⟩⟩
  · -- the REQUEST that UNCHOKE has sent is pending
    obtain rfl := Except.ok.inj h₁
    obtain rfl := Except.ok.inj h₂
    obtain rfl := Except.ok.inj h₃
    rintro record block hcall -
    obtain ⟨rfl, rfl⟩ := Call.record.inj hcall
    exact ⟨nofun, fun _ => ⟨List.mem_singleton.mpr rfl, nofun⟩, fun _ => ⟨rfl, rfl⟩⟩

theorem requestingPiece_eq_pending_download :
    ∃ ledger peer, Runs.run (Ledger.step (sampleConfiguration false))
        ⟨sampleSession [samplePiece false] [], fun _ => []⟩ sampleDownload = .ok ledger ∧
      ledger.session.peerState 0x0A000001 = some peer ∧
      peer.status.requestingPiece = (ledger.pending 0x0A000001).length ∧
      0 ≤ peer.status.requestingPiece ∧
      ((peer.status.requestingPiece == 0) = true ↔ ledger.pending 0x0A000001 = []) :=
  ⟨_, _, rfl, rfl, requestingPiece_eq_pending (sampleConfiguration false)
    (sampleSession [samplePiece false] []) (fun _ => rfl) sampleDownload sampleDownload_keepsCount
    _ rfl 0x0A000001 _ rfl⟩

/-- A piece that nobody has requested takes the counter below 0. -/
theorem requestingPiece_ne_pending :
    ¬ ∀ (cfg : Configuration) (s : SessionState), (∀ k, s.peerState k = none) →
      ∀ (jobs : List Job) (ledger : Ledger),
        Runs.run (Ledger.step cfg) ⟨s, fun _ => []⟩ jobs = .ok ledger →
        ∀ (key : UInt32) (peer : PeerState), ledger.session.peerState key = some peer →
          peer.status.requestingPiece = (ledger.pending key).length ∧
            0 ≤ peer.status.requestingPiece ∧
            ((peer.status.requestingPiece == 0) = true ↔ ledger.pending key = []) := by
  intro h
  have hpeer := h (sampleConfiguration false) (sampleSession [samplePiece false] []) (fun _ => rfl)
    [⟨1, .connect, sampleEnvironment⟩,
      ⟨1, .record ⟨11, some .piece, [], ⟨0, 0, 0⟩⟩ (some ⟨[7, 8], []⟩), sampleEnvironment⟩]
    _ rfl 0x0A000001 _ rfl
  exact absurd hpeer.2.1 (by decide)

end ACENetwork.BitTorrent.Session
