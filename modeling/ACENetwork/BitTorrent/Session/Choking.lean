import ACENetwork.BitTorrent.Session.Transitions

/-!
# Requests to peers that choke

Over every interleaving of handlers: between the scope that finds a peer not to choke
and the REQUEST, the handlers rely on the flag, and every scope keeps it but that of a
CHOKE and the one that erases the peer.
-/
namespace ACENetwork.BitTorrent.Session
open Library Tools

variable (cfg : Configuration)

def Free (key : UInt32) (s : SessionState) : Prop :=
  ∃ peer, s.peerState key = some peer ∧ peer.status.amChoking = false

/-- The REQUESTs of a scope are sent while their peer does not choke. -/
def RequestsFree (step : Step Label SessionState Effect) : Prop :=
  ∀ id index begin length, .send id (.request index begin length) ∈ step.effects →
    Free (connectionIdToPeerAddress cfg id) step.before

/-- The scope sets `am_choking` of the peer, or takes the peer's last connection away. -/
def Chokes (label : Label) (key : UInt32) (s : SessionState) : Prop :=
  connectionIdToPeerAddress cfg label.connection = key ∧
    (label.point = .choke ∨ label.point = .disconnect ∧
      ∃ peer, s.peerState key = some peer ∧ peer.connections = [label.connection])

/-- The handlers that are about to request rely on a peer that does not choke. -/
def requesting : Discipline Label SessionState Effect where
  invariant history _ := ∀ step ∈ history, RequestsFree cfg step
  assertion label s :=
    label.point = .requesting → Free (connectionIdToPeerAddress cfg label.connection) s

/-- No scope that chokes a peer is run while a handler is about to request from the peer. -/
def chokesApart : Schedule Job Label SessionState Effect where
  apart label other s :=
    other.point = .requesting →
      ¬ Chokes cfg label (connectionIdToPeerAddress cfg other.connection) s

variable {cfg}

section Transitions

variable {job : Job} {label : Label} {s t : SessionState} {out : List Effect}

theorem PeerUpdate.keeps_free {β : Type} {point : Point}
    {update : List Piece → PeerState → Except Fault (β × PeerState)}
    (h : PeerUpdate cfg job point update) (hpoint : point ≠ .choke) {pieces : List Piece}
    {peer peer' : PeerState} {b : β} (hupdate : update pieces peer = .ok (b, peer'))
    (hfree : peer.status.amChoking = false) : peer'.status.amChoking = false := by
  cases h with
  | choke hchoke => exact absurd hchoke hpoint
  | unchoke =>
    obtain rfl : _ = peer' := congrArg Prod.snd (Except.ok.inj hupdate)
    rfl
  | interested =>
    obtain rfl : _ = peer' := congrArg Prod.snd (Except.ok.inj hupdate)
    exact hfree
  | notInterested =>
    obtain rfl : _ = peer' := congrArg Prod.snd (Except.ok.inj hupdate)
    exact hfree
  | «have» => exact (haveReceived_status hupdate).2.trans hfree
  | bitfield => exact (bitfieldReceived_status hupdate).2.trans hfree
  | read f =>
    obtain rfl : peer = peer' := congrArg Prod.snd (Except.ok.inj hupdate)
    exact hfree
  | choosePiece => exact (choosePiece_status hupdate).2.trans hfree
  | requested requestingPiece =>
    cases requestingPiece with
    | true =>
      obtain ⟨counted, hcount, hdone⟩ := fault_bind_ok.mp hupdate
      obtain rfl : counted = peer' := congrArg Prod.snd (Except.ok.inj hdone)
      rw [countRequests_ok hcount]
      exact hfree
    | false =>
      obtain rfl : peer = peer' := congrArg Prod.snd (Except.ok.inj hupdate)
      exact hfree
  | answered =>
    obtain ⟨counted, hcount, hdone⟩ := fault_bind_ok.mp hupdate
    obtain rfl : counted = peer' := congrArg Prod.snd (Except.ok.inj hdone)
    rw [countRequests_ok hcount]
    exact hfree
  | populate =>
    obtain ⟨_, -, hupdate⟩ := fault_bind_ok.mp hupdate
    obtain ⟨_, -, hupdate⟩ := fault_bind_ok.mp hupdate
    obtain rfl : _ = peer' := congrArg Prod.snd (Except.ok.inj hupdate)
    exact hfree

theorem transition_free {r : Except Fault (SessionState × List Effect)}
    (h : Transition cfg job label s r) (hr : r = .ok (t, out)) {key : UInt32}
    (hfree : Free key s) (hapart : ¬ Chokes cfg label key s) : Free key t := by
  obtain ⟨peer, hpeer, hchoking⟩ := hfree
  by_cases hkey : key = job.key cfg
  swap
  · exact ⟨peer, (transition_peers h hr hkey).trans hpeer, hchoking⟩
  subst hkey
  cases h with
  | @peer β update point s hupdate =>
    obtain ⟨b, hb⟩ := outcome_ok.mp hr
    obtain ⟨own, own', hown, hupdated, rfl, -⟩ := withPeer_ok.mp hb
    obtain rfl : own = peer := Option.some.inj (hown.symm.trans hpeer)
    have hpoint : point ≠ .choke := fun hchoke => hapart ⟨rfl, .inl hchoke⟩
    exact ⟨own', setPeer_self .., hupdate.keeps_free hpoint hupdated hchoking⟩
  | effects hpieces hpeers =>
    obtain ⟨rfl, -⟩ : _ = t ∧ _ = out := by simpa using hr
    exact ⟨peer, by rw [hpeers, hpeer], hchoking⟩
  | assertion => cases hr
  | pieceReceived hcall hlength htype =>
    obtain ⟨flags, hflags⟩ := outcome_ok.mp hr
    refine ⟨peer, ?_, hchoking⟩
    cases (pieceReceived_outcome hflags).1 <;> exact hpeer
  | attachChunk hcall htype =>
    obtain ⟨data, hdata⟩ := outcome_ok.mp hr
    refine ⟨peer, ?_, hchoking⟩
    rcases attachChunk_ok hdata with ⟨rfl, -⟩ | ⟨piece, loaded, -, -, -, rfl, -⟩ <;> exact hpeer
  | insertConnection =>
    obtain ⟨b, hb⟩ := outcome_ok.mp hr
    exact ⟨peer, by rw [(insertConnection_ok hb).2.1, hpeer], hchoking⟩
  | enterPeer hcall =>
    obtain ⟨b, hb⟩ := outcome_ok.mp hr
    obtain ⟨rfl, -, -⟩ := enterPeer_ok hb
    exact ⟨_, setPeer_self .., by simpa [hpeer] using hchoking⟩
  | eraseConnection =>
    obtain ⟨b, hb⟩ := outcome_ok.mp hr
    exact ⟨peer, by rw [(eraseConnection_ok hb).2.1, hpeer], hchoking⟩
  | leavePeer hcall =>
    obtain ⟨b, hb⟩ := outcome_ok.mp hr
    obtain ⟨own, hown, hmem, -, hleft, -⟩ := leavePeer_ok hb
    obtain rfl : own = peer := Option.some.inj (hown.symm.trans hpeer)
    have hstays : own.connections.erase job.id ≠ [] := by
      intro hlast
      rcases List.erase_eq_nil_iff.mp hlast with hnone | hsingle
      · rw [hnone] at hmem
        cases hmem
      · exact hapart ⟨rfl, .inr ⟨rfl, own, hown, hsingle⟩⟩
    refine ⟨{ own with connections := own.connections.erase job.id }, ?_, hchoking⟩
    rw [hleft, Function.update_self, if_neg hstays]

end Transitions

section Handlers

variable {env : Environment} {id : ConnectionId}

theorem leads_emit {label : Label} {effects : List Effect} :
    (emit label effects).Leads (requesting cfg) fun _ _ => True :=
  Process.leads_atomically fun _ _ _ _ _ _ => trivial

theorem leads_requestNextPiece :
    (requestNextPiece cfg env id).Leads (requesting cfg) fun _ _ => True := by
  apply Process.Leads.bind
  · apply Process.leads_atomically
    intro s chosen t out hat hbody
    obtain ⟨peer, peer', hpeer, hchoose, rfl, -⟩ := withPeer_ok.mp hbody
    obtain ⟨own, hown, hchoking⟩ := hat rfl
    obtain rfl : own = peer := Option.some.inj (hown.symm.trans hpeer)
    cases chosen with
    | none => exact nofun
    | some block =>
      exact fun _ => ⟨peer', setPeer_self .., (choosePiece_status hchoose).2.trans hchoking⟩
  · intro chosen
    cases chosen with
    | none => exact leads_emit.bind fun _ => trivial
    | some block =>
      apply Process.Leads.bind
      · exact Process.leads_atomically fun _ _ _ _ _ _ => trivial
      · exact fun _ => trivial

theorem leads_requestNext :
    (do
      let requestingPiece ← requestNextPiece cfg env id
      Process.guarded requestingPiece (requested cfg id true) : Handler Unit).Leads
        (requesting cfg) fun _ _ => True := by
  apply Process.Leads.bind
  · refine leads_requestNextPiece.mono fun requestingPiece s _ => ?_
    cases requestingPiece
    · trivial
    · exact nofun
  · intro requestingPiece
    apply Process.Leads.guarded
    exact Process.leads_atomically fun _ _ _ _ _ _ => trivial

theorem leads_notifyHave {index : UInt32} :
    (notifyHave cfg env id index).Leads (requesting cfg) fun _ _ => True := by
  apply Process.Leads.bind
  · apply Process.leads_atomically
    rintro s ⟨sendInterested, hasMissing⟩ t out - -
    cases sendInterested <;> exact nofun
  rintro ⟨sendInterested, hasMissing⟩
  apply Process.Leads.bind
  · apply Process.Leads.guarded
    exact Process.leads_atomically fun _ _ _ _ _ _ => nofun
  intro _
  apply Process.Leads.bind
  · apply Process.leads_atomically
    rintro s ⟨amChoking, requestPiece⟩ t out - hbody
    obtain ⟨peer, peer', hpeer, hread, rfl, -⟩ := withPeer_ok.mp hbody
    obtain ⟨⟨rfl, hrequest⟩, rfl⟩ :
        (peer.status.amChoking = amChoking ∧
          (!peer.status.amChoking && peer.status.requestingPiece == 0 && hasMissing) =
            requestPiece) ∧ peer = peer' := by
      simpa using hread
    cases requestPiece with
    | true =>
      simp only [Bool.and_eq_true, Bool.not_eq_true'] at hrequest
      exact fun _ => ⟨peer, setPeer_self .., hrequest.1.1⟩
    | false =>
      apply Process.stands_guarded
      · exact fun _ => nofun
      · exact fun _ => trivial
  rintro ⟨amChoking, requestPiece⟩
  cases requestPiece with
  | true =>
    apply Process.Leads.bind
    · exact leads_requestNextPiece.mono fun _ _ _ => nofun
    · exact fun _ => Process.leads_atomically fun _ _ _ _ _ _ => trivial
  | false =>
    apply Process.Leads.guarded
    apply Process.Leads.bind
    · apply Process.leads_atomically
      intro s connections t out _ _
      exact Process.stands_guarded (fun _ => nofun) fun _ => trivial
    · exact fun _ => leads_emit.guarded _

theorem assertion_requesting {requestNextPiece : Bool} {s : SessionState} :
    (requesting cfg).assertion ⟨id, if requestNextPiece then .requesting else .other⟩ s ↔
      (requestNextPiece = true → Free (connectionIdToPeerAddress cfg id) s) := by
  cases requestNextPiece <;> simp [requesting]

/-- Behind the first scope of PIECE every scope up to the REQUEST relies on the flag. -/
theorem leads_notifyPiece {index begin : UInt32} {block : Option MessageBlock} :
    (notifyPiece cfg env id index begin block).Leads (requesting cfg) fun _ _ => True := by
  apply Process.Leads.bind
  · apply Process.leads_atomically
    intro s flags t out _ hbody
    obtain ⟨_, -, hreceived⟩ := fault_bind_ok.mp hbody
    obtain ⟨houtcome, hflags⟩ := pieceReceived_outcome hreceived
    cases flags with
    | none => trivial
    | some flags =>
      obtain ⟨sendHave, requestNextPiece, notifyCompletion⟩ := flags
      obtain ⟨peer, hpeer, hnext⟩ := hflags
      have hfree : requestNextPiece = true → Free (connectionIdToPeerAddress cfg id) t := by
        intro hrequest
        refine ⟨peer, ?_, hnext hrequest⟩
        cases houtcome <;> exact hpeer
      cases sendHave <;> exact assertion_requesting.2 hfree
  rintro (_ | ⟨sendHave, requestNextPiece, notifyCompletion⟩)
  · trivial
  apply Process.Leads.bind
  · apply Process.Leads.guarded
    apply Process.leads_atomically
    intro s _ t out hat hbody
    obtain rfl : s = t := (Prod.mk.inj (Prod.mk.inj (Except.ok.inj hbody)).2).1
    exact hat
  intro _
  apply Process.Leads.bind
  · apply Process.leads_atomically
    intro s _ t out hat hbody
    obtain ⟨peer, peer', hpeer, hanswered, rfl, -⟩ := withPeer_ok.mp hbody
    obtain ⟨counted, hcount, hdone⟩ := fault_bind_ok.mp hanswered
    obtain rfl : counted = peer' := congrArg Prod.snd (Except.ok.inj hdone)
    cases requestNextPiece with
    | true =>
      obtain ⟨own, hown, hchoking⟩ := assertion_requesting.1 hat rfl
      obtain rfl : own = peer := Option.some.inj (hown.symm.trans hpeer)
      refine fun _ => ⟨counted, setPeer_self .., ?_⟩
      rw [countRequests_ok hcount]
      exact hchoking
    | false => exact Process.stands_guarded (fun _ => nofun) fun _ => trivial
  intro _
  apply Process.Leads.bind
  · apply (leads_requestNext.guarded requestNextPiece).mono
    intro _ s _
    exact Process.stands_guarded (fun _ => nofun) fun _ => trivial
  · exact fun _ => leads_emit.guarded notifyCompletion

theorem leads_piece {index begin length : UInt32} :
    (piece cfg env id index begin length).Leads (requesting cfg) fun _ _ => True := by
  apply Process.Leads.bind
  · apply Process.leads_atomically
    intro s hasConnection t out _ _
    cases hasConnection
    · trivial
    · exact nofun
  · intro hasConnection
    cases hasConnection with
    | false => trivial
    | true =>
      apply Process.Leads.bind
      · apply Process.leads_atomically
        intro s data t out _ _
        cases data
        · trivial
        · exact nofun
      · intro data
        cases data with
        | none => trivial
        | some data => exact leads_emit

theorem leads_notify {record : PeerRecord} {block : Option MessageBlock} :
    (notify cfg env id record block).Leads (requesting cfg) fun _ _ => True := by
  have hquiet {l : Label} {body : Scope Unit} :
      (Process.atomically l body : Handler Unit).Leads (requesting cfg) fun _ _ => True :=
    Process.leads_atomically fun _ _ _ _ _ _ => trivial
  unfold notify
  by_cases hlength : record.length = 0
  · simp only [hlength, if_true]
    trivial
  simp only [hlength, if_false]
  cases record.type with
  | none => trivial
  | some t =>
    cases t with
    | choke => exact hquiet
    | unchoke =>
      apply Process.Leads.bind
      · apply Process.leads_atomically
        intro s requestPiece t out _ hbody
        obtain ⟨peer, peer', hpeer, hread, rfl, -⟩ := withPeer_ok.mp hbody
        obtain ⟨-, rfl⟩ : _ ∧ { peer with status.amChoking := false } = peer' := by
          simpa using hread
        -- the scope of UNCHOKE has set the flag
        exact Process.stands_guarded (fun _ _ => ⟨_, setPeer_self .., rfl⟩) fun _ => trivial
      · exact fun requestPiece => leads_requestNext.guarded requestPiece
    | interested =>
      apply Process.Leads.bind
      · exact Process.leads_atomically fun _ _ _ _ _ _ => nofun
      · exact fun _ => leads_emit
    | notInterested => exact hquiet
    | «have» => exact leads_notifyHave
    | bitfield =>
      apply Process.Leads.bind
      · apply Process.leads_atomically
        intro s sendInterested t out _ _
        exact Process.stands_guarded (fun _ => nofun) fun _ => trivial
      · exact fun sendInterested => leads_emit.guarded sendInterested
    | request =>
      apply Process.Leads.bind
      · apply Process.leads_atomically
        intro s sendPiece t out _ _
        exact Process.stands_guarded (fun _ => nofun) fun _ => trivial
      · intro sendPiece
        exact leads_piece.guarded sendPiece
    | piece => exact leads_notifyPiece
    | cancel => trivial

theorem leads_connect : (connect cfg env id).Leads (requesting cfg) fun _ _ => True := by
  apply Process.Leads.bind
  · exact Process.leads_atomically fun _ _ _ _ _ _ => nofun
  intro _
  apply Process.Leads.bind
  · apply Process.leads_atomically
    intro s populate t out _ _
    cases populate with
    | true => exact nofun
    | false => exact Process.stands_guarded (fun _ => nofun) fun _ => trivial
  intro populate
  apply Process.Leads.bind
  · apply Process.Leads.guarded
    apply Process.leads_atomically
    exact fun _ _ _ _ _ _ => Process.stands_guarded (fun _ => nofun) fun _ => trivial
  intro _
  apply Process.Leads.guarded
  apply Process.Leads.bind
  · exact Process.leads_atomically fun _ _ _ _ _ _ => nofun
  · exact fun _ => Process.leads_atomically fun _ _ _ _ _ _ => trivial

theorem leads_disconnect : (disconnect cfg id).Leads (requesting cfg) fun _ _ => True := by
  apply Process.Leads.bind
  · exact Process.leads_atomically fun _ _ _ _ _ _ => nofun
  intro _
  apply Process.Leads.bind
  · apply Process.leads_atomically
    intro s notifyController t out _ _
    exact Process.stands_guarded (fun _ => nofun) fun _ => trivial
  · exact fun notifyController => leads_emit.guarded notifyController

theorem leads_trackerDisconnect :
    (trackerDisconnect cfg id).Leads (requesting cfg) fun _ _ => True := by
  apply Process.Leads.bind
  · exact Process.leads_atomically fun _ _ _ _ _ _ => nofun
  intro _
  apply Process.Leads.bind
  · apply Process.leads_atomically
    intro s event t out _ _
    cases event
    · trivial
    · exact nofun
  · intro event
    cases event
    · trivial
    · exact leads_emit

theorem Job.leads_handler (job : Job) :
    (job.handler cfg).Leads (requesting cfg) fun _ _ => True := by
  unfold Job.handler
  cases job.call with
  | connect => exact leads_connect
  | disconnect => exact leads_disconnect
  | record record block => exact leads_notify
  | trackerConnect =>
    exact (Process.leads_atomically fun _ _ _ _ _ _ => nofun).bind fun _ =>
      Process.leads_atomically fun _ _ _ _ _ _ => trivial
  | trackerDisconnect => exact leads_trackerDisconnect
  | trackerRedirect location => exact leads_emit
  | trackerError => exact leads_emit
  | trackerResponse failure => exact Process.leads_atomically fun _ _ _ _ _ _ => trivial
  | peersConnected => exact Process.leads_atomically fun _ _ _ _ _ _ => trivial
  | rerequestPeers => exact leads_emit

theorem Job.stands_handler (job : Job) (s : SessionState) :
    (job.handler cfg).Stands (requesting cfg) (fun _ _ => True) s := by
  unfold Job.handler
  cases job.call with
  | record record block =>
    simp only [notify]
    split
    · trivial
    · cases record.type with
      | none => trivial
      | some t =>
        cases t with
        | cancel => trivial
        | _ => exact nofun
  | _ => exact nofun

end Handlers

theorem Job.outline_handler (job : Job) :
    (job.handler cfg).Outline (chokesApart cfg) (requesting cfg) fun _ _ => True := by
  refine job.leads_handler.outline job.allScopes_handler ?_
  intro history label s t out hinv hat _ htransition
  constructor
  · intro step hstep
    rcases List.mem_append.mp hstep with hold | hnew
    · exact hinv step hold
    · obtain rfl := List.mem_singleton.mp hnew
      intro id index begin length hsend
      obtain rfl := transition_issued htransition rfl _ hsend
      exact hat rfl
  · intro other hapart hother hrequesting
    exact transition_free htransition rfl (hother hrequesting) (hapart hrequesting)

/-- In every run of any connections' handlers in which no scope chokes a peer while a
handler is about to request from it, every REQUEST is sent while its peer does not choke. -/
theorem requests_unchoked (cfg : Configuration) (s : SessionState)
    (events : List (PoolEvent Job)) (hfollows : Follows cfg (chokesApart cfg) s events)
    (pool : SessionPool) (hrun : runPool cfg s events = .ok pool) :
    ∀ step ∈ pool.history, RequestsFree cfg step := by
  have houtlined : (Pool.initial s : SessionPool).Outlined (chokesApart cfg) (requesting cfg) :=
    ⟨nofun, by simp [Pool.initial]⟩
  have hfinal := houtlined.run (fun job _ => ⟨job.outline_handler, job.stands_handler⟩)
    hfollows hrun
  exact hfinal.1

/-- Two connections to one peer that has the piece: the first one gets an UNCHOKE. -/
def sampleUnchoking : SessionState :=
  sampleSession [samplePiece false] [(0x0A000001, { connections := [1, 2], pieces := [0x80] })]

def sampleUnchoke : Job :=
  ⟨1, .record ⟨1, some .unchoke, [], ⟨0, 0, 0⟩⟩ none, sampleEnvironment⟩

def sampleChoke : Job := ⟨2, .record ⟨1, some .choke, [], ⟨0, 0, 0⟩⟩ none, sampleEnvironment⟩

theorem not_chokes {label : Label} {key : UInt32} {s : SessionState}
    (hchoke : label.point ≠ .choke) (hdisconnect : label.point ≠ .disconnect) :
    ¬ Chokes cfg label key s := by
  rintro ⟨-, h | ⟨h, -⟩⟩
  · exact hchoke h
  · exact hdisconnect h

theorem sampleUnchoke_follows :
    Follows (sampleConfiguration false) (chokesApart (sampleConfiguration false)) sampleUnchoking
      [.start sampleUnchoke, .schedule 0, .schedule 0, .schedule 0, .start sampleChoke,
        .schedule 1] := by
  refine ⟨trivial, fun p₁ h₁ => ⟨?_, fun p₂ h₂ => ⟨?_, fun p₃ h₃ => ⟨?_, fun p₄ h₄ =>
    ⟨trivial, fun p₅ h₅ => ⟨?_, fun _ _ => trivial⟩⟩⟩⟩⟩⟩
  · obtain rfl := Except.ok.inj h₁
    intro l hl
    obtain rfl := Option.some.inj hl
    exact ⟨trivial, fun _ _ _ _ _ => not_chokes nofun nofun⟩
  · obtain rfl := Except.ok.inj h₁
    obtain rfl := Except.ok.inj h₂
    intro l hl
    obtain rfl := Option.some.inj hl
    exact ⟨trivial, fun _ _ _ _ _ => not_chokes nofun nofun⟩
  · obtain rfl := Except.ok.inj h₁
    obtain rfl := Except.ok.inj h₂
    obtain rfl := Except.ok.inj h₃
    intro l hl
    obtain rfl := Option.some.inj hl
    exact ⟨trivial, fun _ _ _ _ _ => not_chokes nofun nofun⟩
  · -- the first handler has sent its REQUEST
    obtain rfl := Except.ok.inj h₁
    obtain rfl := Except.ok.inj h₂
    obtain rfl := Except.ok.inj h₃
    obtain rfl := Except.ok.inj h₄
    obtain rfl := Except.ok.inj h₅
    intro l hl
    refine ⟨trivial, fun other l' hother hl' => ?_⟩
    match other with
    | 0 =>
      obtain rfl : ⟨1, .other⟩ = l' := Option.some.inj hl'
      exact nofun
    | 1 => exact absurd rfl hother
    | other + 2 =>
      have hnone : none = some l' := hl'
      cases hnone

theorem requests_unchoked_unchoke :
    ∃ pool, runPool (sampleConfiguration false) sampleUnchoking
        [.start sampleUnchoke, .schedule 0, .schedule 0, .schedule 0, .start sampleChoke,
          .schedule 1] = .ok pool ∧
      ∀ step ∈ pool.history, RequestsFree (sampleConfiguration false) step :=
  ⟨_, rfl, requests_unchoked (sampleConfiguration false) sampleUnchoking
    [.start sampleUnchoke, .schedule 0, .schedule 0, .schedule 0, .start sampleChoke, .schedule 1]
    sampleUnchoke_follows _ rfl⟩

/-- The CHOKE comes after the UNCHOKE has been handled and before a block is chosen. -/
theorem requests_not_unchoked :
    ¬ ∀ (cfg : Configuration) (s : SessionState) (events : List (PoolEvent Job))
      (pool : SessionPool), runPool cfg s events = .ok pool →
        ∀ step ∈ pool.history, RequestsFree cfg step := by
  intro h
  have hsteps := h (sampleConfiguration false) sampleUnchoking
    [.start sampleUnchoke, .schedule 0, .start sampleChoke, .schedule 1, .schedule 0, .schedule 0]
    _ rfl
  obtain ⟨peer, hpeer, hchoking⟩ := hsteps _ (List.getElem_mem (n := 3) (by decide)) 1 0 0 2
    List.mem_cons_self
  obtain rfl := Option.some.inj hpeer
  cases hchoking

end ACENetwork.BitTorrent.Session
