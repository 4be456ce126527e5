import ACENetwork.BitTorrent.Session.Transitions

/-!
# What the scopes write and ask for

Of all the scopes of the handlers, one stores a received block and may write a piece to its file,
one reads a piece that has been asked for, and one sends a REQUEST for a block that an earlier scope
has chosen. All others leave the pieces alone and have other effects. The choice is made in a state
with an invariant of the pieces, whatever happens between it and the REQUEST.
-/
namespace ACENetwork.BitTorrent.Session
open Library Tools

/-- Neither a REQUEST nor a file that is written. -/
def Effect.IsPlain : Effect → Prop
  | .write _ _ _ => False
  | .send _ (.request _ _ _) => False
  | _ => True

def Chosen (cfg : Configuration) (env : Environment) (J : List Piece → Prop) (index : UInt32)
    (block : Block) : Prop :=
  ∃ pieces bitfield, J pieces ∧ randomBlock cfg env pieces bitfield = .ok (index, block)

/-- What a scope of the job does in a state in which the pieces have the invariant. -/
inductive Does (cfg : Configuration) (job : Job) (J : List Piece → Prop) (label : Label)
    (s : SessionState) : Except Fault (SessionState × List Effect) → Prop where
  | plain {s' : SessionState} {out : List Effect} (hpieces : s'.pieces = s.pieces)
      (hout : ∀ effect ∈ out, effect.IsPlain) : Does cfg job J label s (.ok (s', out))
  | request {id : ConnectionId} {index : UInt32} {block : Block}
      (hchosen : Chosen cfg job.env J index block) : Does cfg job J label s
        (.ok (s, transmit job.env id (.request index block.begin block.length)))
  | pieceReceived {record : PeerRecord} {block : Option MessageBlock}
      (hcall : job.call = .record record block) (htype : record.type = some .piece) :
      Does cfg job J label s (outcome (pieceReceived cfg job.env (job.key cfg)
        record.payload.index record.payload.begin block s))
  | attachChunk {index begin length : UInt32} :
      Does cfg job J label s (outcome (attachChunk cfg job.env index begin length s))
  | fault {e : Fault} : Does cfg job J label s (.error e)

variable {cfg : Configuration} {job : Job} {J : List Piece → Prop}

theorem isPlain_transmit {env : Environment} {id : ConnectionId} {message : Message}
    (h : message.type ≠ .request) : ∀ effect ∈ transmit env id message, effect.IsPlain := by
  intro effect heffect
  unfold transmit at heffect
  split at heffect
  · rw [List.mem_singleton.mp heffect]
    cases message with
    | request index begin length => exact absurd rfl h
    | _ => trivial
  · cases heffect

theorem isPlain_haveEffects {env : Environment} {tracker : Option ConnectionId} {index : UInt32}
    {ids : List ConnectionId} : ∀ effect ∈ haveEffects env tracker index ids, effect.IsPlain := by
  induction ids with
  | nil => simp [haveEffects]
  | cons id ids ih =>
    intro effect heffect
    unfold haveEffects at heffect
    split at heffect
    · exact ih effect heffect
    · split at heffect
      · exact ih effect heffect
      · split at heffect
        · cases heffect
        · rcases List.mem_cons.mp heffect with rfl | hrest
          · trivial
          · exact ih effect hrest

/-- Reading a piece for a REQUEST changes nothing but the chunks of one that is on disk. -/
theorem attachChunk_cases {env : Environment} {index begin length : UInt32}
    {data : Option (List UInt8)} {s t : SessionState} {out : List Effect}
    (h : attachChunk cfg env index begin length s = .ok (data, t, out)) :
    (t = s ∨ ∃ piece chunks, s.pieces[index.toNat]? = some piece ∧ piece.onDisk = true ∧
      t = s.setPiece index { piece with chunks := chunks }) ∧
      ∀ effect ∈ out, effect.IsPlain := by
  rcases attachChunk_ok h with ⟨rfl, rfl⟩ | ⟨piece, loaded, hpiece, honDisk, hload, rfl, rfl⟩
  · exact ⟨.inl rfl, by simp⟩
  · have hplain : ∀ effect ∈ readEffects index loaded.read, effect.IsPlain := by
      cases loaded.read <;> simp [readEffects, Effect.IsPlain]
    refine ⟨.inr ?_, hplain⟩
    rcases loadPiece_ok hload with ⟨hloaded, -⟩ | ⟨read, -, hloaded⟩
    · exact ⟨piece, piece.chunks, hpiece, honDisk, by rw [hloaded]⟩
    · exact ⟨piece, _, hpiece, honDisk, by rw [hloaded]⟩

section Scopes

variable {β : Type} {label : Label}

theorem yields_plain {body : Scope β} {R : β → Prop}
    (h : ∀ s b s' out, J s.pieces → body s = .ok (b, s', out) →
      s'.pieces = s.pieces ∧ (∀ effect ∈ out, effect.IsPlain) ∧ R b) :
    (Process.atomically label body : Handler β).Yields (fun s => J s.pieces) (Does cfg job J) R := by
  refine Process.yields_atomically (fun s hs => ?_) fun s b s' out hs hbody =>
    (h s b s' out hs hbody).2.2
  cases hbody : body s with
  | error e => exact .fault
  | ok r =>
    obtain ⟨hpieces, hout, -⟩ := h s r.1 r.2.1 r.2.2 hs hbody
    exact .plain hpieces hout

theorem yields_withPeer {key : UInt32}
    {update : List Piece → PeerState → Except Fault (β × PeerState)} {R : β → Prop}
    (h : ∀ pieces peer b peer', J pieces → update pieces peer = .ok (b, peer') → R b) :
    (Process.atomically label (withPeer cfg key update) : Handler β).Yields
      (fun s => J s.pieces) (Does cfg job J) R :=
  yields_plain fun s b s' out hs hbody => by
    obtain ⟨peer, peer', -, hupdate, rfl, rfl⟩ := withPeer_ok.mp hbody
    exact ⟨rfl, by simp, h s.pieces peer b peer' hs hupdate⟩

theorem yields_emit {out : List Effect} (hout : ∀ effect ∈ out, effect.IsPlain) :
    (emit label out).Yields (fun s => J s.pieces) (Does cfg job J) fun _ => True :=
  yields_plain fun s b s' out' _ hbody => by
    obtain ⟨rfl, rfl⟩ : s = s' ∧ out = out' := by simpa using hbody
    exact ⟨rfl, hout, trivial⟩

end Scopes

section Handlers

theorem choosePiece_chosen {pieces : List Piece} {peer peer' : PeerState} {index : UInt32}
    {block : Block} (hpieces : J pieces)
    (h : choosePiece cfg job.env pieces peer = .ok (some (index, block), peer')) :
    Chosen cfg job.env J index block := by
  obtain ⟨missing, -, h⟩ := fault_bind_ok.mp h
  cases missing with
  | false => simp at h
  | true =>
    obtain ⟨chosen, hchosen, h⟩ := fault_bind_ok.mp h
    obtain ⟨rfl, -⟩ : chosen = (index, block) ∧ peer = peer' := by simpa using h
    exact ⟨pieces, peer.pieces, hpieces, hchosen⟩

theorem yields_requestNextPiece {id : ConnectionId} :
    (requestNextPiece cfg job.env id).Yields (fun s => J s.pieces) (Does cfg job J)
      fun _ => True := by
  apply (yields_withPeer (R := fun chosen => ∀ index block, chosen = some (index, block) →
    Chosen cfg job.env J index block) ?_).bind
  · rintro (_ | ⟨index, block⟩) hchosen
    · exact (yields_emit (isPlain_transmit (by simp [Message.type]))).bind fun _ _ => trivial
    · have hchosen := hchosen index block rfl
      refine (Process.yields_atomically (R := fun _ => True) (fun s _ => ?_) fun _ _ _ _ _ _ =>
        trivial).bind fun _ _ => trivial
      cases hassert : aceAssert cfg.ndebug (block.length ≠ 0) with
      | error f => exact .fault
      | ok u => exact .request hchosen
  · rintro pieces peer chosen peer' hpieces hchoose index block rfl
    exact choosePiece_chosen hpieces hchoose

theorem yields_requested {id : ConnectionId} (requestingPiece : Bool) :
    (requested cfg id requestingPiece).Yields (fun s => J s.pieces) (Does cfg job J) fun _ => True :=
  yields_withPeer fun _ _ _ _ _ _ => trivial

theorem yields_requests {id : ConnectionId} (condition : Bool) :
    (Process.guarded condition do
      let requestingPiece ← requestNextPiece cfg job.env id
      Process.guarded requestingPiece (requested cfg id true)).Yields (fun s => J s.pieces)
        (Does cfg job J) fun _ => True :=
  (yields_requestNextPiece.bind fun requestingPiece _ =>
    (yields_requested true).guarded trivial requestingPiece).guarded trivial condition

theorem yields_notifyHave {id : ConnectionId} {index : UInt32} :
    (notifyHave cfg job.env id index).Yields (fun s => J s.pieces) (Does cfg job J)
      fun _ => True := by
  apply (yields_withPeer (R := fun _ => True) fun _ _ _ _ _ _ => trivial).bind
  rintro ⟨sendInterested, hasMissing⟩ -
  apply ((yields_emit (isPlain_transmit (by simp [Message.type]))).guarded trivial
    sendInterested).bind
  intro _ _
  apply (yields_withPeer (R := fun _ => True) fun _ _ _ _ _ _ => trivial).bind
  rintro ⟨amChoking, requestPiece⟩ -
  by_cases hrequest : requestPiece = true
  · simp only [hrequest, if_true]
    exact yields_requestNextPiece.bind fun requestingPiece _ => yields_requested requestingPiece
  · simp only [hrequest]
    refine Process.Yields.guarded ?_ trivial _
    apply (yields_withPeer (R := fun _ => True) fun _ _ _ _ _ _ => trivial).bind
    intro connections _
    refine Process.Yields.guarded (yields_emit ?_) trivial _
    split
    · simp [Effect.IsPlain]
    · simp

theorem yields_notifyPiece {record : PeerRecord} {block : Option MessageBlock}
    (hcall : job.call = .record record block) (htype : record.type = some .piece) :
    (notifyPiece cfg job.env job.id record.payload.index record.payload.begin block).Yields
      (fun s => J s.pieces) (Does cfg job J) fun _ => True := by
  apply (Process.yields_atomically (R := fun _ => True) (fun s _ => ?_) fun _ _ _ _ _ _ =>
    trivial).bind
  · rintro (_ | flags) -
    · trivial
    · refine Process.Yields.bind (R := fun _ => True) (Process.Yields.guarded ?_ trivial
        flags.sendHave) fun _ _ => ?_
      · exact yields_plain fun s b s' out _ hbody => by
          obtain ⟨rfl, rfl⟩ : s = s' ∧ _ = out := by simpa using hbody
          exact ⟨rfl, isPlain_haveEffects, trivial⟩
      · exact (yields_withPeer (R := fun _ => True) fun _ _ _ _ _ _ => trivial).bind fun _ _ =>
          (yields_requests _).bind fun _ _ =>
            (yields_emit (by simp [Effect.IsPlain])).guarded trivial flags.notifyCompletion
  · cases hassert : aceAssert cfg.ndebug block.isSome with
    | error f => exact .fault
    | ok u => exact .pieceReceived hcall htype

theorem yields_piece {id : ConnectionId} {index begin length : UInt32} :
    (piece cfg job.env id index begin length).Yields (fun s => J s.pieces) (Does cfg job J)
      fun _ => True := by
  refine Process.Yields.bind (R := fun _ => True) (yields_plain fun s b s' out _ hbody => ?_)
    fun hasConnection _ => ?_
  · obtain ⟨u, -, hbody⟩ := fault_bind_ok.mp hbody
    obtain ⟨-, rfl, rfl⟩ : _ ∧ s = s' ∧ [] = out := by simpa using hbody
    exact ⟨rfl, by simp, trivial⟩
  · by_cases hconnection : hasConnection = true
    · simp only [hconnection, if_true]
      refine Process.Yields.bind (R := fun _ => True) (Process.yields_atomically
        (fun s _ => .attachChunk) fun _ _ _ _ _ _ => trivial) fun data _ => ?_
      cases data with
      | none => trivial
      | some data => exact yields_emit (isPlain_transmit (by simp [Message.type]))
    · simp only [hconnection]
      trivial

theorem yields_notify {record : PeerRecord} {block : Option MessageBlock}
    (hcall : job.call = .record record block) :
    (notify cfg job.env job.id record block).Yields (fun s => J s.pieces) (Does cfg job J)
      fun _ => True := by
  unfold notify
  by_cases hlength : record.length = 0
  · simp only [hlength, if_true]
    trivial
  · simp only [hlength, if_false]
    cases htype : record.type with
    | none => trivial
    | some t =>
      cases t with
      | choke | notInterested => exact yields_withPeer fun _ _ _ _ _ _ => trivial
      | unchoke =>
        exact (yields_withPeer (R := fun _ => True) fun _ _ _ _ _ _ => trivial).bind fun _ _ =>
          yields_requests _
      | interested =>
        exact (yields_withPeer (R := fun _ => True) fun _ _ _ _ _ _ => trivial).bind fun _ _ =>
          yields_emit (isPlain_transmit (by simp [Message.type]))
      | «have» => exact yields_notifyHave
      | bitfield =>
        exact (yields_withPeer (R := fun _ => True) fun _ _ _ _ _ _ => trivial).bind
          fun sendInterested _ => (yields_emit (isPlain_transmit
            (by simp [Message.type]))).guarded trivial sendInterested
      | request =>
        exact (yields_withPeer (R := fun _ => True) fun _ _ _ _ _ _ => trivial).bind
          fun sendPiece _ => yields_piece.guarded trivial sendPiece
      | piece => exact yields_notifyPiece hcall htype
      | cancel => trivial

theorem yields_insertConnection {label : Label} {id : ConnectionId} :
    (Process.atomically label (insertConnection cfg id) : Handler Unit).Yields
      (fun s => J s.pieces) (Does cfg job J) fun _ => True :=
  yields_plain fun s b s' out _ hbody => by
    obtain ⟨hpieces, -, rfl⟩ := insertConnection_ok hbody
    exact ⟨hpieces, by simp, trivial⟩

theorem yields_eraseConnection {label : Label} {id : ConnectionId} :
    (Process.atomically label (eraseConnection cfg id) : Handler Unit).Yields
      (fun s => J s.pieces) (Does cfg job J) fun _ => True :=
  yields_plain fun s b s' out _ hbody => by
    obtain ⟨hpieces, -, rfl⟩ := eraseConnection_ok hbody
    exact ⟨hpieces, by simp, trivial⟩

theorem yields_connect {id : ConnectionId} :
    (connect cfg job.env id).Yields (fun s => J s.pieces) (Does cfg job J) fun _ => True := by
  refine yields_insertConnection.bind fun _ _ =>
    Process.Yields.bind (R := fun _ => True) ?_ fun populate _ => ?_
  · exact yields_plain fun s b s' out _ hbody => by
      obtain ⟨rfl, -, rfl⟩ := enterPeer_ok hbody
      exact ⟨rfl, by simp, trivial⟩
  · refine ((yields_withPeer fun _ _ _ _ _ _ => trivial).guarded trivial populate).bind
      fun _ _ => Process.Yields.guarded ?_ trivial _
    refine (yields_emit (by simp [Effect.IsPlain])).bind fun _ _ =>
      yields_plain fun s b s' out _ hbody => ?_
    obtain ⟨rfl, rfl⟩ : s = s' ∧ _ = out := by simpa using hbody
    refine ⟨rfl, ?_, trivial⟩
    split
    · exact isPlain_transmit (by simp [Message.type])
    · simp

theorem yields_disconnect {id : ConnectionId} :
    (disconnect cfg id).Yields (fun s => J s.pieces) (Does cfg job J) fun _ => True := by
  refine yields_eraseConnection.bind fun _ _ =>
    Process.Yields.bind (R := fun _ => True) ?_ fun notify _ => ?_
  · exact yields_plain fun s b s' out _ hbody => by
      obtain ⟨peer, -, -, hpieces, -, rfl⟩ := leavePeer_ok hbody
      exact ⟨hpieces, by simp, trivial⟩
  · exact (yields_emit (by simp [Effect.IsPlain])).guarded trivial notify

theorem yields_trackerConnect {id : ConnectionId} :
    (trackerConnect cfg job.env id).Yields (fun s => J s.pieces) (Does cfg job J)
      fun _ => True := by
  refine Process.Yields.bind (R := fun _ => True) (yields_plain fun s b s' out _ hbody => ?_)
    fun _ _ => yields_insertConnection
  obtain ⟨rfl, rfl⟩ : _ = s' ∧ _ = out := by simpa using hbody
  refine ⟨rfl, ?_, trivial⟩
  split
  · split <;> simp [Effect.IsPlain]
  · simp

theorem yields_trackerDisconnect {id : ConnectionId} :
    (trackerDisconnect cfg id).Yields (fun s => J s.pieces) (Does cfg job J) fun _ => True := by
  refine yields_eraseConnection.bind fun _ _ =>
    Process.Yields.bind (R := fun _ => True) (yields_plain fun s b s' out _ hbody => ?_)
      fun event _ => ?_
  · obtain ⟨-, rfl, rfl⟩ : _ = b ∧ _ = s' ∧ [] = out := by simpa using hbody
    exact ⟨rfl, by simp, trivial⟩
  · cases event with
    | none => trivial
    | some event => exact yields_emit (by simp [Effect.IsPlain])

theorem Job.yields (job : Job) :
    (job.handler cfg).Yields (fun s => J s.pieces) (Does cfg job J) fun _ => True := by
  unfold Job.handler
  cases hcall : job.call with
  | connect => exact yields_connect
  | disconnect => exact yields_disconnect
  | record record block => exact yields_notify hcall
  | trackerConnect => exact yields_trackerConnect
  | trackerDisconnect => exact yields_trackerDisconnect
  | trackerRedirect location => exact yields_emit (by simp [Effect.IsPlain])
  | trackerError => exact yields_emit (by simp [Effect.IsPlain])
  | trackerResponse failure =>
    refine yields_plain fun s b s' out _ hbody => ?_
    obtain ⟨rfl, rfl⟩ : _ = s' ∧ [] = out := by simpa using hbody
    refine ⟨?_, by simp, trivial⟩
    split <;> rfl
  | peersConnected =>
    refine yields_plain fun s b s' out _ hbody => ?_
    obtain ⟨rfl, rfl⟩ : _ = s' ∧ [] = out := by simpa using hbody
    exact ⟨rfl, by simp, trivial⟩
  | rerequestPeers => exact yields_emit (by simp [Effect.IsPlain])

end Handlers

end ACENetwork.BitTorrent.Session
