import ACENetwork.BitTorrent.Session.State

/-!
# The handlers of a session

`connect`, `disconnect` and `notify` run when a connection to a peer is established,
ends, or delivers a record; others do for the connection to the tracker. Each lock scope
of theirs is one scope of a process; a message is sent in a scope of its own, outside
the lock.
-/
namespace ACENetwork.BitTorrent.Session
open Library Tools

variable (cfg : Configuration) (env : Environment)

/-- `getConnectionAndMessage` and `send`; without success nothing is sent. -/
def transmit (id : ConnectionId) (message : Message) : List Effect :=
  if env.hasConnection id && env.canSend id message.type then [.send id message] else []

/-- A scope that only has effects. -/
def emit (label : Label) (effects : List Effect) : Handler Unit :=
  Process.atomically label fun s => .ok ((), s, effects)

def interested (id : ConnectionId) (interested : Bool) : Handler Unit :=
  emit ⟨id, .other⟩ (transmit env id (if interested then .interested else .notInterested))

def choke (id : ConnectionId) (choke : Bool) : Handler Unit :=
  emit ⟨id, .other⟩ (transmit env id (if choke then .choke else .unchoke))

def request (id : ConnectionId) (index begin length : UInt32) : Handler Unit :=
  Process.atomically ⟨id, .requesting⟩ fun s => do
    aceAssert cfg.ndebug (length ≠ 0)
    .ok ((), s, transmit env id (.request index begin length))

/-- The search for the chunk that holds `begin_in`: the iterator, and the chunks behind it. -/
def seekChunk (begin : UInt32) :
    (previous : Option PieceChunk) → List PieceChunk → Except Fault (PieceChunk × List PieceChunk)
  | _, [] => .error .endIterator
  | previous, chunk :: chunks =>
    if chunk.offset < begin then seekChunk begin (some chunk) chunks
    else if begin < chunk.offset then
      match previous with
      | none => .error .endIterator
      | some previous => .ok (previous, chunk :: chunks)
    else .ok (chunk, chunks)

def gatherBlocks : (missing : ℕ) → List (List UInt8) → Except Fault (List (List UInt8))
  | _, [] => .error (if cfg.ndebug then .endIterator else .assertion)
  | missing, block :: blocks =>
    if missing ≤ block.length then .ok [block.take missing]
    else do
      let rest ← gatherBlocks (missing - block.length) blocks
      .ok (block :: rest)

/-- The blocks of the message; for a length of 0 the loop does not run. -/
def takeBlocks (length : UInt32) (first : List UInt8) (following : List (List UInt8)) :
    Except Fault (List (List UInt8)) :=
  if length = 0 then .ok [first] else gatherBlocks cfg length.toNat (first :: following)

/-- The blocks that `piece` attaches to the message. -/
def chunkData (chunks : List PieceChunk) (begin length : UInt32) :
    Except Fault (List (List UInt8)) := do
  let (chunk, rest) ← seekChunk begin none chunks
  aceAssert cfg.ndebug (chunk.offset ≤ begin ∧
    begin.toNat < chunk.offset.toNat + chunk.data.totalLength)
  let offset := begin - chunk.offset
  aceAssert cfg.ndebug (offset.toNat < chunk.data.data.length)
  if chunk.data.data.length < offset.toNat then .error .bufferOverflow
  else do
    let following := chunk.data.cont ++ rest.flatMap fun chunk => chunk.data.blocks
    let blocks ← takeBlocks cfg length (chunk.data.data.drop offset.toNat) following
    aceAssert cfg.ndebug (blocks.flatten.length = length.toNat)
    .ok blocks

def readEffects (index : UInt32) : Option (List UInt8) → List Effect
  | none => []
  | some data => [.read index data]

def attachChunk (index begin length : UInt32) : Scope (Option (List UInt8)) := fun s =>
  match s.pieces[index.toNat]? with
  | none => .error .outOfRange
  | some piece =>
    if piece.onDisk then do
      let path := piecesPath cfg.downloadDirectory cfg.metaInfoFileName
      let loaded ← loadPiece cfg.ndebug env.toFileResults path index piece
      let s := s.setPiece index loaded.piece
      let reads := readEffects index loaded.read
      if !loaded.result || !env.duplicated then .ok (none, s, reads)
      else do
        let blocks ← chunkData cfg loaded.piece.chunks begin length
        .ok (some blocks.flatten, s, reads)
    else if !isPieceComplete piece.length piece.chunks || !env.duplicated then .ok (none, s, [])
    else do
      let blocks ← chunkData cfg piece.chunks begin length
      .ok (some blocks.flatten, s, [])

def piece (id : ConnectionId) (index begin length : UInt32) : Handler Unit := do
  let hasConnection ← Process.atomically ⟨id, .other⟩ fun s => do
    aceAssert cfg.ndebug (length ≠ 0)
    .ok (env.hasConnection id, s, [])
  if hasConnection then
    let data ← Process.atomically ⟨id, .serve index⟩ (attachChunk cfg env index begin length)
    match data with
    | none => pure ()
    | some data => emit ⟨id, .other⟩ (transmit env id (.piece index begin data))
  else pure ()

/-- The loop of `have` over the connections: it passes over the tracker's and those
that are gone, and ends where a message cannot be sent. -/
def haveEffects (tracker : Option ConnectionId) (index : UInt32) :
    List ConnectionId → List Effect
  | [] => []
  | id :: ids =>
    if tracker = some id then haveEffects tracker index ids
    else if !env.hasConnection id then haveEffects tracker index ids
    else if !env.canSend id .have then []
    else .send id (.have index) :: haveEffects tracker index ids

def «have» (label : Label) (index : UInt32) : Handler Unit :=
  Process.atomically label fun s =>
    .ok ((), s, haveEffects env s.trackerConnectionId index s.connections)

/-- The indexes of the loop over `havePiece` in `requestNextPiece`. -/
def doesntHave (ndebug : Bool) (bitfield : List UInt8) : List ℕ → Except Fault (List ℕ)
  | [] => .ok []
  | index :: indexes => do
    let has ← havePiece ndebug (UInt32.ofNat index) bitfield
    let rest ← doesntHave ndebug bitfield indexes
    .ok (if has then rest else index :: rest)

def randomBlock (pieces : List Piece) (bitfield : List UInt8) : Except Fault (UInt32 × Block) := do
  aceAssert cfg.ndebug (pieces ≠ [])
  let doesntHave ← doesntHave cfg.ndebug bitfield (List.range pieces.length)
  let missing := (getPieceIndexes pieces true).filter (· ∉ doesntHave)
  aceAssert cfg.ndebug (missing ≠ [])
  match missing[env.randomPiece % missing.length]? with
  | none => .error .outOfRange
  | some index =>
    match pieces[index]? with
    | none => .error .outOfRange
    | some piece =>
      let chunks ← getMissingChunks cfg.ndebug piece.length piece.chunks
      aceAssert cfg.ndebug (chunks ≠ [])
      match chunks[env.randomChunk % chunks.length]? with
      | none => .error .endIterator
      | some block => .ok (UInt32.ofNat index, block)

def choosePiece (pieces : List Piece) (peer : PeerState) :
    Except Fault (Option (UInt32 × Block) × PeerState) := do
  if ← hasMissingPiece cfg.ndebug pieces peer.pieces then
    let chosen ← randomBlock cfg env pieces peer.pieces
    .ok (some chosen, peer)
  else .ok (none, { peer with status.amInterested := false })

def requestNextPiece (id : ConnectionId) : Handler Bool := do
  let key := connectionIdToPeerAddress cfg id
  let chosen ← Process.atomically ⟨id, .requesting⟩ (withPeer cfg key (choosePiece cfg env))
  match chosen with
  | some (index, block) =>
    request cfg env id index block.begin block.length
    pure true
  | none =>
    interested env id false
    pure false

/-- `++requesting_piece` and `--requesting_piece`. -/
def countRequests (change : ℤ) (peer : PeerState) : Except Fault PeerState :=
  let count := peer.status.requestingPiece + change
  if -2 ^ 31 ≤ count ∧ count < 2 ^ 31 then .ok { peer with status.requestingPiece := count }
  else .error .signedOverflow

/-- The scope behind a call of `requestNextPiece`. -/
def requested (id : ConnectionId) (requestingPiece : Bool) : Handler Unit :=
  Process.atomically ⟨id, .other⟩ <|
    withPeer cfg (connectionIdToPeerAddress cfg id) fun _ peer => do
      .ok ((), ← if requestingPiece then countRequests 1 peer else .ok peer)

def becomeInterested (hasMissingPiece : Bool) (peer : PeerState) : Bool × PeerState :=
  if !peer.status.amInterested && hasMissingPiece then
    (true, { peer with status.amInterested := true })
  else (false, peer)

def haveReceived (index : UInt32) (pieces : List Piece) (peer : PeerState) :
    Except Fault ((Bool × Bool) × PeerState) :=
  match peer.pieces[index.toNat / 8]? with
  | none => .error .outOfRange
  | some byte => do
    let peer := { peer with pieces := peer.pieces.set (index.toNat / 8) (byte ||| bitMask index) }
    let hasMissing ← hasMissingPiece cfg.ndebug pieces peer.pieces
    let interested := becomeInterested hasMissing peer
    .ok ((interested.1, hasMissing), interested.2)

def bitfieldReceived (bitfield : List UInt8) (pieces : List Piece) (peer : PeerState) :
    Except Fault (Bool × PeerState) :=
  let peer := { peer with pieces := bitfield }
  if peer.status.amInterested then .ok (false, peer)
  else do
    let hasMissing ← hasMissingPiece cfg.ndebug pieces bitfield
    let interested := becomeInterested hasMissing peer
    .ok (interested.1, interested.2)

/-- The local variables of PIECE behind its first scope. -/
structure PieceFlags where
  sendHave : Bool
  requestNextPiece : Bool
  notifyCompletion : Bool
  deriving DecidableEq, Repr

def continuePiece (key : UInt32) (sendHave notifyCompletion : Bool) (effects : List Effect) :
    Scope (Option PieceFlags) := fun s => do
  let peer ← assertFound cfg (s.peerState key)
  let requestNextPiece := !(peer.status.amChoking || notifyCompletion)
  .ok (some ⟨sendHave, requestNextPiece, notifyCompletion⟩, s, effects)

def writeEffects (index : UInt32) (fileName : List Char) : Option (List UInt8) → List Effect
  | none => []
  | some data => [.write index fileName data]

def pieceFile (numberOfPieces : ℕ) (index : UInt32) (piece : Piece) : List Char :=
  piecesPath cfg.downloadDirectory cfg.metaInfoFileName ++
    '/' :: pieceFileName numberOfPieces index piece

/-- Saving a piece that has passed its hash check, up to the label `continue_`; `none`:
the switch is left. -/
def completePiece (key index : UInt32) (piece : Piece) : Scope (Option PieceFlags) := fun s => do
  let saved ← savePiece env.toFileResults piece
  let writes := writeEffects index (pieceFile cfg s.pieces.length index piece) saved.written
  let s := s.setPiece index saved.piece
  if !saved.result then do
    aceAssert cfg.ndebug false
    .ok (none, s, writes)
  else if isMissingPiece s.pieces then continuePiece cfg key true false writes s
  else if !env.assembled then do
    aceAssert cfg.ndebug false
    .ok (none, s, writes)
  else continuePiece cfg key true true writes s

def pieceReceived (key index begin : UInt32) (block : Option MessageBlock) :
    Scope (Option PieceFlags) := fun s =>
  match s.pieces[index.toNat]? with
  | none => .error .outOfRange
  | some piece =>
    if piece.onDisk || isPieceComplete piece.length piece.chunks then
      continuePiece cfg key false false [] s
    else
      match block with
      | none => .error .nullPointer
      | some data =>
        if !env.duplicated then continuePiece cfg key false false [] s
        else do
          let chunks ← appendChunk cfg.sort piece.chunks ⟨data, begin⟩
          let piece := { piece with chunks := chunks }
          if !isPieceComplete piece.length piece.chunks then
            continuePiece cfg key false false [] (s.setPiece index piece)
          else do
            if ← validatePieceHash cfg.ndebug cfg.sha1 piece then
              completePiece cfg env key index piece s
            else continuePiece cfg key false false [] (s.setPiece index (freeChunks piece))

def notifyHave (id : ConnectionId) (index : UInt32) : Handler Unit := do
  let key := connectionIdToPeerAddress cfg id
  let (sendInterested, hasMissing) ←
    Process.atomically ⟨id, .other⟩ (withPeer cfg key (haveReceived cfg index))
  Process.guarded sendInterested (interested env id true)
  let (amChoking, requestPiece) ← Process.atomically ⟨id, .other⟩ <|
    withPeer cfg key fun _ peer => .ok ((peer.status.amChoking,
      !peer.status.amChoking && peer.status.requestingPiece == 0 && hasMissing), peer)
  if requestPiece then
    let requestingPiece ← requestNextPiece cfg env id
    requested cfg id requestingPiece
  else
    Process.guarded (!amChoking && hasMissing) do
      let connections ← Process.atomically ⟨id, .other⟩ <|
        withPeer cfg key fun _ peer => .ok (peer.connections.length, peer)
      Process.guarded (cfg.allowMultipleConnectionsPerPeer && connections < 5) <|
        emit ⟨id, .other⟩ (if env.hasConnection id then [.connect id] else [])

/-- PIECE in `notify`. Where the first scope finds that the peer does not choke, all
scopes up to the REQUEST rely on it. -/
def notifyPiece (id : ConnectionId) (index begin : UInt32) (block : Option MessageBlock) :
    Handler Unit := do
  let key := connectionIdToPeerAddress cfg id
  let flags ← Process.atomically ⟨id, .other⟩ fun s => do
    aceAssert cfg.ndebug block.isSome
    pieceReceived cfg env key index begin block s
  match flags with
  | none => pure ()
  | some flags =>
    let label : Label := ⟨id, if flags.requestNextPiece then .requesting else .other⟩
    Process.guarded flags.sendHave («have» env label index)
    Process.atomically label
      (withPeer cfg key fun _ peer => do .ok ((), ← countRequests (-1) peer))
    Process.guarded flags.requestNextPiece do
      let requestingPiece ← requestNextPiece cfg env id
      Process.guarded requestingPiece (requested cfg id true)
    Process.guarded flags.notifyCompletion
      (emit ⟨id, .other⟩ [.notify cfg.metaInfoFileName .complete []])

def notify (id : ConnectionId) (record : PeerRecord) (block : Option MessageBlock) :
    Handler Unit :=
  let key := connectionIdToPeerAddress cfg id
  if record.length = 0 then pure ()
  else
    match record.type with
    | some .choke => Process.atomically ⟨id, .choke⟩ <|
        withPeer cfg key fun _ peer => .ok ((), { peer with status.amChoking := true })
    | some .unchoke => do
      let requestPiece ← Process.atomically ⟨id, .other⟩ <|
        withPeer cfg key fun _ peer => .ok (1 < peer.connections.length || peer.pieces ≠ [],
          { peer with status.amChoking := false })
      Process.guarded requestPiece do
        let requestingPiece ← requestNextPiece cfg env id
        Process.guarded requestingPiece (requested cfg id true)
    | some .interested => do
      Process.atomically ⟨id, .other⟩ <| withPeer cfg key fun _ peer =>
        .ok ((), { peer with status.peerInterested := true, status.peerChoking := false })
      choke env id false
    | some .notInterested => Process.atomically ⟨id, .other⟩ <|
        withPeer cfg key fun _ peer => .ok ((), { peer with status.peerInterested := false })
    | some .have => notifyHave cfg env id record.payload.index
    | some .bitfield => do
      let sendInterested ← Process.atomically ⟨id, .other⟩
        (withPeer cfg key (bitfieldReceived cfg record.bitfield))
      Process.guarded sendInterested (interested env id true)
    | some .request => do
      let sendPiece ← Process.atomically ⟨id, .other⟩ <|
        withPeer cfg key fun _ peer => .ok (!peer.status.peerChoking, peer)
      Process.guarded sendPiece
        (piece cfg env id record.payload.index record.payload.begin record.payload.length)
    | some .piece => notifyPiece cfg env id record.payload.index record.payload.begin block
    -- CANCEL and unknown types are only logged
    | some .cancel | none => pure ()

def insertConnection (id : ConnectionId) : Scope Unit := fun s =>
  if id ∈ s.connections then do
    aceAssert cfg.ndebug false
    .ok ((), s, [])
  else .ok ((), { s with connections := s.connections.orderedInsert (· ≤ ·) id }, [])

def enterPeer (key : UInt32) (id : ConnectionId) : Scope Bool := fun s =>
  let peer := (s.peerState key).getD {}
  .ok (peer.pieces = [], s.setPeer key { peer with connections := peer.connections ++ [id] }, [])

def pieceHashSize : ℕ := 20

/-- `unsigned int pieces` in `populatePeerPiecesBitfield`. -/
def Configuration.numberOfPieces : ℕ :=
  (UInt32.ofNat cfg.pieceHashesSize).toNat / pieceHashSize

def populatePeerPiecesBitfield (_ : List Piece) (peer : PeerState) :
    Except Fault (Unit × PeerState) := do
  aceAssert cfg.ndebug (peer.pieces = [])
  aceAssert cfg.ndebug (cfg.pieceHashesSize % pieceHashSize = 0)
  .ok ((), { peer with pieces := peer.pieces.takeD (bitfieldLength cfg.numberOfPieces) 0 })

/-- The bitfield that `connect` sends; it has a byte for every piece. -/
def pieceBitfield (pieces : List Piece) : List UInt8 :=
  (getPieceIndexes pieces false).foldl
    (fun bitfield index => bitfield.modify (index / 8) (· ||| bitMask (UInt32.ofNat index)))
    (List.replicate pieces.length 0)

def connect (id : ConnectionId) : Handler Unit := do
  let key := connectionIdToPeerAddress cfg id
  let label : Label := ⟨id, .other⟩
  Process.atomically label (insertConnection cfg id)
  let populate ← Process.atomically label (enterPeer key id)
  Process.guarded populate
    (Process.atomically label (withPeer cfg key (populatePeerPiecesBitfield cfg)))
  Process.guarded (env.hasConnection id && env.canSendHandShake) do
    emit label [.handShake id cfg.handShake]
    Process.atomically label fun s =>
      .ok ((), s,
        if getPieceIndexes s.pieces false ≠ [] ∧ cfg.sendBitfieldAfterHandshake then
          transmit env id (.bitfield (pieceBitfield s.pieces))
        else [])

def eraseConnection (id : ConnectionId) : Scope Unit := fun s => do
  let id ← assertFound cfg (s.connections.find? (· = id))
  .ok ((), { s with connections := s.connections.erase id }, [])

def leavePeer (key : UInt32) (id : ConnectionId) : Scope Bool := fun s => do
  let peer ← assertFound cfg (s.peerState key)
  let id ← assertFound cfg (peer.connections.find? (· = id))
  let connections := peer.connections.erase id
  let t :=
    if connections = [] then { s with peerState := Function.update s.peerState key none }
    else s.setPeer key { peer with connections := connections }
  .ok (s.connections = [] && !s.connecting, t, [])

def disconnect (id : ConnectionId) : Handler Unit := do
  let key := connectionIdToPeerAddress cfg id
  Process.atomically ⟨id, .other⟩ (eraseConnection cfg id)
  let notifyController ← Process.atomically ⟨id, .disconnect⟩ (leavePeer cfg key id)
  Process.guarded notifyController
    (emit ⟨id, .other⟩ [.notify (fileBasename cfg.metaInfoFileName) .noMorePeers []])

def trackerConnect (id : ConnectionId) : Handler Unit := do
  Process.atomically ⟨id, .other⟩ fun s =>
    .ok ((), { s with trackerConnectionId := some id },
      match s.trackerConnectionId with
      | some earlier => if env.hasConnection earlier then [.abort earlier] else []
      | none => [])
  Process.atomically ⟨id, .other⟩ (insertConnection cfg id)

def trackerEvent (s : SessionState) : Option ControlEvent :=
  if s.aborted then some .cancelled
  else if isMissingPiece s.pieces && s.connections = [] && !s.connecting then some .noMorePeers
  else none

def trackerDisconnect (id : ConnectionId) : Handler Unit := do
  Process.atomically ⟨id, .other⟩ (eraseConnection cfg id)
  let event ← Process.atomically ⟨id, .other⟩ fun s =>
    .ok (trackerEvent s, { s with trackerConnectionId :=
      if s.trackerConnectionId = some id then none else s.trackerConnectionId }, [])
  match event with
  | none => pure ()
  | some event => emit ⟨id, .other⟩ [.notify cfg.metaInfoFileName event []]

def trackerRedirect (id : ConnectionId) (location : List Char) : Handler Unit :=
  emit ⟨id, .other⟩ [.notify cfg.metaInfoFileName .trackerRedirected location]

def trackerError (id : ConnectionId) : Handler Unit :=
  emit ⟨id, .other⟩ [.notify cfg.metaInfoFileName .cancelled []]

/-- `notify` of a response of the tracker: a failure, or the addresses of peers that
threads of their own connect to. -/
def trackerResponse (id : ConnectionId) (failure : Bool) : Handler Unit :=
  Process.atomically ⟨id, .other⟩ fun s =>
    .ok ((), if failure then { s with aborted := true } else { s with connecting := true }, [])

def peersConnected (id : ConnectionId) : Handler Unit :=
  Process.atomically ⟨id, .other⟩ fun s => .ok ((), { s with connecting := false }, [])

def rerequestPeers (id : ConnectionId) : Handler Unit :=
  emit ⟨id, .other⟩ [.notifyTracker (fileBasename cfg.metaInfoFileName) .trackerRerequestPeers]

/-- A call that a connection to a peer or to the tracker makes into the session. -/
inductive Call where
  | connect
  | disconnect
  | record (record : PeerRecord) (block : Option MessageBlock)
  | trackerConnect
  | trackerDisconnect
  | trackerRedirect (location : List Char)
  | trackerError
  | trackerResponse (failure : Bool)
  | peersConnected
  | rerequestPeers
  deriving DecidableEq, Repr

/-- A call, the connection that makes it and what its handler meets. -/
structure Job where
  id : ConnectionId
  call : Call
  env : Environment

def Job.handler (job : Job) : Handler Unit :=
  match job.call with
  | .connect => connect cfg job.env job.id
  | .disconnect => disconnect cfg job.id
  | .record record block => notify cfg job.env job.id record block
  | .trackerConnect => trackerConnect cfg job.env job.id
  | .trackerDisconnect => trackerDisconnect cfg job.id
  | .trackerRedirect location => trackerRedirect cfg job.id location
  | .trackerError => trackerError cfg job.id
  | .trackerResponse failure => trackerResponse job.id failure
  | .peersConnected => peersConnected job.id
  | .rerequestPeers => rerequestPeers cfg job.id

/-- A job whose handler runs alone: the state that it leaves and its effects. -/
def handle (s : SessionState) (job : Job) : Except Fault (SessionState × List Effect) :=
  match (job.handler cfg).run s with
  | .ok (_, t, out) => .ok (t, out)
  | .error e => .error e

theorem handle_ensures {s : SessionState} {job : Job} {Q : SessionState → List Effect → Prop}
    {F : Fault → Prop} (h : (job.handler cfg).Ensures s (fun _ t out => Q t out) F) :
    (∀ t out, handle cfg s job = .ok (t, out) → Q t out) ∧
      ∀ e, handle cfg s job = .error e → F e := by
  unfold Process.Ensures at h
  unfold handle
  split at h
  · rename_i hrun
    simp only [hrun]
    exact ⟨fun t out heq => by cases heq; exact h, fun e heq => by cases heq⟩
  · rename_i hrun
    simp only [hrun]
    exact ⟨fun t out heq => (by cases heq), fun e heq => by cases heq; exact h⟩

/-- A torrent of one piece; two connections lead to ports of one host, a third to another host. -/
def sampleConfiguration (ndebug : Bool) : Configuration where
  ndebug := ndebug
  address id :=
    if id = 1 then some (.ipv4 0x0A000001 6881)
    else if id = 2 then some (.ipv4 0x0A000001 6882)
    else if id = 3 then some (.ipv4 0x0A000002 6881)
    else none
  sha1 _ := Vector.replicate 20 0
  sort := insertionSorter
  metaInfoFileName := ['d', '/', 'a', '.', 't']
  downloadDirectory := ['d']
  pieceHashesSize := 20
  handShake := ⟨defaultPstr, List.replicate 8 0, List.replicate 20 0, List.replicate 20 0⟩
  allowMultipleConnectionsPerPeer := false
  sendBitfieldAfterHandshake := true

def sampleEnvironment : Environment where
  directory := true
  opened := true
  transferred := none
  closed := true
  assembled := true
  files := [['0', '_', 'a', 'b', 'c', 'd', 'e', 'f', '.', 'p', 'i', 'e', 'c', 'e']]
  load _ := some [7, 8]
  hasConnection _ := true
  canSend _ _ := true
  canSendHandShake := true
  duplicated := true
  randomPiece := 0
  randomChunk := 0

def samplePiece (onDisk : Bool) : Piece :=
  ⟨[], ['a', 'b', 'c', 'd', 'e', 'f'], Vector.replicate 20 0, 2, onDisk⟩

def sampleSession (pieces : List Piece) (peers : List (UInt32 × PeerState)) : SessionState where
  connections := peers.flatMap fun peer => peer.2.connections
  connecting := false
  trackerConnectionId := none
  aborted := false
  pieces := pieces
  peerState key := (peers.find? fun peer => peer.1 = key).map Prod.snd

end ACENetwork.BitTorrent.Session
