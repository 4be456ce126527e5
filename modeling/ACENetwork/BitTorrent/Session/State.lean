import ACENetwork.BitTorrent.Tools.Pieces
import ACENetwork.BitTorrent.Tools.Storage
import ACENetwork.BitTorrent.Wire.Streamer
import ACENetwork.Library.Process

/-!
# The state of a session

A session keeps its connections, its pieces and, for every peer address, the
connections to the peer, its bitfield and the status of the exchange with it. The
key of a peer is a word that is computed from its address.
-/
namespace ACENetwork.BitTorrent
open Library

/-- `Net_ConnectionId_t`. The handlers assert that it is not the null handle. -/
abbrev ConnectionId := ℕ+

scoped instance (priority := 2000) (n : ℕ) : OfNat ConnectionId (n + 1) := ⟨⟨n + 1, n.succ_pos⟩⟩

/-- The addresses that `connectionIdToPeerAddress` supports. -/
inductive InetAddr where
  | ipv4 (address : UInt32) (port : UInt16)
  | ipv6 (address : Vector UInt8 16) (port : UInt16)
  deriving DecidableEq, Repr

/-- The key of an address: an IPv4 address, or four bytes of an IPv6 address. -/
def InetAddr.key : InetAddr → UInt32
  | .ipv4 address _ => address
  | .ipv6 data _ =>
    data[0].toUInt32 ||| (data[5].toUInt32 <<< 8) ||| (data[9].toUInt32 <<< 16) |||
      (data[13].toUInt32 <<< 24)

inductive ControlEvent where
  | cancelled
  | complete
  | noMorePeers
  | trackerRerequestPeers
  | trackerRedirected
  deriving DecidableEq, Repr

def Message.type : Message → MessageType
  | .choke => .choke
  | .unchoke => .unchoke
  | .interested => .interested
  | .notInterested => .notInterested
  | .have _ => .have
  | .bitfield _ => .bitfield
  | .request _ _ _ => .request
  | .piece _ _ _ => .piece
  | .cancel _ _ _ => .cancel

namespace Session

/-- What a session is configured with, and the parts of the program that it relies on. -/
structure Configuration where
  ndebug : Bool
  /-- the address that the connection manager has for a connection -/
  address : ConnectionId → Option InetAddr
  sha1 : List UInt8 → Vector UInt8 20
  sort : Sorter pieceChunksLess
  metaInfoFileName : List Char
  downloadDirectory : List Char
  /-- the length of the string of piece hashes in the metainfo -/
  pieceHashesSize : ℕ
  handShake : PeerHandShake
  allowMultipleConnectionsPerPeer : Bool
  sendBitfieldAfterHandshake : Bool

/-- What the calls of one handler return that the session does not determine. -/
structure Environment extends FileResults where
  hasConnection : ConnectionId → Bool
  canSend : ConnectionId → MessageType → Bool
  canSendHandShake : Bool
  duplicated : Bool
  randomPiece : ℕ
  randomChunk : ℕ

structure PeerStatus where
  amChoking : Bool := true
  amInterested : Bool := false
  peerChoking : Bool := true
  peerInterested : Bool := false
  requestingPiece : ℤ := 0
  deriving DecidableEq, Repr

structure PeerState where
  connections : List ConnectionId := []
  pieces : List UInt8 := []
  status : PeerStatus := {}
  deriving DecidableEq, Repr

/-- The part of `BitTorrent_SessionState` that the handlers of peers and of the tracker use.
The set of connections is in the order of its iteration. -/
structure SessionState where
  connections : List ConnectionId
  connecting : Bool
  trackerConnectionId : Option ConnectionId
  aborted : Bool
  pieces : List Piece
  peerState : UInt32 → Option PeerState

/-- What a handler does outside the session. -/
inductive Effect where
  | send (id : ConnectionId) (message : Message)
  | handShake (id : ConnectionId) (record : PeerHandShake)
  /-- another connection to the peer address of this one -/
  | connect (id : ConnectionId)
  /-- an established connection is closed -/
  | abort (id : ConnectionId)
  /-- an event for the queue of the controller -/
  | notify (metaInfoFileName : List Char) (event : ControlEvent) (data : List Char)
  /-- a call of the controller -/
  | notifyTracker (metaInfoFileName : List Char) (event : ControlEvent)
  | write (index : UInt32) (fileName : List Char) (data : List UInt8)
  | read (index : UInt32) (data : List UInt8)
  deriving DecidableEq, Repr

/-- What is told apart about the scopes of the handlers: those that set `am_choking`
or may erase a peer, the one that attaches a chunk of a piece, and those between the
decision to request a piece and the REQUEST. -/
inductive Point where
  | choke
  | disconnect
  | serve (index : UInt32)
  | requesting
  | other
  deriving DecidableEq, Repr

structure Label where
  connection : ConnectionId
  point : Point
  deriving DecidableEq, Repr

abbrev Handler := Process Label SessionState Effect Fault

abbrev Scope (β : Type) := SessionState → Except Fault (β × SessionState × List Effect)

variable (cfg : Configuration)

def connectionIdToPeerAddress (id : ConnectionId) : UInt32 :=
  match cfg.address id with
  | none => 0
  | some address => address.key

def SessionState.setPeer (s : SessionState) (key : UInt32) (peer : PeerState) : SessionState :=
  { s with peerState := Function.update s.peerState key (some peer) }

def SessionState.setPiece (s : SessionState) (index : UInt32) (piece : Piece) : SessionState :=
  { s with pieces := s.pieces.set index.toNat piece }

/-- `find` and the assertion that follows it, or else the read of `end ()`. -/
def assertFound {α : Type} : Option α → Except Fault α
  | some a => .ok a
  | none => .error (if cfg.ndebug then .endIterator else .assertion)

/-- A scope that reads the pieces and updates the state of one peer. -/
def withPeer {β : Type} (key : UInt32)
    (update : List Piece → PeerState → Except Fault (β × PeerState)) : Scope β := fun s => do
  let peer ← assertFound cfg (s.peerState key)
  let (result, peer) ← update s.pieces peer
  .ok (result, s.setPeer key peer, [])

section SessionState

variable (s : SessionState) (key key' : UInt32) (peer : PeerState) (index : UInt32) (piece : Piece)

@[simp] theorem setPeer_pieces : (s.setPeer key peer).pieces = s.pieces := rfl

@[simp] theorem setPeer_connections : (s.setPeer key peer).connections = s.connections := rfl

@[simp] theorem setPeer_self : (s.setPeer key peer).peerState key = some peer := by
  simp [SessionState.setPeer]

theorem setPeer_peerState : (s.setPeer key peer).peerState key' =
    if key' = key then some peer else s.peerState key' := by
  by_cases h : key' = key
  · subst h
    simp
  · simp [SessionState.setPeer, h]

@[simp] theorem setPiece_peerState : (s.setPiece index piece).peerState = s.peerState := rfl

@[simp] theorem setPiece_pieces :
    (s.setPiece index piece).pieces = s.pieces.set index.toNat piece := rfl

end SessionState

variable {cfg}

theorem assertFound_ok {α : Type} {o : Option α} {a : α} :
    assertFound cfg o = .ok a ↔ o = some a := by
  cases o <;> simp [assertFound]

theorem assertFound_error {α : Type} {o : Option α} {e : Fault} (h : assertFound cfg o = .error e) :
    e ≠ .outOfRange := by
  cases o with
  | some a => simp [assertFound] at h
  | none =>
    obtain rfl := Except.error.inj h
    split <;> simp

theorem withPeer_ok {β : Type} {key : UInt32}
    {update : List Piece → PeerState → Except Fault (β × PeerState)} {s t : SessionState} {b : β}
    {out : List Effect} :
    withPeer cfg key update s = .ok (b, t, out) ↔
      ∃ peer peer', s.peerState key = some peer ∧ update s.pieces peer = .ok (b, peer') ∧
        t = s.setPeer key peer' ∧ out = [] := by
  simp only [withPeer, fault_bind_ok, assertFound_ok]
  constructor
  · rintro ⟨peer, hpeer, ⟨b', peer'⟩, hupdate, hok⟩
    obtain ⟨rfl, rfl, rfl⟩ : b' = b ∧ s.setPeer key peer' = t ∧ [] = out := by simpa using hok
    exact ⟨peer, peer', hpeer, hupdate, rfl, rfl⟩
  · rintro ⟨peer, peer', hpeer, hupdate, rfl, rfl⟩
    exact ⟨peer, hpeer, (b, peer'), hupdate, rfl⟩

end Session
end ACENetwork.BitTorrent
