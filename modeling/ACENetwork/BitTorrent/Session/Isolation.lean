import ACENetwork.BitTorrent.Session.Transitions

/-!
# Peers and their keys

What is recorded about a peer is found by the key of its address: an IPv4 address without
its port, or four bytes of an IPv6 address. A message changes nothing that is recorded
under another key, and endpoints with one key share their record.
-/
namespace ACENetwork.BitTorrent.Session
open Library

/-- The bitfield, the flags and the counter that are used for a connection. -/
def recorded (cfg : Configuration) (s : SessionState) (id : ConnectionId) :
    Option (List UInt8 × PeerStatus) :=
  (s.peerState (connectionIdToPeerAddress cfg id)).map fun peer => (peer.pieces, peer.status)

theorem connectionIdToPeerAddress_live {cfg : Configuration} {id : ConnectionId}
    {address : InetAddr} (h : cfg.address id = some address) :
    connectionIdToPeerAddress cfg id = address.key := by
  rw [connectionIdToPeerAddress, h]

/-- Handling a message that is received on one connection leaves what is recorded for
another one alone if their addresses have different keys: alone, and scope by scope
beside any other handlers. -/
theorem recorded_isolated (cfg : Configuration) (s : SessionState) (id other : ConnectionId)
    (address address' : InetAddr) (hid : cfg.address id = some address)
    (hother : cfg.address other = some address') (hkeys : address.key ≠ address'.key)
    (record : PeerRecord) (block : Option MessageBlock) (env : Environment) :
    (∀ t out, handle cfg s ⟨id, .record record block, env⟩ = .ok (t, out) →
      recorded cfg t other = recorded cfg s other) ∧
    (notify cfg env id record block).AllScopes fun _ s r =>
      ∀ t out, r = .ok (t, out) → recorded cfg t other = recorded cfg s other := by
  have hkey : connectionIdToPeerAddress cfg other ≠
      Job.key cfg ⟨id, .record record block, env⟩ := by
    rw [Job.key, connectionIdToPeerAddress_live hid, connectionIdToPeerAddress_live hother]
    exact hkeys.symm
  have hscopes : (Job.handler cfg ⟨id, .record record block, env⟩).AllScopes fun _ s r =>
      ∀ t out, r = .ok (t, out) → recorded cfg t other = recorded cfg s other := by
    refine (Job.allScopes_handler ⟨id, .record record block, env⟩).mono ?_
    intro l s r h t out hr
    rw [recorded, transition_peers h hr hkey, recorded]
  refine ⟨?_, hscopes⟩
  have hrun := hscopes.ensures (fun t => recorded cfg t other = recorded cfg s other)
    (fun _ => True) (fun _ t t' out ht hscope => (hscope t' out rfl).trans ht)
    (fun _ _ _ _ _ => trivial) rfl
  exact (handle_ensures cfg hrun).1

def sampleNeighbours : SessionState :=
  sampleSession [samplePiece false]
    [(0x0A000001, { connections := [1, 2], pieces := [0x80], status := { amChoking := false } }),
      (0x0A000002, { connections := [3], pieces := [0x80], status := { amChoking := false } })]

theorem recorded_isolated_choke :
    ∃ t out, handle (sampleConfiguration false) sampleNeighbours
        ⟨1, .record ⟨1, some .choke, [], ⟨0, 0, 0⟩⟩ none, sampleEnvironment⟩ = .ok (t, out) ∧
      recorded (sampleConfiguration false) t 3 =
        recorded (sampleConfiguration false) sampleNeighbours 3 :=
  ⟨_, _, rfl, (recorded_isolated (sampleConfiguration false) sampleNeighbours 1 3
    (.ipv4 0x0A000001 6881) (.ipv4 0x0A000002 6881) rfl rfl (by decide)
    ⟨1, some .choke, [], ⟨0, 0, 0⟩⟩ none sampleEnvironment).1 _ _ rfl⟩

/-- Two ports of one host share the flag that a CHOKE from one of them sets. -/
theorem recorded_not_isolated :
    ¬ ∀ (cfg : Configuration) (s : SessionState) (id other : ConnectionId)
      (address address' : InetAddr), cfg.address id = some address →
        cfg.address other = some address' → address ≠ address' →
        ∀ (record : PeerRecord) (block : Option MessageBlock) (env : Environment) t out,
          handle cfg s ⟨id, .record record block, env⟩ = .ok (t, out) →
            recorded cfg t other = recorded cfg s other := by
  intro h
  have hrecorded := h (sampleConfiguration false) sampleNeighbours 1 2 (.ipv4 0x0A000001 6881)
    (.ipv4 0x0A000001 6882) rfl rfl (by decide) ⟨1, some .choke, [], ⟨0, 0, 0⟩⟩ none
    sampleEnvironment _ _ rfl
  exact absurd hrecorded (by decide)

end ACENetwork.BitTorrent.Session
