import ACENetwork.Net.Common

/-!
# The connection manager

`Net_Connection_Manager_T` keeps its connections in a list, in the order in which they were
registered, and looks them up by their id, which is the handle of their socket. A
connection is named by its place in the order of creation; an invalid handle is `none`.
-/
namespace ACENetwork.Net

structure ConnectionManager where
  isActive : Bool
  maximumNumberOfConnections : ℕ
  connections : List ℕ
  deriving DecidableEq, Repr

namespace ConnectionManager

/-- `Net_Connection_Manager_T::register_`, which may refuse the connection. -/
def register_ (connection : ℕ) (m : ConnectionManager) : Option ConnectionManager :=
  if m.isActive = false ∨ m.maximumNumberOfConnections ≤ m.connections.length then none
  else some { m with connections := m.connections ++ [connection] }

def deregister (connection : ℕ) (m : ConnectionManager) : ConnectionManager :=
  { m with connections := m.connections.erase connection }

def get (id : ℕ → Option ℕ) (handle : ℕ) (m : ConnectionManager) : Option ℕ :=
  m.connections.find? fun connection => id connection = some handle

variable {m n : ConnectionManager} {connection : ℕ}

theorem register_eq_some (h : m.register_ connection = some n) :
    n.connections = m.connections ++ [connection] := by
  unfold register_ at h
  split at h
  · cases h
  · cases h
    rfl

theorem get_eq_some {id : ℕ → Option ℕ} {handle : ℕ} (h : m.get id handle = some connection) :
    connection ∈ m.connections ∧ id connection = some handle := by
  have hid := List.find?_some h
  exact ⟨List.mem_of_find?_eq_some h, by simpa using hid⟩

theorem exists_get {id : ℕ → Option ℕ} {handle : ℕ} (hmem : connection ∈ m.connections)
    (hid : id connection = some handle) : ∃ found, m.get id handle = some found := by
  rw [← Option.isSome_iff_exists, get, List.find?_isSome]
  exact ⟨connection, hmem, by simpa using hid⟩

end ConnectionManager

end ACENetwork.Net
