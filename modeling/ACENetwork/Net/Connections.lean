import ACENetwork.Net.ConnectionManager
import ACENetwork.Library.Runs

/-!
# Connections and the descriptors of their sockets

Any number of connections, of the reactor and of the proactor, with the connection manager
and a session. The operating system may give the number of a closed descriptor to the next
socket. `abort`, `handle_close` and the error path of `open` go on step by step, in any
order.
-/
namespace ACENetwork.Net
open BitTorrent (Fault)

/-- Whether a connection is a `Net_StreamConnectionBase_T` or a
`Net_AsynchStreamConnectionBase_T`. -/
inductive Kind where
  | reactor
  | proactor
  deriving DecidableEq, Repr

inductive Phase where
  | duplicate
  | handle
  | register
  | stream
  | start
  | read
  | status
  | done
  deriving DecidableEq, Repr

/-- The steps of `abort`, of `handle_close` and of the error path of `open`. -/
inductive Instruction where
  | shutdown (handle : ℕ)
  | closesocket (handle : ℕ)
  | shutdownState
  | shutdownWrite
  | handleCloseState
  | closeWrite
  | clearWrite
  | lock
  | stop
  | stopErased
  | closePeer
  | deregister
  | invalidate
  deriving DecidableEq, Repr

/-- What of a connection has to do with its descriptors: the handle of its socket, `handle` of
its state and `writeHandle_`; how far it has been opened, and the calls that are under way.
The number of the socket, and how many calls have been made that close the connection, are a
record of what has happened. -/
structure Connection where
  kind : Kind
  number : ℕ
  handle : Option ℕ
  stateHandle : Option ℕ
  writeHandle : Option ℕ
  phase : Phase
  closed : Bool
  isRegistered : Bool
  streaming : Bool
  calls : List (List Instruction)
  closings : ℕ
  deriving DecidableEq, Repr

/-- A call of `shutdown` or `closesocket`, with the connection that had opened the descriptor
when it was made. -/
structure SystemCall where
  connection : ℕ
  descriptor : Option ℕ
  owner : Option ℕ
  deriving DecidableEq, Repr

/-- A call of `wait_2`, with the connections that it has found under the handle first and last. -/
structure Waiter where
  handle : ℕ
  first : ℕ
  last : ℕ
  deriving DecidableEq, Repr

/-- The connections, those who have opened the descriptors that are open, the connection manager
and the ids of the session. -/
structure World where
  descriptors : ℕ → Option ℕ
  connections : ℕ → Option Connection
  created : ℕ
  manager : ConnectionManager
  session : Finset (Option ℕ)
  waiters : List Waiter
  systemCalls : List SystemCall

namespace World

def start (manager : ConnectionManager) : World where
  descriptors _ := none
  connections _ := none
  created := 0
  manager := { manager with connections := [] }
  session := ∅
  waiters := []
  systemCalls := []

def put (i : ℕ) (c : Connection) (w : World) : World :=
  { w with connections := Function.update w.connections i (some c) }

/-- The socket `fd` is opened on behalf of a connection. -/
def allocate (i fd : ℕ) (w : World) : World :=
  { w with descriptors := Function.update w.descriptors fd (some i) }

def shutdown (i : ℕ) (fd : Option ℕ) (w : World) : World :=
  { w with systemCalls := w.systemCalls ++ [⟨i, fd, fd.bind w.descriptors⟩] }

def closesocket (i fd : ℕ) (w : World) : World :=
  { w with
    descriptors := Function.update w.descriptors fd none
    systemCalls := w.systemCalls ++ [⟨i, some fd, w.descriptors fd⟩] }

def sessionConnect (id : Option ℕ) (w : World) : Except (Option Fault) World :=
  if id ∈ w.session then .error (some .assertion) else .ok { w with session := insert id w.session }

def sessionDisconnect (id : Option ℕ) (w : World) : Except (Option Fault) World :=
  if id ∈ w.session then .ok { w with session := w.session.erase id }
  else .error (some .assertion)

def id (w : World) (i : ℕ) : Option ℕ := (w.connections i).bind Connection.handle

end World

def socketHandleClose (handle : Option ℕ) : List Instruction :=
  handle.toList.map .closesocket ++ [.closeWrite, .clearWrite]

def asynchHandleClose (handle : Option ℕ) : List Instruction :=
  [.stop, .deregister] ++ socketHandleClose handle

def streamHandleClose : List Instruction := [.lock, .closePeer, .deregister]

def asynchAbort : List Instruction := [.shutdownState, .shutdownWrite, .handleCloseState]

def streamAbort : Option ℕ → List Instruction
  | none => []
  | some handle => [.shutdown handle, .closesocket handle]

namespace Connection

def opened (kind : Kind) (fd : ℕ) : Connection where
  kind := kind
  number := fd
  handle := some fd
  stateHandle := none
  writeHandle := none
  phase := match kind with
    | .reactor => .handle
    | .proactor => .duplicate
  closed := false
  isRegistered := false
  streaming := false
  calls := []
  closings := 0

def close (call : List Instruction) (c : Connection) : Connection :=
  { c with calls := c.calls ++ [call], closings := c.closings + 1 }

def abort (c : Connection) : Connection :=
  match c.kind with
  | .reactor => c.close (streamAbort c.handle)
  | .proactor => c.close asynchAbort

def handleClose (c : Connection) : Connection :=
  match c.kind with
  | .reactor => c.close streamHandleClose
  | .proactor => c.close (asynchHandleClose c.handle)

/-- What the error path of `open` undoes; of the reactor it has erased the handle of the session
when it stops the stream. -/
def undo (c : Connection) : List Instruction :=
  match c.phase, c.kind with
  | .stream, _ => [.deregister]
  | .read, .reactor => [.stopErased, .deregister]
  | .read, .proactor => [.stop, .deregister]
  | _, _ => []

/-- The error path of `open`; of the proactor it closes the connection. -/
def fail (c : Connection) : Connection :=
  let call := c.undo ++ [.invalidate]
  match c.kind with
  | .reactor => { c with phase := .done, calls := c.calls ++ [call] }
  | .proactor => { c.close (call ++ asynchHandleClose c.handle) with phase := .done }

/-- What the destructor closes: of the reactor the socket, unless `handle_close` has closed it,
of the proactor `writeHandle_`. -/
def remaining (c : Connection) : Option ℕ :=
  match c.kind with
  | .reactor => c.handle
  | .proactor => c.writeHandle

def Readable (c : Connection) : Prop := c.phase = .read ∨ c.phase = .status ∨ c.phase = .done

instance (c : Connection) : Decidable c.Readable := inferInstanceAs (Decidable (_ ∨ _))

end Connection

namespace World

/-- The next step of `open`: the result of the call that it makes, or the descriptor that `dup`
has returned. -/
def stepOpen (i : ℕ) (c : Connection) (ok : Bool) (fd : Option ℕ) (w : World) :
    Except (Option Fault) World :=
  match c.phase with
  | .duplicate =>
    match fd with
    | none => .ok (w.put i { c with phase := .handle })
    | some fd =>
      if w.descriptors fd = none then
        .ok ((w.allocate i fd).put i { c with writeHandle := some fd, phase := .handle })
      else .error none
  | .handle => .ok (w.put i { c with stateHandle := c.handle, phase := .register })
  | .register =>
    match w.manager.register_ i with
    | none => .ok (w.put i c.fail)
    | some manager =>
      .ok ({ w with manager := manager }.put i { c with isRegistered := true, phase := .stream })
  | .stream => .ok (w.put i (if ok then { c with phase := .start } else c.fail))
  | .start =>
    (w.sessionConnect c.stateHandle).map (put i { c with streaming := true, phase := .read })
  | .read => .ok (w.put i (if ok then { c with phase := .status } else c.fail))
  | .status =>
    .ok (w.put i { (if c.kind = .reactor ∨ ok then c else c.handleClose) with phase := .done })
  | .done => .error none

/-- The `k`-th call that is under way executes its next instruction; `rest` is what follows. -/
def exec (i : ℕ) (c : Connection) (k : ℕ) (rest : List Instruction) (x : Instruction) (w : World) :
    Except (Option Fault) World :=
  let next := { c with calls := c.calls.set k rest }
  match x with
  | .shutdown handle => .ok ((w.shutdown i (some handle)).put i next)
  | .closesocket handle => .ok ((w.closesocket i handle).put i next)
  | .shutdownState => .ok ((w.shutdown i c.stateHandle).put i next)
  | .shutdownWrite =>
    match c.writeHandle with
    | none => .ok (w.put i next)
    | some fd => .ok ((w.shutdown i (some fd)).put i next)
  | .handleCloseState =>
    .ok (w.put i { c with calls := c.calls.set k (socketHandleClose c.stateHandle ++ rest) })
  | .closeWrite =>
    match c.writeHandle with
    | none => .ok (w.put i next)
    | some fd => .ok ((w.closesocket i fd).put i next)
  | .clearWrite => .ok (w.put i { next with writeHandle := none })
  | .lock =>
    -- only the first call stops the stream
    let calls := if c.closed then c.calls.set k rest else c.calls.set k (.stop :: rest)
    .ok (w.put i { c with closed := true, calls := calls })
  | .stop =>
    -- the end of the stream's session; its handler asserts that the handle is valid
    if c.streaming = false then .ok (w.put i next)
    else if c.stateHandle = none then .error (some .assertion)
    else (w.sessionDisconnect c.stateHandle).map (put i { next with streaming := false })
  | .stopErased => if c.streaming then .error (some .endIterator) else .ok (w.put i next)
  | .closePeer =>
    match c.handle with
    | none => .ok (w.put i next)
    | some fd => .ok ((w.closesocket i fd).put i { next with handle := none })
  | .deregister =>
    if c.isRegistered then
      .ok ({ w with manager := w.manager.deregister i }.put i { next with isRegistered := false })
    else .ok (w.put i next)
  | .invalidate => .ok (w.put i { next with stateHandle := none })

def destroy (i : ℕ) (c : Connection) (w : World) : World :=
  let w := match c.remaining with
    | none => w
    | some fd => w.closesocket i fd
  { w with connections := Function.update w.connections i none }

inductive Event where
  | socket (kind : Kind) (fd : ℕ)
  | opening (connection : ℕ) (ok : Bool) (fd : Option ℕ)
  | abort (connection : ℕ)
  | handleClose (connection : ℕ)
  | proceed (connection call : ℕ)
  | destroy (connection : ℕ)
  | wait (handle : ℕ)
  | wake (waiter : ℕ)
  deriving DecidableEq, Repr

/-- The next state, where the event is possible. A connection is deleted when it is not
registered any more and no call is under way. -/
def step (w : World) : Event → Except (Option Fault) World
  | .socket kind fd =>
    if w.descriptors fd = none then
      .ok ({ w.allocate w.created fd with created := w.created + 1 }.put w.created (.opened kind fd))
    else .error none
  | .opening i ok fd =>
    match w.connections i with
    | none => .error none
    | some c => w.stepOpen i c ok fd
  | .abort i =>
    match w.connections i with
    | none => .error none
    | some c => .ok (w.put i c.abort)
  | .handleClose i =>
    match w.connections i with
    | none => .error none
    | some c => if c.Readable then .ok (w.put i c.handleClose) else .error none
  | .proceed i k =>
    match w.connections i with
    | none => .error none
    | some c =>
      match c.calls[k]? with
      | none => .error none
      | some [] => .ok (w.put i { c with calls := c.calls.eraseIdx k })
      | some (x :: rest) => w.exec i c k rest x
  | .destroy i =>
    match w.connections i with
    | none => .error none
    | some c =>
      if c.phase = .done ∧ c.calls = [] ∧ c.isRegistered = false then .ok (w.destroy i c)
      else .error none
  | .wait handle =>
    match w.manager.get w.id handle with
    | none => .ok w
    | some found => .ok { w with waiters := w.waiters ++ [⟨handle, found, found⟩] }
  | .wake k =>
    match w.waiters[k]? with
    | none => .error none
    | some waiter =>
      match w.manager.get w.id waiter.handle with
      | none => .ok { w with waiters := w.waiters.eraseIdx k }
      | some found => .ok { w with waiters := w.waiters.set k { waiter with last := found } }

/-- The calls of `open` of a connection, all of which succeed, with the result of `dup`. -/
def opens (i : ℕ) : Option ℕ → List Event
  | none => List.replicate 6 (.opening i true none)
  | some fd => .opening i true (some fd) :: List.replicate 6 (.opening i true none)

end World

end ACENetwork.Net
