import Ashttpd.ConnPool
import Ashttpd.EventLoop

/-!
# Listeners (`nbio-listener.c`, `http_conn.c`)

A listener accepts connections for the pool. When there are no resources for one more it is moved to the queue
`oomq`, where nothing is reported on it, until `http_kill` wakes up all that are there.
-/
namespace Ashttpd

/-- The wait queue `oomq`. -/
def OOMQ : Queue := .waitq 0

/-- The `struct nbio` of a listener: the flags waited for and those reported, the list it is on, and whether the
event backend watches it. -/
structure Listener where
  mask : UInt8
  flags : UInt8
  list : Queue
  polled : Bool
  deriving DecidableEq, Repr

/-- How the last `accept` of a callback fails. With any other error, or if the descriptor cannot be made
nonblocking, the callback just returns. -/
inductive AcceptError where
  | enfile
  | emfile
  | enomem
  | enobufs
  | eagain
  | other
  deriving DecidableEq, Repr

/-- The errors that `http_oom` is called for. -/
def AcceptError.Oom (e : AcceptError) : Prop := e = .enfile ∨ e = .emfile ∨ e = .enomem ∨ e = .enobufs

instance (e : AcceptError) : Decidable e.Oom := inferInstanceAs (Decidable (_ ∨ _ ∨ _ ∨ _))

namespace Listener

/-- `do_set_wait`, with the list for a listener that waits for nothing. -/
def doSetWait (l : Listener) (wait : UInt8) (q : Queue) : Except Fault Listener :=
  if l.mask = NBIO_DELETED then .error .assertion
  else
    .ok
      { mask := wait &&& NBIO_WAIT
        flags := wait &&& NBIO_WAIT
        list := if wait &&& NBIO_WAIT = 0 then q else .active
        polled := false }

def nbioSetWait (l : Listener) (wait : UInt8) : Except Fault Listener := l.doSetWait wait .inactive

def nbioInactive (l : Listener) (mask : UInt8) : Listener :=
  let flags := l.flags &&& ~~~mask
  if l.mask &&& flags = 0 then { l with flags := flags, list := .inactive, polled := true }
  else { l with flags := flags }

def httpOom (l : Listener) : Except Fault Listener := l.doSetWait 0 OOMQ

def listenerWake (l : Listener) : Except Fault Listener := l.nbioSetWait NBIO_READ

/-- A listener that `listener_inet` has added. -/
def listenerInet : Listener := ⟨NBIO_READ, NBIO_READ, .active, false⟩

/-- Whether nothing but `http_kill` makes the event loop look at the listener again. -/
def Parked (l : Listener) : Prop := l.list = OOMQ

instance (l : Listener) : Decidable l.Parked := inferInstanceAs (Decidable (_ = _))

end Listener

/-- `http_conn`, where there may be no memory for a connection. -/
def ConnPool.httpConn (p : ConnPool) (memory : Bool) : ConnPool :=
  if memory then ⟨p.peers ++ [⟨.httpConn, false⟩], p.concurrency + 1⟩ else p

/-- `listener_read`: the descriptors that are accepted, each with whether there is memory for a connection, and the
error that ends the loop. -/
def listenerRead (l : Listener) (p : ConnPool) : List Bool → AcceptError → Except Fault (Listener × ConnPool)
  | [], e =>
    if e.Oom then l.httpOom.map fun l => (l, p)
    else if e = .eagain then .ok (l.nbioInactive NBIO_READ, p)
    else .ok (l, p)
  | memory :: rest, e => do
    let l ← l.nbioSetWait NBIO_READ
    listenerRead l (p.httpConn memory) rest e

def wakeListeners : List Listener → Except Fault (List Listener)
  | [] => .ok []
  | l :: rest => do
    let l ← (if l.Parked then l.listenerWake else .ok l)
    let rest ← wakeListeners rest
    return l :: rest

/-- The connections of a thread and its listeners. -/
structure Acceptor where
  pool : ConnPool
  listeners : List Listener

/-- What happens to the thread. A connection is only created by a listener. -/
inductive AcceptorEvent where
  | listen
  | ready (j : ℕ) (flags : UInt8)
  | read (j : ℕ) (accepts : List Bool) (e : AcceptError)
  | error (j : ℕ)
  | conn (i : ℕ) (e : HttpConn.Happening)
  | dtor (i : ℕ)

namespace Acceptor

def empty : Acceptor := ⟨.empty, []⟩

/-- A step of the pool. Every `http_kill` counts down, and wakes up the listeners. -/
def poolStep (s : Server) (t : Acceptor) (ev : PoolEvent) : Except Fault (Option Acceptor) := do
  match ← t.pool.step s ev with
  | none => return none
  | some p =>
    if p.concurrency < t.pool.concurrency then
      let listeners ← wakeListeners t.listeners
      return some ⟨p, listeners⟩
    else return some ⟨p, t.listeners⟩

/-- A step of the thread; `none` if this cannot happen. -/
def step (s : Server) (t : Acceptor) : AcceptorEvent → Except Fault (Option Acceptor)
  | .listen => .ok (some { t with listeners := t.listeners ++ [.listenerInet] })
  | .ready j flags =>
    match t.listeners[j]? with
    | none => .ok none
    | some l =>
      if l.list = .inactive ∧ l.polled then
        .ok (some { t with listeners := t.listeners.set j { l with flags := flags &&& NBIO_WAIT, list := .active } })
      else .ok none
  | .read j accepts e =>
    match t.listeners[j]? with
    | none => .ok none
    | some l =>
      if l.list = .active ∧ l.flags &&& l.mask &&& NBIO_READ ≠ 0 then
        (listenerRead l t.pool accepts e).map fun r => some ⟨r.2, t.listeners.set j r.1⟩
      else .ok none
  | .error j =>
    match t.listeners[j]? with
    | none => .ok none
    | some l =>
      if l.list = .active ∧ l.flags &&& NBIO_ERROR ≠ 0 then
        .ok (some { t with listeners := t.listeners.set j { l with mask := NBIO_DELETED, flags := 0, list := .deleted } })
      else .ok none
  | .conn i e => t.poolStep s (.conn i e)
  | .dtor i => t.poolStep s (.dtor i)

/-- A step with the I/O model `fio`, whatever the table of virtual hosts and the webroots are by then. -/
def Steps (fio : Fio) (t : Acceptor) (i : Server × AcceptorEvent) (t' : Acceptor) : Prop :=
  i.1.fio = fio ∧ t.step i.1 i.2 = .ok (some t')

end Acceptor
end Ashttpd
