import Ashttpd.ConnPool

/-!
# Operations that the kernel completes (`io_async.c`, `io_async_sendfile.c`)

Every connection of a thread may submit operations, and the kernel completes them one by one, in any order. An
operation carries the connection that it was submitted for, whatever has become of that by then. What is in flight
is told by the kernel alone: the field `aio` of a connection is only how a callback says that it has submitted.
-/
namespace Ashttpd

/-- `fio_async` and `fio_async_sendfile`. -/
inductive AioModel where
  | file
  | sendfile
  deriving DecidableEq, Repr

/-- The model that has the same `prep` and `abort`: those of `fio_async_sendfile` do nothing either. -/
def AioModel.fio : AioModel → Fio
  | .file => .async
  | .sendfile => .sendfile

/-- The result of an operation: `-EAGAIN`, another error, or at most `n + 1` bytes. -/
inductive AioResult where
  | eagain
  | error
  | done (n : ℕ)
  deriving DecidableEq, Repr

/-- `io_async.c` makes no difference between errors. -/
def AioResult.completion : AioResult → CompletionResult
  | .eagain | .error => .error
  | .done n => .read n

def Nbio.nbioWaitOn (io : Nbio) (wait : UInt8) : Except Fault Nbio :=
  if io.mask = NBIO_DELETED then .error .assertion
  else
    .ok { io with
      mask := wait &&& NBIO_WAIT
      flags := wait &&& NBIO_WAIT
      polled := true
      list := .inactive }

namespace HttpConn

def httpConnWaitOn (h : HttpConn) (wait : UInt8) : Except Fault HttpConn := do
  h.assertResponding
  (h.hNbio.nbioWaitOn wait).map h.withNbio

/-- `aio_submit` of `io_async_sendfile.c`, which reads nothing into a buffer. -/
def aioSubmitSendfile (h : HttpConn) (submit : SubmitResult) : Except Fault (HttpConn × Bool) := do
  let (w, dataOff, dataLen) ← h.httpConnData
  if dataLen = 0 then .error .assertion
  else if submit = .oom then return (h, false)
  else
    -- `http_conn_socket`
    h.assertResponding
    if submit = .error then return (h, false)
    else return (h.withAio (some ⟨0, dataLen, dataOff, w⟩), true)

/-- `handle_completion` of `io_async_sendfile.c`. What was done is sent from the file. -/
def sendfileCompletion (r : Webroots) (h : HttpConn) (iocb : Iocb) (result : AioResult) (submit : SubmitResult) :
    Except Fault HttpConn :=
  match result with
  | .done n =>
    let bs := fileSlice (r.file iocb.file) iocb.off (min (n + 1) iocb.size)
    if bs.length = 0 then h.httpConnAbort .sendfile
    else do
      let h ← (h.logged [.sent h.hState bs]).httpConnDataRead bs.length
      if h.hDataLen ≠ 0 then
        match ← h.aioSubmitSendfile submit with
        | (h, true) => return h
        | (h, false) => h.httpConnAbort .sendfile
      else h.httpConnDataComplete .sendfile
  | .eagain => h.httpConnWaitOn NBIO_WRITE
  | .error => h.httpConnAbort .sendfile

def ioAsyncSendfileWrite (h : HttpConn) (submit : SubmitResult) : Except Fault (HttpConn × Bool) := do
  let h ← h.httpConnToWaitq
  h.aioSubmitSendfile submit

/-- `http_write` with `_io_write` as a parameter. -/
def httpWriteBy (ioWrite : HttpConn → Except Fault (HttpConn × Bool)) (fio : Fio) (h : HttpConn) (send : SendResult) :
    Except Fault HttpConn := do
  match ← (match h.hState with
    | .header => h.httpWriteHdr send
    | .data => ioWrite h
    | _ => .error .abort) with
  | (h, true) => return h
  | (h, false) => h.httpKill fio

theorem httpWriteBy_ioWrite (fio : Fio) (r : Webroots) (h : HttpConn) (o : WriteResults) :
    h.httpWriteBy (fun h => h.ioWrite fio r o) fio o.send = h.httpWrite fio r o := by
  unfold httpWriteBy httpWrite httpWriteState
  cases h.hState <;> rfl

end HttpConn

namespace AioModel

open HttpConn

def httpWrite (m : AioModel) (r : Webroots) (h : HttpConn) (o : WriteResults) : Except Fault HttpConn :=
  match m with
  | .file => h.httpWrite .async r o
  | .sendfile => h.httpWriteBy (fun h => h.ioAsyncSendfileWrite o.submit) .sendfile o.send

/-- `handle_completion`, behind the bookkeeping. Only `io_async_sendfile.c` submits more from there. -/
def handleCompletion (m : AioModel) (r : Webroots) (h : HttpConn) (iocb : Iocb) (result : AioResult)
    (submit : SubmitResult) : Except Fault HttpConn :=
  match m with
  | .file => h.handleCompletion r iocb result.completion
  | .sendfile => h.sendfileCompletion r iocb result submit

/-- What `nbio_pump` and the event backend do to a connection; `none` if this cannot happen in its state. -/
def callback (m : AioModel) (s : Server) (h : HttpConn) : Happening → Except Fault (Option HttpConn)
  | .write o => if h.Called NBIO_WRITE then (m.httpWrite s.roots h o).map some else .ok none
  | .completion _ => .ok none
  | e => h.step { s with fio := m.fio } e

end AioModel

/-- The connections of a thread, the operations in flight, each with the place of the connection that `iocb->data`
points to, and `in_flight`. -/
structure AioThread where
  peers : List Peer
  outstanding : List (ℕ × Iocb)
  inFlight : ℕ

/-- What happens to the thread. A callback may find `h_webroot` set to what it is taken to be when `_io_prep` runs. -/
inductive AioEvent where
  | accept
  | conn (i : ℕ) (root : Option ℕ) (e : HttpConn.Happening)
  | completion (k : ℕ) (result : AioResult) (submit : SubmitResult)
  | dtor (i : ℕ)

/-- The webroot that is taken to be set, for a callback that may prepare a body. -/
def HttpConn.presumed (h : HttpConn) (root : Option ℕ) : HttpConn.Happening → HttpConn
  | .read _ =>
    match root with
    | none => h
    | some w => h.withWebroot (some w)
  | .ready _ | .write _ | .error | .completion _ => h

namespace AioThread

def empty : AioThread := ⟨[], [], 0⟩

/-- A callback has returned. If it has submitted an operation, that is in flight from now on. -/
def returned (t : AioThread) (i : ℕ) (h : HttpConn) : AioThread :=
  match h.aio with
  | none => { t with peers := t.peers.set i ⟨h, false⟩ }
  | some iocb => ⟨t.peers.set i ⟨h.withAio none, false⟩, t.outstanding ++ [(i, iocb)], t.inFlight + 1⟩

def completed (t : AioThread) (k : ℕ) : AioThread :=
  { t with outstanding := t.outstanding.eraseIdx k, inFlight := t.inFlight - 1 }

/-- A step of the thread; `none` if this cannot happen. An operation that is completed for a connection that was
destroyed finds memory that was returned. -/
def step (m : AioModel) (s : Server) (t : AioThread) : AioEvent → Except Fault (Option AioThread)
  | .accept => .ok (some { t with peers := t.peers ++ [⟨.httpConn, false⟩] })
  | .conn i root e =>
    match t.peers[i]? with
    | none | some ⟨_, true⟩ => .ok none
    | some ⟨h, false⟩ => (m.callback s (h.presumed root e) e).map fun o => o.map (t.returned i)
  | .completion k result submit =>
    match t.outstanding[k]? with
    | none => .ok none
    | some (i, iocb) =>
      if t.inFlight = 0 then .error .underflow
      else match t.peers[i]? with
        | none | some ⟨_, true⟩ => .error .undefined
        | some ⟨h, false⟩ =>
          (m.handleCompletion s.roots h iocb result submit).map fun h => some ((t.completed k).returned i h)
  | .dtor i =>
    match t.peers[i]? with
    | none | some ⟨_, true⟩ => .ok none
    | some ⟨h, false⟩ =>
      if h.hNbio.list = .deleted then .ok (some { t with peers := t.peers.set i ⟨h.httpDtor, true⟩ }) else .ok none

def Steps (m : AioModel) (t : AioThread) (i : Server × AioEvent) (t' : AioThread) : Prop :=
  t.step m i.1 i.2 = .ok (some t')

end AioThread
end Ashttpd
