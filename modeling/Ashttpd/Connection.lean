import Ashttpd.HttpBuf
import Ashttpd.HttpParse
import Ashttpd.Webroot
import Mathlib.Tactic.Simps.Basic

/-!
# Connections and what is done to them (`http_conn.c`, `nbio.c`)

A connection is modelled with the descriptor, the lists of the event loop and the buffers it
has. Memory that was returned is only remembered as returned: the pointers to it stay. How many
connections there are, and the listeners that wait for one to be closed, are left out.
-/
namespace Ashttpd

def NBIO_READ : UInt8 := 1
def NBIO_WRITE : UInt8 := 2
def NBIO_ERROR : UInt8 := 4
def NBIO_WAIT : UInt8 := NBIO_READ ||| NBIO_WRITE ||| NBIO_ERROR
def NBIO_DELETED : UInt8 := 0x80

/-- The lists of `struct iothread`. -/
inductive NbioList where
  | active
  | inactive
  | deleted
  deriving DecidableEq, Repr

/-- `h_state`. -/
inductive HttpState where
  | request
  | header
  | data
  | dead
  deriving DecidableEq, Repr

/-- The gangs of `http_buf.c`. -/
inductive BufKind where
  | req
  | res
  | data
  deriving DecidableEq, Repr

/-- What the rest of the world sees of a connection. -/
inductive Event where
  | received (bytes : Bytes)
  | sent (state : HttpState) (bytes : Bytes)
  | answered (head : Bytes)
  | complete
  | closed
  | freed (kind : BufKind)
  | webrootRef (w : ℕ)
  | webrootUnref (w : ℕ)
  deriving DecidableEq, Repr

/-- A read that was submitted: where it goes in the data buffer, how much is read, and from
where in which file. -/
structure Iocb where
  ptr : ℕ
  size : ℕ
  off : ℕ
  file : ℕ
  deriving DecidableEq, Repr

/-- The I/O model in `fio_current`. -/
inductive Fio where
  | sync
  | sendfile
  | async
  deriving DecidableEq, Repr

/-- `struct nbio`: whether the descriptor is open, the flags waited for and those reported, the list
it is on, and whether the event backend watches it. -/
structure Nbio where
  fd : Bool
  mask : UInt8
  flags : UInt8
  list : NbioList
  polled : Bool
  deriving DecidableEq, Repr

/-- `struct _http_conn`. `aio` is the read in flight, if there is one. `log` is no field of the
source. -/
structure HttpConn where
  hNbio : Nbio
  hState : HttpState
  hRstate : Rstate
  hRptr : ℕ
  hReq : Option HttpBuf
  hRes : Option HttpBuf
  hIoPriv : Option HttpBuf
  aio : Option Iocb
  hWebroot : Option ℕ
  hDataOff : ℕ
  hDataLen : ℕ
  hConnClose : ℕ
  log : List Event

/-- The webroots that are open: the tables of each and the bytes of its file. -/
structure Webroots where
  index : ℕ → Webroot
  file : ℕ → Bytes

namespace Nbio

/-- `do_set_wait`, for which the queue is always `NULL`. -/
def doSetWait (io : Nbio) (wait : UInt8) : Except Fault Nbio :=
  if io.mask = NBIO_DELETED then .error .assertion
  else
    .ok { io with
      mask := wait &&& NBIO_WAIT
      flags := wait &&& NBIO_WAIT
      polled := false
      list := if wait &&& NBIO_WAIT = 0 then .inactive else .active }

def nbioInactive (io : Nbio) (mask : UInt8) : Nbio :=
  let flags := io.flags &&& ~~~mask
  if io.mask &&& flags = 0 then { io with flags := flags, list := .inactive, polled := true }
  else { io with flags := flags }

def nbioDel (io : Nbio) : Nbio := { io with mask := NBIO_DELETED, flags := 0, list := .deleted }

end Nbio

namespace HttpConn

@[simps]
def logged (h : HttpConn) (new : List Event) : HttpConn := { h with log := h.log ++ new }

@[simps]
def withNbio (h : HttpConn) (io : Nbio) : HttpConn := { h with hNbio := io }

@[simps]
def withState (h : HttpConn) (state : HttpState) : HttpConn := { h with hState := state }

@[simps]
def withPriv (h : HttpConn) (priv : Option HttpBuf) : HttpConn := { h with hIoPriv := priv }

@[simps]
def withRes (h : HttpConn) (res : Option HttpBuf) : HttpConn := { h with hRes := res }

@[simps]
def withReq (h : HttpConn) (req : Option HttpBuf) (rstate : Rstate) (rptr : ℕ) : HttpConn :=
  { h with hReq := req, hRstate := rstate, hRptr := rptr }

@[simps]
def withData (h : HttpConn) (off len : ℕ) : HttpConn := { h with hDataOff := off, hDataLen := len }

@[simps]
def withAio (h : HttpConn) (aio : Option Iocb) : HttpConn := { h with aio := aio }

@[simps]
def withWebroot (h : HttpConn) (w : Option ℕ) : HttpConn := { h with hWebroot := w }

@[simps]
def withClose (h : HttpConn) (close : ℕ) : HttpConn := { h with hConnClose := close }

def nbioSetWait (h : HttpConn) (wait : UInt8) : Except Fault HttpConn :=
  (h.hNbio.doSetWait wait).map h.withNbio

def assertResponding (h : HttpConn) : Except Fault Unit :=
  if h.hState = .data ∨ h.hState = .header then .ok () else .error .assertion

/-- `http_conn_data`: the file, the offset and the length. -/
def httpConnData (h : HttpConn) : Except Fault (ℕ × ℕ × ℕ) := do
  h.assertResponding
  match h.hWebroot with
  | none => .error .nullPointer
  | some w => return (w, h.hDataOff, h.hDataLen)

/-- `http_conn_data_read`. It returns the new `h_data_len`. -/
def httpConnDataRead (h : HttpConn) (len : ℕ) : Except Fault HttpConn := do
  h.assertResponding
  if len ≤ h.hDataLen then return h.withData (h.hDataOff + len) (h.hDataLen - len)
  else .error .assertion

def httpConnGetPriv (h : HttpConn) : Except Fault (Option HttpBuf) := do
  h.assertResponding
  return h.hIoPriv

def httpConnSetPriv (h : HttpConn) (priv : Option HttpBuf) : Except Fault HttpConn := do
  h.assertResponding
  return h.withPriv priv

def httpConnInactive (h : HttpConn) : Except Fault HttpConn := do
  h.assertResponding
  return h.withNbio (h.hNbio.nbioInactive NBIO_WRITE)

/-- `http_conn_to_waitq`, which is `nbio_to_waitq` without a queue of its own. -/
def httpConnToWaitq (h : HttpConn) : Except Fault HttpConn := do
  h.assertResponding
  h.nbioSetWait 0

/-- `http_conn_wake_one`, where `nbio_wake` does what `nbio_set_wait` does. -/
def httpConnWakeOne (h : HttpConn) : Except Fault HttpConn := do
  h.assertResponding
  h.nbioSetWait NBIO_WRITE

/-- `do_free` of what a pointer points to. -/
def free (h : HttpConn) (b : Option HttpBuf) (kind : BufKind) : HttpConn :=
  match b with
  | none => h
  | some _ => h.logged [.freed kind]

def ioAbort (fio : Fio) (h : HttpConn) : Except Fault HttpConn :=
  match fio with
  | .sendfile => .ok h
  | .sync | .async => do
    let dataBuf ← h.httpConnGetPriv
    return h.free dataBuf .data

def close (h : HttpConn) : HttpConn := (h.withNbio { h.hNbio with fd := false }).logged [.closed]

/-- The `switch` of `http_kill`. -/
def dropResponse (fio : Fio) (h : HttpConn) : Except Fault HttpConn :=
  match h.hState with
  | .request => if h.hRes.isNone then .ok h else .error .assertion
  | .header => (h.free h.hRes .res).ioAbort fio
  | .data => h.ioAbort fio
  | .dead => .error .abort

/-- The end of `http_kill`. -/
def buried (h : HttpConn) : HttpConn := (h.withState .dead).withNbio h.hNbio.nbioDel

def httpKill (fio : Fio) (h : HttpConn) : Except Fault HttpConn :=
  if h.hNbio.fd = false then .ok h
  else ((h.close.free h.hReq .req).dropResponse fio).map buried

/-- `webroot_unref`, which takes `NULL` as well, and the pointer is cleared. -/
def dropWebroot (h : HttpConn) : HttpConn :=
  match h.hWebroot with
  | none => h
  | some w => (h.withWebroot none).logged [.webrootUnref w]

def httpConnDataComplete (fio : Fio) (h : HttpConn) : Except Fault HttpConn :=
  if h.hState ≠ .data then .error .assertion
  else if h.hDataLen ≠ 0 then .error .assertion
  else do
    let h ← ((h.withState .request).logged [.complete]).nbioSetWait NBIO_READ
    if h.hConnClose ≠ 0 then h.dropWebroot.httpKill fio else return h.dropWebroot

def httpConnAbort (fio : Fio) (h : HttpConn) : Except Fault HttpConn := do
  h.assertResponding
  h.httpKill fio

end HttpConn
end Ashttpd
