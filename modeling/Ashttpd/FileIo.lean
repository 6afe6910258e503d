import Ashttpd.Connection

/-!
# Sending files (`os.c`, `io_sync.c`, `io_sendfile.c`, `io_async.c`)

What a system call does is given to a function as an argument: whether it fails, and else how
much it gets done. The flags of `send` make no difference to what is sent.
-/
namespace Ashttpd

def SENDFILE_CHUNK : ℕ := 65536

/-- How `send` or `sendfile` ends: with `EAGAIN`, with another error, or after `n` bytes, if
there are so many. -/
inductive SendResult where
  | eagain
  | error
  | sent (n : ℕ)
  deriving DecidableEq, Repr

/-- How a `pread` ends: interrupted, with `EAGAIN` and the descriptor readable soon after, with
an error, or after at most `n + 1` bytes. -/
inductive PreadResult where
  | eintr
  | eagain
  | error
  | read (n : ℕ)
  deriving DecidableEq, Repr

/-- How `aio_submit` gets on: no control block is left, `io_submit` fails, or it succeeds. -/
inductive SubmitResult where
  | oom
  | error
  | submitted
  deriving DecidableEq, Repr

/-- How a read in flight ends: with an error, or after at most `n + 1` bytes. -/
inductive CompletionResult where
  | error
  | read (n : ℕ)
  deriving DecidableEq, Repr

def fileSlice (file : Bytes) (off len : ℕ) : Bytes := (file.drop off).take len

/-- `fd_pread`: the bytes read and the `eof` flag, or `none` for an error. A `pread` that no
result is given for reads all it can. -/
def fdPread (file : Bytes) : List PreadResult → ℕ → ℕ → Option (Bytes × Bool)
  | [], off, len =>
    let bs := fileSlice file off len
    -- a short read is followed by one that finds the end of the file
    some (bs, bs.length < len || bs.length == 0)
  | .eintr :: rs, off, len => fdPread file rs off len
  | .eagain :: rs, off, len => fdPread file rs off len
  | .error :: _, _, _ => none
  | .read n :: rs, off, len =>
    let bs := fileSlice file off (min (n + 1) len)
    if bs.length = 0 then some ([], true)
    else if bs.length < len then
      (fdPread file rs (off + bs.length) (len - bs.length)).map fun r => (bs ++ r.1, r.2)
    else some (bs, false)

/-- What a pointer points to. -/
def deref {α : Type} : Option α → Except Fault α
  | none => .error .nullPointer
  | some a => .ok a

namespace HttpConn

/-- The first part of `io_sync_write`, which tops up the buffer; `none` is the return value zero. -/
def ioSyncTopUp (r : Webroots) (h : HttpConn) (preads : List PreadResult) :
    Except Fault (Option HttpConn) := do
  let dataBuf ← deref (← h.httpConnGetPriv)
  let (w, dataOff, dataLen) ← h.httpConnData
  if dataBuf.bufWrite = 0 then .ok (some h)
  else
    match fdPread (r.file w) preads dataOff (min dataBuf.bufWrite dataLen) with
    | none | some (_, true) => .ok none
    | some (bs, false) =>
      let dataBuf ← (dataBuf.put bs).bufDoneWrite bs.length
      ((h.withPriv (some dataBuf)).httpConnDataRead bs.length).map some

/-- The end of `io_sync_write`, when bytes were sent and `dataBuf` is what is left. -/
def ioSyncSent (h : HttpConn) (dataBuf : HttpBuf) : Except Fault HttpConn :=
  if dataBuf.bufRead + h.hDataLen = 0 then do
    let h ← h.httpConnSetPriv none
    (h.free (some dataBuf) .data).httpConnDataComplete .sync
  else if dataBuf.bufWrite < h.hDataLen then .ok (h.withPriv (some dataBuf.bufReset))
  else .ok (h.withPriv (some dataBuf))

/-- The second part of `io_sync_write`, where `data_len` is what `h_data_len` is by now. -/
def ioSyncSend (h : HttpConn) (send : SendResult) : Except Fault (HttpConn × Bool) := do
  let dataBuf ← deref h.hIoPriv
  match send with
  | .eagain => return (← h.httpConnInactive, true)
  | .error => return (h, false)
  | .sent n =>
    let ret := min n dataBuf.bufRead
    if ret = 0 then return (h, false)
    else
      let rest ← dataBuf.bufDoneRead ret
      return (← (h.logged [.sent h.hState (dataBuf.unread.take ret)]).ioSyncSent rest, true)

def ioSyncWrite (r : Webroots) (h : HttpConn) (preads : List PreadResult) (send : SendResult) :
    Except Fault (HttpConn × Bool) := do
  match ← h.ioSyncTopUp r preads with
  | none => return (h, false)
  | some h => h.ioSyncSend send

def ioSyncPrep (h : HttpConn) (block : Option Mem) : Except Fault (HttpConn × Bool) :=
  match block with
  | none => .ok (h, false)
  | some m => do return (← h.httpConnSetPriv (some (.alloc m HTTP_DATA_BUFFER)), true)

/-- The end of `io_sendfile_write`, when bytes were sent. -/
def ioSendfileSent (h : HttpConn) (len : ℕ) : Except Fault HttpConn := do
  let h ← h.httpConnDataRead len
  if h.hDataLen = 0 then h.httpConnDataComplete .sendfile else return h

def ioSendfileWrite (r : Webroots) (h : HttpConn) (send : SendResult) :
    Except Fault (HttpConn × Bool) := do
  let (w, off, len) ← h.httpConnData
  match send with
  | .eagain => return (← h.httpConnInactive, true)
  | .error => return (h, false)
  | .sent n =>
    let bs := fileSlice (r.file w) off (min n (min len SENDFILE_CHUNK))
    if bs.length = 0 then return (h, false)
    else return (← (h.logged [.sent h.hState bs]).ioSendfileSent bs.length, true)

def aioSubmit (h : HttpConn) (submit : SubmitResult) : Except Fault (HttpConn × Bool) := do
  let (w, dataOff, dataLen) ← h.httpConnData
  if dataLen = 0 then .error .assertion
  else if submit = .oom then return (h, false)
  else
    let dataBuf ← deref (← h.httpConnGetPriv)
    if submit = .error then return (h, false)
    else
      let h ← h.httpConnToWaitq
      return (h.withAio (some ⟨dataBuf.bWrite, min dataLen dataBuf.bufWrite, dataOff, w⟩), true)

/-- `handle_completion` of the read in flight. -/
def handleCompletion (r : Webroots) (h : HttpConn) (iocb : Iocb) (result : CompletionResult) :
    Except Fault HttpConn :=
  match result with
  | .error => (h.withAio none).httpConnAbort .async
  | .read n =>
    let bs := fileSlice (r.file iocb.file) iocb.off (min (n + 1) iocb.size)
    if bs.length = 0 then (h.withAio none).httpConnAbort .async
    else do
      let dataBuf ← deref (← (h.withAio none).httpConnGetPriv)
      let dataBuf ← (dataBuf.putAt iocb.ptr bs).bufDoneWrite bs.length
      ((h.withAio none).withPriv (some dataBuf)).httpConnWakeOne

/-- The end of `io_async_write`, when `ret` bytes were sent and `dataBuf` is what is left. -/
def ioAsyncSent (h : HttpConn) (dataBuf : HttpBuf) (ret : ℕ) (submit : SubmitResult) :
    Except Fault (HttpConn × Bool) := do
  let h ← (h.withPriv (some dataBuf)).httpConnDataRead ret
  if dataBuf.bufRead ≠ 0 then return (h, true)
  else if h.hDataLen ≠ 0 then (h.withPriv (some dataBuf.bufReset)).aioSubmit submit
  else
    let h ← (h.free (some dataBuf) .data).httpConnSetPriv none
    return (← h.httpConnDataComplete .async, true)

def ioAsyncWrite (h : HttpConn) (send : SendResult) (submit : SubmitResult) :
    Except Fault (HttpConn × Bool) := do
  let dataBuf ← deref (← h.httpConnGetPriv)
  match send with
  | .eagain => return (← h.httpConnInactive, true)
  | .error => return (h, false)
  | .sent n =>
    let ret := min n dataBuf.bufRead
    if ret = 0 then return (h, false)
    else
      let rest ← dataBuf.bufDoneRead ret
      (h.logged [.sent h.hState (dataBuf.unread.take ret)]).ioAsyncSent rest ret submit

def ioAsyncPrep (h : HttpConn) (block : Option Mem) (submit : SubmitResult) :
    Except Fault (HttpConn × Bool) :=
  match block with
  | none => .ok (h, false)
  | some m => do
    let h ← h.httpConnSetPriv (some (.alloc m HTTP_DATA_BUFFER))
    match ← h.aioSubmit submit with
    | (h, true) => return (h, true)
    | (h, false) => return (← (h.free h.hIoPriv .data).httpConnSetPriv none, false)

/-- What the system does during a write callback. -/
structure WriteResults where
  send : SendResult
  preads : List PreadResult
  submit : SubmitResult
  deriving DecidableEq, Repr

def ioWrite (fio : Fio) (r : Webroots) (h : HttpConn) (o : WriteResults) :
    Except Fault (HttpConn × Bool) :=
  match fio with
  | .sync => h.ioSyncWrite r o.preads o.send
  | .sendfile => h.ioSendfileWrite r o.send
  | .async => h.ioAsyncWrite o.send o.submit

/-- `_io_prep`, with the block that is there for a data buffer. -/
def ioPrep (fio : Fio) (h : HttpConn) (block : Option Mem) (submit : SubmitResult) :
    Except Fault (HttpConn × Bool) :=
  match fio with
  | .sync => h.ioSyncPrep block
  | .sendfile => .ok (h, true)
  | .async => h.ioAsyncPrep block submit

/-- The end of `http_write_hdr`, when the header is sent. -/
def headerDone (h : HttpConn) : Except Fault (HttpConn × Bool) :=
  if h.hDataLen ≠ 0 then .ok (h.withState .data, true)
  else if h.hConnClose ≠ 0 then .ok (h, false)
  else do
    let h ← h.nbioSetWait NBIO_READ
    return (h.withState .request, true)

def httpWriteHdr (h : HttpConn) (send : SendResult) : Except Fault (HttpConn × Bool) := do
  let res ← deref h.hRes
  match send with
  | .eagain => return (h.withNbio (h.hNbio.nbioInactive NBIO_WRITE), true)
  | .error => return (h, false)
  | .sent n =>
    let ret := min n res.bufRead
    if ret = 0 then return (h, false)
    else
      let rest ← res.bufDoneRead ret
      let h := h.logged [.sent h.hState (res.unread.take ret)]
      if rest.bufRead ≠ 0 then return (h.withRes (some rest), true)
      else ((h.free (some rest) .res).withRes none).headerDone

/-- The `switch` of `http_write`. -/
def httpWriteState (fio : Fio) (r : Webroots) (h : HttpConn) (o : WriteResults) :
    Except Fault (HttpConn × Bool) :=
  match h.hState with
  | .header => h.httpWriteHdr o.send
  | .data => h.ioWrite fio r o
  | _ => .error .abort

/-- `http_write`, the callback for a descriptor that can be written to. -/
def httpWrite (fio : Fio) (r : Webroots) (h : HttpConn) (o : WriteResults) :
    Except Fault HttpConn := do
  match ← h.httpWriteState fio r o with
  | (h, true) => return h
  | (h, false) => h.httpKill fio

end HttpConn
end Ashttpd
