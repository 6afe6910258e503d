import Ashttpd.FileIo
import Ashttpd.HttpReq
import Ashttpd.UriPasses

/-!
# Answering requests (`http_conn.c`)

The response texts, the request handlers and the callback for a descriptor that can be read from,
and with them the steps of a connection as the event loop takes them.
-/
namespace Ashttpd

def ascii (s : String) : Bytes := s.toList.map fun c => UInt8.ofNat c.toNat

def resp400 : Bytes := ["HTTP/1.1 400 Bad Request\r\n",
  "Content-Type: text/html\r\n",
  "Content-Length: 82\r\n",
  "Connection: Close\r\n",
  "\r\n",
  "<html><head><title>Fuck Off</title></head>",
  "<body><h1>Bad Request</h1></body></html>"].flatMap ascii

def resp500 : Bytes := ["HTTP/1.1 500 Internal Server Error\r\n",
  "Content-Type: text/html\r\n",
  "Content-Length: 79\r\n",
  "Connection: Close\r\n",
  "\r\n",
  "<html><head><title>Fail Whale</title></head>",
  "<body><h1>Sorry!</h1></body></html>"].flatMap ascii

/-- The format `resp301` with what its two conversions give. -/
def resp301 (host loc : Bytes) : Bytes := ["HTTP/1.1 301 Moved Permanently\r\n",
  "Content-Type: text/html\r\n",
  "Content-Length: 87\r\n",
  "Location: http://"].flatMap ascii ++ host ++ loc ++ ["\r\n",
  "\r\n",
  "<html><head><title>Object Moved</title></head>",
  "<body><h1>Object Moved</h1></body></html>"].flatMap ascii

def resp403 : Bytes := ["HTTP/1.1 403 Forbidden\r\n",
  "Content-Type: text/html\r\n",
  "Content-Length: 84\r\n",
  "\r\n",
  "<html><head><title>Fobidden</title></head>",
  "<body><h1>Access denied</h1></body></html>"].flatMap ascii

def resp404 : Bytes := ["HTTP/1.1 404 Object Not Found\r\n",
  "Content-Type: text/html\r\n",
  "Content-Length: 83\r\n",
  "\r\n",
  "<html><head><title>Fuck Off</title></head>",
  "<body><h1>y u no find?</h1></body></html>"].flatMap ascii

def resp501 : Bytes := ["HTTP/1.1 501 Method Not Implemented\r\n",
  "Content-Type: text/html\r\n",
  "Content-Length: 87\r\n",
  "\r\n",
  "<html><head><title>Fuck...</title></head>",
  "<body><h1>y u no implement?</h1></body></html>"].flatMap ascii

theorem pages_fit : (resp400.length ≤ HTTP_MAX_REQ ∧ resp403.length ≤ HTTP_MAX_REQ ∧ resp404.length ≤ HTTP_MAX_REQ) ∧
    (resp500.length ≤ HTTP_MAX_REQ ∧ resp501.length ≤ HTTP_MAX_REQ) ∧
    (resp301 (ascii "%.*s") (ascii "%.*s")).length ≤ HTTP_MAX_REQ := by decide +kernel

theorem resp400_fits : resp400.length ≤ HTTP_MAX_REQ := pages_fit.1.1

theorem resp403_fits : resp403.length ≤ HTTP_MAX_REQ := pages_fit.1.2.1

theorem resp404_fits : resp404.length ≤ HTTP_MAX_REQ := pages_fit.1.2.2

theorem resp500_fits : resp500.length ≤ HTTP_MAX_REQ := pages_fit.2.1.1

theorem resp501_fits : resp501.length ≤ HTTP_MAX_REQ := pages_fit.2.1.2

theorem resp301_format_fits : (resp301 (ascii "%.*s") (ascii "%.*s")).length ≤ HTTP_MAX_REQ := pages_fit.2.2

/-- The table `hex` of `print_etag`. -/
def etagHex : Bytes := ascii "01234567890abcdef"

def printEtag (etag : Bytes) : Bytes :=
  etag.flatMap fun (b : UInt8) => [etagHex.getD (b >>> 4).toNat 0, etagHex.getD (b &&& 0xf).toNat 0]

/-- `struct tm`, without the fields that are not printed. -/
structure Tm where
  tmSec : ℕ
  tmMin : ℕ
  tmHour : ℕ
  tmMday : ℕ
  tmMon : ℕ
  tmYear : ℕ
  tmWday : ℕ
  deriving DecidableEq, Repr

/-- `gmtime_r` from 1970 on. The years that days are counted in begin in March. -/
def gmtime (t : ℕ) : Tm :=
  let days := t / 86400
  let sec := t % 86400
  let z := days + 719468
  let doe := z % 146097
  let yoe := (doe - doe / 1460 + doe / 36524 - doe / 146096) / 365
  let doy := doe - (365 * yoe + yoe / 4 - yoe / 100)
  let mp := (5 * doy + 2) / 153
  let mon := if mp < 10 then mp + 2 else mp - 10
  { tmSec := sec % 60
    tmMin := sec / 60 % 60
    tmHour := sec / 3600
    tmMday := doy - (153 * mp + 2) / 5 + 1
    tmMon := mon
    tmYear := yoe + 400 * (z / 146097) + (if mon ≤ 1 then 1 else 0) - 1900
    tmWday := (days + 4) % 7 }

/-- A number in decimal, as `%u` prints it. -/
def decimal (n : ℕ) : Bytes := (Nat.toDigits 10 n).map fun c => UInt8.ofNat c.toNat

/-- A number in decimal with at least two digits, as `%02d` prints it. -/
def decimal2 (n : ℕ) : Bytes := if n < 10 then 48 :: decimal n else decimal n

/-- A number in decimal, filled up with blanks to four places, as `%4d` prints it. -/
def decimal4 (n : ℕ) : Bytes := List.replicate (4 - (decimal n).length) SP ++ decimal n

def dayofweek : List Bytes := ["Sun", "Mon", "Tue", "Wed", "Thu", "Fri", "Sat"].map ascii

def monthofyear : List Bytes :=
  ["Jan", "Feb", "Mar", "Apr", "May", "Jun", "Jul", "Aug", "Sep", "Oct", "Nov", "Dec"].map ascii

def HTTP_TIME_BUF : ℕ := 44

/-- What `print_time` prints. The month is counted from zero, and one less is looked up. -/
def printTime (tm : Tm) : Except Fault Bytes :=
  if tm.tmMon = 0 then .error .outOfRange
  else match dayofweek[tm.tmWday]?, monthofyear[tm.tmMon - 1]? with
    | some day, some month =>
      .ok (day ++ ascii ", " ++ decimal2 tm.tmMday ++ ascii " " ++ month ++ ascii " " ++
        decimal4 (tm.tmYear + 1900) ++ ascii " " ++ decimal2 tm.tmHour ++ ascii ":" ++
        decimal2 tm.tmMin ++ ascii ":" ++ decimal2 tm.tmSec ++ ascii " GMT")
    | _, _ => .error .outOfRange

/-- `struct resp`: the room from the first `r_ptr` to `r_end`, and the `r_len` bytes in it. -/
structure Resp where
  room : ℕ
  text : Bytes
  deriving DecidableEq, Repr

def respString (r : Resp) (s : Bytes) : Except Fault Resp :=
  if r.text.length + s.length ≤ r.room then .ok { r with text := r.text ++ s }
  else .error .assertion

/-- `resp_u64`. A number that just fits loses its last digit to the terminator. -/
def respU64 (r : Resp) (u : ℕ) : Except Fault Resp :=
  if r.text.length + (decimal u).length < r.room then .ok { r with text := r.text ++ decimal u }
  else if r.text.length + (decimal u).length = r.room then
    .ok { r with text := r.text ++ (decimal u).dropLast ++ [0] }
  else .error .assertion

def respEtag (r : Resp) (etag : Bytes) : Except Fault Resp :=
  if r.text.length + (ETAG_SZ * 2 + 1) ≤ r.room then .ok { r with text := r.text ++ printEtag etag }
  else .error .assertion

/-- `resp_time`. A text that is longer than its buffer would count as if it had been printed. -/
def respTime (r : Resp) (tm : Tm) : Except Fault Resp :=
  if r.text.length + HTTP_TIME_BUF ≤ r.room then
    match printTime tm with
    | .error f => .error f
    | .ok text =>
      if HTTP_TIME_BUF < text.length then .error .outOfRange
      else .ok { r with text := r.text ++ text }
  else .error .assertion

def respHttpCode (r : Resp) (code : ℕ) : Except Fault Resp :=
  if r.text.length + 3 ≤ r.room then
    .ok { r with
      text := r.text ++ [code / 100 % 10, code / 10 % 10, code % 10].map fun d => 48 + UInt8.ofNat d }
  else .error .assertion

/-- The words behind the code of a status line. -/
def reasonPhrase (code : ℕ) : Bytes :=
  if code = 200 then ascii " OK"
  else if code = HTTP_NOT_MODIFIED then ascii " Not Modified"
  else ascii " Not Found"

/-- What `handle_get` makes of a record: what the header tells of it. -/
structure GetHeader where
  code : ℕ
  mimeType : Bytes
  contentLength : ℕ
  connClose : ℕ
  etag : Bytes
  mtime : UInt32
  deriving DecidableEq, Repr

/-- The header that `handle_get` puts together in a buffer with `room` bytes left. -/
def getHeader (room : ℕ) (g : GetHeader) : Except Fault Bytes := do
  let r ← respString ⟨room, []⟩ (ascii "HTTP/1.1 ")
  let r ← respHttpCode r g.code
  let r ← respString r (reasonPhrase g.code)
  let r ← respString r (ascii "\r\nContent-Type: ")
  let r ← respString r g.mimeType
  let r ← respString r (ascii "\r\nContent-Length: ")
  let r ← respU64 r g.contentLength
  let r ← respString r (ascii "\r\nConnection: ")
  let r ← respString r (if g.connClose ≠ 0 then ascii "Close" else ascii "Keep-Alive")
  let r ← respString r (ascii "\r\nETag: ")
  let r ← respEtag r g.etag
  let r ← respString r (ascii "\r\nLast-Modified: ")
  let r ← respTime r (gmtime g.mtime.toNat)
  let r ← respString r (ascii "\r\nServer: ashttpd\r\n\r\n")
  return r.text

/-- The server around a connection: the webroots, the table of virtual hosts and the I/O model. -/
structure Server where
  roots : Webroots
  vhostsLookup : Bytes → Option ℕ
  fio : Fio

/-- How `recv` ends: with `EAGAIN`, with another error, or with the bytes that are there, of which
as many are taken as there is room for. No bytes stand for the end of the stream. -/
inductive RecvResult where
  | eagain
  | error
  | bytes (bs : Bytes)
  deriving DecidableEq, Repr

/-- What a read callback meets: the result of `recv`, the blocks there are for buffers, how a
submission gets on, the address that `getsockname` tells, what `uribuf` holds and the byte in
front of `fmask`. -/
structure ReadResults where
  recv : RecvResult
  reqBlock : Option Mem
  resBlock : Option Mem
  dataBlock : Option Mem
  submit : SubmitResult
  sockname : Bytes
  uribuf : Mem
  before : UInt8

namespace HttpConn

/-- The common part of the functions that queue a text. -/
def respond (h : HttpConn) (text : Bytes) : Except Fault HttpConn := do
  let res ← deref h.hRes
  if res.bufWrite < text.length then .error .assertion
  else
    let res ← (res.put text).bufDoneWrite text.length
    return (h.withRes (some res)).withData h.hDataOff 0

def response403 (h : HttpConn) : Except Fault HttpConn := h.respond resp403

def response404 (h : HttpConn) : Except Fault HttpConn := h.respond resp404

def response501 (h : HttpConn) : Except Fault HttpConn := (h.respond resp501).map (·.withClose 1)

def response400 (h : HttpConn) : Except Fault HttpConn := (h.respond resp400).map (·.withClose 1)

def response500 (h : HttpConn) : Except Fault HttpConn := (h.respond resp500).map (·.withClose 1)

/-- `response_301`. The assertion looks at the format, and `snprintf` at the room. -/
def response301 (h : HttpConn) (hostHdr loc : Bytes) : Except Fault HttpConn := do
  let res ← deref h.hRes
  if res.bufWrite < (resp301 (ascii "%.*s") (ascii "%.*s")).length then .error .assertion
  else
    let text := resp301 (untilNul hostHdr) (untilNul loc)
    let printed := if text.length = res.bufWrite then text.dropLast ++ [0] else text
    let res ← (res.put printed).bufDoneWrite printed.length
    return (h.withRes (some res)).withData h.hDataOff 0

/-- The body of a file is only prepared if it is sent. -/
def prepareBody (fio : Fio) (h : HttpConn) (head : Bool) (o : ReadResults) :
    Except Fault (HttpConn × Bool) :=
  if h.hDataLen ≠ 0 ∧ head = false then h.ioPrep fio o.dataBlock o.submit else .ok (h, true)

/-- The end of `handle_get`, where the header of a file is queued. -/
def queueHeader (h : HttpConn) (w : ℕ) (head : Bool) (g : GetHeader) : Except Fault HttpConn := do
  let res ← deref h.hRes
  let text ← getHeader res.bufWrite g
  let res ← (res.put text).bufDoneWrite text.length
  if head then return (h.withRes (some res)).withData h.hDataOff 0
  else return ((h.withRes (some res)).withWebroot (some w)).logged [.webrootRef w]

def etagHit (r : HttpRequest) (etag : Bytes) : Bool :=
  r.etag.vLen = 40 ∧ vstrcmp r.etag.bytes (printEtag etag) = 0

/-- The part of `handle_get` behind the `switch`, for a file. -/
def serveFile (s : Server) (h : HttpConn) (r : HttpRequest) (head : Bool) (o : ReadResults) (w : ℕ)
    (mimeType : Bytes) (ofs len : ℕ) (mtime : UInt32) (etag : Bytes) : Except Fault HttpConn := do
  let hit := etagHit r etag
  let code := if hit then HTTP_NOT_MODIFIED else HTTP_FOUND
  match ← (h.withData ofs len).prepareBody s.fio (head || hit) o with
  | (h, false) => h.response500
  | (h, true) =>
    h.queueHeader w (head || hit) ⟨code, mimeType, h.hDataLen, h.hConnClose, etag, mtime⟩

/-- The `switch` of `handle_get` and what comes after it. -/
def serveName (s : Server) (h : HttpConn) (r : HttpRequest) (head : Bool) (o : ReadResults) (w : ℕ)
    (n : WebrootName) : Except Fault HttpConn :=
  if n.code = HTTP_MOVED_PERMANENTLY then
    match n.u with
    | .moved (some target) => h.response301 r.host.bytes target
    | _ => .error .undefined
  else if n.code = HTTP_FORBIDDEN then h.response403
  else
    match n.mimeType, n.u with
    | some mimeType, .data ofs len mtime etag => h.serveFile s r head o w mimeType ofs len mtime etag
    | _, _ => .error .undefined

/-- `handle_get`, which always returns 1. What `nads_normalize` returns is not looked at. -/
def handleGet (s : Server) (h : HttpConn) (r : HttpRequest) (head : Bool) (o : ReadResults) :
    Except Fault HttpConn := do
  let nads ← nadsNormalize o.before o.uribuf r.uri.bytes
  match s.vhostsLookup (untilNul r.host.bytes) with
  | none => h.response403
  | some w =>
    match ← webrootFind (s.roots.index w) nads.uri 0 (nads.uri.cstr NADS_MAX_URI 0).length with
    | none => h.response404
    | some n => h.serveName s r head o w n

def methodGet : Bytes := ascii "GET"
def methodHead : Bytes := ascii "HEAD"

/-- The host that a request without one is taken to be for. The source prints the address into a buffer of a block that
has ended when `handle_get` reads it; that it is still there is an assumption. -/
def defaultHost (r : HttpRequest) (sockname : Bytes) : HttpRequest :=
  if r.host.vLen = 0 then { r with host := ⟨some 0, sockname⟩ } else r

section DefaultHost

variable (r : HttpRequest) (sockname : Bytes)

@[simp] theorem defaultHost_method : (defaultHost r sockname).method = r.method := by
  unfold defaultHost
  split <;> rfl

@[simp] theorem defaultHost_uri : (defaultHost r sockname).uri = r.uri := by
  unfold defaultHost
  split <;> rfl

@[simp] theorem defaultHost_etag : (defaultHost r sockname).etag = r.etag := by
  unfold defaultHost
  split <;> rfl

@[simp] theorem defaultHost_contentLen : (defaultHost r sockname).contentLen = r.contentLen := by
  unfold defaultHost
  split <;> rfl

@[simp] theorem defaultHost_connClose : (defaultHost r sockname).connClose = r.connClose := by
  unfold defaultHost
  split <;> rfl

end DefaultHost

/-- The part of `handle_request` that calls a handler. -/
def answer (s : Server) (h : HttpConn) (r : HttpRequest) (o : ReadResults) : Except Fault HttpConn :=
  if vstrcmpFast r.method.bytes methodGet = 0 then h.handleGet s r false o
  else if vstrcmpFast r.method.bytes methodHead = 0 then h.handleGet s r true o
  else h.response501

/-- The end of `handle_request`: the head is read, and what is behind it moves to the front. -/
def finishRequest (h : HttpConn) (hlen : ℕ) : Except Fault HttpConn := do
  let req ← deref h.hReq
  let rest ← req.bufDoneRead hlen
  let h := h.logged [.answered (req.unread.take hlen)]
  if rest.bufRead ≠ 0 then return h.withReq (some rest.bufReset) .initial 0
  else return (h.free (some rest) .req).withReq none h.hRstate h.hRptr

/-- The part of `handle_request` behind the parser. -/
def handleParsed (s : Server) (h : HttpConn) (hlen : ℕ) (r : HttpRequest) (o : ReadResults) :
    Except Fault HttpConn :=
  if hlen = 0 then h.response400
  else if r.contentLen ≠ 0 then h.httpKill s.fio
  else do
    let h ← (h.withClose r.connClose.toNat).answer s (defaultHost r o.sockname) o
    h.finishRequest hlen

def handleRequest (s : Server) (h : HttpConn) (o : ReadResults) : Except Fault HttpConn :=
  if h.hState ≠ .request then .error .assertion
  else match o.resBlock with
    | none => (h.withRes none).httpKill s.fio
    | some block => do
      let h := (h.withRes (some (.alloc block HTTP_MAX_REQ))).withState .header
      let h ← h.nbioSetWait NBIO_WRITE
      let req ← deref h.hReq
      let (hlen, r) := httpReq {} req.unread
      h.handleParsed s hlen r o

/-- The end of `http_read`, when bytes were received. -/
def received (s : Server) (h : HttpConn) (req : HttpBuf) (o : ReadResults) : Except Fault HttpConn := do
  let (complete, rstate, n) ← httpParseIncremental h.hRstate
    (req.block.slice h.hRptr (req.bWrite - h.hRptr))
  let h := h.withReq (some req) rstate (h.hRptr + n)
  if complete then h.handleRequest s o else return h

/-- The part of `http_read` behind the allocation. -/
def receive (s : Server) (h : HttpConn) (req : HttpBuf) (o : ReadResults) : Except Fault HttpConn :=
  if req.bufWrite = 0 then h.httpKill s.fio
  else match o.recv with
    | .eagain => .ok (h.withNbio (h.hNbio.nbioInactive NBIO_READ))
    | .error => h.httpKill s.fio
    | .bytes bs =>
      let bs := bs.take req.bufWrite
      if bs.length = 0 then h.httpKill s.fio
      else do
        let req ← (req.put bs).bufDoneWrite bs.length
        (h.logged [.received bs]).received s req o

/-- `http_read`, the callback for a descriptor that can be read from. -/
def httpRead (s : Server) (h : HttpConn) (o : ReadResults) : Except Fault HttpConn :=
  if h.hState ≠ .request then .error .assertion
  else match h.hReq, o.reqBlock with
    | some req, _ => h.receive s req o
    | none, none => h.httpKill s.fio
    | none, some block =>
      let req := HttpBuf.alloc block HTTP_MAX_RESP
      (h.withReq (some req) .initial 0).receive s req o

/-- `http_conn`: a new connection, which waits to be read from. -/
def httpConn : HttpConn where
  hNbio := ⟨true, NBIO_READ, NBIO_READ, .active, false⟩
  hState := .request
  hRstate := .initial
  hRptr := 0
  hReq := none
  hRes := none
  hIoPriv := none
  aio := none
  hWebroot := none
  hDataOff := 0
  hDataLen := 0
  hConnClose := 0
  log := []

/-- What happens to a connection: the event backend reports on its descriptor, `nbio_pump` calls
back or finds an error, or a read in flight is done. -/
inductive Happening where
  | ready (flags : UInt8)
  | write (o : WriteResults)
  | read (o : ReadResults)
  | error
  | completion (o : CompletionResult)

/-- Whether `nbio_pump` calls back for a flag. -/
def Called (h : HttpConn) (flag : UInt8) : Prop :=
  h.hNbio.list = .active ∧ h.hNbio.flags &&& h.hNbio.mask &&& flag ≠ 0

instance (h : HttpConn) (flag : UInt8) : Decidable (h.Called flag) :=
  inferInstanceAs (Decidable (_ ∧ _))

/-- A step of the connection; `none` if this cannot happen in its state. `nbio_pump` comes to its error branch on
whatever list a callback has put the connection before. But callbacks that put it on another one clear its flags, all
but those that find `EAGAIN`; these receive and send nothing, so that the branch leads to the same end without them. -/
def step (s : Server) (h : HttpConn) : Happening → Except Fault (Option HttpConn)
  | .ready flags =>
    if h.hNbio.list = .inactive ∧ h.hNbio.polled then
      .ok (some (h.withNbio { h.hNbio with flags := flags &&& NBIO_WAIT, list := .active }))
    else .ok none
  | .write o => if h.Called NBIO_WRITE then (h.httpWrite s.fio s.roots o).map some else .ok none
  | .read o => if h.Called NBIO_READ then (h.httpRead s o).map some else .ok none
  | .error =>
    if h.hNbio.list = .active ∧ h.hNbio.flags &&& NBIO_ERROR ≠ 0 then
      .ok (some (h.withNbio h.hNbio.nbioDel))
    else .ok none
  | .completion o =>
    match h.aio with
    | none => .ok none
    | some iocb => (h.handleCompletion s.roots iocb o).map some

def Steps (s : Server) (h : HttpConn) (e : Happening) (h' : HttpConn) : Prop :=
  h.step s e = .ok (some h')

end HttpConn
end Ashttpd
