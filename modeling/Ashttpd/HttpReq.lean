import Ashttpd.HttpParse

/-!
# Request heads (`http_req.c`)

The control blocks of `http_req` write to the request and to three local variables; `ReqSlots`
holds what they point to.
-/
namespace Ashttpd

def HTTP_DEFAULT_PORT : UInt16 := 80

structure HttpRequest where
  method : RoVec := {}
  host : RoVec := {}
  uri : RoVec := {}
  hostname : RoVec := {}
  etag : RoVec := {}
  contentLen : ℕ := 0
  port : UInt16 := 0
  protoVers : UInt8 := 0
  connClose : UInt8 := 0
  deriving DecidableEq, Repr

structure ReqSlots where
  method : RoVec
  uri : RoVec
  pv : RoVec := {}
  connection : RoVec := {}
  clen : ℤ := -1
  host : RoVec
  etag : RoVec
  deriving DecidableEq, Repr

/-- The table `hcb` of `http_req`, in its order. -/
def reqHcb : List (HttpHcb ReqSlots) := [
  -- method
  ⟨[109, 101, 116, 104, 111, 100], fun v s => { s with method := v }⟩,
  -- uri
  ⟨[117, 114, 105], fun v s => { s with uri := v }⟩,
  -- protocol
  ⟨[112, 114, 111, 116, 111, 99, 111, 108], fun v s => { s with pv := v }⟩,
  -- Connection
  ⟨[67, 111, 110, 110, 101, 99, 116, 105, 111, 110], fun v s => { s with connection := v }⟩,
  -- Content-Length
  ⟨[67, 111, 110, 116, 101, 110, 116, 45, 76, 101, 110, 103, 116, 104],
    fun v s => { s with clen := htypeInt v }⟩,
  -- Host
  ⟨[72, 111, 115, 116], fun v s => { s with host := v }⟩,
  -- If-None-Match
  ⟨[73, 102, 45, 78, 111, 110, 101, 45, 77, 97, 116, 99, 104],
    fun v s => { s with etag := v }⟩]

def closeToken : Bytes := [67, 108, 111, 115, 101]

/-- Split a host at its last colon: what is before it and what is after it. -/
def splitPort (host : Bytes) : Option (Bytes × Bytes) :=
  match host.reverse.findIdx? (· == COLON) with
  | some n => some (host.take (host.length - n - 1), host.drop (host.length - n))
  | none => none

/-- The part of `http_req` that looks for a port in the host. -/
def hostPort (r : HttpRequest) : HttpRequest :=
  if r.host.vPtr = none then { r with port := HTTP_DEFAULT_PORT }
  else match splitPort r.host.bytes with
    | none => { r with port := HTTP_DEFAULT_PORT, hostname := r.host }
    | some (name, port) =>
      let (prt, n) := vtouint port
      { r with
        hostname := ⟨r.host.vPtr, name⟩
        port :=
          if port ≠ [] ∧ n = port.length ∧ prt ≤ 0xffff then prt.toUInt16 else HTTP_DEFAULT_PORT }

/-- `http_req`: the length of the head, zero if there is none, and the request filled in. -/
def httpReq (r : HttpRequest) (p : Bytes) : ℕ × HttpRequest :=
  let (hlen, s) := httpDecodeBuf reqHcb p
    { method := r.method, uri := r.uri, host := r.host, etag := r.etag }
  let r := { r with method := s.method, uri := s.uri, host := s.host, etag := s.etag }
  if hlen = 0 then (0, r)
  else
    let r := { r with
      protoVers := httpProtoVersion s.pv
      contentLen := if 0 < s.clen then s.clen.toNat else r.contentLen
      connClose := if vcasecmpFast s.connection.bytes closeToken = 0 then 1 else 0 }
    let r := hostPort r
    -- a URI that was found has a pointer, so this keeps it
    (hlen, if r.uri.vPtr = none then { r with uri := ⟨none, [47]⟩ } else r)

end Ashttpd
