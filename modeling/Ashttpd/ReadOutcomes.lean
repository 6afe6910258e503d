import Ashttpd.HeadFraming
import Ashttpd.WebrootUse

/-!
# What a read callback comes to

A read callback kills the connection, waits for more of a request, refuses it, or has it answered. What is said
here of the last two is enough for what a response is sent from.
-/
namespace Ashttpd

variable {s : Server} {h h' : HttpConn} {fio : Fio} {r : HttpRequest} {o : ReadResults}

/-- To kill a connection is no submission. -/
theorem httpKill_aio (hok : h.httpKill fio = .ok h') : h'.aio = h.aio := by
  have hfree : ∀ (g : HttpConn) b kind, (g.free b kind).aio = g.aio := by
    intro g b kind
    cases b with
    | none => rfl
    | some b => rfl
  have habort : ∀ {g g' : HttpConn}, g.ioAbort fio = .ok g' → g'.aio = g.aio := by
    intro g g' hok
    cases fio with
    | sendfile =>
      cases hok
      rfl
    | sync | async =>
      obtain ⟨b, -, hok⟩ := bind_eq_ok_iff.mp hok
      cases hok
      exact hfree g b .data
  have hdrop : ∀ {g g' : HttpConn}, g.dropResponse fio = .ok g' → g'.aio = g.aio := by
    intro g g' hok
    unfold HttpConn.dropResponse at hok
    split at hok
    · split at hok
      · cases hok
        rfl
      · cases hok
    · exact (habort hok).trans (hfree g g.hRes .res)
    · exact habort hok
    · cases hok
  unfold HttpConn.httpKill at hok
  split at hok
  · cases hok
    rfl
  · obtain ⟨g, hg, rfl⟩ := map_eq_ok_iff.mp hok
    exact (hdrop hg).trans (hfree h.close h.hReq .req)

/-- A connection that is to get a response: `g` is what `h` has become. -/
structure Opened (h g : HttpConn) : Prop where
  res : ∃ block, g.hRes = some (.alloc block HTTP_MAX_REQ)
  state : g.hState = .header
  aio : g.aio = h.aio

/-- What becomes of a connection by a read callback that finds the request `r` complete. -/
inductive Reads (s : Server) (h : HttpConn) (r : HttpRequest) (o : ReadResults) (h' : HttpConn) : Prop
  | silent (hstate : h'.hState = .dead ∨ h'.hState = .request) (haio : h'.aio = h.aio)
  | refused {g : HttpConn} (hopened : Opened h g) (hok : g.response400 = .ok h')
  | answered {g h₁ : HttpConn} {hlen : ℕ} (hopened : Opened h g) (hanswer : g.answer s r o = .ok h₁)
      (hok : h₁.finishRequest hlen = .ok h')

theorem Reads.congr {h₁ : HttpConn} (haio : h₁.aio = h.aio) (hr : Reads s h₁ r o h') : Reads s h r o h' := by
  cases hr with
  | silent hstate haio' => exact .silent hstate (haio'.trans haio)
  | refused hopened hok => exact .refused ⟨hopened.res, hopened.state, hopened.aio.trans haio⟩ hok
  | answered hopened hanswer hok =>
    exact .answered ⟨hopened.res, hopened.state, hopened.aio.trans haio⟩ hanswer hok

theorem reads_kill (hfd : h.hNbio.fd = true) : Leads (Reads s h r o) (h.httpKill fio) :=
  ends_of_forall (fun _ => trivial) fun _ hok => .silent (Or.inl (httpKill_dead hfd hok)) (httpKill_aio hok)

theorem handleRequest_reads (hfd : h.hNbio.fd = true) {req : HttpBuf} (hreq : h.hReq = some req) :
    Leads (Reads s h (HttpConn.defaultHost (httpReq {} req.unread).2 o.sockname) o) (h.handleRequest s o) := by
  unfold HttpConn.handleRequest
  split
  · trivial
  · cases o.resBlock with
    | none => exact (reads_kill (h := h.withRes none) hfd).mono (fun _ => id) fun _ => .congr rfl
    | some block =>
      refine ends_of_forall (fun _ => trivial) fun h' hok => ?_
      obtain ⟨h₁, hwait, hok⟩ := bind_eq_ok_iff.mp hok
      obtain ⟨io, hio, rfl⟩ := map_eq_ok_iff.mp hwait
      obtain ⟨req', hderef, hok⟩ := bind_eq_ok_iff.mp hok
      have hreq' : req' = req := by
        have hsome : deref h.hReq = .ok req' := hderef
        rw [hreq] at hsome
        exact (Except.ok.inj hsome).symm
      have hfd' : io.fd = true := by
        unfold Nbio.doSetWait at hio
        split at hio
        · cases hio
        · cases hio
          exact hfd
      rw [hreq'] at hok
      obtain ⟨g, hg⟩ : ∃ g, g = ((h.withRes (some (.alloc block HTTP_MAX_REQ))).withState .header).withNbio io :=
        ⟨_, rfl⟩
      have hopened : ∀ close, Opened h (g.withClose close) := by
        rw [hg]
        exact fun close => ⟨⟨block, rfl⟩, rfl, rfl⟩
      have hgfd : g.hNbio.fd = true := by
        rw [hg]
        exact hfd'
      have haio : g.aio = h.aio := (hopened 0).aio
      rw [← hg] at hok
      unfold HttpConn.handleParsed at hok
      dsimp only at hok
      split at hok
      · exact .refused (hopened g.hConnClose) hok
      · split at hok
        · exact ((reads_kill hgfd).result hok).congr haio
        · obtain ⟨h₂, hanswer, hfinish⟩ := bind_eq_ok_iff.mp hok
          exact .answered (hopened _) hanswer hfinish

theorem received_reads (hfd : h.hNbio.fd = true) (hstate : h.hState = .request) (req : HttpBuf) :
    Leads (Reads s h (HttpConn.defaultHost (httpReq {} req.unread).2 o.sockname) o) (h.received s req o) := by
  refine ends_bind (ends_any _) ?_
  rintro ⟨complete, st, n⟩ -
  dsimp only
  split
  · exact (handleRequest_reads (h := h.withReq (some req) st (h.hRptr + n)) hfd rfl).mono (fun _ => id) fun _ => .congr rfl
  · exact .silent (Or.inr hstate) rfl

theorem receive_reads (hfd : h.hNbio.fd = true) (hstate : h.hState = .request) {req : HttpBuf}
    (hreq : h.hReq = some req) : Leads (Reads s h (h.requestRead o) o) (h.receive s req o) := by
  unfold HttpConn.receive
  split
  · exact reads_kill hfd
  · cases hrecv : o.recv with
    | eagain => exact .silent (Or.inr hstate) rfl
    | error => exact reads_kill hfd
    | bytes bs =>
      dsimp only
      split
      · exact reads_kill hfd
      · have hfit : (bs.take req.bufWrite).length ≤ req.bufWrite := List.length_take_le _ _
        obtain ⟨req', hdone, hun, -⟩ := req.bufDoneWrite_spec hfit
        have hread : h.requestRead o = HttpConn.defaultHost (httpReq {} req'.unread).2 o.sockname := by
          unfold HttpConn.requestRead HttpConn.unread HttpConn.room
          rw [hrecv, hreq, hun]
        rw [hdone, ok_bind, hread]
        exact (received_reads (h := h.logged [.received (bs.take req.bufWrite)]) hfd hstate req').mono (fun _ => id)
          fun _ => .congr rfl

theorem httpRead_reads (hfd : h.hNbio.fd = true) (hstate : h.hState = .request) :
    Leads (Reads s h (h.requestRead o) o) (h.httpRead s o) := by
  unfold HttpConn.httpRead
  split
  · trivial
  · cases hreq : h.hReq with
    | some req => exact receive_reads hfd hstate hreq
    | none =>
      cases o.reqBlock with
      | none => exact reads_kill hfd
      | some block =>
        have hread : (h.withReq (some (.alloc block HTTP_MAX_RESP)) .initial 0).requestRead o = h.requestRead o :=
          requestRead_fresh hreq
        rw [← hread]
        exact (receive_reads (h := h.withReq (some (.alloc block HTTP_MAX_RESP)) .initial 0) hfd hstate rfl).mono
          (fun _ => id) fun _ => .congr rfl

end Ashttpd
