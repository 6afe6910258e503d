import Ashttpd.ConnectionReads
import Ashttpd.WebrootRefs

/-!
# Requests that take a reference to a webroot

A reference is taken for a GET request that is answered with a file, and the webroot that the connection
pointed to is forgotten. With no webroot to be forgotten the references stay balanced.
-/
namespace Ashttpd

variable {s : Server} {h h' h₀ : HttpConn} {fio : Fio} {r : HttpRequest} {o : ReadResults} {P P' : HttpConn → Prop}

/-- Whether there is what the I/O model needs for the body of a file. -/
def BodyRoom (fio : Fio) (o : ReadResults) : Prop :=
  match fio with
  | .sync => o.dataBlock ≠ none
  | .sendfile => True
  | .async => o.dataBlock ≠ none ∧ o.submit = .submitted

/-- A request leads to a file that the client does not have yet, and that can be sent. -/
def FileFound (s : Server) (r : HttpRequest) (o : ReadResults) : Prop :=
  ∃ w n mimeType ofs len mtime etag, Finds s r o w n ∧ n.code ≠ HTTP_MOVED_PERMANENTLY ∧ n.code ≠ HTTP_FORBIDDEN ∧
    n.mimeType = some mimeType ∧ n.u = .data ofs len mtime etag ∧ HttpConn.etagHit r etag = false ∧
    (len ≠ 0 → BodyRoom s.fio o)

/-- A callback that reads completes a GET request for a file, and has what it takes to answer it. -/
structure TakesRoot (s : Server) (h : HttpConn) (o : ReadResults) : Prop where
  complete : ∃ bs, o.recv = .bytes bs ∧
    (∃ st n, httpParseIncremental (h.scanned bs).1 (h.scanned bs).2 = .ok (true, st, n)) ∧
    (httpReq {} (h.unread ++ bs.take h.room)).1 ≠ 0
  block : o.resBlock ≠ none
  method : vstrcmpFast (h.requestRead o).method.bytes HttpConn.methodGet = 0
  noBody : (h.requestRead o).contentLen = 0
  file : FileFound s (h.requestRead o) o

def Takes (P P' : HttpConn → Prop) (w : ℕ) : Prop :=
  ∀ {h}, P h → P' ((h.withWebroot (some w)).logged [.webrootRef w])

theorem TakesRoot.of_fresh {block : Mem} (hreq : h.hReq = none)
    (ht : TakesRoot s (h.withReq (some (.alloc block HTTP_MAX_RESP)) .initial 0) o) : TakesRoot s h o := by
  obtain ⟨⟨bs, hrecv, hscan, hhead⟩, hblock, hget, hbody, hfile⟩ := ht
  rw [scanned_fresh hreq] at hscan
  rw [(unread_fresh hreq).1, (unread_fresh hreq).2] at hhead
  rw [requestRead_fresh hreq] at hget hbody hfile
  exact ⟨⟨bs, hrecv, hscan, hhead⟩, hblock, hget, hbody, hfile⟩

namespace Steady

theorem ioPrep (hP : Steady P) (hp : P h) (fio : Fio) :
    Ends AnyFault (fun p => P p.1 ∧ (p.2 = true → BodyRoom fio o)) (h.ioPrep fio o.dataBlock o.submit) := by
  cases fio with
  | sync =>
    cases hblock : o.dataBlock with
    | none => exact ⟨hp, nofun⟩
    | some m =>
      exact ends_bind (hP.httpConnSetPriv hp _) fun _ hp' => ⟨hp', fun _ => by simp [BodyRoom, hblock]⟩
  | sendfile => exact ⟨hp, fun _ => trivial⟩
  | async =>
    cases hblock : o.dataBlock with
    | none => exact ⟨hp, nofun⟩
    | some m =>
      refine ends_bind (hP.httpConnSetPriv hp _) fun h₁ hp₁ => ends_bind (hP.aioSubmit hp₁ o.submit).with_result ?_
      rintro ⟨h₂, ok⟩ ⟨hp₂, hsubmit⟩
      cases ok with
      | false => exact ends_bind (hP.httpConnSetPriv (hP.free hp₂ h₂.hIoPriv .data) none) fun _ hp₃ => ⟨hp₃, nofun⟩
      | true =>
        obtain ⟨hfalse, -⟩ | ⟨-, hsubmitted, -⟩ := aioSubmit_cases hsubmit
        · cases hfalse
        · exact ⟨hp₂, fun _ => ⟨by simp [hblock], hsubmitted⟩⟩

theorem prepareBody (hP : Steady P) (hp : P h) (fio : Fio) (head : Bool) :
    Ends AnyFault (fun p => P p.1 ∧ (p.2 = true → head = false → h.hDataLen ≠ 0 → BodyRoom fio o))
      (h.prepareBody fio head o) := by
  unfold HttpConn.prepareBody
  split
  · exact (hP.ioPrep hp fio).mono (fun _ => id) fun _ hroom => ⟨hroom.1, fun hok _ _ => hroom.2 hok⟩
  · next hnone => exact ⟨hp, fun _ hhead hlen => absurd ⟨hlen, hhead⟩ hnone⟩

theorem respond (hP : Steady P) (hp : P h) (text : Bytes) : Leads P (h.respond text) := by
  refine ends_bind (ends_any _) fun res _ => ?_
  split
  · trivial
  · exact ends_bind (ends_any _) fun _ _ => hP.data _ _ (hP.res _ hp)

theorem respondClose (hP : Steady P) (hp : P h) (text : Bytes) : Leads P ((h.respond text).map (·.withClose 1)) :=
  ends_map (hP.respond hp text) fun _ hp' => hP.close 1 hp'

theorem response301 (hP : Steady P) (hp : P h) (host loc : Bytes) : Leads P (h.response301 host loc) := by
  unfold HttpConn.response301
  refine ends_bind (ends_any _) fun res _ => ?_
  dsimp only
  generalize (resp301 (ascii "%.*s") (ascii "%.*s")).length = format
  split
  · trivial
  · exact ends_bind (ends_any _) fun _ _ => hP.data _ _ (hP.res _ hp)

variable (hP : Steady P) (hP' : Steady P') (hle : ∀ h, P h → P' h)
include hP hle

omit hP in
theorem leads_mono {x : Except Fault HttpConn} (hx : Leads P x) : Leads P' x := hx.mono (fun _ => id) hle

theorem queueHeader (hp : P h) {head : Bool} {w : ℕ} (htake : head = false → Takes P P' w) (g : GetHeader) :
    Leads P' (h.queueHeader w head g) := by
  refine ends_bind (ends_any _) fun res _ => ends_bind (ends_any _) fun text _ => ends_bind (ends_any _) fun res' _ => ?_
  cases head with
  | true => exact hle _ (hP.data _ _ (hP.res _ hp))
  | false => exact htake rfl (hP.res (some res') hp)

theorem serveFile (hp : P h) {head : Bool} {w ofs len : ℕ} {mimeType etag : Bytes} {mtime : UInt32}
    (htake : head = false → HttpConn.etagHit r etag = false → (len ≠ 0 → BodyRoom s.fio o) → Takes P P' w) :
    Leads P' (h.serveFile s r head o w mimeType ofs len mtime etag) := by
  refine ends_bind (hP.prepareBody (hP.data ofs len hp) s.fio (head || HttpConn.etagHit r etag)) ?_
  rintro ⟨h₁, ok⟩ ⟨hp₁, hroom⟩
  cases ok with
  | false => exact leads_mono hle (hP.respondClose hp₁ resp500)
  | true =>
    refine hP.queueHeader hle hp₁ (fun hhead => ?_) _
    rw [Bool.or_eq_false_iff] at hhead
    exact htake hhead.1 hhead.2 (hroom rfl (Bool.or_eq_false_iff.mpr hhead))

theorem serveName (hp : P h) {head : Bool} {w : ℕ} {n : WebrootName} (hfinds : Finds s r o w n)
    (htake : head = false → FileFound s r o → Takes P P' w) : Leads P' (h.serveName s r head o w n) := by
  unfold HttpConn.serveName
  split
  · split
    · exact leads_mono hle (hP.response301 hp _ _)
    · trivial
  · next hmoved =>
    split
    · exact leads_mono hle (hP.respond hp resp403)
    · next hforbidden =>
      split
      · next mimeType ofs len mtime etag hmime hfile =>
        exact hP.serveFile hle hp fun hhead hhit hroom =>
          htake hhead ⟨w, n, mimeType, ofs, len, mtime, etag, hfinds, hmoved, hforbidden, hmime, hfile, hhit, hroom⟩
      · trivial

theorem handleGet (hp : P h) {head : Bool} (htake : ∀ w, s.vhostsLookup (untilNul r.host.bytes) = some w →
    head = false → FileFound s r o → Takes P P' w) : Leads P' (h.handleGet s r head o) := by
  unfold HttpConn.handleGet
  cases hnads : nadsNormalize o.before o.uribuf r.uri.bytes with
  | error f => trivial
  | ok nads =>
    rw [ok_bind]
    cases hhost : s.vhostsLookup (untilNul r.host.bytes) with
    | none => exact leads_mono hle (hP.respond hp resp403)
    | some w =>
      dsimp only
      cases hfind : webrootFind (s.roots.index w) nads.uri 0 (nads.uri.cstr NADS_MAX_URI 0).length with
      | error f => trivial
      | ok found =>
        rw [ok_bind]
        cases found with
        | none => exact leads_mono hle (hP.respond hp resp404)
        | some n => exact hP.serveName hle hp ⟨nads, hnads, hhost, hfind⟩ (htake w hhost)

theorem answer (hp : P h) (htake : ∀ w, s.vhostsLookup (untilNul r.host.bytes) = some w →
    vstrcmpFast r.method.bytes HttpConn.methodGet = 0 → FileFound s r o → Takes P P' w) :
    Leads P' (h.answer s r o) := by
  unfold HttpConn.answer
  split
  · next hget => exact hP.handleGet hle hp fun w hw _ => htake w hw hget
  · split
    · exact hP.handleGet hle hp fun w _ hhead => nomatch hhead
    · exact leads_mono hle (hP.respondClose hp resp501)

omit hP hle in
theorem finishRequest (hP : Steady P) (hp : P h) (hlen : ℕ) : Leads P (h.finishRequest hlen) := by
  refine ends_bind (ends_any _) fun req _ => ends_bind (ends_any _) fun rest _ => ?_
  have hanswered : P (h.logged [.answered (req.unread.take hlen)]) := hP.logged (fun _ => ⟨by simp, by simp⟩) hp
  split
  · exact hP.req _ _ _ hanswered
  · exact hP.req _ _ _ (hP.free hanswered (some rest) .req)

include hP'

theorem handleParsed (hp : P h) {hlen : ℕ}
    (htake : ∀ w, s.vhostsLookup (untilNul (HttpConn.defaultHost r o.sockname).host.bytes) = some w →
      hlen ≠ 0 → r.contentLen = 0 → vstrcmpFast r.method.bytes HttpConn.methodGet = 0 →
      FileFound s (HttpConn.defaultHost r o.sockname) o → Takes P P' w) : Leads P' (h.handleParsed s hlen r o) := by
  unfold HttpConn.handleParsed
  split
  · exact leads_mono hle (hP.respondClose hp resp400)
  · next hhead =>
    split
    · exact leads_mono hle (hP.httpKill hp s.fio)
    · next hbody =>
      refine ends_bind (hP.answer hle (hP.close _ hp) fun w hw hget hfile => ?_) fun h' hp' => hP'.finishRequest hp' hlen
      rw [HttpConn.defaultHost_method] at hget
      exact htake w hw hhead (not_not.mp hbody) hget hfile

theorem handleRequest (hp : P h) {req : HttpBuf} (hreq : h.hReq = some req)
    (htake : ∀ w, s.vhostsLookup
        (untilNul (HttpConn.defaultHost (httpReq {} req.unread).2 o.sockname).host.bytes) = some w →
      o.resBlock ≠ none → (httpReq {} req.unread).1 ≠ 0 → (httpReq {} req.unread).2.contentLen = 0 →
      vstrcmpFast (httpReq {} req.unread).2.method.bytes HttpConn.methodGet = 0 →
      FileFound s (HttpConn.defaultHost (httpReq {} req.unread).2 o.sockname) o → Takes P P' w) :
    Leads P' (h.handleRequest s o) := by
  unfold HttpConn.handleRequest
  split
  · trivial
  · cases hblock : o.resBlock with
    | none => exact leads_mono hle (hP.httpKill (hP.res none hp) s.fio)
    | some block =>
      refine ends_of_forall (fun _ => trivial) fun h' hok => ?_
      obtain ⟨h₁, hwait, hok⟩ := bind_eq_ok_iff.mp hok
      obtain ⟨io, -, rfl⟩ := map_eq_ok_iff.mp hwait
      obtain ⟨req', hderef, hok⟩ := bind_eq_ok_iff.mp hok
      have hreq' : req' = req := by
        have hsome : deref h.hReq = .ok req' := hderef
        rw [hreq] at hsome
        exact (Except.ok.inj hsome).symm
      rw [hreq'] at hok
      have hp₁ := hP.nbio io (hP.state .header (hP.res (some (.alloc block HTTP_MAX_REQ)) hp))
      exact (hP.handleParsed hP' hle hp₁ fun w hw => htake w hw (by simp [hblock])).result hok

theorem received (hp : P h) (req : HttpBuf)
    (htake : ∀ w, s.vhostsLookup
        (untilNul (HttpConn.defaultHost (httpReq {} req.unread).2 o.sockname).host.bytes) = some w →
      (∃ st n, httpParseIncremental h.hRstate (req.block.slice h.hRptr (req.bWrite - h.hRptr)) =
        .ok (true, st, n)) → o.resBlock ≠ none → (httpReq {} req.unread).1 ≠ 0 →
      (httpReq {} req.unread).2.contentLen = 0 →
      vstrcmpFast (httpReq {} req.unread).2.method.bytes HttpConn.methodGet = 0 →
      FileFound s (HttpConn.defaultHost (httpReq {} req.unread).2 o.sockname) o → Takes P P' w) :
    Leads P' (h.received s req o) := by
  unfold HttpConn.received
  refine ends_bind (ends_any _).with_result ?_
  rintro ⟨complete, st, n⟩ ⟨-, hscan⟩
  have hscanned : P (h.withReq (some req) st (h.hRptr + n)) := hP.req _ _ _ hp
  dsimp only
  split
  · next hcomplete =>
    rw [hcomplete] at hscan
    exact hP.handleRequest hP' hle hscanned rfl fun w hw => htake w hw ⟨st, n, hscan⟩
  · exact hle _ hscanned

theorem receive (hp : P h) {req : HttpBuf} (hreq : h.hReq = some req)
    (htake : ∀ w, s.vhostsLookup (untilNul (h.requestRead o).host.bytes) = some w → TakesRoot s h o → Takes P P' w) :
    Leads P' (h.receive s req o) := by
  unfold HttpConn.receive
  split
  · exact leads_mono hle (hP.httpKill hp s.fio)
  · cases hrecv : o.recv with
    | eagain => exact hle _ (hP.nbio _ hp)
    | error => exact leads_mono hle (hP.httpKill hp s.fio)
    | bytes bs =>
      dsimp only
      split
      · exact leads_mono hle (hP.httpKill hp s.fio)
      · have hfit : (bs.take req.bufWrite).length ≤ req.bufWrite := List.length_take_le _ _
        obtain ⟨req', hdone, -⟩ := req.bufDoneWrite_spec hfit
        obtain ⟨hunread, hscanned⟩ := received_scanned hreq hdone
        have hreceived : P (h.logged [.received (bs.take req.bufWrite)]) :=
          hP.logged (fun _ => ⟨by simp, by simp⟩) hp
        have hread : h.requestRead o = HttpConn.defaultHost (httpReq {} req'.unread).2 o.sockname := by
          unfold HttpConn.requestRead
          rw [hrecv]
          dsimp only
          rw [hunread]
        rw [hdone, ok_bind]
        refine hP.received hP' hle hreceived req' ?_
        rintro w hw hcomplete hres hhead hbody hget hfile
        refine htake w (by rwa [hread]) ⟨⟨bs, hrecv, ?_, by rwa [hunread]⟩, hres, ?_, ?_, ?_⟩
        · rw [hscanned]
          exact hcomplete
        · rwa [hread, HttpConn.defaultHost_method]
        · rwa [hread, HttpConn.defaultHost_contentLen]
        · rw [hread]
          exact hfile

theorem httpRead (hp : P h)
    (htake : ∀ w, s.vhostsLookup (untilNul (h.requestRead o).host.bytes) = some w → TakesRoot s h o → Takes P P' w) :
    Leads P' (h.httpRead s o) := by
  unfold HttpConn.httpRead
  split
  · trivial
  · cases hreq : h.hReq with
    | some req => exact hP.receive hP' hle hp hreq htake
    | none =>
      cases hblock : o.reqBlock with
      | none => exact leads_mono hle (hP.httpKill hp s.fio)
      | some block =>
        have hread : (h.withReq (some (.alloc block HTTP_MAX_RESP)) .initial 0).requestRead o = h.requestRead o :=
          requestRead_fresh hreq
        exact hP.receive hP' hle (hP.req _ _ _ hp) rfl fun w hw ht => htake w (by rwa [← hread]) (.of_fresh hreq ht)

/-- A step leaves everything but the webroot as it is, and takes a webroot only if it answers with a file. -/
theorem step {e : HttpConn.Happening} (hp : P h)
    (htake : ∀ o, e = .read o → ∀ w, s.vhostsLookup (untilNul (h.requestRead o).host.bytes) = some w →
      TakesRoot s h o → Takes P P' w) (hstep : h.Steps s e h') : P' h' := by
  have hmap : ∀ {x : Except Fault HttpConn}, Leads P' x → x.map some = .ok (some h') → P' h' := by
    intro x hx hok
    obtain ⟨h₁, hx₁, heq⟩ := map_eq_ok_iff.mp hok
    cases heq
    exact hx.result hx₁
  unfold HttpConn.Steps HttpConn.step at hstep
  cases e with
  | ready flags =>
    dsimp only at hstep
    split at hstep
    · cases hstep
      exact hle _ (hP.nbio _ hp)
    · cases hstep
  | write o =>
    dsimp only at hstep
    split at hstep
    · exact hmap (leads_mono hle (hP.httpWrite hp s.fio s.roots o)) hstep
    · cases hstep
  | read o =>
    dsimp only at hstep
    split at hstep
    · exact hmap (hP.httpRead hP' hle hp (htake o rfl)) hstep
    · cases hstep
  | error =>
    dsimp only at hstep
    split at hstep
    · cases hstep
      exact hle _ (hP.nbio _ hp)
    · cases hstep
  | completion o =>
    dsimp only at hstep
    split at hstep
    · cases hstep
    · next iocb _ => exact hmap (leads_mono hle (hP.handleCompletion hp s.roots iocb o)) hstep

end Steady

theorem unbound_steady (h₀ : HttpConn) : Steady fun h => Retained h₀ h ∧ h.hWebroot = none := by
  have hk := retained_steady h₀
  refine ⟨fun _ hp => ⟨hk.nbio _ hp.1, hp.2⟩, fun _ hp => ⟨hk.state _ hp.1, hp.2⟩, fun _ _ _ hp => ⟨hk.req _ _ _ hp.1, hp.2⟩,
    fun _ hp => ⟨hk.res _ hp.1, hp.2⟩, fun _ hp => ⟨hk.priv _ hp.1, hp.2⟩, fun _ _ hp => ⟨hk.data _ _ hp.1, hp.2⟩,
    fun _ hp => ⟨hk.aio _ hp.1, hp.2⟩, fun _ hp => ⟨hk.close _ hp.1, hp.2⟩, fun hnew hp => ⟨hk.logged hnew hp.1, hp.2⟩, ?_⟩
  rintro h ⟨hretained, hnone⟩
  obtain ⟨heq, -⟩ | ⟨w, hw, -⟩ := dropWebroot_cases h
  · rw [heq]
    exact ⟨hretained, hnone⟩
  · cases hnone.symm.trans hw

theorem Retained.step {e : HttpConn.Happening} (hk : Retained h₀ h)
    (hfree : ∀ o, e = .read o → h.hWebroot = none ∨ ¬ TakesRoot s h o) (hstep : h.Steps s e h') : Retained h₀ h' := by
  by_cases hnone : h.hWebroot = none
  · refine (unbound_steady h₀).step (retained_steady h₀) (fun _ => And.left) ⟨hk, hnone⟩ ?_ hstep
    intro _ _ w _ _ h₁ hp
    exact hp.1.takeRoot hp.2 w
  · refine (retained_steady h₀).step (retained_steady h₀) (fun _ => id) hk ?_ hstep
    intro o ho w _ htakes
    exact absurd htakes ((hfree o ho).resolve_left hnone)

end Ashttpd
