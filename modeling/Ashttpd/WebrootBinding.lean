import Ashttpd.ConnectionRuns
import Ashttpd.ReadOutcomes

/-!
# The webroot that a body is read from

`handle_get` assigns `h_webroot` when the header is queued, after `_io_prep`. So what sends a body finds the
webroot of the request there, but the read that `io_async_prep` submits asks for the one that was there before:
none, or that of a request before.
-/
namespace Ashttpd

/-- A connection, and the webroot in which the request that is being answered was looked up. -/
structure Resolved where
  conn : HttpConn
  root : Option ℕ

def HttpConn.NeedsBody (h : HttpConn) : Prop := h.hState = .data ∨ h.hState = .header ∧ h.hDataLen ≠ 0

def HttpConn.Referring (h : HttpConn) : Prop :=
  ∀ w, h.log.count (.webrootUnref w) + (if h.hWebroot = some w then 1 else 0) ≤ h.log.count (.webrootRef w)

/-- A step may ask `http_conn_data` for a descriptor: while a body is written, and where `io_async_prep`
submits a read. No completion asks. -/
def AsksFd (s : Server) (h : HttpConn) : HttpConn.Happening → Prop
  | .write _ => h.Called NBIO_WRITE ∧ h.hState = .data
  | .read o => s.fio = .async ∧ h.Called NBIO_READ ∧ PreparesBody s h o
  | .ready _ | .error | .completion _ => False

def HttpConn.Refills (h : HttpConn) (o : WriteResults) : Prop :=
  ∃ buf n, h.hIoPriv = some buf ∧ o.send = .sent n ∧ 0 < buf.bufRead ∧ buf.bufRead ≤ n ∧ buf.bufRead < h.hDataLen

namespace Resolved

variable (c c' : Resolved) (s : Server)

/-- The webroot in which the request was looked up that a step answers, or goes on with. -/
def rootAt (e : HttpConn.Happening) : Option ℕ :=
  match e with
  | .read o => s.vhostsLookup (untilNul (c.conn.requestRead o).host.bytes)
  | .ready _ | .write _ | .error | .completion _ => c.root

/-- A step with the I/O model `fio`, whatever the table of virtual hosts and the webroots are by then. -/
def Steps (fio : Fio) (i : Server × HttpConn.Happening) : Prop :=
  i.1.fio = fio ∧ c.conn.Steps i.1 i.2 c'.conn ∧ c'.root = c.rootAt i.1 i.2

/-- The webroot that `io_async_prep` finds is that of the request. -/
def InPlace (fio : Fio) (i : Server × HttpConn.Happening) : Prop :=
  fio = .async → ∀ o, i.2 = .read o → PreparesBody i.1 c.conn o → c.conn.hWebroot = c.rootAt i.1 i.2

end Resolved

variable {s : Server} {h h' : HttpConn} {fio : Fio} {r : HttpRequest} {o : ReadResults} {c c' : Resolved}

theorem httpConnData_unbound (hr : h.Responding) (hroot : h.hWebroot = none) : h.httpConnData = .error .nullPointer := by
  unfold HttpConn.httpConnData
  rw [HttpConn.assertResponding_eq hr, ok_bind, hroot]

theorem aioSubmit_unbound (hr : h.Responding) (hroot : h.hWebroot = none) (submit : SubmitResult) :
    h.aioSubmit submit = .error .nullPointer := by
  unfold HttpConn.aioSubmit
  rw [httpConnData_unbound hr hroot]
  rfl

theorem ioAsyncPrep_unbound (hr : h.Responding) (hroot : h.hWebroot = none) (block : Mem) (submit : SubmitResult) :
    h.ioAsyncPrep (some block) submit = .error .nullPointer := by
  unfold HttpConn.ioAsyncPrep
  dsimp only
  have hsubmit := aioSubmit_unbound (h := h.withPriv (some (.alloc block HTTP_DATA_BUFFER))) hr hroot submit
  rw [HttpConn.httpConnSetPriv_eq hr, ok_bind, hsubmit]
  rfl

theorem WantsBody.answer (hw : WantsBody s r o) (hfio : s.fio = .async) (hr : h.Responding) (hroot : h.hWebroot = none) :
    h.answer s r o = .error .nullPointer := by
  obtain ⟨hget, ⟨w, n, mimeType, ofs, len, mtime, etag, hfinds, hmoved, hforbidden, hmime, hfile, hmiss, hlen⟩, hblock⟩ := hw
  obtain ⟨block, hblock⟩ := Option.ne_none_iff_exists'.mp hblock
  unfold HttpConn.answer
  rw [if_pos hget, hfinds.handleGet, serveName_file ⟨hmoved, hforbidden⟩ hmime hfile, serveFile_of_not_hit hmiss]
  unfold HttpConn.prepareBody HttpConn.ioPrep
  rw [if_pos ⟨hlen, rfl⟩, hfio, hblock]
  dsimp only
  rw [ioAsyncPrep_unbound (h := h.withData ofs len) hr hroot]
  rfl

theorem PreparesBody.receive (hp : PreparesBody s h o) (hfio : s.fio = .async) (hmask : h.hNbio.mask ≠ NBIO_DELETED)
    (hstate : h.hState = .request) (hroot : h.hWebroot = none) {req : HttpBuf} (hreq : h.hReq = some req) :
    h.receive s req o = .error .nullPointer := by
  obtain ⟨hwants, -, ⟨bs, hrecv, hsome, ⟨st, n, hscan⟩, hhead⟩, hblock, hbody⟩ := hp
  obtain ⟨block, hblock⟩ := Option.ne_none_iff_exists'.mp hblock
  have hroom : h.room = req.bufWrite := by
    unfold HttpConn.room
    rw [hreq]
  have hfit : (bs.take req.bufWrite).length ≤ req.bufWrite := List.length_take_le _ _
  obtain ⟨req', hdone, -⟩ := req.bufDoneWrite_spec hfit
  obtain ⟨hunread, hscanned⟩ := received_scanned hreq hdone
  rw [hroom] at hsome
  have hfree : req.bufWrite ≠ 0 := fun hzero => hsome (by rw [hzero, List.take_zero])
  unfold HttpConn.receive
  rw [if_neg hfree, hrecv]
  dsimp only
  rw [if_neg fun hzero => hsome (List.length_eq_zero_iff.mp hzero), hdone, ok_bind]
  rw [hscanned] at hscan
  have hread : h.requestRead o = HttpConn.defaultHost (httpReq {} req'.unread).2 o.sockname := by
    unfold HttpConn.requestRead
    rw [hrecv]
    dsimp only
    rw [hunread]
  rw [hread] at hwants hbody
  rw [HttpConn.defaultHost_contentLen] at hbody
  rw [hunread] at hhead
  have hparsed : httpReq {} req'.unread = ((httpReq {} req'.unread).1, (httpReq {} req'.unread).2) := rfl
  have hrequest : ∀ {g : HttpConn}, g.hNbio.mask ≠ NBIO_DELETED → g.hState = .request → g.hReq = some req' →
      g.hWebroot = none → g.handleRequest s o = .error .nullPointer := by
    intro g hmask hstate hreq hroot
    have hanswer := hwants.answer (h := g.toAnswer block (httpReq {} req'.unread).2.connClose.toNat) hfio (Or.inr rfl) hroot
    rw [handleRequest_answers hmask hstate hreq hparsed hhead hblock hbody, hanswer]
    rfl
  unfold HttpConn.received
  rw [HttpConn.logged_hRstate, HttpConn.logged_hRptr, hscan, ok_bind]
  exact hrequest hmask hstate rfl hroot

theorem PreparesBody.httpRead (hp : PreparesBody s h o) (hfio : s.fio = .async) (hmask : h.hNbio.mask ≠ NBIO_DELETED)
    (hstate : h.hState = .request) (hroot : h.hWebroot = none) : h.httpRead s o = .error .nullPointer := by
  unfold HttpConn.httpRead
  rw [if_neg (by simp [hstate])]
  cases hreq : h.hReq with
  | some req => exact hp.receive hfio hmask hstate hroot hreq
  | none =>
    obtain ⟨block, hblock⟩ := Option.ne_none_iff_exists'.mp (hp.reqBlock hreq)
    rw [hblock]
    dsimp only
    exact ((preparesBody_fresh hreq (hp.reqBlock hreq)).mpr hp).receive hfio hmask hstate hroot rfl

theorem ioAsyncSent_unbound (hr : h.Responding) (hroot : h.hWebroot = none) {buf : HttpBuf} (hempty : buf.bufRead = 0)
    {ret : ℕ} (hmore : ret < h.hDataLen) (submit : SubmitResult) : h.ioAsyncSent buf ret submit = .error .nullPointer := by
  have hread : (h.withPriv (some buf)).httpConnDataRead ret =
      .ok ((h.withPriv (some buf)).withData (h.hDataOff + ret) (h.hDataLen - ret)) :=
    HttpConn.httpConnDataRead_eq (h := h.withPriv (some buf)) hr hmore.le
  have hleft : h.hDataLen - ret ≠ 0 := by omega
  unfold HttpConn.ioAsyncSent
  rw [hread, ok_bind, if_neg (not_not.mpr hempty), HttpConn.withData_hDataLen, if_pos hleft]
  apply aioSubmit_unbound
  · exact hr
  · exact hroot

/-- A write callback asks for a descriptor while a body is sent; with asynchronous reads, for what is read next. -/
theorem httpWrite_unbound {ro : Webroots} {out : HttpConn.WriteResults} (hdata : h.hState = .data) (hroot : h.hWebroot = none)
    (hpriv : fio = .sync → h.hIoPriv ≠ none) (hrefills : fio = .async → h.Refills out) :
    h.httpWrite fio ro out = .error .nullPointer := by
  have hr : h.Responding := Or.inl hdata
  have hwrite : h.ioWrite fio ro out = .error .nullPointer := by
    cases fio with
    | sync =>
      obtain ⟨buf, hbuf⟩ := Option.ne_none_iff_exists'.mp (hpriv rfl)
      unfold HttpConn.ioWrite HttpConn.ioSyncWrite HttpConn.ioSyncTopUp
      dsimp only
      rw [HttpConn.httpConnGetPriv_eq hr, hbuf, httpConnData_unbound hr hroot]
      rfl
    | sendfile =>
      unfold HttpConn.ioWrite HttpConn.ioSendfileWrite
      dsimp only
      rw [httpConnData_unbound hr hroot]
      rfl
    | async =>
      obtain ⟨buf, n, hbuf, hsend, hpos, hall, hmore⟩ := hrefills rfl
      obtain ⟨rest, hdone, -, -, hread, hwritten⟩ := buf.bufDoneRead_spec (Nat.le_refl _)
      have hempty : rest.bufRead = 0 := by
        unfold HttpBuf.bufRead at hread ⊢
        omega
      have hsent := ioAsyncSent_unbound (h := h.logged [.sent h.hState (buf.unread.take buf.bufRead)]) hr hroot hempty hmore
        out.submit
      unfold HttpConn.ioWrite HttpConn.ioAsyncWrite
      dsimp only
      rw [HttpConn.httpConnGetPriv_eq hr, ok_bind, hbuf, hsend]
      simp only [deref, ok_bind]
      rw [Nat.min_eq_right hall, if_neg hpos.ne', hdone, ok_bind]
      exact hsent
  unfold HttpConn.httpWrite HttpConn.httpWriteState
  rw [hdata]
  dsimp only
  rw [hwrite]
  rfl

/-- Where a step may ask for a descriptor it does: without a webroot it goes wrong there. A write with asynchronous reads
asks only if the buffer is filled again. -/
theorem AsksFd.unbound (hs : h.Standing s.fio) {e : HttpConn.Happening} (hasks : AsksFd s h e)
    (hrefills : ∀ out, e = .write out → s.fio = .async → h.Refills out) :
    (h.withWebroot none).step s e = .error .nullPointer := by
  have hfault : ∀ {x : Except Fault HttpConn}, x = .error .nullPointer → x.map some = .error .nullPointer := by
    rintro x rfl
    rfl
  cases e with
  | write out =>
    obtain ⟨hcalled, hdata⟩ := hasks
    have hpriv : s.fio = .sync → h.hIoPriv ≠ none := fun hsync => (hs.body (Or.inl hdata)).2 (by simp [hsync])
    exact (if_pos hcalled).trans (hfault (httpWrite_unbound hdata rfl hpriv (hrefills out rfl)))
  | read o =>
    obtain ⟨hasync, hcalled, hprepares⟩ := hasks
    have hstate := hs.request_of_called hcalled
    have hprepares' : PreparesBody s (h.withWebroot none) o := ⟨hprepares.toWantsBody, hprepares.reqBlock, hprepares.complete,
      hprepares.block, hprepares.noBody⟩
    exact (if_pos hcalled).trans (hfault (hprepares'.httpRead hasync hs.mask_ne hstate rfl))
  | ready _ | error | completion _ => exact hasks.elim

/-- A read callback that goes wrong is one that may ask for a descriptor, or the request cannot be answered. -/
theorem asksFd_of_fault (hs : h.Standing s.fio) {f : Fault} (hfault : h.step s (.read o) = .error f) :
    AsksFd s h (.read o) ∨ AnswerFault s (h.requestRead o) o f := by
  unfold HttpConn.step at hfault
  dsimp only at hfault
  split at hfault
  · next hcalled =>
    have hends := httpRead_ends hs (hs.idle hcalled.1) (hs.request_of_called hcalled) o
    cases hread : h.httpRead s o with
    | ok h' =>
      rw [hread] at hfault
      cases hfault
    | error f' =>
      rw [hread] at hends hfault
      cases hfault
      exact hends.imp_left fun ⟨hasync, hprepares⟩ => ⟨hasync, hcalled, hprepares⟩
  · cases hfault

theorem referring_steady : Steady HttpConn.Referring where
  nbio _ hr := hr
  state _ hr := hr
  req _ _ _ hr := hr
  res _ hr := hr
  priv _ hr := hr
  data _ _ hr := hr
  aio _ hr := hr
  close _ hr := hr
  logged {h new} hnew hr := by
    intro w
    obtain ⟨href, hunref⟩ := hnew w
    rw [HttpConn.logged_log, List.count_append, List.count_append, List.count_eq_zero.mpr href,
      List.count_eq_zero.mpr hunref]
    exact hr w
  dropWebroot {h} hr := by
    obtain ⟨heq, -⟩ | ⟨w, hw, heq⟩ := dropWebroot_cases h
    · rwa [heq]
    · rw [heq]
      intro w'
      have hcount := hr w'
      rw [hw] at hcount
      rw [HttpConn.logged_log, HttpConn.withWebroot_log, List.count_append, List.count_append]
      by_cases heq' : w = w'
      · simp only [heq', if_true] at hcount
        simp [heq', HttpConn.withWebroot, hcount]
      · have hne : w' ≠ w := fun he => heq' he.symm
        have hsome : ¬ some w = some w' := fun he => heq' (Option.some.inj he)
        rw [if_neg hsome] at hcount
        simpa [heq', hne, HttpConn.withWebroot] using hcount

theorem takes_referring (w : ℕ) : Takes HttpConn.Referring HttpConn.Referring w := by
  intro h hr w'
  have hcount := hr w'
  rw [HttpConn.logged_log, HttpConn.withWebroot_log, List.count_append, List.count_append]
  by_cases heq : w = w'
  · subst heq
    simp only [List.count_singleton_self, HttpConn.logged_hWebroot, HttpConn.withWebroot_hWebroot, if_true]
    simp
    omega
  · have hne : w' ≠ w := fun he => heq he.symm
    have hle : h.log.count (.webrootUnref w') ≤ h.log.count (.webrootRef w') := by omega
    simpa [heq, hne, HttpConn.withWebroot] using hle

theorem HttpConn.Referring.step (hr : h.Referring) {e : HttpConn.Happening} (hstep : h.Steps s e h') : h'.Referring :=
  referring_steady.step referring_steady (fun _ => id) hr (fun _ _ w _ _ => takes_referring w) hstep

/-- Where no webroot is taken, the one that a connection points to stays or is given back. -/
theorem webroot_steady (root : Option ℕ) : Steady fun h => h.hWebroot = root ∨ h.hWebroot = none where
  nbio _ hw := hw
  state _ hw := hw
  req _ _ _ hw := hw
  res _ hw := hw
  priv _ hw := hw
  data _ _ hw := hw
  aio _ hw := hw
  close _ hw := hw
  logged _ hw := hw
  dropWebroot {h} hw := by
    obtain ⟨heq, -⟩ | ⟨w, -, heq⟩ := dropWebroot_cases h
    · rwa [heq]
    · rw [heq]
      exact Or.inr rfl

theorem HttpConn.not_needsBody (hstate : h.hState = .request ∨ h.hState = .dead) : ¬ h.NeedsBody := by
  rintro (hdata | ⟨hheader, -⟩)
  · rw [hdata] at hstate
    cases hstate <;> contradiction
  · rw [hheader] at hstate
    cases hstate <;> contradiction

theorem bodyless_headerDone (hlen : h.hDataLen = 0) :
    Ends AnyFault (fun p => p.2 = true → ¬ p.1.NeedsBody) h.headerDone := by
  unfold HttpConn.headerDone
  rw [if_neg (not_not.mpr hlen)]
  split
  · exact nofun
  · exact ends_bind (ends_any _) fun h' _ _ => HttpConn.not_needsBody (Or.inl rfl)

theorem bodyless_httpWriteHdr (hstate : h.hState = .header) (hlen : h.hDataLen = 0) (send : SendResult) :
    Ends AnyFault (fun p => p.2 = true → ¬ p.1.NeedsBody) (h.httpWriteHdr send) := by
  have hbare : ∀ {h' : HttpConn}, h'.hState = .header → h'.hDataLen = 0 → ¬ h'.NeedsBody := by
    rintro h' hheader hlen' (hdata | ⟨-, hne⟩)
    · cases hheader.symm.trans hdata
    · exact hne hlen'
  refine ends_bind (ends_any _) fun res _ => ?_
  cases send with
  | eagain => exact fun _ => hbare hstate hlen
  | error => exact nofun
  | sent n =>
    dsimp only
    split
    · exact nofun
    · refine ends_bind (ends_any _) fun rest _ => ?_
      split
      · exact fun _ => hbare hstate hlen
      · exact bodyless_headerDone hlen

/-- A response without a body does not get one while it is sent. -/
theorem bodyless_step (hp : h.Poised s.fio) (hbare : ¬ h.NeedsBody) {e : HttpConn.Happening} (he : ∀ o, e ≠ .read o)
    (hstep : h.Steps s e h') : ¬ h'.NeedsBody := by
  unfold HttpConn.Steps HttpConn.step at hstep
  cases e with
  | ready flags =>
    dsimp only at hstep
    split at hstep
    · cases hstep
      exact hbare
    · cases hstep
  | error =>
    dsimp only at hstep
    split at hstep
    · cases hstep
      exact hbare
    · cases hstep
  | read o => exact absurd rfl (he o)
  | write o =>
    dsimp only at hstep
    split at hstep
    · next hcalled =>
      obtain ⟨h₁, hok, heq⟩ := map_eq_ok_iff.mp hstep
      cases heq
      have hstate : h.hState = .header :=
        (hp.responding_of_called hcalled).resolve_left fun hdata => hbare (Or.inl hdata)
      have hlen : h.hDataLen = 0 := by
        by_contra hne
        exact hbare (Or.inr ⟨hstate, hne⟩)
      have hfd := hp.unclosed.fd
      unfold HttpConn.httpWrite HttpConn.httpWriteState at hok
      rw [hstate] at hok
      obtain ⟨⟨h₁, ok⟩, hwrite, hok⟩ := bind_eq_ok_iff.mp hok
      cases ok with
      | true =>
        cases hok
        exact (bodyless_httpWriteHdr hstate hlen o.send).result hwrite rfl
      | false =>
        have hfd₁ : h₁.hNbio.fd = true := (httpWriteHdr_same hwrite).1.fd.trans hfd
        exact HttpConn.not_needsBody (Or.inr (httpKill_dead hfd₁ hok))
    · cases hstep
  | completion o =>
    dsimp only at hstep
    split at hstep
    · cases hstep
    · next iocb haio =>
      obtain ⟨h₁, hok, heq⟩ := map_eq_ok_iff.mp hstep
      cases heq
      have hne : h.aio ≠ none := by simp [haio]
      have hstate : h.hState = .header :=
        (hp.inFlight hne).2.responding.resolve_left fun hdata => hbare (Or.inl hdata)
      have hlen : h.hDataLen = 0 := by
        by_contra hlen
        exact hbare (Or.inr ⟨hstate, hlen⟩)
      have hpriv : h.hIoPriv = none := hp.noBody (Or.inr ⟨hstate, hlen⟩)
      have habort : (h.withAio none).httpConnAbort .async = .ok h' → ¬ h'.NeedsBody := by
        intro hok
        obtain ⟨-, -, hkill⟩ := bind_eq_ok_iff.mp hok
        exact HttpConn.not_needsBody (Or.inr (httpKill_dead (h := h.withAio none) hp.unclosed.fd hkill))
      unfold HttpConn.handleCompletion at hok
      cases o with
      | error => exact habort hok
      | read n =>
        dsimp only at hok
        split at hok
        · exact habort hok
        · obtain ⟨priv, hget, hok⟩ := bind_eq_ok_iff.mp hok
          obtain ⟨-, -, hget⟩ := bind_eq_ok_iff.mp hget
          cases hget
          obtain ⟨buf, hbuf, -⟩ := bind_eq_ok_iff.mp hok
          rw [HttpConn.withAio_hIoPriv, hpriv] at hbuf
          cases hbuf

/-- A body is to come from the webroot `root`. -/
def ReadsFrom (root : Option ℕ) (h : HttpConn) : Prop := h.NeedsBody → root ≠ none ∧ h.hWebroot = root

theorem respond_bodyless (hstate : h.hState = .header) (text : Bytes) :
    Leads (fun h' => ¬ h'.NeedsBody) ((h.respond text).map (·.withClose 1)) := by
  refine ends_map (P := fun h' => h'.hState = .header ∧ h'.hDataLen = 0) (ends_bind (ends_any _) fun res _ => ?_) ?_
  · split
    · trivial
    · exact ends_bind (ends_any _) fun res' _ => ⟨hstate, rfl⟩
  · rintro h' ⟨hheader, hlen⟩ (hdata | ⟨-, hne⟩)
    · cases hheader.symm.trans hdata
    · exact hne hlen

theorem answer_readsFrom {block : Mem} (hres : h.hRes = some (.alloc block HTTP_MAX_REQ)) (hstate : h.hState = .header) :
    Leads (fun h' => ReadsFrom (s.vhostsLookup (untilNul r.host.bytes)) h') (h.answer s r o) := by
  have hget : ∀ head, Leads (fun h' => ReadsFrom (s.vhostsLookup (untilNul r.host.bytes)) h')
      (h.handleGet s r head o) := by
    intro head
    refine ends_of_forall (fun _ => trivial) fun h' hok => ?_
    obtain ⟨text, -, -, -, hstate', hroot⟩ := handleGet_queues hres hok
    rintro (hdata | ⟨-, hlen⟩)
    · cases (hstate'.trans hstate).symm.trans hdata
    · exact hroot hlen
  unfold HttpConn.answer
  split
  · exact hget false
  · split
    · exact hget true
    · exact (respond_bodyless hstate resp501).mono (fun _ => id) fun _ hbare hneeds => absurd hneeds hbare

/-- After a read callback, a body is to come from the webroot that the request is for. -/
theorem httpRead_readsFrom (hfd : h.hNbio.fd = true) (hstate : h.hState = .request) :
    Leads (ReadsFrom (s.vhostsLookup (untilNul (h.requestRead o).host.bytes))) (h.httpRead s o) := by
  refine (httpRead_reads hfd hstate).mono (fun _ => id) fun h' hreads => ?_
  cases hreads with
  | silent hstate' _ => exact fun hneeds => absurd hneeds (HttpConn.not_needsBody hstate'.symm)
  | refused hopened hok =>
    exact fun hneeds => absurd hneeds ((respond_bodyless hopened.state resp400).result hok)
  | answered hopened hanswer hok =>
    obtain ⟨block, hres⟩ := hopened.res
    have hroot := (answer_readsFrom hres hopened.state).result hanswer
    obtain ⟨hsame, hstate', -⟩ := finishRequest_keeps hok
    unfold ReadsFrom HttpConn.NeedsBody at *
    rwa [hsame.len, hsame.webroot, hstate']

namespace Resolved

/-- A body comes from the webroot of the request, and a webroot that is pointed to has been taken. -/
structure Binds (c : Resolved) : Prop where
  body : c.conn.NeedsBody → c.conn.hWebroot = c.root
  refs : c.conn.Referring

def Bound (fio : Fio) (c : Resolved) : Prop :=
  c.conn.Standing fio ∧ c.Binds ∨ c.conn.hNbio.list = .deleted ∧ c.conn.aio = none

theorem Bound.standing (hb : c.Bound s.fio) {e : HttpConn.Happening} (hstep : c.conn.Steps s e h') :
    c.conn.Standing s.fio ∧ c.Binds := by
  refine hb.resolve_right ?_
  rintro ⟨hlist, haio⟩
  unfold HttpConn.Steps at hstep
  rw [step_of_deleted hlist haio e] at hstep
  cases hstep

/-- A read binds the connection to the webroot of the request, and no other step binds it to another. -/
theorem Binds.step (hb : c.Binds) (hs : c.conn.Standing s.fio) {e : HttpConn.Happening}
    (hstep : c.conn.Steps s e c'.conn) (hroot : c'.root = c.rootAt s e) (hpoised : c'.conn.NeedsBody → c'.conn.hWebroot ≠ none) :
    c'.Binds := by
  refine ⟨fun hneeds => ?_, hb.refs.step hstep⟩
  rw [hroot]
  by_cases he : ∃ o, e = .read o
  · obtain ⟨o, rfl⟩ := he
    unfold HttpConn.Steps HttpConn.step at hstep
    dsimp only at hstep
    split at hstep
    · next hcalled =>
      obtain ⟨h₁, hok, heq⟩ := map_eq_ok_iff.mp hstep
      cases heq
      exact ((httpRead_readsFrom hs.unclosed.fd (hs.request_of_called hcalled)).result hok hneeds).2
    · cases hstep
  · have hnot : ∀ o, e ≠ .read o := fun o ho => he ⟨o, ho⟩
    have hbefore : c.conn.NeedsBody := by
      by_contra hbare
      exact bodyless_step hs.toPoised hbare hnot hstep hneeds
    have hstays : c'.conn.hWebroot = c.root ∨ c'.conn.hWebroot = none := by
      refine (webroot_steady c.root).step (webroot_steady c.root) (fun _ => id) (Or.inl (hb.body hbefore)) ?_ hstep
      exact fun o ho => absurd ho (hnot o)
    have hsame : c.rootAt s e = c.root := by
      cases e with
      | read o => exact absurd rfl (hnot o)
      | ready _ | write _ | error | completion _ => rfl
    rw [hsame]
    exact hstays.resolve_right (hpoised hneeds)

theorem Bound.step (hb : c.Bound fio) {i : Server × HttpConn.Happening} (hstep : c.Steps c' fio i) :
    c'.Bound fio := by
  obtain ⟨s, e⟩ := i
  obtain ⟨hfio, hstep, hroot⟩ := hstep
  have hfio : s.fio = fio := hfio
  subst hfio
  obtain ⟨hs, hbinds⟩ := hb.standing hstep
  by_cases he : e = .error
  · subst he
    unfold HttpConn.Steps HttpConn.step at hstep
    dsimp only at hstep
    split at hstep
    · next hactive =>
      have heq := Option.some.inj (Except.ok.inj hstep)
      rw [Bound, ← heq]
      exact Or.inr ⟨rfl, hs.idle hactive.1⟩
    · cases hstep
  · have hsettled : c.conn.Settled s.fio := Or.inl hs
    obtain hs' | hd := hsettled.step he hstep
    · exact Or.inl ⟨hs', hbinds.step hs hstep hroot fun hneeds => (hs'.body hneeds).1⟩
    · exact Or.inr ⟨hd.list, hd.idle⟩

/-- As the request is resolved before a step, `http_conn_data` gives a webroot, the one that the request was looked
up in and that the connection has a reference to. -/
def Served (c : Resolved) (s : Server) (e : HttpConn.Happening) : Prop :=
  ∃ w, c.conn.hWebroot = some w ∧ c.rootAt s e = some w ∧
    c.conn.log.count (.webrootUnref w) < c.conn.log.count (.webrootRef w)

theorem Bound.served (hb : c.Bound s.fio) {e : HttpConn.Happening} (hplace : c.InPlace s.fio (s, e))
    (hasks : AsksFd s c.conn e) : c.Served s e := by
  have hbound : ∀ {flag}, c.conn.Called flag → c.conn.Standing s.fio ∧ c.Binds := by
    rintro flag ⟨hlist, -⟩
    refine hb.resolve_right fun hdel => ?_
    cases hlist.symm.trans hdel.1
  have hheld : ∀ {w}, c.conn.Referring → c.conn.hWebroot = some w →
      c.conn.log.count (.webrootUnref w) < c.conn.log.count (.webrootRef w) := by
    intro w hrefs hw
    have hcount := hrefs w
    rw [if_pos hw] at hcount
    omega
  cases e with
  | write o =>
    obtain ⟨hcalled, hdata⟩ := hasks
    obtain ⟨hs, hbinds⟩ := hbound hcalled
    obtain ⟨w, hw⟩ := Option.ne_none_iff_exists'.mp (hs.body (Or.inl hdata)).1
    exact ⟨w, hw, (hbinds.body (Or.inl hdata)).symm.trans hw, hheld hbinds.refs hw⟩
  | read o =>
    obtain ⟨hasync, hcalled, hprepares⟩ := hasks
    obtain ⟨-, hbinds⟩ := hbound hcalled
    obtain ⟨w, _, _, _, _, _, _, hfinds, -⟩ := hprepares.file
    have hroot : c.rootAt s (.read o) = some w := hfinds.vhostsLookup_eq
    have hw : c.conn.hWebroot = some w := (hplace hasync o rfl hprepares).trans hroot
    exact ⟨w, hw, hroot, hheld hbinds.refs hw⟩
  | ready _ | error | completion _ => exact hasks.elim

theorem bound_of_run {evs : List (Server × HttpConn.Happening)}
    (hrun : Run (fun c i c' => Steps c c' fio i) ⟨.httpConn, none⟩ evs c) : c.Bound fio := by
  refine hrun.invariant (I := fun _ c => c.Bound fio) (fun _ _ _ _ hb _ hstep => hb.step hstep) ?_
  refine Or.inl ⟨httpConn_standing fio, ?_, ?_⟩
  · rintro (hdata | ⟨hheader, -⟩)
    · cases hdata
    · cases hheader
  · intro w
    exact Nat.le_refl 0

/-- Whenever a descriptor is asked for in a run, it is that of the webroot in which the request was looked up, and
that is referenced, exactly if a read is not submitted before that webroot is pointed to. -/
theorem asked_webroot_iff {evs : List (Server × HttpConn.Happening)} {e : HttpConn.Happening}
    (hrun : Run (fun c i c' => Steps c c' fio i) ⟨.httpConn, none⟩ evs c) (hfio : s.fio = fio)
    (hasks : AsksFd s c.conn e) : c.Served s e ↔ c.InPlace fio (s, e) := by
  have hb := bound_of_run hrun
  subst hfio
  refine ⟨?_, fun hplace => hb.served hplace hasks⟩
  rintro ⟨w, hw, hroot, -⟩ - o - -
  exact hw.trans hroot.symm

def next (fio : Fio) (c : Resolved) (i : Server × HttpConn.Happening) : Option Resolved :=
  if i.1.fio = fio then (c.conn.next i.1 i.2).map fun h => ⟨h, c.rootAt i.1 i.2⟩ else none

theorem steps_of_next {i : Server × HttpConn.Happening} (hnext : next fio c i = some c') : Steps c c' fio i := by
  unfold next at hnext
  split at hnext
  · next hfio =>
    obtain ⟨h, hh, rfl⟩ := Option.map_eq_some_iff.mp hnext
    exact ⟨hfio, HttpConn.steps_of_next hh, rfl⟩
  · cases hnext

def fileAsked : List (Server × HttpConn.Happening) := headerSent.map fun e => (taggedServer, e)

def writeTwo : HttpConn.Happening := .write ⟨.sent 2, [], .submitted⟩

theorem asked_webroot_iff_fileAsked : ∃ c, Run (fun c i c' => Steps c c' .sync i) ⟨.httpConn, none⟩ fileAsked c ∧
    AsksFd taggedServer c.conn writeTwo ∧ c.Served taggedServer writeTwo := by
  have hall : (play (next .sync) (fun _ _ => True) ⟨.httpConn, none⟩ fileAsked).any
      (fun c => c.conn.Called NBIO_WRITE ∧ c.conn.hState = .data) = true := by
    decide +kernel
  obtain ⟨c, hplay, hready⟩ := (Option.any_eq_true _ _).mp hall
  have hready := of_decide_eq_true hready
  have hasks : AsksFd taggedServer c.conn writeTwo := hready
  have hrun : Run (fun c i c' => Steps c c' .sync i) ⟨.httpConn, none⟩ fileAsked c :=
    guardedRun_of_play (fun _ _ _ => steps_of_next) hplay
  exact ⟨c, hrun, hasks, (asked_webroot_iff hrun rfl hasks).mpr nofun⟩

def asyncServer : Server := { taggedServer with fio := .async }

def headReceived : ReadResults := { enoughMemory with recv := .bytes plainHead, reqBlock := some fun _ => 0 }

theorem headReceived_prepares : PreparesBody asyncServer .httpConn headReceived := by
  obtain ⟨nads, hnads, hfind⟩ := taggedServer_find
  have huri : (HttpConn.httpConn.requestRead headReceived).uri.bytes = [47] := by decide
  have hfinds : Finds asyncServer (HttpConn.httpConn.requestRead headReceived) headReceived 0 taggedFile := by
    refine ⟨nads, ?_, rfl, hfind⟩
    rw [huri]
    exact hnads
  refine ⟨⟨by decide, ?_, by simp [headReceived, enoughMemory]⟩, fun _ => by simp [headReceived],
    ⟨plainHead, rfl, by decide, ⟨.crlfcrlf, 17, by decide⟩, by decide⟩, by simp [headReceived, enoughMemory], by decide⟩
  exact ⟨0, taggedFile, ascii "text/plain", 0, 2, 5000000, zeroDigest, hfinds, by decide, by decide, rfl, rfl,
    by decide, by decide⟩

/-- The first request on a connection is for a file, and there is no webroot yet to read it from. -/
theorem asked_without_webroot : ∃ c, Run (fun c i c' => Steps c c' .async i) ⟨.httpConn, none⟩ [] c ∧
    AsksFd asyncServer c.conn (.read headReceived) ∧ ¬ c.Served asyncServer (.read headReceived) ∧
    c.conn.step asyncServer (.read headReceived) = .error .nullPointer := by
  refine ⟨_, .start _, ⟨rfl, by decide, headReceived_prepares⟩, ?_, ?_⟩
  · rintro ⟨w, hw, -⟩
    cases hw
  · have hfault : (match HttpConn.step asyncServer .httpConn (.read headReceived) with
        | .error f => decide (f = .nullPointer)
        | .ok _ => false) = true := by
      decide
    split at hfault
    · next f hstep =>
      rw [of_decide_eq_true hfault] at hstep
      exact hstep
    · cases hfault

end Resolved

end Ashttpd
