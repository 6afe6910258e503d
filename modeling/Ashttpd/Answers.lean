import Ashttpd.ConnectionWrites

/-!
# Answers to requests

Whatever is asked for, an answer is queued in the empty buffer for the response, and the connection
is as it should be to send it. What can go wrong is told by the request and the webroots, not by the
state of the connection.
-/
namespace Ashttpd

variable {s : Server} {h h' : HttpConn} {fio : Fio} {r : HttpRequest} {o : ReadResults}

/-- A record that is not what its code says. -/
def WebrootName.Incomplete (n : WebrootName) : Prop :=
  if n.code = HTTP_MOVED_PERMANENTLY then ∀ target, n.u ≠ .moved (some target)
  else n.code ≠ HTTP_FORBIDDEN ∧ ∀ mimeType ofs len mtime etag,
    n.mimeType = some mimeType → n.u ≠ .data ofs len mtime etag

/-- What the host and the URI of a request lead to. -/
def Finds (s : Server) (r : HttpRequest) (o : ReadResults) (w : ℕ) (n : WebrootName) : Prop :=
  ∃ nads, nadsNormalize o.before o.uribuf r.uri.bytes = .ok nads ∧
    s.vhostsLookup (untilNul r.host.bytes) = some w ∧
    webrootFind (s.roots.index w) nads.uri 0 (nads.uri.cstr NADS_MAX_URI 0).length = .ok (some n)

def fileHeader (r : HttpRequest) (mimeType : Bytes) (len : ℕ) (mtime : UInt32) (etag : Bytes) : GetHeader :=
  ⟨if HttpConn.etagHit r etag then HTTP_NOT_MODIFIED else HTTP_FOUND, mimeType, len, r.connClose.toNat, etag, mtime⟩

/-- Why a request cannot be answered: the URI cannot be normalized or looked up, the record is damaged,
or the response does not fit in its buffer. -/
inductive AnswerFault (s : Server) (r : HttpRequest) (o : ReadResults) : Fault → Prop
  | normalize {f : Fault} (hnads : nadsNormalize o.before o.uribuf r.uri.bytes = .error f) : AnswerFault s r o f
  | find {nads : Nads} {w : ℕ} {f : Fault} (hnads : nadsNormalize o.before o.uribuf r.uri.bytes = .ok nads)
      (hhost : s.vhostsLookup (untilNul r.host.bytes) = some w)
      (hfind : webrootFind (s.roots.index w) nads.uri 0 (nads.uri.cstr NADS_MAX_URI 0).length = .error f) :
      AnswerFault s r o f
  | record {w : ℕ} {n : WebrootName} (hfinds : Finds s r o w n) (hrecord : n.Incomplete) :
      AnswerFault s r o .undefined
  | redirect {w : ℕ} {n : WebrootName} {target : Bytes} (hfinds : Finds s r o w n)
      (hmoved : n.u = .moved (some target))
      (hlong : HTTP_MAX_REQ < (resp301 (untilNul r.host.bytes) (untilNul target)).length) :
      AnswerFault s r o .assertion
  | header {w ofs len : ℕ} {n : WebrootName} {mimeType etag : Bytes} {mtime : UInt32} {f : Fault}
      (hfinds : Finds s r o w n) (hmime : n.mimeType = some mimeType) (hfile : n.u = .data ofs len mtime etag)
      (hheader : getHeader HTTP_MAX_REQ (fileHeader r mimeType len mtime etag) = .error f) : AnswerFault s r o f

/-- A GET request for a file with a body that the client does not have, and there is a buffer for it. -/
structure WantsBody (s : Server) (r : HttpRequest) (o : ReadResults) : Prop where
  method : vstrcmpFast r.method.bytes HttpConn.methodGet = 0
  file : ∃ w n mimeType ofs len mtime etag, Finds s r o w n ∧ n.code ≠ HTTP_MOVED_PERMANENTLY ∧
    n.code ≠ HTTP_FORBIDDEN ∧ n.mimeType = some mimeType ∧ n.u = .data ofs len mtime etag ∧
    HttpConn.etagHit r etag = false ∧ len ≠ 0
  data : o.dataBlock ≠ none

/-- What may be said of a fault while a request is answered: a read is submitted, where the request has got so far, or
the request cannot be answered. -/
def MayFault (s : Server) (r : HttpRequest) (o : ReadResults) (reached : Prop) (f : Fault) : Prop :=
  reached ∧ s.fio = .async ∧ WantsBody s r o ∨ AnswerFault s r o f

theorem MayFault.imp {p q : Prop} {f : Fault} (hpq : p → q) (h : MayFault s r o p f) : MayFault s r o q f :=
  Or.imp_left (And.imp_left hpq) h

theorem respU64_room {b b' : Resp} {u : ℕ} (hok : respU64 b u = .ok b') : b'.room = b.room := by
  unfold respU64 at hok
  split at hok
  · cases hok
    rfl
  · split at hok
    · cases hok
      rfl
    · cases hok

theorem respEtag_room {b b' : Resp} {etag : Bytes} (hok : respEtag b etag = .ok b') : b'.room = b.room := by
  unfold respEtag at hok
  split at hok
  · cases hok
    rfl
  · cases hok

theorem respTime_room {b b' : Resp} {tm : Tm} (hok : respTime b tm = .ok b') : b'.room = b.room := by
  unfold respTime at hok
  split at hok
  · split at hok
    · cases hok
    · split at hok
      · cases hok
      · cases hok
        rfl
  · cases hok

theorem getHeader_length_le {room : ℕ} {g : GetHeader} {text : Bytes} (hok : getHeader room g = .ok text) :
    text.length ≤ room := by
  unfold getHeader at hok
  simp only [bind_eq_ok_iff, respString_ok_iff, respHttpCode_ok_iff] at hok
  obtain ⟨_, ⟨-, rfl⟩, _, ⟨-, rfl⟩, _, ⟨-, rfl⟩, _, ⟨-, rfl⟩, _, ⟨-, rfl⟩, _, ⟨-, rfl⟩, b, hlen, _, ⟨-, rfl⟩, _,
    ⟨-, rfl⟩, _, ⟨-, rfl⟩, b', hetag, _, ⟨-, rfl⟩, b'', htime, _, ⟨hfit, rfl⟩, htext⟩ := hok
  cases htext
  have hroom : b''.room = room := (respTime_room htime).trans ((respEtag_room hetag).trans (respU64_room hlen))
  rwa [List.length_append, ← hroom]

/-- A connection whose request is being answered: the response is empty. -/
structure HttpConn.Answering (h : HttpConn) : Prop where
  unclosed : h.Unclosed
  state : h.hState = .header
  mask : h.hNbio.mask = NBIO_WRITE
  idle : h.aio = none
  res : ∃ res, h.hRes = some res ∧ res.bufWrite = HTTP_MAX_REQ
  priv : h.hIoPriv = none

theorem HttpConn.Answering.killable (ha : h.Answering) (fio : Fio) : h.Killable fio :=
  ⟨ha.idle, by simp [ha.state], fun hstate => absurd ha.state hstate, fun _ => ha.priv⟩

theorem HttpConn.Answering.poised (ha : h.Answering) (hlen : h.hDataLen = 0) : h.Poised fio := by
  obtain ⟨hunclosed, hstate, hmask, hidle, ⟨res, hres, -⟩, hpriv⟩ := ha
  refine ⟨hunclosed, by simp [hstate], fun _ => ?_, fun hne => absurd hidle hne, ?_, ?_, fun _ => hpriv,
    fun _ => hpriv⟩
  · rw [hmask, if_neg (by simp [hstate])]
  · simp [hres, hstate]
  · rintro (hcase | ⟨-, hne⟩)
    · cases hstate.symm.trans hcase
    · exact absurd hlen hne

theorem HttpConn.Answering.withData (ha : h.Answering) (off len : ℕ) : (h.withData off len).Answering :=
  ⟨⟨ha.unclosed.fd, ha.unclosed.closed, ha.unclosed.list⟩, ha.state, ha.mask, ha.idle, ha.res, ha.priv⟩

/-- A text that was queued as the whole response. -/
structure Texted (fio : Fio) (h : HttpConn) : Prop extends h.Poised fio where
  header : h.hState = .header
  len : h.hDataLen = 0

theorem HttpConn.Answering.texted (ha : h.Answering) (res : HttpBuf) (off : ℕ) :
    Texted fio ((h.withRes (some res)).withData off 0) := by
  have hpoised : (h.withData off 0).Poised fio := (ha.withData off 0).poised rfl
  exact ⟨hpoised.withRes ha.state res, ha.state, rfl⟩

theorem respond_ends (ha : h.Answering) {text : Bytes} (hfit : text.length ≤ HTTP_MAX_REQ) :
    Ends NoFault (Texted fio) (h.respond text) := by
  obtain ⟨res, hres, hroom⟩ := ha.res
  obtain ⟨res', hdone, -⟩ := res.bufDoneWrite_spec (by omega : text.length ≤ res.bufWrite)
  unfold HttpConn.respond
  rw [hres]
  simp only [deref, ok_bind]
  rw [if_neg (by omega), hdone, ok_bind]
  exact ha.texted res' h.hDataOff

theorem Texted.withClose (ht : Texted fio h) (close : ℕ) : Texted fio (h.withClose close) :=
  ⟨⟨⟨ht.unclosed.fd, ht.unclosed.closed, ht.unclosed.list⟩, ht.state, ht.mask,
    fun hne => (ht.inFlight hne).imp_right fun hi => hi.congr rfl rfl, ht.res, ht.body, ht.noBody, ht.sendfile⟩,
    ht.header, ht.len⟩

theorem respondClose_ends (ha : h.Answering) {text : Bytes} (hfit : text.length ≤ HTTP_MAX_REQ) :
    Ends NoFault (fun h' => Texted fio h' ∧ Doomed h') ((h.respond text).map (·.withClose 1)) :=
  ends_map (respond_ends ha hfit) fun _ ht => ⟨ht.withClose 1, ht.header, ht.len, Nat.one_ne_zero⟩

/-- A connection of which the body is ready to be sent, but for the webroot. -/
structure BodyPrepared (fio : Fio) (head : Bool) (h : HttpConn) : Prop where
  state : h.hState = .header
  res : ∃ res, h.hRes = some res ∧ res.bufWrite = HTTP_MAX_REQ
  bare : head = true → h.Answering
  body : head = false → ∀ w, (h.withWebroot (some w)).Poised fio

theorem HttpConn.Answering.withWebroot (ha : h.Answering) (w : ℕ) : (h.withWebroot (some w)).Answering :=
  ⟨⟨ha.unclosed.fd, ha.unclosed.closed, ha.unclosed.list⟩, ha.state, ha.mask, ha.idle, ha.res, ha.priv⟩

theorem HttpConn.Answering.prepared (ha : h.Answering) {head : Bool} (hnone : head = true ∨ h.hDataLen = 0) :
    BodyPrepared fio head h := by
  refine ⟨ha.state, ha.res, fun _ => ha, fun hhead w => (ha.withWebroot w).poised ?_⟩
  exact hnone.resolve_left (by simp [hhead])

/-- What comes out of preparing the body. -/
structure Prepares (fio : Fio) (h : HttpConn) (head : Bool) (p : HttpConn × Bool) : Prop where
  len : p.1.hDataLen = h.hDataLen
  close : p.1.hConnClose = h.hConnClose
  failed : p.2 = false → p.1.Answering
  ready : p.2 = true → BodyPrepared fio head p.1

theorem HttpConn.Answering.bodied (ha : h.Answering) {priv : Option HttpBuf} (hlen : h.hDataLen ≠ 0)
    (hpriv : fio ≠ .sendfile → priv ≠ none) (hnone : fio = .sendfile → priv = none) (w : ℕ) :
    ((h.withPriv priv).withWebroot (some w)).Poised fio := by
  obtain ⟨hunclosed, hstate, hmask, hidle, ⟨res, hres, -⟩, -⟩ := ha
  refine ⟨⟨hunclosed.fd, hunclosed.closed, hunclosed.list⟩, by simp [hstate], fun _ => ?_, fun hne => absurd hidle hne, ?_,
    fun _ => ⟨Option.some_ne_none w, hpriv⟩, ?_, hnone⟩
  · show h.hNbio.mask = if h.hState = .request then NBIO_READ else NBIO_WRITE
    rw [hmask, if_neg (by simp [hstate])]
  · simp [hres, hstate]
  · rintro (hcase | ⟨-, hzero⟩)
    · cases hstate.symm.trans hcase
    · exact absurd hzero hlen

theorem ioSyncPrep_ends (ha : h.Answering) (hlen : h.hDataLen ≠ 0) (block : Option Mem) :
    Ends NoFault (Prepares .sync h false) (h.ioSyncPrep block) := by
  cases block with
  | none => exact ⟨rfl, rfl, fun _ => ha, nofun⟩
  | some m =>
    unfold HttpConn.ioSyncPrep
    dsimp only
    rw [HttpConn.httpConnSetPriv_eq (Or.inr ha.state), ok_bind]
    exact ⟨rfl, rfl, nofun, fun _ => ⟨ha.state, ha.res, nofun,
      fun _ => ha.bodied hlen (fun _ => Option.some_ne_none _) nofun⟩⟩

theorem ioSendfilePrep_prepares (ha : h.Answering) (hlen : h.hDataLen ≠ 0) :
    Prepares .sendfile h false (h, true) := by
  have hbodied : ∀ w, ((h.withPriv none).withWebroot (some w)).Poised .sendfile :=
    ha.bodied hlen (fun hne => absurd rfl hne) fun _ => rfl
  rw [withPriv_self ha.priv] at hbodied
  exact ⟨rfl, rfl, nofun, fun _ => ⟨ha.state, ha.res, nofun, fun _ => hbodied⟩⟩

theorem ioAsyncPrep_ends (ha : h.Answering) (hlen : h.hDataLen ≠ 0) (block : Option Mem) (submit : SubmitResult) :
    Ends (fun _ => block ≠ none) (Prepares .async h false) (h.ioAsyncPrep block submit) := by
  cases block with
  | none => exact ⟨rfl, rfl, fun _ => ha, nofun⟩
  | some m =>
    refine ends_of_forall (fun _ => Option.some_ne_none m) ?_
    rintro ⟨h', ok⟩ hok
    unfold HttpConn.ioAsyncPrep at hok
    dsimp only at hok
    rw [HttpConn.httpConnSetPriv_eq (Or.inr ha.state), ok_bind] at hok
    obtain ⟨⟨h₁, ok₁⟩, hsubmit, hok⟩ := bind_eq_ok_iff.mp hok
    obtain ⟨rfl, rfl⟩ | ⟨rfl, -, hresp, iocb, rfl⟩ := aioSubmit_cases hsubmit
    · have hclear := HttpConn.httpConnSetPriv_eq (h := (h.withPriv (some (.alloc m HTTP_DATA_BUFFER))).logged
        [.freed .data]) (Or.inr ha.state) none
      obtain ⟨h₂, hset, hok⟩ := bind_eq_ok_iff.mp hok
      cases hok
      cases hclear.symm.trans hset
      have hun := ha.unclosed.logged [.freed .data] rfl
      exact ⟨rfl, rfl, fun _ => ⟨⟨hun.fd, hun.closed, hun.list⟩, ha.state, ha.mask, ha.idle, ha.res, rfl⟩, nofun⟩
    · cases hok
      have hbodied : ∀ w, ((h.withPriv (some (.alloc m HTTP_DATA_BUFFER))).withWebroot (some w)).Poised .async :=
        ha.bodied hlen (fun _ => Option.some_ne_none _) nofun
      refine ⟨rfl, rfl, nofun, fun _ => ⟨ha.state, ha.res, nofun, fun _ w => ?_⟩⟩
      exact ⟨⟨ha.unclosed.fd, ha.unclosed.closed, waiting_list _ _⟩, (hbodied w).state, fun hidle => absurd hidle (Option.some_ne_none iocb),
        fun _ => ⟨rfl, hresp, rfl, rfl, rfl⟩, (hbodied w).res, (hbodied w).body, (hbodied w).noBody, (hbodied w).sendfile⟩

theorem prepareBody_ends (ha : h.Answering) (head : Bool) :
    Ends (fun _ => fio = .async ∧ (h.hDataLen ≠ 0 ∧ head = false) ∧ o.dataBlock ≠ none) (Prepares fio h head)
      (h.prepareBody fio head o) := by
  unfold HttpConn.prepareBody
  by_cases hprep : h.hDataLen ≠ 0 ∧ head = false
  · obtain ⟨hlen, rfl⟩ := hprep
    rw [if_pos ⟨hlen, rfl⟩]
    cases fio with
    | sync => exact (ioSyncPrep_ends ha hlen o.dataBlock).mono (fun _ hno => hno.elim) fun _ => id
    | sendfile => exact ioSendfilePrep_prepares ha hlen
    | async =>
      exact (ioAsyncPrep_ends ha hlen o.dataBlock o.submit).mono (fun _ hblock => ⟨rfl, ⟨hlen, rfl⟩, hblock⟩) fun _ => id
  · rw [if_neg hprep]
    refine ⟨rfl, rfl, nofun, fun _ => ha.prepared ?_⟩
    by_contra hboth
    rw [not_or, Bool.not_eq_true] at hboth
    exact hprep hboth.symm

/-- The header of a file is queued, if it fits. -/
theorem queueHeader_ends {head : Bool} (hp : BodyPrepared fio head h) (w : ℕ) (g : GetHeader) :
    Ends (fun f => getHeader HTTP_MAX_REQ g = .error f) (fun h' => h'.Poised fio) (h.queueHeader w head g) := by
  obtain ⟨res, hres, hroom⟩ := hp.res
  unfold HttpConn.queueHeader
  rw [hres]
  simp only [deref, ok_bind]
  rw [hroom]
  cases hheader : getHeader HTTP_MAX_REQ g with
  | error f => rfl
  | ok text =>
    have hfit := getHeader_length_le hheader
    obtain ⟨res', hdone, -⟩ := res.bufDoneWrite_spec (by omega : text.length ≤ res.bufWrite)
    rw [ok_bind, hdone, ok_bind]
    cases head with
    | true => exact ((hp.bare rfl).texted res' h.hDataOff).toPoised
    | false => exact ((hp.body rfl w).withRes hp.state res').logged [.webrootRef w] rfl

/-- A file is sent, or a text that nothing goes on after. -/
theorem serveFile_ends (ha : h.Answering) (head : Bool) {w ofs len : ℕ} {mimeType etag : Bytes} {mtime : UInt32}
    (hclose : h.hConnClose = r.connClose.toNat) :
    Ends (fun f => (s.fio = .async ∧ (len ≠ 0 ∧ (head || HttpConn.etagHit r etag) = false) ∧ o.dataBlock ≠ none) ∨
        getHeader HTTP_MAX_REQ (fileHeader r mimeType len mtime etag) = .error f)
      (fun h' => h'.Poised s.fio) (h.serveFile s r head o w mimeType ofs len mtime etag) := by
  unfold HttpConn.serveFile
  refine ends_bind ((prepareBody_ends (ha.withData ofs len) (head || HttpConn.etagHit r etag)).mono
    (fun _ => Or.inl) fun _ => id) ?_
  rintro ⟨h₁, ok⟩ hp
  cases ok with
  | false =>
    exact (respondClose_ends (hp.failed rfl) resp500_fits).mono (fun _ hno => hno.elim) fun _ ht => ht.1.toPoised
  | true =>
    have hg : fileHeader r mimeType len mtime etag = ⟨if HttpConn.etagHit r etag then HTTP_NOT_MODIFIED else HTTP_FOUND,
        mimeType, h₁.hDataLen, h₁.hConnClose, etag, mtime⟩ := by
      rw [hp.len, hp.close]
      show _ = GetHeader.mk _ mimeType len h.hConnClose etag mtime
      rw [hclose, fileHeader]
    rw [hg]
    exact (queueHeader_ends (hp.ready rfl) w _).mono (fun _ => Or.inr) fun _ => id

theorem bufDoneWrite_of_lt (b : HttpBuf) {n : ℕ} (hlong : b.bufWrite < n) :
    b.bufDoneWrite n = .error .assertion := by
  refine dif_neg fun hfit => ?_
  unfold HttpBuf.bufWrite at hlong
  omega

/-- The text of a redirect is queued, if it fits. -/
theorem response301_ends (ha : h.Answering) (host loc : Bytes) :
    Ends (fun f => f = .assertion ∧ HTTP_MAX_REQ < (resp301 (untilNul host) (untilNul loc)).length)
      (fun h' => h'.Poised fio) (h.response301 host loc) := by
  obtain ⟨res, hres, hroom⟩ := ha.res
  have hformat := resp301_format_fits
  obtain ⟨text, htext⟩ : ∃ text, text = resp301 (untilNul host) (untilNul loc) := ⟨_, rfl⟩
  obtain ⟨printed, hprinted⟩ : ∃ printed, printed = if text.length = HTTP_MAX_REQ then text.dropLast ++ [0] else text :=
    ⟨_, rfl⟩
  have hlen : printed.length = text.length := by
    rw [hprinted]
    split
    · next hfull =>
      rw [List.length_append, List.length_dropLast, hfull]
      rfl
    · rfl
  unfold HttpConn.response301
  rw [hres]
  simp only [deref, ok_bind]
  rw [if_neg (by omega), hroom, ← htext, ← hprinted]
  by_cases hfit : text.length ≤ HTTP_MAX_REQ
  · obtain ⟨res', hdone, -⟩ := res.bufDoneWrite_spec (by omega : printed.length ≤ res.bufWrite)
    rw [hdone, ok_bind]
    exact (ha.texted res' h.hDataOff).toPoised
  · have hroom' : (res.put printed).bufWrite = HTTP_MAX_REQ := hroom
    rw [bufDoneWrite_of_lt _ (by omega)]
    exact ⟨rfl, by omega⟩

theorem serveName_ends (ha : h.Answering) {head : Bool} (hmethod : head = false → vstrcmpFast r.method.bytes HttpConn.methodGet = 0)
    {w : ℕ} {n : WebrootName} (hfinds : Finds s r o w n) (hclose : h.hConnClose = r.connClose.toNat) :
    Ends (MayFault s r o True) (fun h' => h'.Poised s.fio) (h.serveName s r head o w n) := by
  unfold HttpConn.serveName
  by_cases hmoved : n.code = HTTP_MOVED_PERMANENTLY
  · rw [if_pos hmoved]
    split
    · next target htarget =>
      refine (response301_ends ha r.host.bytes target).mono ?_ fun _ => id
      rintro f ⟨rfl, hlong⟩
      exact Or.inr (.redirect hfinds htarget hlong)
    · next hother =>
      refine Or.inr (.record hfinds ?_)
      unfold WebrootName.Incomplete
      rw [if_pos hmoved]
      exact hother
  · rw [if_neg hmoved]
    by_cases hforbidden : n.code = HTTP_FORBIDDEN
    · rw [if_pos hforbidden]
      exact (respond_ends ha resp403_fits).mono (fun _ hno => hno.elim) fun _ ht => ht.toPoised
    · rw [if_neg hforbidden]
      split
      · next mimeType ofs len mtime etag hmime hfile =>
        refine (serveFile_ends ha head hclose).mono ?_ fun _ => id
        rintro f (⟨hasync, ⟨hlen, hsent⟩, hblock⟩ | hheader)
        · rw [Bool.or_eq_false_iff] at hsent
          exact Or.inl ⟨trivial, hasync, hmethod hsent.1,
            ⟨w, n, mimeType, ofs, len, mtime, etag, hfinds, hmoved, hforbidden, hmime, hfile, hsent.2, hlen⟩, hblock⟩
        · exact Or.inr (.header hfinds hmime hfile hheader)
      · next hother =>
        refine Or.inr (.record hfinds ?_)
        unfold WebrootName.Incomplete
        rw [if_neg hmoved]
        exact ⟨hforbidden, hother⟩

theorem handleGet_ends (ha : h.Answering) {head : Bool} (hmethod : head = false → vstrcmpFast r.method.bytes HttpConn.methodGet = 0)
    (hclose : h.hConnClose = r.connClose.toNat) :
    Ends (MayFault s r o True) (fun h' => h'.Poised s.fio) (h.handleGet s r head o) := by
  have htext : ∀ {text : Bytes}, text.length ≤ HTTP_MAX_REQ →
      Ends (MayFault s r o True) (fun h' => h'.Poised s.fio) (h.respond text) :=
    fun hfit => (respond_ends ha hfit).mono (fun _ hno => hno.elim) fun _ ht => ht.toPoised
  unfold HttpConn.handleGet
  cases hnads : nadsNormalize o.before o.uribuf r.uri.bytes with
  | error f => exact Or.inr (.normalize hnads)
  | ok nads =>
    rw [ok_bind]
    cases hhost : s.vhostsLookup (untilNul r.host.bytes) with
    | none => exact htext resp403_fits
    | some w =>
      dsimp only
      cases hfind : webrootFind (s.roots.index w) nads.uri 0 (nads.uri.cstr NADS_MAX_URI 0).length with
      | error f => exact Or.inr (.find hnads hhost hfind)
      | ok found =>
        rw [ok_bind]
        cases found with
        | none => exact htext resp404_fits
        | some n => exact serveName_ends ha hmethod ⟨nads, hnads, hhost, hfind⟩ hclose

theorem answer_ends (ha : h.Answering) (hclose : h.hConnClose = r.connClose.toNat) :
    Ends (MayFault s r o True) (fun h' => h'.Poised s.fio) (h.answer s r o) := by
  unfold HttpConn.answer
  split
  · next hget => exact handleGet_ends ha (fun _ => hget) hclose
  · split
    · exact handleGet_ends ha nofun hclose
    · exact (respondClose_ends ha resp501_fits).mono (fun _ hno => hno.elim) fun _ ht => ht.1.toPoised

end Ashttpd
