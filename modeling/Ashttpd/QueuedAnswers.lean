import Ashttpd.Answers
import Ashttpd.StrongEtags

/-!
# What is queued for a request

`handle_get` answers with one of a few pages or with the header of a file. Which of them it is, and that
it can be put together, is told by what the host and the URI lead to; then that text is queued, and for a
HEAD request nothing else is done to the connection.
-/
namespace Ashttpd

/-- What is printed for a redirect. A text that just fits loses its last byte to the terminator. -/
def redirectText (host loc : Bytes) : Bytes :=
  if (resp301 (untilNul host) (untilNul loc)).length = HTTP_MAX_REQ then
    (resp301 (untilNul host) (untilNul loc)).dropLast ++ [0]
  else resp301 (untilNul host) (untilNul loc)

/-- The header of a file as `handle_get` puts it together. -/
def queuedHeader (h : HttpConn) (r : HttpRequest) (mimeType : Bytes) (len : ℕ) (mtime : UInt32) (etag : Bytes) :
    GetHeader :=
  ⟨if HttpConn.etagHit r etag then HTTP_NOT_MODIFIED else HTTP_FOUND, mimeType, len, h.hConnClose, etag, mtime⟩

/-- Nothing is wanted of the body, or it can be prepared. -/
def BodyServed (s : Server) (h : HttpConn) (r : HttpRequest) (head : Bool) (o : ReadResults) (len : ℕ)
    (etag : Bytes) : Prop :=
  len = 0 ∨ head = true ∨ HttpConn.etagHit r etag = true ∨ ∃ w, BodyReady s h o w

/-- The texts that `handle_get` queues, each with what makes it do so. -/
inductive Queues (s : Server) (h : HttpConn) (r : HttpRequest) (head : Bool) (o : ReadResults) : Bytes → Prop
  | unknownHost {nads : Nads} (hnads : nadsNormalize o.before o.uribuf r.uri.bytes = .ok nads)
      (hhost : s.vhostsLookup (untilNul r.host.bytes) = none) : Queues s h r head o resp403
  | missing {nads : Nads} {w : ℕ} (hnads : nadsNormalize o.before o.uribuf r.uri.bytes = .ok nads)
      (hhost : s.vhostsLookup (untilNul r.host.bytes) = some w)
      (hfind : webrootFind (s.roots.index w) nads.uri 0 (nads.uri.cstr NADS_MAX_URI 0).length = .ok none) :
      Queues s h r head o resp404
  | moved {w : ℕ} {n : WebrootName} {target : Bytes} (hfinds : Finds s r o w n)
      (hcode : n.code = HTTP_MOVED_PERMANENTLY) (htarget : n.u = .moved (some target))
      (hfit : (resp301 (untilNul r.host.bytes) (untilNul target)).length ≤ HTTP_MAX_REQ) :
      Queues s h r head o (redirectText r.host.bytes target)
  | forbidden {w : ℕ} {n : WebrootName} (hfinds : Finds s r o w n) (hcode : n.code = HTTP_FORBIDDEN) :
      Queues s h r head o resp403
  | unready {w ofs len : ℕ} {n : WebrootName} {mimeType etag : Bytes} {mtime : UInt32} {h₁ : HttpConn}
      (hfinds : Finds s r o w n) (hcode : n.code ≠ HTTP_MOVED_PERMANENTLY ∧ n.code ≠ HTTP_FORBIDDEN)
      (hmime : n.mimeType = some mimeType) (hfile : n.u = .data ofs len mtime etag)
      (hnone : (h.withData ofs len).prepareBody s.fio (head || HttpConn.etagHit r etag) o = .ok (h₁, false)) :
      Queues s h r head o resp500
  | file {w ofs len : ℕ} {n : WebrootName} {mimeType etag : Bytes} {mtime : UInt32}
      (hfinds : Finds s r o w n) (hcode : n.code ≠ HTTP_MOVED_PERMANENTLY ∧ n.code ≠ HTTP_FORBIDDEN)
      (hmime : n.mimeType = some mimeType) (hfile : n.u = .data ofs len mtime etag)
      (hfits : HeaderFits (queuedHeader h r mimeType len mtime etag)) (hbody : BodyServed s h r head o len etag) :
      Queues s h r head o (headerText (queuedHeader h r mimeType len mtime etag))

/-- What a handler does that queues a text: a body is to come from the webroot `root`. -/
def Answered (root : Option ℕ) (h : HttpConn) (head : Bool) (text : Bytes) (h' : HttpConn) : Prop :=
  Queued h' text ∧ (head = true → Says h h' text) ∧ h'.hState = h.hState ∧
    (h'.hDataLen ≠ 0 → root ≠ none ∧ h'.hWebroot = root)

variable {s : Server} {h h' : HttpConn} {r : HttpRequest} {o : ReadResults} {head : Bool} {block : Mem}
  {w ofs len : ℕ} {mimeType etag text : Bytes} {mtime : UInt32} {root : Option ℕ}

theorem Says.answered (hs : Says h h' text) : Answered root h head text h' := by
  obtain ⟨res, off, hun, rfl⟩ := hs
  exact ⟨⟨res, rfl, hun⟩, fun _ => ⟨res, off, hun, rfl⟩, rfl, fun hlen => absurd rfl hlen⟩

theorem length_redirectText (host loc : Bytes) :
    (redirectText host loc).length = (resp301 (untilNul host) (untilNul loc)).length := by
  unfold redirectText
  split
  · next hfull =>
    rw [List.length_append, List.length_dropLast, hfull]
    rfl
  · rfl

/-- What a redirect begins with. -/
def redirectHead : Bytes := ["HTTP/1.1 301 Moved Permanently\r\n",
  "Content-Type: text/html\r\n",
  "Content-Length: 87\r\n",
  "Location: http://"].flatMap ascii

/-- There is a page behind the header of a redirect. -/
theorem redirectText_eq (host loc : Bytes) : ∃ c tail, redirectText host loc =
    redirectHead ++ untilNul host ++ untilNul loc ++ ascii "\r\n\r\n" ++ c :: tail := by
  obtain ⟨page, hpage⟩ : ∃ page : Bytes, page = ["<html><head><title>Object Moved</title></head>",
    "<body><h1>Object Moved</h1></body></html>"].flatMap ascii := ⟨_, rfl⟩
  obtain ⟨front, hfront⟩ : ∃ front, front = redirectHead ++ untilNul host ++ untilNul loc ++ ascii "\r\n\r\n" :=
    ⟨_, rfl⟩
  have hsplit : resp301 (untilNul host) (untilNul loc) = front ++ page := by
    rw [hfront, hpage]
    simp only [resp301, redirectHead, List.append_assoc]
    rfl
  have hne : page ≠ [] := by
    rw [hpage]
    decide
  rw [← hfront]
  unfold redirectText
  rw [hsplit]
  split
  · obtain ⟨c, tail, hlast⟩ := List.exists_cons_of_ne_nil (by simp : page.dropLast ++ [0] ≠ [])
    refine ⟨c, tail, ?_⟩
    rw [List.dropLast_append_of_ne_nil hne, List.append_assoc, hlast]
  · obtain ⟨c, tail, hcons⟩ := List.exists_cons_of_ne_nil hne
    exact ⟨c, tail, by rw [hcons]⟩

/-- A redirect is queued if it fits, and nothing is done otherwise. -/
theorem response301_says (hres : h.hRes = some (.alloc block HTTP_MAX_REQ)) (host loc : Bytes) :
    (∃ h', h.response301 host loc = .ok h' ∧ Says h h' (redirectText host loc) ∧
      (resp301 (untilNul host) (untilNul loc)).length ≤ HTTP_MAX_REQ) ∨
    h.response301 host loc = .error .assertion ∧
      HTTP_MAX_REQ < (resp301 (untilNul host) (untilNul loc)).length := by
  have hformat := resp301_format_fits
  have hlen := length_redirectText host loc
  have hprint : h.response301 host loc =
      (((HttpBuf.alloc block HTTP_MAX_REQ).put (redirectText host loc)).bufDoneWrite
        (redirectText host loc).length >>= fun res => .ok ((h.withRes (some res)).withData h.hDataOff 0)) := by
    unfold HttpConn.response301
    rw [hres]
    simp only [deref, ok_bind]
    rw [if_neg (by rw [HttpBuf.bufWrite_alloc]; omega)]
    rfl
  rw [hprint]
  by_cases hfit : (resp301 (untilNul host) (untilNul loc)).length ≤ HTTP_MAX_REQ
  · obtain ⟨res, hdone, hun, -⟩ := (HttpBuf.alloc block HTTP_MAX_REQ).bufDoneWrite_spec (hlen.trans_le hfit)
    rw [hdone, ok_bind]
    exact Or.inl ⟨_, rfl, ⟨res, h.hDataOff, hun, rfl⟩, hfit⟩
  · have hroom : ((HttpBuf.alloc block HTTP_MAX_REQ).put (redirectText host loc)).bufWrite = HTTP_MAX_REQ := rfl
    rw [bufDoneWrite_of_lt _ (by omega)]
    exact Or.inr ⟨rfl, by omega⟩

/-- Preparing a body leaves the state as it is. -/
theorem ioPrep_state {fio : Fio} {submit : SubmitResult} {data : Option Mem} {ok : Bool}
    (hprep : h.ioPrep fio data submit = .ok (h', ok)) : h'.hState = h.hState := by
  have hset : ∀ {h h' : HttpConn} {priv}, h.httpConnSetPriv priv = .ok h' → h' = h.withPriv priv := by
    intro h h' priv hset
    obtain ⟨_, -, hset⟩ := bind_eq_ok_iff.mp hset
    cases hset
    rfl
  cases fio with
  | sendfile =>
    cases hprep
    rfl
  | sync =>
    cases data with
    | none =>
      cases hprep
      rfl
    | some m =>
      obtain ⟨h₁, hpriv, hprep⟩ := bind_eq_ok_iff.mp hprep
      cases hprep
      rw [hset hpriv]
      rfl
  | async =>
    cases data with
    | none =>
      cases hprep
      rfl
    | some m =>
      obtain ⟨h₁, hpriv, hprep⟩ := bind_eq_ok_iff.mp hprep
      obtain ⟨⟨h₂, ok₂⟩, hsubmit, hprep⟩ := bind_eq_ok_iff.mp hprep
      obtain ⟨-, hstate, -⟩ := aioSubmit_sameResponse hsubmit
      rw [hset hpriv] at hstate
      cases ok₂ with
      | true =>
        cases hprep
        exact hstate
      | false =>
        obtain ⟨h₃, hclear, hprep⟩ := bind_eq_ok_iff.mp hprep
        cases hprep
        rw [hset hclear, free_eq_logged]
        exact hstate

theorem prepareBody_cases {bare ok : Bool} (hprep : h.prepareBody s.fio bare o = .ok (h', ok)) :
    SameResponse h h' ∧ h'.hState = h.hState ∧ (bare = true → h' = h ∧ ok = true) ∧
      (ok = true → h.hDataLen = 0 ∨ bare = true ∨ ∃ w, BodyReady s h o w) := by
  obtain ⟨hsame, hdone⟩ := prepareBody_sameResponse hprep
  have hready : ok = true → h.hDataLen = 0 ∨ bare = true ∨ ∃ w, BodyReady s h o w := fun hok =>
    (hdone hok).imp_right fun hrest => hrest.imp_right fun hprepared => hprepared.bodyReady.imp fun _ => And.left
  unfold HttpConn.prepareBody at hprep
  split at hprep
  · next hwanted =>
    exact ⟨hsame, ioPrep_state hprep, fun hbare => absurd (hbare.symm.trans hwanted.2) (by simp), hready⟩
  · cases hprep
    exact ⟨hsame, rfl, fun _ => ⟨rfl, rfl⟩, hready⟩

theorem bodyServed_iff (ofs : ℕ) : BodyServed s h r head o len etag ↔ (h.withData ofs len).hDataLen = 0 ∨
    (head || HttpConn.etagHit r etag) = true ∨ ∃ w, BodyReady s (h.withData ofs len) o w := by
  rw [Bool.or_eq_true, or_assoc]
  rfl

theorem BodyServed.prepareBody (hbody : BodyServed s h r head o len etag) (hr : h.Responding)
    (hmask : h.hNbio.mask ≠ NBIO_DELETED) (ofs : ℕ) :
    ∃ h₁, (h.withData ofs len).prepareBody s.fio (head || HttpConn.etagHit r etag) o = .ok (h₁, true) :=
  prepareBody_served (h := h.withData ofs len) hr hmask ((bodyServed_iff ofs).mp hbody)

/-- The header is queued if it can be put together. -/
theorem queueHeader_answered {g : GetHeader} {bare : Bool} (hres : h.hRes = some (.alloc block HTTP_MAX_REQ))
    (hetag : g.etag.length = ETAG_SZ) :
    (∀ h', h.queueHeader w bare g = .ok h' → HeaderFits g ∧ Answered (some w) h bare (headerText g) h') ∧
    (HeaderFits g → ∃ h', h.queueHeader w bare g = .ok h') := by
  have hiff : ∀ h', h.queueHeader w bare g = .ok h' ↔ _ := fun h' => queueHeader_iff hres hetag
  constructor
  · intro h' hok
    obtain ⟨hfits, res, hun, -, rfl⟩ := (hiff h').mp hok
    refine ⟨hfits, ?_⟩
    cases bare with
    | true => exact Says.answered ⟨res, h.hDataOff, hun, rfl⟩
    | false => exact ⟨⟨res, rfl, hun⟩, nofun, rfl, fun _ => ⟨Option.some_ne_none w, rfl⟩⟩
  · intro hfits
    obtain ⟨res, hdone, hun, -⟩ := (HttpBuf.alloc block HTTP_MAX_REQ).bufDoneWrite_spec hfits.2
    exact ⟨_, (hiff _).mpr ⟨hfits, res, hun, hdone, rfl⟩⟩

theorem serveFile_answered (hres : h.hRes = some (.alloc block HTTP_MAX_REQ)) (hetag : etag.length = ETAG_SZ)
    (hok : h.serveFile s r head o w mimeType ofs len mtime etag = .ok h') :
    (HeaderFits (queuedHeader h r mimeType len mtime etag) ∧ BodyServed s h r head o len etag ∧
      Answered (some w) h head (headerText (queuedHeader h r mimeType len mtime etag)) h') ∨
    (∃ h₁, (h.withData ofs len).prepareBody s.fio (head || HttpConn.etagHit r etag) o = .ok (h₁, false)) ∧
      Answered (some w) h head resp500 h' := by
  unfold HttpConn.serveFile at hok
  obtain ⟨⟨h₁, ok⟩, hprep, hok⟩ := bind_eq_ok_iff.mp hok
  obtain ⟨hsame, hstate, hbare, hserved⟩ := prepareBody_cases hprep
  have hres₁ : h₁.hRes = some (.alloc block HTTP_MAX_REQ) := hsame.res.trans hres
  cases ok with
  | false =>
    refine Or.inr ⟨⟨h₁, hprep⟩, ?_⟩
    have hfalse : head = false := by
      by_contra hhead
      rw [Bool.not_eq_false] at hhead
      have hboth := hbare (by simp [hhead])
      cases hboth.2
    obtain ⟨h₂, hrespond, rfl⟩ := map_eq_ok_iff.mp hok
    have hfit := resp500_fits
    obtain ⟨h₃, hok₃, res, off, hun, rfl⟩ := respond_says hres₁ hfit
    cases hrespond.symm.trans hok₃
    exact ⟨⟨res, rfl, hun⟩, fun hhead => absurd (hhead.symm.trans hfalse) (by simp), hstate, fun hlen => absurd rfl hlen⟩
  | true =>
    have hlen : h₁.hDataLen = len := hsame.len
    have hclose : h₁.hConnClose = h.hConnClose := hsame.close
    dsimp only at hok
    rw [hlen, hclose] at hok
    obtain ⟨hfits, hqueued, hsaid, hstate', hroot⟩ := (queueHeader_answered hres₁ hetag).1 h' hok
    refine Or.inl ⟨hfits, (bodyServed_iff ofs).mpr (hserved rfl), hqueued, fun hhead => ?_, hstate'.trans hstate, hroot⟩
    obtain ⟨rfl, -⟩ := hbare (by simp [hhead])
    exact hsaid (by simp [hhead])

/-- A file that is found has a digest of the right length. -/
theorem Finds.etag_length {n : WebrootName} (hfinds : Finds s r o w n) (hfile : n.u = .data ofs len mtime etag) :
    etag.length = ETAG_SZ := by
  obtain ⟨nads, -, -, hfind⟩ := hfinds
  unfold webrootFind at hfind
  split at hfind
  · cases hfind
  · split at hfind
    · cases hfind
    · split at hfind
      · cases hfind
      · split at hfind
        · split at hfind
          · cases hfind
          · split at hfind
            · cases hfind
              cases hfile
            · cases hfind
              cases hfile
        · split at hfind
          · cases hfind
          · next file _ =>
            cases hfind
            cases hfile
            exact file.digestLen

/-- What `handle_get` answers is one of its texts. -/
theorem handleGet_queues (hres : h.hRes = some (.alloc block HTTP_MAX_REQ)) (hok : h.handleGet s r head o = .ok h') :
    ∃ text, Queues s h r head o text ∧ Answered (s.vhostsLookup (untilNul r.host.bytes)) h head text h' := by
  have hpage : ∀ {text : Bytes} {root : Option ℕ}, text.length ≤ HTTP_MAX_REQ → h.respond text = .ok h' →
      Answered root h head text h' := by
    intro text root hfit hok
    obtain ⟨h₁, hok₁, hsaid⟩ := respond_says hres hfit
    cases hok.symm.trans hok₁
    exact hsaid.answered
  unfold HttpConn.handleGet at hok
  obtain ⟨nads, hnads, hok⟩ := bind_eq_ok_iff.mp hok
  split at hok
  · next hhost => exact ⟨_, .unknownHost hnads hhost, hpage resp403_fits hok⟩
  · next w hhost =>
    obtain ⟨found, hfind, hok⟩ := bind_eq_ok_iff.mp hok
    cases found with
    | none => exact ⟨_, .missing hnads hhost hfind, hpage resp404_fits hok⟩
    | some n =>
      have hfinds : Finds s r o w n := ⟨nads, hnads, hhost, hfind⟩
      dsimp only at hok
      unfold HttpConn.serveName at hok
      split at hok
      · next hcode =>
        split at hok
        · next target htarget =>
          obtain ⟨h₁, hok₁, hsaid, hfit⟩ | ⟨herror, -⟩ := response301_says hres r.host.bytes target
          · cases hok.symm.trans hok₁
            exact ⟨_, .moved hfinds hcode htarget hfit, hsaid.answered⟩
          · cases hok.symm.trans herror
        · cases hok
      · next hmoved =>
        split at hok
        · next hcode => exact ⟨_, .forbidden hfinds hcode, hpage resp403_fits hok⟩
        · next hforbidden =>
          split at hok
          · next mimeType ofs len mtime etag hmime hfile =>
            rw [hhost]
            obtain ⟨hfits, hbody, hanswered⟩ | ⟨⟨h₁, hnone⟩, hanswered⟩ :=
              serveFile_answered hres (hfinds.etag_length hfile) hok
            · exact ⟨_, .file hfinds ⟨hmoved, hforbidden⟩ hmime hfile hfits hbody, hanswered⟩
            · exact ⟨_, .unready hfinds ⟨hmoved, hforbidden⟩ hmime hfile hnone, hanswered⟩
          · cases hok

theorem Finds.vhostsLookup_eq {n : WebrootName} (hfinds : Finds s r o w n) :
    s.vhostsLookup (untilNul r.host.bytes) = some w := by
  obtain ⟨nads, -, hhost, -⟩ := hfinds
  exact hhost

theorem Finds.handleGet {n : WebrootName} (hfinds : Finds s r o w n) :
    h.handleGet s r head o = h.serveName s r head o w n := by
  obtain ⟨nads, hnads, hhost, hfind⟩ := hfinds
  unfold HttpConn.handleGet
  rw [hnads, ok_bind, hhost]
  dsimp only
  rw [hfind, ok_bind]

theorem serveName_file {n : WebrootName} (hcode : n.code ≠ HTTP_MOVED_PERMANENTLY ∧ n.code ≠ HTTP_FORBIDDEN)
    (hmime : n.mimeType = some mimeType) (hfile : n.u = .data ofs len mtime etag) :
    h.serveName s r head o w n = h.serveFile s r head o w mimeType ofs len mtime etag := by
  unfold HttpConn.serveName
  rw [if_neg hcode.1, if_neg hcode.2, hmime, hfile]

/-- A request that one of the texts is for is answered. -/
theorem Queues.handleGet (hres : h.hRes = some (.alloc block HTTP_MAX_REQ)) (hr : h.Responding)
    (hmask : h.hNbio.mask ≠ NBIO_DELETED) (hq : Queues s h r head o text) :
    ∃ h', h.handleGet s r head o = .ok h' ∧
      Answered (s.vhostsLookup (untilNul r.host.bytes)) h head text h' := by
  have hpage : ∀ {text : Bytes} {root : Option ℕ}, text.length ≤ HTTP_MAX_REQ →
      ∃ h', h.respond text = .ok h' ∧ Answered root h head text h' := by
    intro text root hfit
    obtain ⟨h', hok, hsaid⟩ := respond_says hres hfit
    exact ⟨h', hok, hsaid.answered⟩
  cases hq with
  | unknownHost hnads hhost =>
    unfold HttpConn.handleGet
    rw [hnads, ok_bind, hhost]
    exact hpage resp403_fits
  | missing hnads hhost hfind =>
    unfold HttpConn.handleGet
    rw [hnads, ok_bind, hhost]
    dsimp only
    rw [hfind, ok_bind]
    exact hpage resp404_fits
  | moved hfinds hcode htarget hfit =>
    rw [hfinds.handleGet]
    unfold HttpConn.serveName
    rw [if_pos hcode, htarget]
    obtain ⟨h', hok, hsaid, -⟩ | ⟨-, hlong⟩ := response301_says (h := h) hres r.host.bytes _
    · exact ⟨h', hok, hsaid.answered⟩
    · exact absurd hfit (by omega)
  | forbidden hfinds hcode =>
    rw [hfinds.handleGet]
    unfold HttpConn.serveName
    rw [if_neg (by rw [hcode]; decide), if_pos hcode]
    exact hpage resp403_fits
  | @unready w ofs len n mimeType etag mtime h₁ hfinds hcode hmime hfile hnone =>
    rw [hfinds.handleGet, serveName_file hcode hmime hfile, hfinds.vhostsLookup_eq]
    have hetag := hfinds.etag_length hfile
    obtain ⟨hsame, -⟩ := prepareBody_cases hnone
    have hres₁ : h₁.hRes = some (.alloc block HTTP_MAX_REQ) := hsame.res.trans hres
    have hfit := resp500_fits
    obtain ⟨h₂, hok₂, -⟩ := respond_says hres₁ hfit
    have hserve : h.serveFile s r head o w mimeType ofs len mtime etag = .ok (h₂.withClose 1) := by
      unfold HttpConn.serveFile
      dsimp only
      rw [hnone, ok_bind]
      dsimp only [HttpConn.response500]
      rw [hok₂]
      rfl
    refine ⟨_, hserve, ?_⟩
    obtain ⟨-, hbody, -⟩ | ⟨-, hanswered⟩ := serveFile_answered hres hetag hserve
    · obtain ⟨h₃, hready⟩ := hbody.prepareBody hr hmask ofs
      cases hnone.symm.trans hready
    · exact hanswered
  | @file w ofs len n mimeType etag mtime hfinds hcode hmime hfile hfits hbody =>
    rw [hfinds.handleGet, serveName_file hcode hmime hfile, hfinds.vhostsLookup_eq]
    have hetag := hfinds.etag_length hfile
    obtain ⟨h₁, hprep⟩ := hbody.prepareBody hr hmask ofs
    obtain ⟨hsame, -⟩ := prepareBody_cases hprep
    have hres₁ : h₁.hRes = some (.alloc block HTTP_MAX_REQ) := hsame.res.trans hres
    have hlen : h₁.hDataLen = len := hsame.len
    have hclose : h₁.hConnClose = h.hConnClose := hsame.close
    obtain ⟨h₂, hok₂⟩ : ∃ h₂, h₁.queueHeader w (head || HttpConn.etagHit r etag)
        (queuedHeader h r mimeType len mtime etag) = .ok h₂ :=
      (queueHeader_answered hres₁ hetag).2 hfits
    have hserve : h.serveFile s r head o w mimeType ofs len mtime etag = .ok h₂ := by
      unfold HttpConn.serveFile
      dsimp only
      rw [hprep, ok_bind]
      dsimp only
      rw [hlen, hclose]
      exact hok₂
    refine ⟨h₂, hserve, ?_⟩
    obtain ⟨-, -, hanswered⟩ | ⟨⟨h₃, hnone⟩, -⟩ := serveFile_answered hres hetag hserve
    · exact hanswered
    · cases hprep.symm.trans hnone

end Ashttpd
