import Ashttpd.FailedPasses
import Ashttpd.PublishedTrees
import Ashttpd.QueuedAnswers
import Ashttpd.Sessions

/-!
# A directory tree over HTTP

A client that asks for a path of a tree, of which the server has the file that was built for it, gets what
stands at the path: header and text of a file, the place of a directory, or a page that says that there is
nothing. What the kernel makes of the calls on the socket and the file does not matter.
-/
namespace Ashttpd

variable {s : Server} {h h' g : HttpConn} {o : ReadResults} {r : HttpRequest} {block : Mem} {req : HttpBuf}
  {hlen w ofs len : ℕ} {text mimeType etag : Bytes} {mtime : UInt32}

/-- A connection with an empty buffer for the answer to a request. -/
structure Primed (block : Mem) (req : HttpBuf) (hlen : ℕ) (g : HttpConn) : Prop where
  state : g.hState = .header
  fd : g.hNbio.fd = true
  mask : g.hNbio.mask = NBIO_WRITE
  idle : g.aio = none
  res : g.hRes = some (.alloc block HTTP_MAX_REQ)
  buffer : g.hReq = some req
  room : hlen ≤ req.bufRead
  stays : g.hConnClose = 0

theorem Primed.mask_ne (ha : Primed block req hlen g) : g.hNbio.mask ≠ NBIO_DELETED := by
  rw [ha.mask]
  decide

theorem telling_of_queued (hstate : h'.hState = .header) (hfd : h'.hNbio.fd = true) (hidle : h'.aio = none)
    (hlen : h'.hDataLen = 0) (hq : Queued h' text) : Telling text h' h' [] := by
  obtain ⟨res, hres, hun⟩ := hq
  exact telling_header (List.append_nil _).symm hidle hfd hstate hlen hres hun

theorem Queued.same (hq : Queued h text) (hsame : SameResponse h h') : Queued h' text := by
  obtain ⟨res, hres, hun⟩ := hq
  exact ⟨res, hsame.res.trans hres, hun⟩

theorem finishRequest_unsent (hok : h.finishRequest hlen = .ok h') : sentBytes h'.log = sentBytes h.log := by
  unfold HttpConn.finishRequest at hok
  obtain ⟨req, -, hok⟩ := bind_eq_ok_iff.mp hok
  obtain ⟨rest, -, hok⟩ := bind_eq_ok_iff.mp hok
  dsimp only at hok
  split at hok
  · cases hok
    exact (sentBytes_append _ _).trans (List.append_nil _)
  · cases hok
    show sentBytes (h.log ++ [.answered (req.unread.take hlen)] ++ [.freed .req]) = _
    rw [sentBytes_append, sentBytes_append]
    exact (List.append_nil _).trans (List.append_nil _)

theorem Primed.says (ha : Primed block req hlen g) {x : Except Fault HttpConn} (hok : x = .ok h')
    (hs : Says g h' text) : ∃ h₁, (x >>= fun h' => h'.finishRequest hlen) = .ok h₁ ∧ Begins s g h₁ text := by
  have hq := hs.queued
  obtain ⟨res, off, -, rfl⟩ := hs
  obtain ⟨h₁, hfinish, -⟩ := finishRequest_response (h := (g.withRes (some res)).withData off 0) ha.buffer ha.room
  obtain ⟨hsame, hstate, hnbio, haio, -⟩ := finishRequest_keeps hfinish
  have hunsent : sentBytes h₁.log = sentBytes g.log :=
    finishRequest_unsent (h := (g.withRes (some res)).withData off 0) hfinish
  refine ⟨h₁, by rw [hok, ok_bind, hfinish], hstate.trans ha.state, hsame.close.trans ha.stays, hunsent,
    Telling.conveys ?_⟩
  exact telling_of_queued (hstate.trans ha.state) (by rw [hnbio]; exact ha.fd) (haio.trans ha.idle) hsame.len
    (hq.same hsame)

/-- The answer with a file: its header, and behind it the slice that it is. -/
theorem Primed.serves (ha : Primed block req hlen g) (hmiss : HttpConn.etagHit r etag = false)
    (hetag : etag.length = ETAG_SZ) (hfits : HeaderFits ⟨HTTP_FOUND, mimeType, len, 0, etag, mtime⟩)
    (hbody : len ≠ 0 → BodyReady s g o w) :
    ∃ h₁, (g.serveFile s r false o w mimeType ofs len mtime etag >>= fun h' => h'.finishRequest hlen) = .ok h₁ ∧
      Begins s g h₁ (headerText ⟨HTTP_FOUND, mimeType, len, 0, etag, mtime⟩ ++
        fileSlice (s.roots.file w) ofs len) := by
  have hresp : (g.withData ofs len).Responding := Or.inr ha.state
  obtain ⟨res, hdone, hun, -⟩ := (HttpBuf.alloc block HTTP_MAX_REQ).bufDoneWrite_spec
    (show (headerText ⟨HTTP_FOUND, mimeType, len, 0, etag, mtime⟩).length ≤ _ from hfits.2)
  rw [serveFile_of_not_hit hmiss]
  by_cases hlen₀ : len = 0
  · subst hlen₀
    have hprep : (g.withData ofs 0).prepareBody s.fio false o = .ok (g.withData ofs 0, true) := if_neg (by simp)
    have hres : (g.withData ofs 0).hRes = some (.alloc block HTTP_MAX_REQ) := ha.res
    have hqueue : (g.withData ofs 0).queueHeader w false ⟨HTTP_FOUND, mimeType, 0, 0, etag, mtime⟩ =
        .ok ((((g.withData ofs 0).withRes (some res)).withWebroot (some w)).logged [.webrootRef w]) :=
      (queueHeader_iff hres hetag).mpr ⟨hfits, res, hun, hdone, rfl⟩
    obtain ⟨h₁, hfinish, -⟩ := finishRequest_response (h := (((g.withData ofs 0).withRes (some res)).withWebroot
      (some w)).logged [.webrootRef w]) ha.buffer ha.room
    obtain ⟨hsame, hstate, hnbio, haio, -⟩ := finishRequest_keeps hfinish
    refine ⟨h₁, ?_, hstate.trans ha.state, hsame.close.trans ha.stays, ?_, ?_⟩
    · rw [hprep, ok_bind]
      show (HttpConn.queueHeader _ _ _ ⟨_, _, 0, g.hConnClose, _, _⟩ >>= _) = _
      rw [ha.stays]
      exact (congrArg (· >>= _) hqueue).trans hfinish
    · rw [finishRequest_unsent hfinish]
      exact (sentBytes_append _ _).trans (List.append_nil _)
    · rw [fileSlice_zero, List.append_nil]
      refine Telling.conveys (telling_of_queued (hstate.trans ha.state) (by rw [hnbio]; exact ha.fd)
        (haio.trans ha.idle) hsame.len ?_)
      exact Queued.same ⟨res, rfl, hun⟩ hsame
  · have hready : BodyReady s (g.withData ofs len) o w := hbody hlen₀
    obtain ⟨h₁, hprep⟩ := ioPrep_ready (h := g.withData ofs len) hresp hlen₀ ha.mask_ne hready
    obtain ⟨hsame, -⟩ := ioPrep_sameResponse hprep
    have hstate₁ := ioPrep_state hprep
    have hlen₁ : h₁.hDataLen = len := hsame.len
    have hclose₁ : h₁.hConnClose = 0 := hsame.close.trans ha.stays
    have hunsent₁ : sentBytes h₁.log = sentBytes g.log := by
      refine (ioPrep_bodily hprep).unsent ?_
      show g.hState ≠ .data
      rw [ha.state]
      decide
    have hqueue : h₁.queueHeader w false ⟨HTTP_FOUND, mimeType, len, 0, etag, mtime⟩ =
        .ok (((h₁.withRes (some res)).withWebroot (some w)).logged [.webrootRef w]) :=
      (queueHeader_iff (hsame.res.trans ha.res) hetag).mpr ⟨hfits, res, hun, hdone, rfl⟩
    have hprepare : (g.withData ofs len).prepareBody s.fio false o = .ok (h₁, true) := by
      unfold HttpConn.prepareBody
      rw [if_pos ⟨hlen₀, rfl⟩]
      exact hprep
    have hreq₁ : h₁.hReq = some req := (ioPrep_same hprep).req.trans ha.buffer
    obtain ⟨h₂, hfinish, -⟩ := finishRequest_response (h := ((h₁.withRes (some res)).withWebroot
      (some w)).logged [.webrootRef w]) hreq₁ ha.room
    have hhanded : Handed ofs len (g.withData ofs len) := ⟨ha.state, ha.fd, ha.mask, ha.idle, rfl, rfl, hlen₀⟩
    have hserving := (serving_queued hhanded hready.webroot hprep hqueue).finishRequest hfinish
    obtain ⟨hsame₂, hstate₂, -⟩ := finishRequest_keeps hfinish
    have hheader : h₂.hState = .header := hstate₂.trans (hstate₁.trans ha.state)
    refine ⟨h₂, ?_, hheader, hsame₂.close.trans hclose₁, ?_, hserving.conveys ⟨(List.append_nil _).symm, ?_⟩⟩
    · rw [hprepare, ok_bind]
      show (HttpConn.queueHeader _ _ _ _ >>= _) = _
      rw [hlen₁, hclose₁]
      exact (congrArg (· >>= _) hqueue).trans hfinish
    · rw [finishRequest_unsent hfinish]
      exact ((sentBytes_append _ _).trans (List.append_nil _)).trans hunsent₁
    · rw [hheader]
      exact ⟨rfl, res, hsame₂.res, hun⟩

/-- The answer with the header of a file only. -/
theorem Primed.serves_header {head : Bool} (ha : Primed block req hlen g)
    (hbare : (head || HttpConn.etagHit r etag) = true) (hetag : etag.length = ETAG_SZ)
    (hfits : HeaderFits ⟨if HttpConn.etagHit r etag then HTTP_NOT_MODIFIED else HTTP_FOUND, mimeType, len, 0, etag, mtime⟩) :
    ∃ h₁, (g.serveFile s r head o w mimeType ofs len mtime etag >>= fun h' => h'.finishRequest hlen) = .ok h₁ ∧
      Begins s g h₁ (headerText ⟨if HttpConn.etagHit r etag then HTTP_NOT_MODIFIED else HTTP_FOUND, mimeType, len, 0,
        etag, mtime⟩) := by
  obtain ⟨code, hcode⟩ : ∃ code, code = if HttpConn.etagHit r etag then HTTP_NOT_MODIFIED else HTTP_FOUND := ⟨_, rfl⟩
  rw [← hcode] at hfits ⊢
  obtain ⟨res, hdone, hun, -⟩ := (HttpBuf.alloc block HTTP_MAX_REQ).bufDoneWrite_spec
    (show (headerText ⟨code, mimeType, len, 0, etag, mtime⟩).length ≤ _ from hfits.2)
  have hqueue : (g.withData ofs len).queueHeader w true ⟨code, mimeType, len, 0, etag, mtime⟩ =
      .ok (((g.withData ofs len).withRes (some res)).withData ofs 0) :=
    (queueHeader_iff (show (g.withData ofs len).hRes = _ from ha.res) hetag).mpr ⟨hfits, res, hun, hdone, rfl⟩
  have hserve : g.serveFile s r head o w mimeType ofs len mtime etag =
      .ok (((g.withData ofs len).withRes (some res)).withData ofs 0) := by
    rw [← hqueue]
    unfold HttpConn.serveFile HttpConn.prepareBody
    dsimp only
    rw [hbare, if_neg (by simp), ok_bind, ← hcode, ← ha.stays]
    rfl
  exact ha.says hserve ⟨res, ofs, hun, rfl⟩

/-- What a client asks for: a text, whether it wants no more than a header, and the tag of what it has. -/
structure Query where
  uri : Bytes
  bare : Bool
  tag : Bytes

/-- A GET or HEAD request for it, and a server with a webroot for the host. The URI is any that `nads_normalize` makes
the text of, and so is one that it refuses and leaves the text of. A head that was received is far too short for the
length to matter. -/
structure Wants (s : Server) (sockname : Bytes) (before : UInt8) (head : ReqHead) (w : ℕ) (q : Query) : Prop where
  method : SameText head.method (if q.bare then HttpConn.methodHead else HttpConn.methodGet)
  uri : LeftOf before head.uri q.uri
  fits : head.uri.length < NADS_MAX_URI
  tag : (lastValue labelIfNoneMatch head.fields).getD [] = q.tag
  host : s.vhostsLookup (untilNul (hostOf head sockname)) = some w

/-- The request is read, and `handle_get` is called with an empty buffer for the answer. -/
theorem Wants.handleRequest {head : ReqHead} {q : Query} (hw : Wants s o.sockname o.before head w q)
    (ha : Arrived h o head.text) :
    ∃ g block req r, Primed block req head.text.length g ∧ g.log = h.log ∧ g.hWebroot = h.hWebroot ∧
      r.uri.bytes = head.uri ∧ r.host.bytes = hostOf head o.sockname ∧ r.etag.bytes = q.tag ∧
      h.handleRequest s o = (g.handleGet s r q.bare o >>= fun h' => h'.finishRequest head.text.length) := by
  obtain ⟨block, hblock⟩ := Option.ne_none_iff_exists'.mp ha.block
  obtain ⟨req, rest, hreq, hun⟩ := ha.buffer
  obtain ⟨r, hparsed, hmethod, huri, hhost, hetag, hlen, hclose⟩ := httpReq_head head rest
  rw [← hun] at hparsed
  have hpos : head.text.length ≠ 0 := by simp [ReqHead.text]
  have hroom : head.text.length ≤ req.bufRead := by
    rw [← HttpBuf.unread_length, hun, List.length_append]
    omega
  have hdefault : (HttpConn.defaultHost r o.sockname).host.bytes = hostOf head o.sockname := by
    unfold HttpConn.defaultHost hostOf
    have hempty : r.host.vLen = 0 ↔ r.host.bytes = [] := List.length_eq_zero_iff
    by_cases hnone : r.host.bytes = []
    · rw [if_pos (hempty.mpr hnone), if_pos (hhost.symm.trans hnone)]
    · rw [if_neg fun hzero => hnone (hempty.mp hzero), if_neg (by rwa [← hhost])]
      exact hhost
  have hmask : (h.toAnswer block r.connClose.toNat).hNbio.mask = NBIO_WRITE :=
    (by decide : NBIO_WRITE &&& NBIO_WAIT = NBIO_WRITE)
  have hget : (h.toAnswer block r.connClose.toNat).answer s (HttpConn.defaultHost r o.sockname) o =
      (h.toAnswer block r.connClose.toNat).handleGet s (HttpConn.defaultHost r o.sockname) q.bare o := by
    have hsame := hw.method
    rw [← hmethod, ← HttpConn.defaultHost_method r o.sockname] at hsame
    unfold HttpConn.answer
    cases hbare : q.bare with
    | false =>
      rw [hbare, if_neg Bool.false_ne_true] at hsame
      rw [if_pos ((vstrcmpFast_eq_zero_iff _ _).mpr hsame)]
    | true =>
      rw [hbare, if_pos rfl] at hsame
      rw [if_neg (mt (vstrcmpFast_eq_zero_iff _ _).mp (not_sameText_get hsame)),
        if_pos ((vstrcmpFast_eq_zero_iff _ _).mpr hsame)]
  refine ⟨h.toAnswer block r.connClose.toNat, block, req, HttpConn.defaultHost r o.sockname,
    ⟨rfl, ha.fd, hmask, ha.idle, rfl, hreq, hroom, by rw [hclose]; rfl⟩, rfl, rfl, ?_, hdefault, ?_, ?_⟩
  · rw [HttpConn.defaultHost_uri, huri]
  · rw [HttpConn.defaultHost_etag, hetag, hw.tag]
  · rw [handleRequest_answers ha.mask ha.state hreq hparsed hpos hblock hlen, hget]

namespace Mkroot

def HasText (tag text : Bytes) : Prop := SameText tag (printEtag (Fips180.sha1 text))

instance (tag text : Bytes) : Decidable (HasText tag text) := inferInstanceAs (Decidable (SameText _ _))

/-- The response for a file tells length, type, hash and time of its text. -/
def fileHead (type : Bytes) (mtime : ℤ) (text tag : Bytes) : GetHeader :=
  ⟨if HasText tag text then HTTP_NOT_MODIFIED else HTTP_FOUND, type, text.length, 0, Fips180.sha1 text,
    UInt32.ofInt mtime⟩

def fileWire (type : Bytes) (mtime : ℤ) (text : Bytes) (q : Query) : Bytes :=
  headerText (fileHead type mtime text q.tag) ++ if q.bare ∨ HasText q.tag text then [] else text

/-- What a client gets that asks for something, as far as it can be put together. -/
inductive Response (k : Kernel) (base : Bytes) (magic : Bytes → Bytes) (tree : Tree) (host : Bytes) (q : Query) :
    Bytes → Prop
  | redirect {ps : List Bytes} {a : Attrs} {es : DirEntries Attrs} (hq : q.uri = uriText (ps, false))
      (h : tree.walk ps = some (.dir a es)) (hne : ps ≠ [])
      (hfits : (resp301 (untilNul host) (untilNul (pathOf ps ++ [SLASH]))).length ≤ HTTP_MAX_REQ) :
      Response k base magic tree host q (Ashttpd.redirectText host (pathOf ps ++ [SLASH]))
  | file {ps : List Bytes} {a : Attrs} {text : Bytes} (hq : q.uri = uriText (ps, false))
      (h : tree.walk ps = some (.file a)) (hne : ps ≠ []) (hread : k.contents (base ++ pathOf ps) = some text)
      (hfits : HeaderFits (fileHead (magic (base ++ pathOf ps)) a.mtime (text.take a.size) q.tag)) :
      Response k base magic tree host q (fileWire (magic (base ++ pathOf ps)) a.mtime (text.take a.size) q)
  | page {ps : List Bytes} {a b : Attrs} {es : DirEntries Attrs} {page text : Bytes} (hq : q.uri = uriText (ps, true))
      (h : tree.walk ps = some (.dir a es)) (hpage : pageOf es indexPages = some (page, b))
      (hread : k.contents (base ++ pathOf (ps ++ [page])) = some text)
      (hfits : HeaderFits (fileHead (magic (base ++ pathOf (ps ++ [page]))) b.mtime (text.take b.size) q.tag)) :
      Response k base magic tree host q (fileWire (magic (base ++ pathOf (ps ++ [page]))) b.mtime (text.take b.size) q)
  | listing {ps : List Bytes} {a : Attrs} {es : DirEntries Attrs} (hq : q.uri = uriText (ps, true))
      (h : tree.walk ps = some (.dir a es)) (hpage : pageOf es indexPages = none)
      (hfits : HeaderFits (fileHead (ascii "text/html") a.mtime (listing (pathOf ps ++ [SLASH]) es) q.tag)) :
      Response k base magic tree host q (fileWire (ascii "text/html") a.mtime (listing (pathOf ps ++ [SLASH]) es) q)
  | missing (h : ¬ IsUri tree q.uri) : Response k base magic tree host q resp404

def HasBody (wire : Bytes) : Prop := ∃ g text, text ≠ [] ∧ wire = headerText g ++ text

/-- A file that is stored is answered with. -/
theorem StoredAs.begins {type : Bytes} {mtime : ℤ} {name : WebrootName} {text : Bytes} {q : Query}
    (hfinds : Finds s r o w name) (hstored : StoredAs (s.roots.file w) text type mtime name)
    (ha : Primed block req hlen g) (htag : r.etag.bytes = q.tag) (hfits : HeaderFits (fileHead type mtime text q.tag))
    (hbody : HasBody (fileWire type mtime text q) → BodyReady s g o w) :
    ∃ h₁, (g.handleGet s r q.bare o >>= fun h' => h'.finishRequest hlen) = .ok h₁ ∧
      Begins s g h₁ (fileWire type mtime text q) := by
  obtain ⟨off, rfl, hslice⟩ := hstored
  have hsent : fileSlice (s.roots.file w) off text.length = text := hslice
  have hcode : HTTP_FOUND ≠ HTTP_MOVED_PERMANENTLY ∧ HTTP_FOUND ≠ HTTP_FORBIDDEN := by decide
  have hetag := Fips180.sha1_length text
  have hhit : HttpConn.etagHit r (Fips180.sha1 text) = true ↔ HasText q.tag text := by
    have hlen : (printEtag (Fips180.sha1 text)).length = 40 := by
      rw [length_printEtag, hetag]
    unfold HttpConn.etagHit HasText
    rw [decide_eq_true_iff, RoVec.vLen, htag]
    constructor
    · rintro ⟨htag, hsame⟩
      exact (vstrcmp_eq_zero_iff (htag.trans hlen.symm)).mp hsame
    · intro hsame
      exact ⟨hsame.length_eq.trans hlen, (vstrcmp_eq_zero_iff hsame.length_eq).mpr hsame⟩
  rw [hfinds.handleGet, serveName_file hcode rfl rfl]
  by_cases hbare : q.bare ∨ HasText q.tag text
  · have hnone : (q.bare || HttpConn.etagHit r (Fips180.sha1 text)) = true := by
      rw [Bool.or_eq_true, hhit]
      exact hbare
    have hhead : fileHead type mtime text q.tag = ⟨if HttpConn.etagHit r (Fips180.sha1 text) then HTTP_NOT_MODIFIED
        else HTTP_FOUND, type, text.length, 0, Fips180.sha1 text, UInt32.ofInt mtime⟩ := by
      rw [fileHead]
      simp only [hhit]
    have hwire : fileWire type mtime text q = headerText (fileHead type mtime text q.tag) := by
      rw [fileWire, if_pos hbare, List.append_nil]
    rw [hhead] at hfits hwire
    rw [hwire]
    exact ha.serves_header hnone hetag hfits
  · obtain ⟨hbare, hnew⟩ := not_or.mp hbare
    have hmiss : HttpConn.etagHit r (Fips180.sha1 text) = false := by
      rw [← Bool.not_eq_true, hhit]
      exact hnew
    have hwire : fileWire type mtime text q = headerText (fileHead type mtime text q.tag) ++ text := by
      rw [fileWire, if_neg (not_or.mpr ⟨hbare, hnew⟩)]
    have hready : text.length ≠ 0 → BodyReady s g o w := by
      intro hne
      exact hbody ⟨_, text, fun hnil => hne (by rw [hnil]; rfl), hwire⟩
    rw [fileHead, if_neg hnew] at hfits hwire
    obtain ⟨h₁, hok, hbegins⟩ := ha.serves hmiss hetag hfits hready
    rw [hsent] at hbegins
    rw [hwire, Bool.eq_false_iff.mpr hbare]
    exact ⟨h₁, hok, hbegins⟩

section served

variable {k : Kernel} {base : Bytes} {magic : Bytes → Bytes} {a : Attrs} {es : DirEntries Attrs} {head : ReqHead}
  {q : Query} {wire : Bytes}

/-- A server that has a file which answers for a tree sends what is at the path that was asked for. -/
theorem Publishes.serves (hscannable : Scannable a es)
    (hpublishes : Publishes k base magic a es (s.roots.file w) (s.roots.index w)) (ha : Arrived h o head.text)
    (hw : Wants s o.sockname o.before head w q) (hbody : HasBody wire → BodyReady s h o w)
    (hresponse : Response k base magic (.dir a es) (hostOf head o.sockname) q wire) :
    ∃ h₁, h.handleRequest s o = .ok h₁ ∧ Begins s h h₁ wire := by
  obtain ⟨g, block, req, r, hprimed, hlog, hroot, huri, hhost, htag, hanswer⟩ := hw.handleRequest ha
  obtain ⟨nads, hnads, hstr, hshort⟩ := hw.uri.nadsNormalize o.uribuf hw.fits
  rw [← huri] at hnads
  have hlen : (nads.uri.cstr NADS_MAX_URI 0).length = q.uri.length := by
    rw [hstr.cstr_eq (by omega)]
  have hlookup : s.vhostsLookup (untilNul r.host.bytes) = some w := by
    rw [hhost]
    exact hw.host
  have hbody' : HasBody wire → BodyReady s g o w := by
    unfold BodyReady
    rw [hroot]
    exact hbody
  have hfinds : ∀ x ∈ treeLinks es, uriText x = q.uri →
      ∃ name, Finds s r o w name ∧ Answers k base magic (.dir a es) (s.roots.file w) x name := by
    intro x hx hxu
    obtain ⟨name, hfind, hanswers⟩ := hpublishes.found hstr x hx hxu
    exact ⟨name, ⟨nads, hnads, hlookup, by rw [hlen, hfind]⟩, hanswers⟩
  suffices hbegins : ∃ h₁, (g.handleGet s r q.bare o >>= fun h' => h'.finishRequest head.text.length) = .ok h₁ ∧
      Begins s g h₁ wire by
    obtain ⟨h₁, hok, hstate, hstays, hunsent, hconveys⟩ := hbegins
    exact ⟨h₁, hanswer.trans hok, hstate, hstays, by rw [hunsent, hlog], hconveys⟩
  cases hresponse with
  | @redirect ps b ds hq hwalk hne hfits =>
    obtain ⟨name, hname, hanswers⟩ := hfinds (ps, false)
      (hscannable.mem_treeLinks.mpr ⟨_, hwalk, fun _ => hne, by simp⟩) hq.symm
    cases hanswers with
    | file hfile =>
      rw [hwalk] at hfile
      cases hfile
    | redirect =>
      obtain ⟨h₁, hok, hsays, -⟩ | ⟨-, hlong⟩ := response301_says (h := g) hprimed.res r.host.bytes (pathOf ps ++ [SLASH])
      · rw [hname.handleGet, ← hhost]
        exact hprimed.says hok hsays
      · rw [hhost] at hlong
        omega
  | @file ps b text hq hwalk hne hread hfits =>
    obtain ⟨name, hname, hanswers⟩ := hfinds (ps, false)
      (hscannable.mem_treeLinks.mpr ⟨_, hwalk, fun _ => hne, by simp⟩) hq.symm
    cases hanswers with
    | redirect hdir =>
      rw [hwalk] at hdir
      cases hdir
    | file hfile hstores =>
      rw [hwalk] at hfile
      cases hfile
      obtain ⟨text', hread', -, hstored⟩ := hstores
      rw [hread] at hread'
      cases hread'
      exact hstored.begins hname hprimed htag hfits hbody'
  | @page ps b c ds page text hq hwalk hpage hread hfits =>
    obtain ⟨name, hname, hanswers⟩ := hfinds (ps, true)
      (hscannable.mem_treeLinks.mpr ⟨_, hwalk, by simp, fun _ => trivial⟩) hq.symm
    cases hanswers with
    | listing hdir hnone =>
      rw [hwalk] at hdir
      cases hdir
      rw [hpage] at hnone
      cases hnone
    | page hdir hpage' hstores =>
      rw [hwalk] at hdir
      cases hdir
      rw [hpage] at hpage'
      cases hpage'
      obtain ⟨text', hread', -, hstored⟩ := hstores
      rw [hread] at hread'
      cases hread'
      exact hstored.begins hname hprimed htag hfits hbody'
  | @listing ps b ds hq hwalk hnone hfits =>
    obtain ⟨name, hname, hanswers⟩ := hfinds (ps, true)
      (hscannable.mem_treeLinks.mpr ⟨_, hwalk, by simp, fun _ => trivial⟩) hq.symm
    cases hanswers with
    | page hdir hpage =>
      rw [hwalk] at hdir
      cases hdir
      rw [hpage] at hnone
      cases hnone
    | listing hdir hnone' hstored =>
      rw [hwalk] at hdir
      cases hdir
      exact hstored.begins hname hprimed htag hfits hbody'
  | missing hnot =>
    have hfind := hpublishes.notFound hstr hnot
    obtain ⟨h₁, hok, hsays⟩ := respond_says hprimed.res resp404_fits
    have hget : g.handleGet s r q.bare o = .ok h₁ := by
      unfold HttpConn.handleGet
      rw [hnads, ok_bind, hlookup]
      dsimp only
      rw [hlen, hfind, ok_bind]
      exact hok
    exact hprimed.says hget hsays

variable {depth : ℕ} {buf : Mem} {answers : List WriteAnswer} {root : Webroot} {p : Prepared} {image : Bytes}

end served

section built

variable {k : Kernel} {base : Bytes} {magic : Bytes → Bytes} {a : Attrs} {es : DirEntries Attrs} {depth : ℕ} {buf : Mem}
  {answers : List WriteAnswer} {root : Webroot} {p : Prepared} {image : Bytes} {pool : ConnPool} {events : List PoolEvent}

end built

end Mkroot

end Ashttpd
