import Ashttpd.BodyRuns
import Ashttpd.RequestFrame
import Ashttpd.RequestHeaders

/-!
# Entity tags

The table of `print_etag` has two digits zero: a nibble of ten is printed like one of zero. Digests that
differ in nothing else have one tag, and a client that has the one file is told that it has the other.
-/
namespace Ashttpd

def nibbles (digest : Bytes) : Bytes := digest.flatMap fun (b : UInt8) => [b >>> 4, b &&& 0xf]

def tenToZero (n : UInt8) : UInt8 := if n = 10 then 0 else n

def Alike (d₁ d₂ : Bytes) : Prop := (nibbles d₁).map tenToZero = (nibbles d₂).map tenToZero

instance (d₁ d₂ : Bytes) : Decidable (Alike d₁ d₂) := inferInstanceAs (Decidable (_ = _))

theorem nibble_lt {digest : Bytes} {n : UInt8} (h : n ∈ nibbles digest) : n.toNat < 16 := by
  obtain ⟨b, -, hn⟩ := List.mem_flatMap.mp h
  have hb := b.toNat_lt
  have hhigh : (b >>> 4).toNat = b.toNat >>> 4 := UInt8.toNat_shiftRight b 4
  have hlow : (b &&& 0xf).toNat = b.toNat &&& 15 := UInt8.toNat_and b 0xf
  simp only [List.mem_cons, List.not_mem_nil, or_false] at hn
  rcases hn with rfl | rfl
  · rw [hhigh, Nat.shiftRight_eq_div_pow]
    omega
  · rw [hlow]
    exact Nat.lt_succ_of_le Nat.and_le_right

theorem printEtag_eq (digest : Bytes) :
    printEtag digest = (nibbles digest).map fun n => etagHex.getD n.toNat 0 := by
  unfold printEtag nibbles
  rw [List.map_flatMap]
  rfl

/-- Two maps that tell the same elements apart tell the same lists apart. -/
theorem map_eq_map_iff {α β γ : Type*} {f : α → β} {g : α → γ} {l l' : List α}
    (h : ∀ a ∈ l, ∀ b ∈ l', f a = f b ↔ g a = g b) : l.map f = l'.map f ↔ l.map g = l'.map g := by
  induction l generalizing l' with
  | nil => simp
  | cons a l ih =>
    cases l' with
    | nil => simp
    | cons b l' =>
      have hhead := h a (by simp) b (by simp)
      have htail : l.map f = l'.map f ↔ l.map g = l'.map g := by
        apply ih
        intro a ha b hb
        exact h a (List.mem_cons_of_mem _ ha) b (List.mem_cons_of_mem _ hb)
      simp only [List.map_cons, List.cons.injEq, hhead, htail]

theorem sameText_printEtag_iff (d₁ d₂ : Bytes) :
    SameText (printEtag d₁) (printEtag d₂) ↔ Alike d₁ d₂ := by
  unfold SameText Alike
  rw [printEtag_eq, printEtag_eq, List.map_map, List.map_map]
  apply map_eq_map_iff
  intro a ha b hb
  have hall : ∀ m < 16, ∀ n < 16, (tolower (etagHex.getD m 0) = tolower (etagHex.getD n 0) ↔
      tenToZero (UInt8.ofNat m) = tenToZero (UInt8.ofNat n)) := by
    decide
  have hab := hall a.toNat (nibble_lt ha) b.toNat (nibble_lt hb)
  rwa [UInt8.ofNat_toNat, UInt8.ofNat_toNat] at hab

theorem etagHit_iff {r : HttpRequest} {d₁ d₂ : Bytes} (hr : r.etag.bytes = printEtag d₁)
    (h₁ : d₁.length = ETAG_SZ) (h₂ : d₂.length = ETAG_SZ) : HttpConn.etagHit r d₂ = decide (Alike d₁ d₂) := by
  have hlen : ∀ d : Bytes, d.length = ETAG_SZ → (printEtag d).length = 40 := by
    intro d hd
    rw [length_printEtag, hd]
    rfl
  have hiff : (r.etag.vLen = 40 ∧ vstrcmp r.etag.bytes (printEtag d₂) = 0) ↔ Alike d₁ d₂ := by
    rw [RoVec.vLen, hr, hlen d₁ h₁, vstrcmp_eq_zero_iff ((hlen d₁ h₁).trans (hlen d₂ h₂).symm),
      sameText_printEtag_iff]
    exact and_iff_right rfl
  exact decide_eq_decide.mpr hiff

/-- The host that a request is taken to be for. -/
def hostOf (head : ReqHead) (sockname : Bytes) : Bytes :=
  if (lastValue labelHost head.fields).getD [] = [] then sockname
  else (lastValue labelHost head.fields).getD []

/-- A connection that has received a GET request for something that is found in a webroot, and memory
for the answer. -/
structure Asks (s : Server) (h : HttpConn) (o : ReadResults) (head : ReqHead) (w : ℕ) (n : WebrootName) :
    Prop where
  state : h.hState = .request
  mask : h.hNbio.mask ≠ NBIO_DELETED
  block : o.resBlock ≠ none
  buffer : ∃ req rest, h.hReq = some req ∧ req.unread = head.text ++ rest
  method : head.method = HttpConn.methodGet
  found : ∃ nads, nadsNormalize o.before o.uribuf head.uri = .ok nads ∧
    s.vhostsLookup (untilNul (hostOf head o.sockname)) = some w ∧
    webrootFind (s.roots.index w) nads.uri 0 (nads.uri.cstr NADS_MAX_URI 0).length = .ok (some n)

/-- What the I/O model needs for the body of a file. -/
def BodyReady (s : Server) (h : HttpConn) (o : ReadResults) (w : ℕ) : Prop :=
  match s.fio with
  | .sync => o.dataBlock ≠ none
  | .sendfile => True
  | .async => o.dataBlock ≠ none ∧ o.submit = .submitted ∧ h.hWebroot = some w

def StatusIs (h : HttpConn) (code : Bytes) : Prop :=
  ∃ res, h.hRes = some res ∧ ascii "HTTP/1.1 " ++ code <+: res.unread

instance (h : HttpConn) (code : Bytes) : Decidable (StatusIs h code) :=
  inferInstanceAs (Decidable (∃ res ∈ h.hRes, ascii "HTTP/1.1 " ++ code <+: res.unread))

def NotModified (h : HttpConn) : Prop := StatusIs h (ascii "304") ∧ h.hDataLen = 0

instance (h : HttpConn) : Decidable (NotModified h) := inferInstanceAs (Decidable (_ ∧ _))

/-- The client is sent the file. -/
def SendsFile (s : Server) (h : HttpConn) (w ofs len : ℕ) : Prop :=
  StatusIs h (ascii "200") ∧ h.hDataOff = ofs ∧ h.hDataLen = len ∧ h.hWebroot = some w ∧
    (s.fio = .async → len ≠ 0 → ∃ iocb, h.aio = some iocb ∧ iocb.file = w ∧ iocb.off = ofs)

def HeaderFits (g : GetHeader) : Prop :=
  (gmtime g.mtime.toNat).tmMon ≠ 0 ∧ (headerText g).length ≤ HTTP_MAX_REQ

def Queued (h : HttpConn) (text : Bytes) : Prop := ∃ res, h.hRes = some res ∧ res.unread = text

def Says (h h' : HttpConn) (text : Bytes) : Prop :=
  ∃ res off, res.unread = text ∧ h' = (h.withRes (some res)).withData off 0

/-- What a response is told by is the same. -/
structure SameResponse (h h' : HttpConn) : Prop where
  res : h'.hRes = h.hRes
  off : h'.hDataOff = h.hDataOff
  len : h'.hDataLen = h.hDataLen
  close : h'.hConnClose = h.hConnClose
  webroot : h'.hWebroot = h.hWebroot

variable {s : Server} {h h' : HttpConn} {o : ReadResults} {w ofs len : ℕ}

theorem StatusIs.unique {c c' : Bytes} (h₁ : StatusIs h c) (h₂ : StatusIs h c') (hlen : c.length = c'.length) :
    c = c' := by
  obtain ⟨res, hres, hpre⟩ := h₁
  obtain ⟨res', hres', hpre'⟩ := h₂
  cases hres.symm.trans hres'
  have hle := List.prefix_of_prefix_length_le hpre hpre' (by simp [hlen])
  exact ((List.prefix_append_right_inj _).mp hle).eq_of_length hlen

theorem status_headerText {g : GetHeader} {c : ℕ} {code : Bytes} (hg : g.code = c)
    (hcode : ([c / 100 % 10, c / 10 % 10, c % 10].map fun d => 48 + UInt8.ofNat d) = code) :
    ascii "HTTP/1.1 " ++ code <+: headerText g := by
  unfold headerText
  rw [hg, hcode]
  simp only [List.append_assoc]
  rw [← List.append_assoc]
  exact List.prefix_append _ _

theorem Queued.statusIs_iff {text code : Bytes} (hq : Queued h text) :
    StatusIs h code ↔ ascii "HTTP/1.1 " ++ code <+: text := by
  obtain ⟨res, hres, hun⟩ := hq
  constructor
  · rintro ⟨res', hres', hpre⟩
    cases hres.symm.trans hres'
    rwa [hun] at hpre
  · intro hpre
    exact ⟨res, hres, by rwa [hun]⟩

theorem Says.queued {text : Bytes} (hs : Says h h' text) : Queued h' text := by
  obtain ⟨res, off, hun, rfl⟩ := hs
  exact ⟨res, rfl, hun⟩

theorem respond_says {block : Mem} {text : Bytes}
    (hres : h.hRes = some (.alloc block HTTP_MAX_REQ)) (hfit : text.length ≤ HTTP_MAX_REQ) :
    ∃ h', h.respond text = .ok h' ∧ Says h h' text := by
  obtain ⟨res, hdone, hun, -⟩ := (HttpBuf.alloc block HTTP_MAX_REQ).bufDoneWrite_spec hfit
  have hroom : ¬ (HttpBuf.alloc block HTTP_MAX_REQ).bufWrite < text.length := by
    rw [HttpBuf.bufWrite_alloc]
    omega
  unfold HttpConn.respond
  rw [hres]
  simp only [deref, ok_bind]
  rw [if_neg hroom, hdone, ok_bind]
  exact ⟨_, rfl, res, h.hDataOff, hun, rfl⟩

/-- What `handle_get` queues for a file. -/
theorem queueHeader_iff {block : Mem} {g : GetHeader} {head : Bool}
    (hres : h.hRes = some (.alloc block HTTP_MAX_REQ)) (hetag : g.etag.length = ETAG_SZ) :
    h.queueHeader w head g = .ok h' ↔ HeaderFits g ∧ ∃ res, res.unread = headerText g ∧
      ((HttpBuf.alloc block HTTP_MAX_REQ).put (headerText g)).bufDoneWrite (headerText g).length = .ok res ∧
      h' = if head then (h.withRes (some res)).withData h.hDataOff 0
        else ((h.withRes (some res)).withWebroot (some w)).logged [.webrootRef w] := by
  unfold HttpConn.queueHeader
  rw [hres]
  simp only [deref, ok_bind, bind_eq_ok_iff, HttpBuf.bufWrite_alloc, getHeader_ok_iff hetag]
  constructor
  · rintro ⟨text, ⟨hmon, hfit, rfl⟩, res, hdone, hok⟩
    obtain ⟨res', hdone', hun, -⟩ := (HttpBuf.alloc block HTTP_MAX_REQ).bufDoneWrite_spec
      (show (headerText g).length ≤ _ from hfit)
    cases hdone'.symm.trans hdone
    refine ⟨⟨hmon, hfit⟩, res, hun, hdone, ?_⟩
    cases head with
    | true =>
      cases hok
      rfl
    | false =>
      cases hok
      rfl
  · rintro ⟨⟨hmon, hfit⟩, res, -, hdone, rfl⟩
    refine ⟨headerText g, ⟨hmon, hfit, rfl⟩, res, hdone, ?_⟩
    cases head with
    | true => rfl
    | false => rfl

/-- `handle_get` with a file that the client has. -/
theorem serveFile_hit {r : HttpRequest} {mimeType etag : Bytes} {mtime : UInt32} {block : Mem}
    (hhit : HttpConn.etagHit r etag = true) (hres : h.hRes = some (.alloc block HTTP_MAX_REQ))
    (hetag : etag.length = ETAG_SZ) :
    (∀ h', h.serveFile s r false o w mimeType ofs len mtime etag = .ok h' →
      NotModified h' ∧ HeaderFits ⟨HTTP_NOT_MODIFIED, mimeType, len, h.hConnClose, etag, mtime⟩) ∧
    (HeaderFits ⟨HTTP_NOT_MODIFIED, mimeType, len, h.hConnClose, etag, mtime⟩ →
      ∃ h', h.serveFile s r false o w mimeType ofs len mtime etag = .ok h') := by
  have hserve : h.serveFile s r false o w mimeType ofs len mtime etag =
      (h.withData ofs len).queueHeader w true
        ⟨HTTP_NOT_MODIFIED, mimeType, len, h.hConnClose, etag, mtime⟩ := by
    unfold HttpConn.serveFile HttpConn.prepareBody
    rw [hhit]
    simp only [Bool.or_true, if_true]
    rw [if_neg (by simp)]
    rfl
  have hiff : ∀ h', (h.withData ofs len).queueHeader w true
      ⟨HTTP_NOT_MODIFIED, mimeType, len, h.hConnClose, etag, mtime⟩ = .ok h' ↔ _ :=
    fun h' => queueHeader_iff hres hetag
  rw [hserve]
  constructor
  · intro h' hok
    obtain ⟨hfits, res, hun, -, rfl⟩ := (hiff h').mp hok
    refine ⟨⟨⟨res, rfl, ?_⟩, rfl⟩, hfits⟩
    rw [hun]
    exact status_headerText (c := HTTP_NOT_MODIFIED) rfl (by decide)
  · intro hfits
    obtain ⟨res, hdone, hun, -⟩ := (HttpBuf.alloc block HTTP_MAX_REQ).bufDoneWrite_spec hfits.2
    exact ⟨_, (hiff _).mpr ⟨hfits, res, hun, hdone, rfl⟩⟩

theorem aioSubmit_sameResponse {submit : SubmitResult} {ok : Bool} (hok : h.aioSubmit submit = .ok (h', ok)) :
    SameResponse h h' ∧ h'.hState = h.hState ∧ h'.hIoPriv = h.hIoPriv ∧
      (ok = true → submit = .submitted ∧ ∃ w iocb, h.hWebroot = some w ∧ h'.aio = some iocb ∧
        iocb.file = w ∧ iocb.off = h.hDataOff) := by
  unfold HttpConn.aioSubmit HttpConn.httpConnData at hok
  obtain ⟨⟨w, off, len⟩, hdata, hok⟩ := bind_eq_ok_iff.mp hok
  obtain ⟨-, -, hdata⟩ := bind_eq_ok_iff.mp hdata
  cases hw : h.hWebroot with
  | none =>
    rw [hw] at hdata
    cases hdata
  | some w' =>
    rw [hw] at hdata
    cases hdata
    dsimp only at hok
    split at hok
    · cases hok
    · split at hok
      · cases hok
        exact ⟨⟨rfl, rfl, rfl, rfl, rfl⟩, rfl, rfl, by simp⟩
      · next hoom =>
        obtain ⟨priv, -, hok⟩ := bind_eq_ok_iff.mp hok
        obtain ⟨buf, -, hok⟩ := bind_eq_ok_iff.mp hok
        split at hok
        · cases hok
          exact ⟨⟨rfl, rfl, rfl, rfl, rfl⟩, rfl, rfl, by simp⟩
        · next herror =>
          obtain ⟨h₁, hwait, hok⟩ := bind_eq_ok_iff.mp hok
          cases hok
          unfold HttpConn.httpConnToWaitq HttpConn.nbioSetWait at hwait
          obtain ⟨-, -, hwait⟩ := bind_eq_ok_iff.mp hwait
          obtain ⟨io, -, rfl⟩ := map_eq_ok_iff.mp hwait
          refine ⟨⟨rfl, rfl, rfl, rfl, rfl⟩, rfl, rfl, fun _ => ⟨?_, w, _, rfl, rfl, rfl, rfl⟩⟩
          cases submit with
          | oom => exact absurd rfl hoom
          | error => exact absurd rfl herror
          | submitted => rfl

/-- How a body is prepared: for the asynchronous model, a read of the webroot that is set is in flight. -/
def Prepared (fio : Fio) (block : Option Mem) (submit : SubmitResult) (h h' : HttpConn) : Prop :=
  match fio with
  | .sync => block ≠ none
  | .sendfile => True
  | .async => block ≠ none ∧ submit = .submitted ∧
      ∃ w iocb, h.hWebroot = some w ∧ h'.aio = some iocb ∧ iocb.file = w ∧ iocb.off = h.hDataOff

/-- Preparing a body changes nothing of what the response is told by, and it gets on with the file it
should if everything is there for it. -/
theorem ioPrep_sameResponse {block : Option Mem} {submit : SubmitResult} {ok : Bool} {fio : Fio}
    (hok : h.ioPrep fio block submit = .ok (h', ok)) :
    SameResponse h h' ∧ (ok = true → Prepared fio block submit h h') := by
  cases fio with
  | sync =>
    cases block with
    | none =>
      cases hok
      exact ⟨⟨rfl, rfl, rfl, rfl, rfl⟩, by simp⟩
    | some m =>
      obtain ⟨h₁, hset, hok⟩ := bind_eq_ok_iff.mp hok
      unfold HttpConn.httpConnSetPriv at hset
      obtain ⟨-, -, hset⟩ := bind_eq_ok_iff.mp hset
      cases hset
      cases hok
      exact ⟨⟨rfl, rfl, rfl, rfl, rfl⟩, fun _ => Option.some_ne_none m⟩
  | sendfile =>
    cases hok
    exact ⟨⟨rfl, rfl, rfl, rfl, rfl⟩, fun _ => trivial⟩
  | async =>
    cases block with
    | none =>
      cases hok
      exact ⟨⟨rfl, rfl, rfl, rfl, rfl⟩, by simp⟩
    | some m =>
      obtain ⟨h₁, hset, hok⟩ := bind_eq_ok_iff.mp hok
      obtain ⟨⟨h₂, ok₂⟩, hsubmit, hok⟩ := bind_eq_ok_iff.mp hok
      unfold HttpConn.httpConnSetPriv at hset
      obtain ⟨-, -, hset⟩ := bind_eq_ok_iff.mp hset
      cases hset
      obtain ⟨⟨h1, h2, h3, h4, h5⟩, -, -, hflight⟩ := aioSubmit_sameResponse hsubmit
      cases ok₂ with
      | true =>
        cases hok
        exact ⟨⟨h1, h2, h3, h4, h5⟩, fun _ => ⟨by simp, hflight rfl⟩⟩
      | false =>
        obtain ⟨h₃, hclear, hok⟩ := bind_eq_ok_iff.mp hok
        cases hok
        unfold HttpConn.httpConnSetPriv at hclear
        obtain ⟨-, -, hclear⟩ := bind_eq_ok_iff.mp hclear
        cases hclear
        refine ⟨?_, by simp⟩
        cases h₂.hIoPriv with
        | none => exact ⟨h1, h2, h3, h4, h5⟩
        | some b => exact ⟨h1, h2, h3, h4, h5⟩

/-- With everything there, the body can be prepared. -/
theorem ioPrep_ready (hr : h.Responding) (hlen : h.hDataLen ≠ 0) (hmask : h.hNbio.mask ≠ NBIO_DELETED)
    (hready : BodyReady s h o w) : ∃ h', h.ioPrep s.fio o.dataBlock o.submit = .ok (h', true) := by
  unfold BodyReady at hready
  cases hf : s.fio with
  | sync =>
    rw [hf] at hready
    obtain ⟨m, hm⟩ := Option.ne_none_iff_exists'.mp hready
    rw [hm]
    dsimp only [HttpConn.ioPrep, HttpConn.ioSyncPrep]
    rw [HttpConn.httpConnSetPriv_eq hr]
    exact ⟨_, rfl⟩
  | sendfile => exact ⟨h, rfl⟩
  | async =>
    rw [hf] at hready
    obtain ⟨hblock, hsubmit, hw⟩ := hready
    obtain ⟨m, hm⟩ := Option.ne_none_iff_exists'.mp hblock
    rw [hm, hsubmit]
    dsimp only [HttpConn.ioPrep, HttpConn.ioAsyncPrep]
    rw [HttpConn.httpConnSetPriv_eq hr, ok_bind]
    have hpriv : (h.withPriv (some (.alloc m HTTP_DATA_BUFFER))).Responding := hr
    unfold HttpConn.aioSubmit
    rw [HttpConn.httpConnData_eq hpriv hw, HttpConn.httpConnGetPriv_eq hpriv]
    simp only [ok_bind, deref, HttpConn.withPriv_hDataLen, hlen, if_false, reduceCtorEq,
      HttpConn.withPriv_hIoPriv]
    unfold HttpConn.httpConnToWaitq
    rw [HttpConn.assertResponding_eq hpriv, ok_bind,
      HttpConn.nbioSetWait_eq (h := h.withPriv (some (.alloc m HTTP_DATA_BUFFER))) hmask]
    exact ⟨_, rfl⟩

theorem BodyReady.webroot (hready : BodyReady s h o w) (hf : s.fio = .async) : h.hWebroot = some w := by
  unfold BodyReady at hready
  rw [hf] at hready
  exact hready.2.2

theorem BodyReady.congr {w' : ℕ} (hready : BodyReady s h o w) (hw : s.fio = .async → w = w') : BodyReady s h o w' := by
  unfold BodyReady at hready ⊢
  cases hf : s.fio with
  | sync =>
    rw [hf] at hready
    exact hready
  | sendfile => trivial
  | async =>
    rw [hf] at hready
    rwa [← hw hf]

/-- A body that is prepared was ready to be, and what is in flight is a read of the webroot that was set. -/
theorem Prepared.bodyReady (hprepared : Prepared s.fio o.dataBlock o.submit h h') :
    ∃ w, BodyReady s h o w ∧ (s.fio = .async → ∃ iocb, h'.aio = some iocb ∧ iocb.file = w ∧ iocb.off = h.hDataOff) := by
  unfold BodyReady
  cases hf : s.fio with
  | sync =>
    rw [hf] at hprepared
    exact ⟨0, hprepared, nofun⟩
  | sendfile => exact ⟨0, trivial, nofun⟩
  | async =>
    rw [hf] at hprepared
    obtain ⟨hblock, hsubmit, w, iocb, hw, hflight⟩ := hprepared
    exact ⟨w, ⟨hblock, hsubmit, hw⟩, fun _ => ⟨iocb, hflight⟩⟩

/-- The body is only prepared if there is one and it is wanted. -/
theorem prepareBody_sameResponse {bare ok : Bool} (hprep : h.prepareBody s.fio bare o = .ok (h', ok)) :
    SameResponse h h' ∧
      (ok = true → h.hDataLen = 0 ∨ bare = true ∨ Prepared s.fio o.dataBlock o.submit h h') := by
  unfold HttpConn.prepareBody at hprep
  split at hprep
  · obtain ⟨hsame, hdone⟩ := ioPrep_sameResponse hprep
    exact ⟨hsame, fun hok => Or.inr (Or.inr (hdone hok))⟩
  · next hnone =>
    cases hprep
    refine ⟨⟨rfl, rfl, rfl, rfl, rfl⟩, fun _ => ?_⟩
    by_contra hboth
    push Not at hboth
    exact hnone ⟨hboth.1, by simpa using hboth.2.1⟩

theorem prepareBody_served {bare : Bool} (hr : h.Responding) (hmask : h.hNbio.mask ≠ NBIO_DELETED)
    (hserved : h.hDataLen = 0 ∨ bare = true ∨ ∃ w, BodyReady s h o w) :
    ∃ h', h.prepareBody s.fio bare o = .ok (h', true) := by
  unfold HttpConn.prepareBody
  by_cases hwanted : h.hDataLen ≠ 0 ∧ bare = false
  · rw [if_pos hwanted]
    obtain ⟨w, hready⟩ := (hserved.resolve_left hwanted.1).resolve_left (by simp [hwanted.2])
    exact ioPrep_ready hr hwanted.1 hmask hready
  · rw [if_neg hwanted]
    exact ⟨h, rfl⟩

/-- `handle_get` with a file that the client has not. -/
theorem serveFile_of_not_hit {r : HttpRequest} {mimeType etag : Bytes} {mtime : UInt32}
    (hmiss : HttpConn.etagHit r etag = false) : h.serveFile s r false o w mimeType ofs len mtime etag =
      ((h.withData ofs len).prepareBody s.fio false o >>= fun p => match p with
        | (h', false) => h'.response500
        | (h', true) => h'.queueHeader w false ⟨HTTP_FOUND, mimeType, h'.hDataLen, h'.hConnClose, etag, mtime⟩) := by
  unfold HttpConn.serveFile
  rw [hmiss]
  rfl

/-- It is sent exactly if the header fits and the body is ready. -/
theorem serveFile_miss {r : HttpRequest} {mimeType etag : Bytes} {mtime : UInt32} {block : Mem}
    (hmiss : HttpConn.etagHit r etag = false) (hr : h.Responding) (hmask : h.hNbio.mask ≠ NBIO_DELETED)
    (hres : h.hRes = some (.alloc block HTTP_MAX_REQ)) (hetag : etag.length = ETAG_SZ) :
    (∀ h', h.serveFile s r false o w mimeType ofs len mtime etag = .ok h' → SendsFile s h' w ofs len →
      HeaderFits ⟨HTTP_FOUND, mimeType, len, h.hConnClose, etag, mtime⟩ ∧ (len = 0 ∨ BodyReady s h o w)) ∧
    (HeaderFits ⟨HTTP_FOUND, mimeType, len, h.hConnClose, etag, mtime⟩ → len = 0 ∨ BodyReady s h o w →
      ∃ h', h.serveFile s r false o w mimeType ofs len mtime etag = .ok h' ∧ SendsFile s h' w ofs len) := by
  obtain ⟨g, hg⟩ : ∃ g : GetHeader, g = ⟨HTTP_FOUND, mimeType, len, h.hConnClose, etag, mtime⟩ := ⟨_, rfl⟩
  have hiff : ∀ h₁ h', SameResponse (h.withData ofs len) h₁ →
      (h₁.queueHeader w false ⟨HTTP_FOUND, mimeType, h₁.hDataLen, h₁.hConnClose, etag, mtime⟩ = .ok h' ↔
        HeaderFits g ∧ ∃ res, res.unread = headerText g ∧
          ((HttpBuf.alloc block HTTP_MAX_REQ).put (headerText g)).bufDoneWrite (headerText g).length = .ok res ∧
          h' = ((h₁.withRes (some res)).withWebroot (some w)).logged [.webrootRef w]) := by
    intro h₁ h' hsame
    rw [hsame.len, hsame.close, hg]
    exact queueHeader_iff (hsame.res.trans hres) hetag
  rw [serveFile_of_not_hit hmiss, ← hg]
  constructor
  · intro h' hok hsends
    obtain ⟨⟨h₁, ok⟩, hprep, hok⟩ := bind_eq_ok_iff.mp hok
    obtain ⟨hsame, hready⟩ := prepareBody_sameResponse hprep
    cases ok with
    | false =>
      obtain ⟨h₂, hrespond, rfl⟩ := map_eq_ok_iff.mp hok
      obtain ⟨h₃, hok₃, hsaid⟩ := respond_says (hsame.res.trans hres) resp500_fits
      cases hrespond.symm.trans hok₃
      have hstatus : StatusIs h₂ (ascii "200") := hsends.1
      exact absurd (hsaid.queued.statusIs_iff.mp hstatus) (by decide)
    | true =>
      obtain ⟨hfits, res, -, -, rfl⟩ := (hiff h₁ h' hsame).mp hok
      refine ⟨hfits, ?_⟩
      by_cases hlen : len = 0
      · exact Or.inl hlen
      · obtain ⟨w', hready, hflight⟩ := (((hready rfl).resolve_left hlen).resolve_left (by simp)).bodyReady
        refine Or.inr (hready.congr fun hf => ?_)
        obtain ⟨iocb, haio, hfile, -⟩ := hflight hf
        obtain ⟨iocb', haio', hfile', -⟩ := hsends.2.2.2.2 hf hlen
        have haio₁ : h₁.aio = some iocb' := haio'
        cases haio.symm.trans haio₁
        exact hfile.symm.trans hfile'
  · intro hfits hready
    have hserved : (h.withData ofs len).hDataLen = 0 ∨ false = true ∨ ∃ w, BodyReady s (h.withData ofs len) o w :=
      hready.imp_right fun hready => Or.inr ⟨w, hready⟩
    obtain ⟨h₁, hprep⟩ := prepareBody_served (h := h.withData ofs len) hr hmask hserved
    obtain ⟨hsame, hdone⟩ := prepareBody_sameResponse hprep
    have hflight : s.fio = .async → len ≠ 0 → ∃ iocb, h₁.aio = some iocb ∧ iocb.file = w ∧ iocb.off = ofs := by
      intro hf hlen
      obtain ⟨w', hready', hflight⟩ := (((hdone rfl).resolve_left hlen).resolve_left (by simp)).bodyReady
      have hw : h.hWebroot = some w' := hready'.webroot hf
      cases ((hready.resolve_left hlen).webroot hf).symm.trans hw
      exact hflight hf
    obtain ⟨res, hdone, hun, -⟩ := (HttpBuf.alloc block HTTP_MAX_REQ).bufDoneWrite_spec
      (show (headerText g).length ≤ _ from hfits.2)
    rw [hprep, ok_bind]
    refine ⟨_, (hiff h₁ _ hsame).mpr ⟨hfits, res, hun, hdone, rfl⟩, ⟨res, rfl, ?_⟩, hsame.off, hsame.len, rfl,
      hflight⟩
    rw [hun, hg]
    exact status_headerText (c := HTTP_FOUND) rfl (by decide)

/-- The end of `handle_request` leaves the response alone. -/
theorem finishRequest_response {hlen : ℕ} {req : HttpBuf} (hreq : h.hReq = some req)
    (hle : hlen ≤ req.bufRead) : ∃ h', h.finishRequest hlen = .ok h' ∧ SameResponse h h' ∧ h'.aio = h.aio := by
  obtain ⟨rest, hdone, -⟩ := req.bufDoneRead_spec hle
  unfold HttpConn.finishRequest
  rw [hreq]
  simp only [deref, ok_bind]
  rw [hdone]
  simp only [ok_bind]
  by_cases hmore : rest.bufRead ≠ 0
  · rw [if_pos hmore]
    exact ⟨_, rfl, ⟨rfl, rfl, rfl, rfl, rfl⟩, rfl⟩
  · rw [if_neg hmore]
    exact ⟨_, rfl, ⟨rfl, rfl, rfl, rfl, rfl⟩, rfl⟩

/-- The connection that a request is answered on. -/
def HttpConn.toAnswer (h : HttpConn) (block : Mem) (close : ℕ) : HttpConn :=
  (((h.withRes (some (.alloc block HTTP_MAX_REQ))).withState .header).withNbio
    (HttpConn.waiting h.hNbio NBIO_WRITE)).withClose close

/-- A request without a body is answered, and what is behind it is kept. -/
theorem handleRequest_answers {r : HttpRequest} (hmask : h.hNbio.mask ≠ NBIO_DELETED) (hstate : h.hState = .request)
    {req : HttpBuf} (hreq : h.hReq = some req) {hlen : ℕ} (hparsed : httpReq {} req.unread = (hlen, r))
    (hpos : hlen ≠ 0) {block : Mem} (hblock : o.resBlock = some block) (hbody : r.contentLen = 0) :
    h.handleRequest s o = ((h.toAnswer block r.connClose.toNat).answer s (HttpConn.defaultHost r o.sockname) o
      >>= fun h' => h'.finishRequest hlen) := by
  unfold HttpConn.handleRequest
  rw [if_neg (by simp [hstate]), hblock]
  dsimp only
  rw [HttpConn.nbioSetWait_eq (h := (h.withRes (some (.alloc block HTTP_MAX_REQ))).withState .header) hmask,
    ok_bind]
  simp only [HttpConn.withNbio_hReq, HttpConn.withState_hReq, HttpConn.withRes_hReq, hreq, deref, ok_bind, hparsed]
  unfold HttpConn.handleParsed
  rw [if_neg hpos, if_neg (by simp [hbody])]
  rfl

/-- The request that waits is a GET, and goes to `serveFile`. -/
theorem handleRequest_asks {head : ReqHead} {mimeType etag : Bytes} {mtime : UInt32}
    (ha : Asks s h o head w ⟨some mimeType, .data ofs len mtime etag, HTTP_FOUND⟩) :
    ∃ (g : HttpConn) (block : Mem) (r : HttpRequest), g.hRes = some (.alloc block HTTP_MAX_REQ) ∧ g.hReq = h.hReq ∧ g.Responding ∧
      g.hNbio.mask ≠ NBIO_DELETED ∧ g.hConnClose = 0 ∧ g.hWebroot = h.hWebroot ∧
      r.etag.bytes = (lastValue labelIfNoneMatch head.fields).getD [] ∧
      h.handleRequest s o =
        (g.serveFile s r false o w mimeType ofs len mtime etag >>= fun h' =>
          h'.finishRequest head.text.length) := by
  obtain ⟨hstate, hmask, hblock, ⟨req, rest, hreq, hun⟩, hmethod, nads, hnads, hvhost, hfind⟩ := ha
  obtain ⟨block, hblock⟩ := Option.ne_none_iff_exists'.mp hblock
  obtain ⟨r, hr, hrmethod, hruri, hrhost, hretag, hrlen, hrclose⟩ := httpReq_head head rest
  rw [← hun] at hr
  obtain ⟨g, hg⟩ : ∃ g, g = h.toAnswer block r.connClose.toNat := ⟨_, rfl⟩
  have hpos : head.text.length ≠ 0 := by simp [ReqHead.text]
  have hdefault : (HttpConn.defaultHost r o.sockname).host.bytes = hostOf head o.sockname := by
    unfold HttpConn.defaultHost hostOf
    have hempty : r.host.vLen = 0 ↔ r.host.bytes = [] := List.length_eq_zero_iff
    by_cases hnone : r.host.bytes = []
    · rw [if_pos (hempty.mpr hnone), if_pos (hrhost.symm.trans hnone)]
    · rw [if_neg fun hzero => hnone (hempty.mp hzero), if_neg (by rwa [← hrhost])]
      exact hrhost
  have hget : vstrcmpFast (HttpConn.defaultHost r o.sockname).method.bytes HttpConn.methodGet = 0 := by
    rw [HttpConn.defaultHost_method, hrmethod, hmethod, vstrcmpFast_eq_zero_iff]
    rfl
  have hanswer : g.answer s (HttpConn.defaultHost r o.sockname) o =
      g.serveFile s (HttpConn.defaultHost r o.sockname) false o w mimeType ofs len mtime etag := by
    unfold HttpConn.answer HttpConn.handleGet
    rw [if_pos hget, HttpConn.defaultHost_uri, hruri, hnads, ok_bind, hdefault, hvhost]
    dsimp only
    rw [hfind, ok_bind]
    rfl
  refine ⟨g, block, HttpConn.defaultHost r o.sockname, by rw [hg]; rfl, by rw [hg]; rfl, by rw [hg]; exact Or.inr rfl,
    ?_, ?_, by rw [hg]; rfl, by rw [HttpConn.defaultHost_etag, hretag], ?_⟩
  · rw [hg]
    show NBIO_WRITE &&& NBIO_WAIT ≠ NBIO_DELETED
    decide
  · rw [hg, hrclose]
    rfl
  · rw [handleRequest_answers hmask hstate hreq hr hpos hblock hrlen, ← hg, hanswer]

theorem SameResponse.status {code : Bytes} (hsame : SameResponse h h') : StatusIs h' code ↔ StatusIs h code := by
  unfold StatusIs
  rw [hsame.res]

/-- A client that shows the tag of one file and asks for another is told that it has it exactly if the
files are the same, provided that the header can be sent, and either they are or the digests are not alike
and there is what the body needs. -/
theorem etag_answer_iff {head : ReqHead} {mimeType d₁ d₂ : Bytes} {mtime : UInt32}
    (ha : Asks s h o head w ⟨some mimeType, .data ofs len mtime d₂, HTTP_FOUND⟩)
    (htag : lastValue labelIfNoneMatch head.fields = some (printEtag d₁)) (h₁ : d₁.length = ETAG_SZ)
    (h₂ : d₂.length = ETAG_SZ) :
    (∃ h', h.handleRequest s o = .ok h' ∧ (NotModified h' ↔ d₁ = d₂) ∧
      (d₁ ≠ d₂ → SendsFile s h' w ofs len)) ↔
    HeaderFits ⟨if d₁ = d₂ then HTTP_NOT_MODIFIED else HTTP_FOUND, mimeType, len, 0, d₂, mtime⟩ ∧
      (d₁ = d₂ ∨ ¬ Alike d₁ d₂ ∧ (len = 0 ∨ BodyReady s h o w)) := by
  obtain ⟨g, block, r, hres, hreq, hresp, hmask, hclose, hw, hretag, hrun⟩ := handleRequest_asks ha
  obtain ⟨req, rest, hreq', hun⟩ := ha.buffer
  rw [htag, Option.getD_some] at hretag
  have hhit := etagHit_iff hretag h₁ h₂
  have hle : head.text.length ≤ req.bufRead := by
    rw [← HttpBuf.unread_length, hun, List.length_append]
    exact Nat.le_add_right _ _
  have hfinish : ∀ g', g.serveFile s r false o w mimeType ofs len mtime d₂ = .ok g' →
      ∃ h', g'.finishRequest head.text.length = .ok h' ∧ SameResponse g' h' ∧ h'.aio = g'.aio := by
    intro g' hserve
    exact finishRequest_response ((serveFile_same hserve).req.trans (hreq.trans hreq')) hle
  have hready : BodyReady s g o w ↔ BodyReady s h o w := by
    unfold BodyReady
    rw [hw]
  by_cases halike : Alike d₁ d₂
  · -- the client is told that it has the file, if anything
    rw [decide_eq_true halike] at hhit
    obtain ⟨hserved, hserves⟩ : (∀ h', g.serveFile s r false o w mimeType ofs len mtime d₂ = .ok h' → _) ∧ _ :=
      serveFile_hit hhit hres h₂
    rw [hclose] at hserved hserves
    constructor
    · rintro ⟨h', hok, htold, -⟩
      rw [hrun] at hok
      obtain ⟨g', hserve, hok⟩ := bind_eq_ok_iff.mp hok
      obtain ⟨h'', hok', hsame, -⟩ := hfinish g' hserve
      cases hok.symm.trans hok'
      obtain ⟨⟨hstatus, hempty⟩, hfits⟩ := hserved g' hserve
      have heq : d₁ = d₂ := htold.mp ⟨hsame.status.mpr hstatus, hsame.len.trans hempty⟩
      rw [if_pos heq]
      exact ⟨hfits, Or.inl heq⟩
    · rintro ⟨hfits, heq | ⟨hnot, -⟩⟩
      · rw [if_pos heq] at hfits
        obtain ⟨g', hserve⟩ := hserves hfits
        obtain ⟨h', hok, hsame, -⟩ := hfinish g' hserve
        obtain ⟨⟨hstatus, hempty⟩, -⟩ := hserved g' hserve
        refine ⟨h', by rw [hrun, hserve, ok_bind, hok], ?_, fun hne => absurd heq hne⟩
        exact iff_of_true ⟨hsame.status.mpr hstatus, hsame.len.trans hempty⟩ heq
      · exact absurd halike hnot
  · have hne : d₁ ≠ d₂ := by
      rintro rfl
      exact halike rfl
    rw [decide_eq_false halike] at hhit
    obtain ⟨hserved, hserves⟩ : (∀ h', g.serveFile s r false o w mimeType ofs len mtime d₂ = .ok h' → _) ∧ _ :=
      serveFile_miss hhit hresp hmask hres h₂
    rw [hclose, hready] at hserved hserves
    have hsends : ∀ g' h' : HttpConn, SameResponse g' h' → h'.aio = g'.aio →
        (SendsFile s h' w ofs len ↔ SendsFile s g' w ofs len) := by
      intro g' h' hsame haio
      unfold SendsFile
      rw [hsame.status, hsame.off, hsame.len, hsame.webroot, haio]
    rw [if_neg hne]
    constructor
    · rintro ⟨h', hok, -, hfile⟩
      rw [hrun] at hok
      obtain ⟨g', hserve, hok⟩ := bind_eq_ok_iff.mp hok
      obtain ⟨h'', hok', hsame, haio⟩ := hfinish g' hserve
      cases hok.symm.trans hok'
      obtain ⟨hfits, hbody⟩ := hserved g' hserve ((hsends g' h' hsame haio).mp (hfile hne))
      exact ⟨hfits, Or.inr ⟨halike, hbody⟩⟩
    · rintro ⟨hfits, heq | ⟨-, hbody⟩⟩
      · exact absurd heq hne
      · obtain ⟨g', hserve, hfile⟩ := hserves hfits hbody
        obtain ⟨h', hok, hsame, haio⟩ := hfinish g' hserve
        have hfile' := (hsends g' h' hsame haio).mpr hfile
        refine ⟨h', by rw [hrun, hserve, ok_bind, hok], iff_of_false ?_ hne, fun _ => hfile'⟩
        rintro ⟨hstatus, -⟩
        exact absurd (hfile'.1.unique hstatus rfl) (by decide)

def zeroDigest : Bytes := List.replicate 20 0
def tenDigest : Bytes := 0xa0 :: List.replicate 19 0
def oneDigest : Bytes := List.replicate 20 0x11

theorem length_zeroDigest : zeroDigest.length = ETAG_SZ := rfl

/-- "GET / HTTP/1.1" with the tag of a digest. -/
def taggedHead (digest : Bytes) (htag : IsField (labelIfNoneMatch, printEtag digest)) : ReqHead where
  method := HttpConn.methodGet
  uri := [47]
  version := ascii "HTTP/1.1"
  fields := [(labelIfNoneMatch, printEtag digest)]
  methodWord := getWord
  uriWord := rootWord
  versionWord := versionWord
  fieldsOk := by
    intro kv hkv
    obtain rfl := List.mem_singleton.mp hkv
    exact htag

/-- A server for one file of two bytes under "/", which has the digest zero. -/
def taggedServer : Server where
  roots := ⟨fun _ =>
    { rMap := ascii "text/plain"
      rNumEdges := 2
      rNumRedirect := 0
      rNumOid := 1
      rTrie := [⟨GIDX_INVALID_OID, 1, 1, 0, List.replicate 8 0⟩, ⟨0, 0, 0, 1, 47 :: List.replicate 7 0⟩]
      rRedir := []
      rFile := [⟨0, 2, 0, 10, 5000000, zeroDigest, length_zeroDigest⟩] }, fun _ => ascii "hi"⟩
  vhostsLookup := fun _ => some 0
  fio := .sync

/-- A connection that has received a head of at most 1024 bytes. -/
def askingConn (head : ReqHead) (hlen : head.text.length ≤ HTTP_MAX_RESP) : HttpConn :=
  HttpConn.httpConn.withReq
    (some ⟨Mem.store (fun _ => 0) 0 head.text, HTTP_MAX_RESP, 0, head.text.length, Nat.zero_le _, hlen⟩)
    .initial 0

def enoughMemory : ReadResults :=
  ⟨.eagain, none, some fun _ => 0, some fun _ => 0, .submitted, ascii "127.0.0.1", fun _ => 0, 0⟩

def taggedFile : WebrootName := ⟨some (ascii "text/plain"), .data 0 2 5000000 zeroDigest, HTTP_FOUND⟩

/-- What a lookup comes to that is computed. -/
theorem find_of_any {root : Webroot} {o : ReadResults} {uri : Bytes} {found : Option WebrootName}
    (hall : (nadsNormalize o.before o.uribuf uri).toOption.any (fun nads =>
      (webrootFind root nads.uri 0 (nads.uri.cstr NADS_MAX_URI 0).length).toOption = some found) = true) :
    ∃ nads, nadsNormalize o.before o.uribuf uri = .ok nads ∧
      webrootFind root nads.uri 0 (nads.uri.cstr NADS_MAX_URI 0).length = .ok found := by
  obtain ⟨nads, hnads, hfind⟩ := exists_of_any hall
  have hfind := of_decide_eq_true hfind
  refine ⟨nads, hnads, ?_⟩
  cases hlookup : webrootFind root nads.uri 0 (nads.uri.cstr NADS_MAX_URI 0).length with
  | error f =>
    rw [hlookup] at hfind
    cases hfind
  | ok found' =>
    rw [hlookup] at hfind
    exact congrArg Except.ok (Option.some.inj hfind)

theorem taggedServer_find : ∃ nads, nadsNormalize enoughMemory.before enoughMemory.uribuf [47] = .ok nads ∧
    webrootFind (taggedServer.roots.index 0) nads.uri 0 (nads.uri.cstr NADS_MAX_URI 0).length =
      .ok (some taggedFile) := by
  apply find_of_any
  decide

theorem askingConn_asks {head : ReqHead} (hlen : head.text.length ≤ HTTP_MAX_RESP)
    (hmethod : head.method = HttpConn.methodGet) (huri : head.uri = [47]) :
    Asks taggedServer (askingConn head hlen) enoughMemory head 0
      ⟨some (ascii "text/plain"), .data 0 2 5000000 zeroDigest, HTTP_FOUND⟩ := by
  have hmask : NBIO_READ ≠ NBIO_DELETED := by decide
  refine ⟨rfl, hmask, by simp [enoughMemory], ⟨_, [], rfl, ?_⟩, hmethod, ?_⟩
  · rw [List.append_nil]
    exact Mem.slice_store_same _ 0 head.text
  · rw [huri]
    obtain ⟨nads, hnads, hfind⟩ := taggedServer_find
    exact ⟨nads, hnads, rfl, hfind⟩

theorem oneField : IsField (labelIfNoneMatch, printEtag oneDigest) :=
  ⟨by decide, by decide, by decide, by decide, by decide⟩

theorem tenField : IsField (labelIfNoneMatch, printEtag tenDigest) :=
  ⟨by decide, by decide, by decide, by decide, by decide⟩

/-- The tag of another file is no reason not to send this one. -/
theorem etag_answer_iff_one : ∃ h' , (askingConn (taggedHead oneDigest oneField) (by decide)).handleRequest
    taggedServer enoughMemory = .ok h' ∧ (NotModified h' ↔ oneDigest = zeroDigest) ∧
    (oneDigest ≠ zeroDigest → SendsFile taggedServer h' 0 0 2) := by
  apply (etag_answer_iff (askingConn_asks _ rfl rfl) (show lastValue _ _ = some (printEtag oneDigest) by decide) rfl rfl).mpr
  refine ⟨⟨by decide +kernel, by decide +kernel⟩, Or.inr ⟨by decide, Or.inr ?_⟩⟩
  show enoughMemory.dataBlock ≠ none
  simp [enoughMemory]

/-- A client that has the file of one digest is told that it has the file of another. -/
theorem etag_collision : tenDigest ≠ zeroDigest ∧ printEtag tenDigest = printEtag zeroDigest ∧
    Asks taggedServer (askingConn (taggedHead tenDigest tenField) (by decide)) enoughMemory
      (taggedHead tenDigest tenField) 0
      ⟨some (ascii "text/plain"), .data 0 2 5000000 zeroDigest, HTTP_FOUND⟩ ∧
    ∃ h', (askingConn (taggedHead tenDigest tenField) (by decide)).handleRequest taggedServer enoughMemory =
      .ok h' ∧ NotModified h' := by
  refine ⟨by decide, by decide, askingConn_asks _ rfl rfl, ?_⟩
  have hall : ((askingConn (taggedHead tenDigest tenField) (by decide)).handleRequest taggedServer
      enoughMemory).toOption.any (fun h' => NotModified h') = true := by
    decide +kernel
  obtain ⟨h', hok, htold⟩ := exists_of_any hall
  exact ⟨h', hok, of_decide_eq_true htold⟩

end Ashttpd
