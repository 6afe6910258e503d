import Ashttpd.HeadFraming
import Ashttpd.Mkroot

/-!
# Responses and the buffer they are put in

All of a response is put together in one buffer of a fixed size. The parts of the header of a file are
checked against the room that is left, but for a redirect only the format is: `snprintf` tells how long the
text would have been, and so much is taken to be in the buffer.
-/
namespace Ashttpd

/-- A request is handed to `handle_get`, which is told whether to leave the body out. -/
def HttpRequest.Gets (r : HttpRequest) (head : Bool) : Prop :=
  SameText r.method.bytes (if head then HttpConn.methodHead else HttpConn.methodGet)

/-- The texts that a request is meant to be answered with, be there room for them or not. -/
inductive Meant (s : Server) (h : HttpConn) (r : HttpRequest) (o : ReadResults) : Bytes → Prop
  | unimplemented (hnone : ∀ head, ¬ r.Gets head) : Meant s h r o resp501
  | unknownHost {nads : Nads} {head : Bool} (hgets : r.Gets head)
      (hnads : nadsNormalize o.before o.uribuf r.uri.bytes = .ok nads)
      (hhost : s.vhostsLookup (untilNul r.host.bytes) = none) : Meant s h r o resp403
  | missing {nads : Nads} {w : ℕ} {head : Bool} (hgets : r.Gets head)
      (hnads : nadsNormalize o.before o.uribuf r.uri.bytes = .ok nads)
      (hhost : s.vhostsLookup (untilNul r.host.bytes) = some w)
      (hfind : webrootFind (s.roots.index w) nads.uri 0 (nads.uri.cstr NADS_MAX_URI 0).length = .ok none) :
      Meant s h r o resp404
  | moved {w : ℕ} {n : WebrootName} {target : Bytes} {head : Bool} (hgets : r.Gets head)
      (hfinds : Finds s r o w n) (hcode : n.code = HTTP_MOVED_PERMANENTLY) (htarget : n.u = .moved (some target)) :
      Meant s h r o (resp301 r.host.bytes target)
  | forbidden {w : ℕ} {n : WebrootName} {head : Bool} (hgets : r.Gets head) (hfinds : Finds s r o w n)
      (hcode : n.code = HTTP_FORBIDDEN) : Meant s h r o resp403
  | unready {w ofs len : ℕ} {n : WebrootName} {mimeType etag : Bytes} {mtime : UInt32} {h₁ : HttpConn} {head : Bool}
      (hgets : r.Gets head) (hfinds : Finds s r o w n)
      (hcode : n.code ≠ HTTP_MOVED_PERMANENTLY ∧ n.code ≠ HTTP_FORBIDDEN) (hmime : n.mimeType = some mimeType)
      (hfile : n.u = .data ofs len mtime etag)
      (hnone : (h.withData ofs len).prepareBody s.fio (head || HttpConn.etagHit r etag) o = .ok (h₁, false)) :
      Meant s h r o resp500
  | file {w ofs len : ℕ} {n : WebrootName} {mimeType etag : Bytes} {mtime : UInt32} {head : Bool}
      (hgets : r.Gets head) (hfinds : Finds s r o w n)
      (hcode : n.code ≠ HTTP_MOVED_PERMANENTLY ∧ n.code ≠ HTTP_FORBIDDEN) (hmime : n.mimeType = some mimeType)
      (hfile : n.u = .data ofs len mtime etag) (hbody : BodyServed s h r head o len etag) :
      Meant s h r o (headerText (queuedHeader h r mimeType len mtime etag))

/-- What may go wrong with an answer besides putting the text together. -/
inductive FaultElsewhere (s : Server) (h : HttpConn) (r : HttpRequest) (o : ReadResults) : Fault → Prop
  | normalize {f : Fault} (hnads : nadsNormalize o.before o.uribuf r.uri.bytes = .error f) : FaultElsewhere s h r o f
  | find {nads : Nads} {w : ℕ} {f : Fault} (hnads : nadsNormalize o.before o.uribuf r.uri.bytes = .ok nads)
      (hhost : s.vhostsLookup (untilNul r.host.bytes) = some w)
      (hfind : webrootFind (s.roots.index w) nads.uri 0 (nads.uri.cstr NADS_MAX_URI 0).length = .error f) :
      FaultElsewhere s h r o f
  | record {w : ℕ} {n : WebrootName} (hfinds : Finds s r o w n) (hrecord : n.Incomplete) :
      FaultElsewhere s h r o .undefined
  | body {w ofs len : ℕ} {n : WebrootName} {mimeType etag : Bytes} {mtime : UInt32} {head : Bool} {f : Fault}
      (hgets : r.Gets head) (hfinds : Finds s r o w n)
      (hcode : n.code ≠ HTTP_MOVED_PERMANENTLY ∧ n.code ≠ HTTP_FORBIDDEN) (hmime : n.mimeType = some mimeType)
      (hfile : n.u = .data ofs len mtime etag)
      (hprep : (h.withData ofs len).prepareBody s.fio (head || HttpConn.etagHit r etag) o = .error f) :
      FaultElsewhere s h r o f

def AnsweredWhole (s : Server) (h : HttpConn) (r : HttpRequest) (o : ReadResults) : Except Fault HttpConn → Prop :=
  Ends (FaultElsewhere s h r o) fun h' => ∃ text, Meant s h r o text ∧ Queued h' text

/-- There is room for the answer with a record: for a redirect and its terminator, or for the header of a
file, which must not have been modified in a January. -/
def WebrootName.ResponseFits (s : Server) (h : HttpConn) (r : HttpRequest) (head : Bool) (o : ReadResults)
    (n : WebrootName) : Prop :=
  if n.code = HTTP_MOVED_PERMANENTLY then
    ∀ target, n.u = .moved (some target) →
      0 ∉ r.host.bytes ∧ 0 ∉ target ∧ (resp301 r.host.bytes target).length < HTTP_MAX_REQ
  else n.code ≠ HTTP_FORBIDDEN → ∀ mimeType ofs len mtime etag,
    n.mimeType = some mimeType → n.u = .data ofs len mtime etag → BodyServed s h r head o len etag →
      HeaderFits (queuedHeader h r mimeType len mtime etag)

variable {s : Server} {h h' : HttpConn} {r : HttpRequest} {o : ReadResults} {head : Bool} {block : Mem}
  {w : ℕ} {n : WebrootName} {text : Bytes}

theorem Finds.unique {w' : ℕ} {n' : WebrootName} (hfinds : Finds s r o w n) (hfinds' : Finds s r o w' n') :
    w = w' ∧ n = n' := by
  obtain ⟨nads, hnads, hhost, hfind⟩ := hfinds
  obtain ⟨nads', hnads', hhost', hfind'⟩ := hfinds'
  cases hnads.symm.trans hnads'
  cases hhost.symm.trans hhost'
  cases hfind.symm.trans hfind'
  exact ⟨rfl, rfl⟩

theorem HttpRequest.Gets.unique {head' : Bool} (hgets : r.Gets head) (hgets' : r.Gets head') : head = head' := by
  cases head with
  | false =>
    cases head' with
    | false => rfl
    | true => exact absurd hgets (not_sameText_get hgets')
  | true =>
    cases head' with
    | false => exact absurd hgets' (not_sameText_get hgets)
    | true => rfl

theorem Queued.unique {text' : Bytes} (hq : Queued h text) (hq' : Queued h text') : text = text' := by
  obtain ⟨res, hres, rfl⟩ := hq
  obtain ⟨res', hres', rfl⟩ := hq'
  cases hres.symm.trans hres'
  rfl

theorem length_resp301 (host loc : Bytes) : (resp301 host loc).length = 185 + host.length + loc.length := by
  have hfront : (["HTTP/1.1 301 Moved Permanently\r\n", "Content-Type: text/html\r\n", "Content-Length: 87\r\n",
      "Location: http://"].flatMap ascii).length = 94 := by
    decide
  have hpage : (["\r\n", "\r\n", "<html><head><title>Object Moved</title></head>",
      "<body><h1>Object Moved</h1></body></html>"].flatMap ascii).length = 91 := by
    decide
  unfold resp301
  simp only [List.length_append, hfront, hpage]
  omega

theorem resp301_getLast? (host loc : Bytes) : (resp301 host loc).getLast? = some 62 := by
  unfold resp301
  rw [List.getLast?_append_of_ne_nil _ (by decide)]
  decide

theorem untilNul_eq_self_iff {t : Bytes} : (untilNul t).length = t.length ↔ 0 ∉ t := by
  constructor
  · intro hlen hzero
    have heq : untilNul t = t := (List.takeWhile_prefix _).eq_of_length hlen
    exact untilNul_nulFree t (heq.symm ▸ hzero)
  · intro hfree
    rw [untilNul_of_nulFree hfree]

/-- A redirect is printed as it is meant exactly if it is not cut at a NUL and there is room for the terminator. -/
theorem redirectText_eq_resp301_iff {host loc : Bytes}
    (hfit : (resp301 (untilNul host) (untilNul loc)).length ≤ HTTP_MAX_REQ) :
    redirectText host loc = resp301 host loc ↔
      0 ∉ host ∧ 0 ∉ loc ∧ (resp301 host loc).length < HTTP_MAX_REQ := by
  constructor
  · intro heq
    have hlen := length_redirectText host loc
    rw [heq, length_resp301, length_resp301] at hlen
    have hhost := length_untilNul_le host
    have hloc := length_untilNul_le loc
    refine ⟨untilNul_eq_self_iff.mp (by omega), untilNul_eq_self_iff.mp (by omega), ?_⟩
    by_contra hfull
    have hmax : (resp301 (untilNul host) (untilNul loc)).length = HTTP_MAX_REQ := by
      rw [length_resp301] at hfit hfull ⊢
      omega
    have hlast := resp301_getLast? host loc
    rw [← heq] at hlast
    unfold redirectText at hlast
    rw [if_pos hmax, List.getLast?_append_of_ne_nil _ (by simp)] at hlast
    cases hlast
  · rintro ⟨hhost, hloc, hroom⟩
    unfold redirectText
    rw [untilNul_of_nulFree hhost, untilNul_of_nulFree hloc, if_neg (Nat.ne_of_lt hroom)]

theorem Meant.eq_resp301 {target : Bytes} (hm : Meant s h r o text) (hgets : r.Gets head) (hfinds : Finds s r o w n)
    (hcode : n.code = HTTP_MOVED_PERMANENTLY) (htarget : n.u = .moved (some target)) :
    text = resp301 r.host.bytes target := by
  obtain ⟨nads, hnads, hhost, hfind⟩ := id hfinds
  cases hm with
  | unimplemented hnone => exact absurd hgets (hnone head)
  | unknownHost _ _ hunknown => cases hhost.symm.trans hunknown
  | missing _ hnads' hhost' hmissing =>
    cases hnads.symm.trans hnads'
    cases hhost.symm.trans hhost'
    cases hfind.symm.trans hmissing
  | moved _ hfinds' _ htarget' =>
    obtain ⟨-, rfl⟩ := hfinds.unique hfinds'
    cases htarget.symm.trans htarget'
    rfl
  | forbidden _ hfinds' hcode' =>
    obtain ⟨-, rfl⟩ := hfinds.unique hfinds'
    cases hcode.symm.trans hcode'
  | unready _ hfinds' hcode' =>
    obtain ⟨-, rfl⟩ := hfinds.unique hfinds'
    exact absurd hcode hcode'.1
  | file _ hfinds' hcode' =>
    obtain ⟨-, rfl⟩ := hfinds.unique hfinds'
    exact absurd hcode hcode'.1

/-- What is found, and is what its code says, leaves the preparation of a body as a reason to fail. -/
theorem FaultElsewhere.of_finds {f : Fault} (hf : FaultElsewhere s h r o f) (hgets : r.Gets head)
    (hfinds : Finds s r o w n) (hrecord : ¬ n.Incomplete) : ∃ mimeType ofs len mtime etag,
      (n.code ≠ HTTP_MOVED_PERMANENTLY ∧ n.code ≠ HTTP_FORBIDDEN) ∧ n.mimeType = some mimeType ∧
      n.u = .data ofs len mtime etag ∧
      (h.withData ofs len).prepareBody s.fio (head || HttpConn.etagHit r etag) o = .error f := by
  obtain ⟨nads, hnads, hhost, hfind⟩ := id hfinds
  cases hf with
  | normalize hnads' => cases hnads.symm.trans hnads'
  | find hnads' hhost' hfind' =>
    cases hnads.symm.trans hnads'
    cases hhost.symm.trans hhost'
    cases hfind.symm.trans hfind'
  | record hfinds' hrecord' =>
    obtain ⟨-, rfl⟩ := hfinds.unique hfinds'
    exact absurd hrecord' hrecord
  | body hgets' hfinds' hcode hmime hfile hprep =>
    obtain ⟨-, rfl⟩ := hfinds.unique hfinds'
    cases hgets.unique hgets'
    exact ⟨_, _, _, _, _, hcode, hmime, hfile, hprep⟩

theorem response301_whole_iff (hres : h.hRes = some (.alloc block HTTP_MAX_REQ)) (hgets : r.Gets head)
    (hfinds : Finds s r o w n) (hcode : n.code = HTTP_MOVED_PERMANENTLY) {target : Bytes}
    (htarget : n.u = .moved (some target)) :
    AnsweredWhole s h r o (h.response301 r.host.bytes target) ↔
      0 ∉ r.host.bytes ∧ 0 ∉ target ∧ (resp301 r.host.bytes target).length < HTTP_MAX_REQ := by
  obtain ⟨h', hok, hsaid, hfit⟩ | ⟨herror, hlong⟩ := response301_says hres r.host.bytes target
  · have hqueued := hsaid.queued
    rw [hok, ← redirectText_eq_resp301_iff hfit]
    constructor
    · rintro ⟨text, hmeant, hq⟩
      rw [hqueued.unique hq]
      exact hmeant.eq_resp301 hgets hfinds hcode htarget
    · intro heq
      exact ⟨_, .moved hgets hfinds hcode htarget, heq ▸ hqueued⟩
  · rw [herror]
    constructor
    · intro hf
      have hrecord : ¬ n.Incomplete := by
        unfold WebrootName.Incomplete
        rw [if_pos hcode]
        exact fun hother => hother target htarget
      obtain ⟨_, _, _, _, _, hfile, -⟩ := FaultElsewhere.of_finds hf hgets hfinds hrecord
      exact absurd hcode hfile.1
    · rintro ⟨hhost, hloc, hroom⟩
      rw [untilNul_of_nulFree hhost, untilNul_of_nulFree hloc] at hlong
      omega

theorem serveFile_whole_iff (hres : h.hRes = some (.alloc block HTTP_MAX_REQ)) (hr : h.Responding)
    (hmask : h.hNbio.mask ≠ NBIO_DELETED) (hgets : r.Gets head) (hfinds : Finds s r o w n)
    (hcode : n.code ≠ HTTP_MOVED_PERMANENTLY ∧ n.code ≠ HTTP_FORBIDDEN) {mimeType etag : Bytes} {ofs len : ℕ}
    {mtime : UInt32} (hmime : n.mimeType = some mimeType) (hfile : n.u = .data ofs len mtime etag) :
    AnsweredWhole s h r o (h.serveFile s r head o w mimeType ofs len mtime etag) ↔
      (BodyServed s h r head o len etag → HeaderFits (queuedHeader h r mimeType len mtime etag)) := by
  have hetag := hfinds.etag_length hfile
  cases hserve : h.serveFile s r head o w mimeType ofs len mtime etag with
  | ok h' =>
    obtain ⟨hfits, hbody, hqueued, -⟩ | ⟨⟨h₁, hnone⟩, hqueued, -⟩ := serveFile_answered hres hetag hserve
    · exact iff_of_true ⟨_, .file hgets hfinds hcode hmime hfile hbody, hqueued⟩ fun _ => hfits
    · refine iff_of_true ⟨_, .unready hgets hfinds hcode hmime hfile hnone, hqueued⟩ fun hbody => ?_
      obtain ⟨h₂, hready⟩ := hbody.prepareBody hr hmask ofs
      cases hnone.symm.trans hready
  | error f =>
    unfold HttpConn.serveFile at hserve
    cases hprep : (h.withData ofs len).prepareBody s.fio (head || HttpConn.etagHit r etag) o with
    | error f' =>
      have hsame : Except.error f' = (Except.error f : Except Fault HttpConn) := by
        rw [← hserve]
        dsimp only
        rw [hprep]
        rfl
      cases hsame
      refine iff_of_true (FaultElsewhere.body hgets hfinds hcode hmime hfile hprep) fun hbody => ?_
      obtain ⟨h₂, hready⟩ := hbody.prepareBody hr hmask ofs
      cases hprep.symm.trans hready
    | ok p =>
      obtain ⟨h₁, ok⟩ := p
      obtain ⟨hsame, -, -, hserved⟩ := prepareBody_cases hprep
      have hres₁ : h₁.hRes = some (.alloc block HTTP_MAX_REQ) := hsame.res.trans hres
      dsimp only at hserve
      rw [hprep, ok_bind] at hserve
      cases ok with
      | false =>
        have hfit := resp500_fits
        obtain ⟨h₂, hok₂, -⟩ := respond_says hres₁ hfit
        dsimp only [HttpConn.response500] at hserve
        rw [hok₂] at hserve
        cases hserve
      | true =>
        have hbody : BodyServed s h r head o len etag := (bodyServed_iff ofs).mpr (hserved rfl)
        have hlen : h₁.hDataLen = len := hsame.len
        have hclose : h₁.hConnClose = h.hConnClose := hsame.close
        dsimp only at hserve
        rw [hlen, hclose] at hserve
        refine iff_of_false ?_ fun hall => ?_
        · intro hf
          have hrecord : ¬ n.Incomplete := by
            unfold WebrootName.Incomplete
            rw [if_neg hcode.1]
            exact fun hother => hother.2 _ _ _ _ _ hmime hfile
          obtain ⟨_, _, _, _, _, -, -, hfile', hprep'⟩ := FaultElsewhere.of_finds hf hgets hfinds hrecord
          cases hfile.symm.trans hfile'
          cases hprep.symm.trans hprep'
        · obtain ⟨h₂, hok₂⟩ : ∃ h₂, h₁.queueHeader w (head || HttpConn.etagHit r etag)
              (queuedHeader h r mimeType len mtime etag) = .ok h₂ :=
            (queueHeader_answered hres₁ hetag).2 (hall hbody)
          cases hserve.symm.trans hok₂

theorem respond_whole (hres : h.hRes = some (.alloc block HTTP_MAX_REQ)) (hmeant : Meant s h r o text)
    (hfit : text.length ≤ HTTP_MAX_REQ) : AnsweredWhole s h r o (h.respond text) := by
  obtain ⟨h', hok, hsaid⟩ := respond_says hres hfit
  rw [hok]
  exact ⟨text, hmeant, hsaid.queued⟩

/-- A record that is found is answered as a whole exactly if there is room for the answer. -/
theorem serveName_whole_iff (hres : h.hRes = some (.alloc block HTTP_MAX_REQ)) (hr : h.Responding)
    (hmask : h.hNbio.mask ≠ NBIO_DELETED) (hgets : r.Gets head) (hfinds : Finds s r o w n) :
    AnsweredWhole s h r o (h.serveName s r head o w n) ↔ n.ResponseFits s h r head o := by
  unfold HttpConn.serveName WebrootName.ResponseFits
  by_cases hmoved : n.code = HTTP_MOVED_PERMANENTLY
  · rw [if_pos hmoved, if_pos hmoved]
    split
    · next target htarget =>
      rw [response301_whole_iff hres hgets hfinds hmoved htarget]
      constructor
      · rintro hfits target' htarget'
        cases htarget.symm.trans htarget'
        exact hfits
      · intro hall
        exact hall target htarget
    · next hother =>
      refine iff_of_true (FaultElsewhere.record hfinds ?_) fun target htarget => absurd htarget (hother target)
      unfold WebrootName.Incomplete
      rw [if_pos hmoved]
      exact hother
  · rw [if_neg hmoved, if_neg hmoved]
    by_cases hforbidden : n.code = HTTP_FORBIDDEN
    · rw [if_pos hforbidden]
      exact iff_of_true (respond_whole hres (.forbidden hgets hfinds hforbidden) resp403_fits)
        fun hne => absurd hforbidden hne
    · rw [if_neg hforbidden]
      split
      · next mimeType ofs len mtime etag hmime hfile =>
        rw [serveFile_whole_iff hres hr hmask hgets hfinds ⟨hmoved, hforbidden⟩ hmime hfile]
        constructor
        · rintro hfits - mimeType' ofs' len' mtime' etag' hmime' hfile' hbody
          cases hmime.symm.trans hmime'
          cases hfile.symm.trans hfile'
          exact hfits hbody
        · intro hall
          exact hall hforbidden mimeType ofs len mtime etag hmime hfile
      · next hother =>
        refine iff_of_true (FaultElsewhere.record hfinds ?_)
          fun _ mimeType ofs len mtime etag hmime hfile => absurd hfile (hother mimeType ofs len mtime etag hmime)
        unfold WebrootName.Incomplete
        rw [if_neg hmoved]
        exact ⟨hforbidden, hother⟩

theorem handleGet_whole_iff (hres : h.hRes = some (.alloc block HTTP_MAX_REQ)) (hr : h.Responding)
    (hmask : h.hNbio.mask ≠ NBIO_DELETED) (hgets : r.Gets head) :
    AnsweredWhole s h r o (h.handleGet s r head o) ↔ ∀ w n, Finds s r o w n → n.ResponseFits s h r head o := by
  by_cases hfinds : ∃ w n, Finds s r o w n
  · obtain ⟨w, n, hfinds⟩ := hfinds
    rw [hfinds.handleGet, serveName_whole_iff hres hr hmask hgets hfinds]
    constructor
    · rintro hfits w' n' hfinds'
      obtain ⟨-, rfl⟩ := hfinds.unique hfinds'
      exact hfits
    · intro hall
      exact hall w n hfinds
  · refine iff_of_true ?_ fun w n hfound => absurd ⟨w, n, hfound⟩ hfinds
    unfold HttpConn.handleGet
    cases hnads : nadsNormalize o.before o.uribuf r.uri.bytes with
    | error f => exact FaultElsewhere.normalize hnads
    | ok nads =>
      rw [ok_bind]
      cases hhost : s.vhostsLookup (untilNul r.host.bytes) with
      | none => exact respond_whole hres (.unknownHost hgets hnads hhost) resp403_fits
      | some w =>
        dsimp only
        cases hfind : webrootFind (s.roots.index w) nads.uri 0 (nads.uri.cstr NADS_MAX_URI 0).length with
        | error f => exact FaultElsewhere.find hnads hhost hfind
        | ok found =>
          rw [ok_bind]
          cases found with
          | none => exact respond_whole hres (.missing hgets hnads hhost hfind) resp404_fits
          | some n => exact absurd ⟨w, n, nads, hnads, hhost, hfind⟩ hfinds

theorem answer_whole_iff (hres : h.hRes = some (.alloc block HTTP_MAX_REQ)) (hr : h.Responding)
    (hmask : h.hNbio.mask ≠ NBIO_DELETED) : AnsweredWhole s h r o (h.answer s r o) ↔
      ∀ head, r.Gets head → ∀ w n, Finds s r o w n → n.ResponseFits s h r head o := by
  have hone : ∀ head, r.Gets head → (AnsweredWhole s h r o (h.handleGet s r head o) ↔
      ∀ head, r.Gets head → ∀ w n, Finds s r o w n → n.ResponseFits s h r head o) := by
    intro head hgets
    rw [handleGet_whole_iff hres hr hmask hgets]
    constructor
    · rintro hall head' hgets'
      cases hgets.unique hgets'
      exact hall
    · intro hall
      exact hall head hgets
  unfold HttpConn.answer
  split
  · next hget => exact hone false ((vstrcmpFast_eq_zero_iff _ _).mp hget)
  · next hget =>
    split
    · next hhead => exact hone true ((vstrcmpFast_eq_zero_iff _ _).mp hhead)
    · next hhead =>
      have hnone : ∀ head, ¬ r.Gets head := by
        intro head hgets
        cases head with
        | false => exact hget ((vstrcmpFast_eq_zero_iff _ _).mpr hgets)
        | true => exact hhead ((vstrcmpFast_eq_zero_iff _ _).mpr hgets)
      obtain ⟨h₁, hok, hsaid⟩ := respond_says hres resp501_fits
      refine iff_of_true ?_ fun head hgets => absurd hgets (hnone head)
      unfold HttpConn.response501
      rw [hok]
      obtain ⟨res, hres₁, hun⟩ := hsaid.queued
      exact ⟨_, .unimplemented hnone, res, hres₁, hun⟩

/-- The end of `handle_request` neither fails nor touches what is queued. -/
theorem finishRequest_whole_iff {hlen : ℕ} {req : HttpBuf} {x : Except Fault HttpConn} (hle : hlen ≤ req.bufRead)
    (hreq : ∀ h', x = .ok h' → h'.hReq = some req) :
    AnsweredWhole s h r o (x >>= fun h' => h'.finishRequest hlen) ↔ AnsweredWhole s h r o x := by
  cases x with
  | error f => exact Iff.rfl
  | ok h' =>
    obtain ⟨h'', hok, hsame, -⟩ := finishRequest_response (hreq h' rfl) hle
    rw [ok_bind, hok]
    show (∃ text, Meant s h r o text ∧ Queued h'' text) ↔ ∃ text, Meant s h r o text ∧ Queued h' text
    unfold Queued
    rw [hsame.res]

/-- A request is answered with the whole of what is meant, and nothing fails on the way that puts the text
together, exactly if what is found for it can be answered in the buffer for the response. -/
theorem responses_fit_iff (hp : h.Poised s.fio) (hstate : h.hState = .request) {req : HttpBuf}
    (hreq : h.hReq = some req) {hlen : ℕ} (hparsed : httpReq {} req.unread = (hlen, r)) (hpos : hlen ≠ 0)
    (hblock : o.resBlock = some block) (hbody : r.contentLen = 0) {g : HttpConn} {r' : HttpRequest}
    (hg : g = h.toAnswer block r.connClose.toNat) (hr' : r' = HttpConn.defaultHost r o.sockname) :
    AnsweredWhole s g r' o (h.handleRequest s o) ↔
      ∀ head, r'.Gets head → ∀ w n, Finds s r' o w n → n.ResponseFits s g r' head o := by
  have hle : hlen ≤ req.bufRead := by
    have hle := httpReq_fst_le req.unread
    rwa [hparsed, req.unread_length] at hle
  have hgreq : g.hReq = some req := by
    rw [hg]
    exact hreq
  have hgmask : g.hNbio.mask ≠ NBIO_DELETED := by
    rw [hg]
    exact (by decide : NBIO_WRITE &&& NBIO_WAIT ≠ NBIO_DELETED)
  have hgstate : g.Responding := by
    rw [hg]
    exact Or.inr rfl
  have hgres : g.hRes = some (.alloc block HTTP_MAX_REQ) := by
    rw [hg]
    rfl
  rw [handleRequest_answers hp.mask_ne hstate hreq hparsed hpos hblock hbody, ← hg, ← hr',
    finishRequest_whole_iff hle fun h' hok => (answer_same hok).req.trans hgreq]
  exact answer_whole_iff hgres hgstate hgmask

def linkTarget (n : ℕ) : Bytes := SLASH :: List.replicate n 97

/-- A directory with a symbolic link in it. -/
def linkFs (target : Bytes) : Mkroot.FileSystem where
  lstat path := if path = ascii "/srv/" then .ok ⟨.dir, 1, 1, 5000000, 4096⟩
    else .ok ⟨.lnk, 1, 2, 5000000, target.length⟩
  stat _ := .error .enoent
  readdir _ := some [[DOT], [DOT, DOT], ascii "l"]
  readlink _ := some target
  magicFile _ := ascii "text/plain"

/-- A server for that directory: under "/" there is a list of it, and under "/l" the link. -/
def linkServer (target : Bytes) : Server where
  roots := ⟨fun _ =>
    { rMap := ascii "text/html" ++ target
      rNumEdges := 3
      rNumRedirect := 1
      rNumOid := 2
      rTrie := [⟨GIDX_INVALID_OID, 1, 1, 0, List.replicate 8 0⟩, ⟨1, 2, 1, 1, 47 :: List.replicate 7 0⟩,
        ⟨0, 0, 0, 1, 108 :: List.replicate 7 0⟩]
      rRedir := [⟨9, UInt32.ofNat target.length⟩]
      rFile := [⟨0, 2, 0, 9, 5000000, zeroDigest, length_zeroDigest⟩] }, fun _ => ascii "hi"⟩
  vhostsLookup := fun _ => some 0
  fio := .sync

/-- "GET /l HTTP/1.1". -/
def linkHead : ReqHead where
  method := HttpConn.methodGet
  uri := ascii "/l"
  version := ascii "HTTP/1.1"
  fields := []
  methodWord := getWord
  uriWord := ⟨by decide, by decide, by decide, by decide⟩
  versionWord := versionWord
  fieldsOk := noFields

def linkConn : HttpConn := askingConn linkHead (by decide)

def linkRequest : HttpRequest := HttpConn.defaultHost (httpReq {} linkHead.text).2 enoughMemory.sockname

theorem linkServer_finds (target : Bytes)
    (hfind : (nadsNormalize enoughMemory.before enoughMemory.uribuf linkRequest.uri.bytes).toOption.any (fun nads =>
      (webrootFind ((linkServer target).roots.index 0) nads.uri 0 (nads.uri.cstr NADS_MAX_URI 0).length).toOption =
        some (some ⟨none, .moved (some target), HTTP_MOVED_PERMANENTLY⟩)) = true) :
    Finds (linkServer target) linkRequest enoughMemory 0 ⟨none, .moved (some target), HTTP_MOVED_PERMANENTLY⟩ := by
  obtain ⟨nads, hnads, hfound⟩ := find_of_any hfind
  exact ⟨nads, hnads, rfl, hfound⟩

theorem linkConn_poised (target : Bytes) : linkConn.Poised (linkServer target).fio :=
  askingConn_poised (by decide)

theorem linkConn_spec : ∃ req hlen r, linkConn.hReq = some req ∧ httpReq {} req.unread = (hlen, r) ∧ hlen ≠ 0 ∧
    r.contentLen = 0 ∧ linkRequest = HttpConn.defaultHost r enoughMemory.sockname ∧ linkRequest.Gets false ∧
    linkRequest.host.bytes = ascii "127.0.0.1" := by
  have hparsed : (httpReq {} linkHead.text).1 ≠ 0 ∧ (httpReq {} linkHead.text).2.contentLen = 0 ∧
      linkRequest.Gets false ∧ linkRequest.host.bytes = ascii "127.0.0.1" := by
    unfold HttpRequest.Gets
    decide
  obtain ⟨hpos, hbody, hgets, hhost⟩ := hparsed
  have hun : Mem.slice (Mem.store (fun _ => 0) 0 linkHead.text) 0 linkHead.text.length = linkHead.text :=
    Mem.slice_store_same _ 0 linkHead.text
  exact ⟨_, _, _, rfl, congrArg (httpReq {}) hun, hpos, hbody, rfl, hgets, hhost⟩

/-- A link to a short path is answered with all of the redirect. -/
theorem responses_fit_iff_link : ∃ h', linkConn.handleRequest (linkServer (linkTarget 3)) enoughMemory = .ok h' ∧
    Queued h' (resp301 (ascii "127.0.0.1") (linkTarget 3)) := by
  have hfinds := linkServer_finds (linkTarget 3) (by decide)
  have hroom : (resp301 (ascii "127.0.0.1") (linkTarget 3)).length < HTTP_MAX_REQ := by
    rw [length_resp301]
    decide
  obtain ⟨req, hlen, r, hreq, hparsed, hpos, hbody, hr, hgets, hhost⟩ := linkConn_spec
  have hfits : ∀ head, linkRequest.Gets head → ∀ w n, Finds (linkServer (linkTarget 3)) linkRequest enoughMemory w n →
      n.ResponseFits (linkServer (linkTarget 3)) (linkConn.toAnswer (fun _ => 0) r.connClose.toNat) linkRequest head
        enoughMemory := by
    rintro head - w n hfinds'
    obtain ⟨-, rfl⟩ := hfinds.unique hfinds'
    unfold WebrootName.ResponseFits
    rw [if_pos rfl, hhost]
    rintro target ⟨⟩
    exact ⟨by decide, by decide, hroom⟩
  have hok : (linkConn.handleRequest (linkServer (linkTarget 3)) enoughMemory).toOption.any (fun _ => true) = true := by
    decide +kernel
  obtain ⟨h', hok, -⟩ := exists_of_any hok
  have hiff := responses_fit_iff (linkConn_poised (linkTarget 3)) rfl hreq hparsed hpos
    (show enoughMemory.resBlock = some _ from rfl) hbody rfl hr
  rw [hok] at hiff
  obtain ⟨text, hmeant, hqueued⟩ := hiff.mpr hfits
  rw [hmeant.eq_resp301 hgets hfinds rfl rfl, hhost] at hqueued
  exact ⟨h', hok, hqueued⟩

/-- For a link to a path of 1900 bytes, the server is ended by an assertion. -/
theorem redirect_aborts :
    (∃ root, Mkroot.scanItem (linkFs (linkTarget 1899)) 2 (Mkroot.webrootNew (ascii "/srv")) [] [] = .ok (some root) ∧
      root.rRedirect = [⟨some (linkTarget 1899), 0⟩]) ∧
    Finds (linkServer (linkTarget 1899)) linkRequest enoughMemory 0
      ⟨none, .moved (some (linkTarget 1899)), HTTP_MOVED_PERMANENTLY⟩ ∧
    linkConn.handleRequest (linkServer (linkTarget 1899)) enoughMemory = .error .assertion := by
  have hscan : (Mkroot.scanItem (linkFs (linkTarget 1899)) 2 (Mkroot.webrootNew (ascii "/srv")) [] []).toOption.any
      (fun root => root.any fun root => root.rRedirect = [⟨some (linkTarget 1899), 0⟩]) = true := by
    decide +kernel
  have hfinds := linkServer_finds (linkTarget 1899) (by decide +kernel)
  have hlong : HTTP_MAX_REQ < (resp301 (ascii "127.0.0.1") (linkTarget 1899)).length := by
    rw [length_resp301]
    decide +kernel
  obtain ⟨req, hlen, r, hreq, hparsed, hpos, hbody, hr, hgets, hhost⟩ := linkConn_spec
  refine ⟨?_, hfinds, ?_⟩
  · obtain ⟨root, hroot, hredirect⟩ := exists_of_any hscan
    obtain ⟨root', rfl, hredirect⟩ := (Option.any_eq_true _ _).mp hredirect
    exact ⟨root', hroot, of_decide_eq_true hredirect⟩
  · rw [handleRequest_answers (linkConn_poised (linkTarget 1899)).mask_ne rfl hreq hparsed hpos rfl hbody, ← hr]
    obtain ⟨g, hg⟩ : ∃ g, g = linkConn.toAnswer (fun _ => 0) r.connClose.toNat := ⟨_, rfl⟩
    have hres : g.hRes = some (.alloc (fun _ => 0) HTTP_MAX_REQ) := by
      rw [hg]
      rfl
    have hanswer : g.answer (linkServer (linkTarget 1899)) linkRequest enoughMemory = .error .assertion := by
      unfold HttpConn.answer
      rw [if_pos ((vstrcmpFast_eq_zero_iff _ HttpConn.methodGet).mpr hgets), hfinds.handleGet]
      unfold HttpConn.serveName
      rw [if_pos rfl, hhost]
      obtain ⟨h', -, -, hfit⟩ | ⟨herror, -⟩ := response301_says hres (ascii "127.0.0.1") (linkTarget 1899)
      · rw [untilNul_of_nulFree (by decide), untilNul_of_nulFree (by decide +kernel)] at hfit
        omega
      · exact herror
    rw [← hg, hanswer]
    rfl

end Ashttpd
