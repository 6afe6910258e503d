import Ashttpd.FailedPasses
import Ashttpd.QueuedAnswers
import Ashttpd.WebrootOpen

/-!
# Rejected URIs

`handle_get` looks a URI up whether it could be normalized or not. What a stage that fails leaves of it may be
the name of something in the webroot, and it is the whole path if only the query is bad.
-/
namespace Ashttpd

def Hit (h : HttpConn) : Prop := StatusIs h (ascii "200") ∨ StatusIs h (ascii "304") ∨ StatusIs h (ascii "301")

instance (h : HttpConn) : Decidable (Hit h) := inferInstanceAs (Decidable (_ ∨ _ ∨ _))

/-- A name is that of a file or a redirect, and the answer with it can be put together. -/
def CanHit (s : Server) (h : HttpConn) (r : HttpRequest) (head : Bool) (o : ReadResults) (n : WebrootName) : Prop :=
  if n.code = HTTP_MOVED_PERMANENTLY then
    ∃ target, n.u = .moved (some target) ∧
      (resp301 (untilNul r.host.bytes) (untilNul target)).length ≤ HTTP_MAX_REQ
  else n.code ≠ HTTP_FORBIDDEN ∧ ∃ mimeType ofs len mtime etag,
    n.mimeType = some mimeType ∧ n.u = .data ofs len mtime etag ∧
      HeaderFits (queuedHeader h r mimeType len mtime etag) ∧ BodyServed s h r head o len etag

variable {s : Server} {h h' : HttpConn} {r : HttpRequest} {o : ReadResults} {head : Bool} {block : Mem}
  {text code : Bytes}

theorem Queued.not_hit (hq : Queued h text) (htext : ∀ code ∈ ["200", "304", "301"].map ascii,
    ¬ ascii "HTTP/1.1 " ++ code <+: text) : ¬ Hit h := by
  rintro (hstatus | hstatus | hstatus)
  · exact htext (ascii "200") (by simp) (hq.statusIs_iff.mp hstatus)
  · exact htext (ascii "304") (by simp) (hq.statusIs_iff.mp hstatus)
  · exact htext (ascii "301") (by simp) (hq.statusIs_iff.mp hstatus)

theorem status_redirectText (host loc : Bytes) : ascii "HTTP/1.1 " ++ ascii "301" <+: redirectText host loc := by
  obtain ⟨c, tail, heq⟩ := redirectText_eq host loc
  rw [heq]
  simp only [List.append_assoc]
  exact (by decide : ascii "HTTP/1.1 " ++ ascii "301" <+: redirectHead).trans (List.prefix_append _ _)

theorem Queued.hit_headerText {mimeType etag : Bytes} {len : ℕ} {mtime : UInt32}
    (hq : Queued h' (headerText (queuedHeader h r mimeType len mtime etag))) : Hit h' := by
  by_cases hhit : HttpConn.etagHit r etag = true
  · have hcode : (queuedHeader h r mimeType len mtime etag).code = HTTP_NOT_MODIFIED := if_pos hhit
    exact Or.inr (Or.inl (hq.statusIs_iff.mpr (status_headerText hcode (by decide))))
  · have hcode : (queuedHeader h r mimeType len mtime etag).code = HTTP_FOUND := if_neg hhit
    exact Or.inl (hq.statusIs_iff.mpr (status_headerText hcode (by decide)))

/-- A request is answered as if there were something under its URI exactly if the lookup finds it there. -/
theorem handleGet_hit_iff (hres : h.hRes = some (.alloc block HTTP_MAX_REQ)) (hr : h.Responding)
    (hmask : h.hNbio.mask ≠ NBIO_DELETED) :
    (∃ h', h.handleGet s r head o = .ok h' ∧ Hit h') ↔ ∃ w n, Finds s r o w n ∧ CanHit s h r head o n := by
  constructor
  · rintro ⟨h', hok, hhit⟩
    obtain ⟨text, hqueues, hqueued, -⟩ := handleGet_queues hres hok
    cases hqueues with
    | unknownHost => exact absurd hhit (hqueued.not_hit (by decide))
    | missing => exact absurd hhit (hqueued.not_hit (by decide))
    | @moved w n target hfinds hcode htarget hfit =>
      refine ⟨w, n, hfinds, ?_⟩
      unfold CanHit
      rw [if_pos hcode]
      exact ⟨target, htarget, hfit⟩
    | forbidden => exact absurd hhit (hqueued.not_hit (by decide))
    | unready => exact absurd hhit (hqueued.not_hit (by decide))
    | @file w ofs len n mimeType etag mtime hfinds hcode hmime hfile hfits hbody =>
      refine ⟨w, n, hfinds, ?_⟩
      unfold CanHit
      rw [if_neg hcode.1]
      exact ⟨hcode.2, mimeType, ofs, len, mtime, etag, hmime, hfile, hfits, hbody⟩
  · rintro ⟨w, n, hfinds, hcan⟩
    unfold CanHit at hcan
    split at hcan
    · next hcode =>
      obtain ⟨target, htarget, hfit⟩ := hcan
      have hqueues : Queues s h r head o _ := .moved hfinds hcode htarget hfit
      obtain ⟨h', hok, hqueued, -⟩ := hqueues.handleGet hres hr hmask
      exact ⟨h', hok, Or.inr (Or.inr (hqueued.statusIs_iff.mpr (status_redirectText _ _)))⟩
    · next hmoved =>
      obtain ⟨hforbidden, mimeType, ofs, len, mtime, etag, hmime, hfile, hfits, hbody⟩ := hcan
      obtain ⟨h', hok, hqueued, -⟩ :=
        (Queues.file hfinds ⟨hmoved, hforbidden⟩ hmime hfile hfits hbody).handleGet hres hr hmask
      exact ⟨h', hok, hqueued.hit_headerText⟩

def Webroot.Names (w : Webroot) (u : Bytes) (n : WebrootName) : Prop := webrootFind w (bytesAt u) 0 u.length = .ok (some n)

instance (w : Webroot) (u : Bytes) (n : WebrootName) : Decidable (w.Names u n) := inferInstanceAs (Decidable (_ = _))

theorem bytesAt_holds {u : Bytes} (h0 : 0 ∉ u) : (bytesAt u).HoldsStr 0 u := by
  have hat : ∀ i (hi : i < u.length), bytesAt u i = u[i] := by
    intro i hi
    unfold bytesAt
    rw [List.getD_eq_getElem?_getD, List.getElem?_eq_getElem hi]
    rfl
  refine ⟨?_, ?_, h0⟩
  · apply List.ext_getElem
    · simp
    · intro i hi hi'
      simp [Mem.slice, hat i hi']
  · unfold bytesAt
    rw [Nat.zero_add, List.getD_eq_getElem?_getD, List.getElem?_eq_none (Nat.le_refl _)]
    rfl

theorem names_of_holds {w : Webroot} (hw : w.TextLabels) {m : Mem} {u : Bytes} (hu : m.HoldsStr 0 u)
    (hlen : u.length < NADS_MAX_URI) (n : WebrootName) :
    webrootFind w m 0 (m.cstr NADS_MAX_URI 0).length = .ok (some n) ↔ w.Names u n := by
  rw [hu.cstr_eq (by omega), webrootFind_alike hw hu (bytesAt_holds hu.nulFree)]
  rfl

/-- A way above the root is not served from a webroot in which every name begins with a slash. -/
theorem traversal_unserved (hres : h.hRes = some (.alloc block HTTP_MAX_REQ)) (hr : h.Responding)
    (hmask : h.hNbio.mask ≠ NBIO_DELETED)
    (hlabels : ∀ w, s.vhostsLookup (untilNul r.host.bytes) = some w → (s.roots.index w).TextLabels)
    (hrooted : ∀ w u n, s.vhostsLookup (untilNul r.host.bytes) = some w → (s.roots.index w).Names u n →
      u.head? = some SLASH) {nads : Nads}
    (hnads : nadsNormalize o.before o.uribuf r.uri.bytes = .ok nads) (hfail : nads.ret = NADS_FAIL)
    (hcode : nads.errcode = NADS_ERR_TRAVERSAL) (hok : h.handleGet s r head o = .ok h') : ¬ Hit h' := by
  intro hhit
  obtain ⟨u, hleaves, hholds, hlen⟩ := (nadsNormalize_refused_iff hnads).mp hfail
  obtain ⟨w, n, ⟨nads', hnads', hhost, hfind⟩, -⟩ := (handleGet_hit_iff hres hr hmask).mp ⟨h', hok, hhit⟩
  cases hnads.symm.trans hnads'
  rw [hcode] at hleaves
  exact hleaves.not_rooted (hrooted w u n hhost ((names_of_holds (hlabels w hhost) hholds hlen n).mp hfind))

end Ashttpd
