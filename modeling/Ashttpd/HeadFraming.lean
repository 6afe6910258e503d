import Ashttpd.BlankLines
import Ashttpd.ConnectionReads

/-!
# Answers to HEAD requests

The pages that `response_301`, `response_403` and `response_404` queue are sent whatever the method was: only
for a file that is found does `handle_get` leave the body out. A client that has asked for the head of
something else takes the page for the beginning of the next response.
-/
namespace Ashttpd

/-- The bytes an event hands to the socket. -/
def Event.handed : Event → Bytes
  | .sent _ bytes => bytes
  | _ => []

def sentBytes (log : List Event) : Bytes := log.flatMap Event.handed

/-- The answer to a HEAD request for this would have a body: there is nothing to be found, a redirect or
something forbidden, or a file the type of which has a blank line in it or at its end. -/
def HeadHasBody (s : Server) (r : HttpRequest) (o : ReadResults) : Prop :=
  ∃ nads, nadsNormalize o.before o.uribuf r.uri.bytes = .ok nads ∧
    match s.vhostsLookup (untilNul r.host.bytes) with
    | none => True
    | some w =>
      match webrootFind (s.roots.index w) nads.uri 0 (nads.uri.cstr NADS_MAX_URI 0).length with
      | .error _ => False
      | .ok none => True
      | .ok (some n) =>
        if n.code = HTTP_MOVED_PERMANENTLY then
          ∃ target, n.u = .moved (some target) ∧
            (resp301 (untilNul r.host.bytes) (untilNul target)).length ≤ HTTP_MAX_REQ
        else n.code = HTTP_FORBIDDEN ∨ ∃ mimeType ofs len mtime etag,
          n.mimeType = some mimeType ∧ n.u = .data ofs len mtime etag ∧
            HeaderFits (fileHeader r mimeType len mtime etag) ∧ behindBlankLine (mimeType ++ [CR, LF]) ≠ none

/-- While the answer is sent, nothing goes behind its first blank line, and it is complete there. -/
def EndsWithHead (s : Server) (h₀ : HttpConn) : Prop :=
  ∀ es h, GuardedRun (HttpConn.Steps s) (fun h _ => h.Responding) h₀ es h →
    ∃ new, h.log = h₀.log ++ new ∧ EndsAtBlankLine (sentBytes new) ∧
      (h.hState = .request → behindBlankLine (sentBytes new) = some [])

variable {s : Server} {h h' : HttpConn} {r : HttpRequest} {o : ReadResults} {text : Bytes}

@[simp] theorem sentBytes_append (l l' : List Event) : sentBytes (l ++ l') = sentBytes l ++ sentBytes l' := by
  simp [sentBytes]

@[simp] theorem sentBytes_nil : sentBytes [] = [] := rfl

@[simp] theorem sentBytes_cons (e : Event) (l : List Event) : sentBytes (e :: l) = e.handed ++ sentBytes l := by
  simp [sentBytes]

/-- With HEAD, an answer has a body exactly if one of the texts with something behind a blank line is queued. -/
theorem headHasBody_iff (hclose : h.hConnClose = r.connClose.toNat) :
    HeadHasBody s r o ↔ ∃ text, Queues s h r true o text ∧ HasPage text := by
  have hheader : ∀ mimeType len mtime etag,
      queuedHeader h r mimeType len mtime etag = fileHeader r mimeType len mtime etag := by
    intro mimeType len mtime etag
    unfold queuedHeader fileHeader
    rw [hclose]
  constructor
  · rintro ⟨nads, hnads, hbody⟩
    split at hbody
    · next hhost => exact ⟨_, .unknownHost hnads hhost, by decide⟩
    · next w hhost =>
      split at hbody
      · exact hbody.elim
      · next hfind => exact ⟨_, .missing hnads hhost hfind, by decide⟩
      · next n hfind =>
        have hfinds : Finds s r o w n := ⟨nads, hnads, hhost, hfind⟩
        split at hbody
        · next hcode =>
          obtain ⟨target, htarget, hfit⟩ := hbody
          exact ⟨_, .moved hfinds hcode htarget hfit, hasPage_redirectText _ _⟩
        · next hmoved =>
          by_cases hforbidden : n.code = HTTP_FORBIDDEN
          · exact ⟨_, .forbidden hfinds hforbidden, by decide⟩
          · obtain ⟨mimeType, ofs, len, mtime, etag, hmime, hfile, hfits, hblank⟩ := hbody.resolve_left hforbidden
            rw [← hheader] at hfits
            refine ⟨_, .file hfinds ⟨hmoved, hforbidden⟩ hmime hfile hfits (Or.inr (Or.inl rfl)), ?_⟩
            rw [hasPage_headerText_iff]
            exact hblank
  · rintro ⟨text, hqueues, hpage⟩
    cases hqueues with
    | @unknownHost nads hnads hhost =>
      refine ⟨nads, hnads, ?_⟩
      rw [hhost]
      trivial
    | @missing nads w hnads hhost hfind =>
      refine ⟨nads, hnads, ?_⟩
      rw [hhost]
      dsimp only
      rw [hfind]
      trivial
    | @moved w n target hfinds hcode htarget hfit =>
      obtain ⟨nads, hnads, hhost, hfind⟩ := hfinds
      refine ⟨nads, hnads, ?_⟩
      rw [hhost]
      dsimp only
      rw [hfind]
      dsimp only
      rw [if_pos hcode]
      exact ⟨target, htarget, hfit⟩
    | @forbidden w n hfinds hcode =>
      obtain ⟨nads, hnads, hhost, hfind⟩ := hfinds
      refine ⟨nads, hnads, ?_⟩
      rw [hhost]
      dsimp only
      rw [hfind]
      dsimp only
      rw [if_neg (by rw [hcode]; decide)]
      exact Or.inl hcode
    | unready hfinds hcode hmime hfile hnone =>
      obtain ⟨-, -, hbare, -⟩ := prepareBody_cases hnone
      cases (hbare rfl).2
    | @file w ofs len n mimeType etag mtime hfinds hcode hmime hfile hfits hbody =>
      obtain ⟨nads, hnads, hhost, hfind⟩ := hfinds
      refine ⟨nads, hnads, ?_⟩
      rw [hhost]
      dsimp only
      rw [hfind]
      dsimp only
      rw [if_neg hcode.1]
      rw [hasPage_headerText_iff] at hpage
      exact Or.inr ⟨mimeType, ofs, len, mtime, etag, hmime, hfile, by rwa [hheader] at hfits, hpage⟩

/-- The texts for HEAD without a body are headers: their first blank line is their end. -/
theorem Queues.complete (hq : Queues s h r true o text) (hpage : ¬ HasPage text) :
    behindBlankLine text = some [] := by
  cases hq with
  | unknownHost => exact absurd (by decide) hpage
  | missing => exact absurd (by decide) hpage
  | moved => exact absurd (hasPage_redirectText _ _) hpage
  | forbidden => exact absurd (by decide) hpage
  | unready hfinds hcode hmime hfile hnone =>
    obtain ⟨-, -, hbare, -⟩ := prepareBody_cases hnone
    cases (hbare rfl).2
  | file =>
    rw [hasPage_headerText_iff, not_not] at hpage
    exact behindBlankLine_of_clean hpage

/-- How far a connection is with sending a text that nothing follows. -/
structure Telling (text : Bytes) (h₀ h : HttpConn) (new : List Event) : Prop where
  log : h.log = h₀.log ++ new
  idle : h.aio = none
  fd : h.hState ≠ .dead → h.hNbio.fd = true
  left : match h.hState with
    | .header => h.hDataLen = 0 ∧ ∃ res, h.hRes = some res ∧ sentBytes new ++ res.unread = text
    | .request => sentBytes new = text
    | .data => False
    | .dead => sentBytes new <+: text

/-- Killing a connection sends nothing. -/
theorem httpKill_unsent {fio : Fio} (hstate : h.hState = .header) (hfd : h.hNbio.fd = true)
    (hok : h.httpKill fio = .ok h') :
    h'.hState = .dead ∧ h'.aio = h.aio ∧ ∃ new, h'.log = h.log ++ new ∧ sentBytes new = [] := by
  have hunsent : ∀ (b : Option HttpBuf) (kind : BufKind),
      sentBytes (b.toList.map fun _ => Event.freed kind) = [] := by
    intro b kind
    cases b with
    | none => rfl
    | some b => rfl
  unfold HttpConn.httpKill at hok
  rw [if_neg (by simp [hfd])] at hok
  obtain ⟨h₁, hdrop, rfl⟩ := map_eq_ok_iff.mp hok
  rw [free_eq_logged] at hdrop
  unfold HttpConn.dropResponse at hdrop
  have hstate' : (h.close.logged (h.hReq.toList.map fun _ => Event.freed .req)).hState = .header := hstate
  rw [hstate'] at hdrop
  dsimp only at hdrop
  rw [free_eq_logged, HttpConn.logged_logged] at hdrop
  have habort : ∃ new, h₁ = h.close.logged new ∧ sentBytes new = [] := by
    unfold HttpConn.ioAbort at hdrop
    split at hdrop
    · cases hdrop
      exact ⟨_, rfl, by rw [sentBytes_append, hunsent, hunsent]; rfl⟩
    · obtain ⟨priv, -, hdrop⟩ := bind_eq_ok_iff.mp hdrop
      cases hdrop
      rw [free_eq_logged, HttpConn.logged_logged]
      exact ⟨_, rfl, by rw [sentBytes_append, sentBytes_append, hunsent, hunsent, hunsent]; rfl⟩
    · obtain ⟨priv, -, hdrop⟩ := bind_eq_ok_iff.mp hdrop
      cases hdrop
      rw [free_eq_logged, HttpConn.logged_logged]
      exact ⟨_, rfl, by rw [sentBytes_append, sentBytes_append, hunsent, hunsent, hunsent]; rfl⟩
  obtain ⟨new, rfl, hnew⟩ := habort
  refine ⟨rfl, rfl, [.closed] ++ new, ?_, ?_⟩
  · show h.log ++ [.closed] ++ new = h.log ++ ([.closed] ++ new)
    rw [List.append_assoc]
  · rw [sentBytes_append, hnew]
    rfl

variable {h₀ : HttpConn} {new : List Event}

theorem Telling.withNbio (ht : Telling text h₀ h new) {io : Nbio} (hfd : io.fd = h.hNbio.fd) :
    Telling text h₀ (h.withNbio io) new :=
  ⟨ht.log, ht.idle, fun hlive => hfd.trans (ht.fd hlive), ht.left⟩

theorem Telling.header (ht : Telling text h₀ h new) (hstate : h.hState = .header) :
    h.hDataLen = 0 ∧ ∃ res, h.hRes = some res ∧ sentBytes new ++ res.unread = text := by
  have hleft := ht.left
  rw [hstate] at hleft
  exact hleft

theorem telling_header {res : HttpBuf} (hlog : h.log = h₀.log ++ new) (hidle : h.aio = none) (hfd : h.hNbio.fd = true)
    (hstate : h.hState = .header) (hlen : h.hDataLen = 0) (hres : h.hRes = some res)
    (htext : sentBytes new ++ res.unread = text) : Telling text h₀ h new := by
  refine ⟨hlog, hidle, fun _ => hfd, ?_⟩
  rw [hstate]
  exact ⟨hlen, res, hres, htext⟩

/-- A connection that is to be killed while it sends a text. -/
structure Refused (text : Bytes) (h₀ h : HttpConn) (new : List Event) : Prop where
  log : h.log = h₀.log ++ new
  idle : h.aio = none
  fd : h.hNbio.fd = true
  state : h.hState = .header
  sent : sentBytes new <+: text

theorem Telling.refused (ht : Telling text h₀ h new) (hstate : h.hState = .header) : Refused text h₀ h new := by
  obtain ⟨-, res, -, htext⟩ := ht.header hstate
  exact ⟨ht.log, ht.idle, ht.fd (by simp [hstate]), hstate, ⟨res.unread, htext⟩⟩

theorem Refused.kill {fio : Fio} (hr : Refused text h₀ h new) (hok : h.httpKill fio = .ok h') :
    ∃ new', Telling text h₀ h' new' := by
  obtain ⟨hdead, haio, last, hlog, hlast⟩ := httpKill_unsent hr.state hr.fd hok
  refine ⟨new ++ last, ?_, haio.trans hr.idle, fun hlive => absurd hdead hlive, ?_⟩
  · rw [hlog, hr.log, List.append_assoc]
  · rw [hdead]
    show sentBytes (new ++ last) <+: text
    rw [sentBytes_append, hlast, List.append_nil]
    exact hr.sent

/-- `http_write_hdr` sends the text from where it is. -/
theorem Telling.httpWriteHdr (ht : Telling text h₀ h new) (hstate : h.hState = .header) {send : SendResult} {ok : Bool}
    (hok : h.httpWriteHdr send = .ok (h', ok)) :
    ∃ new', if ok then Telling text h₀ h' new' else Refused text h₀ h' new' := by
  obtain ⟨hlen, res, hres, htext⟩ := ht.header hstate
  unfold HttpConn.httpWriteHdr at hok
  rw [hres] at hok
  obtain ⟨_, hderef, hok⟩ := bind_eq_ok_iff.mp hok
  cases hderef
  cases send with
  | eagain =>
    cases hok
    exact ⟨new, ht.withNbio (HttpConn.nbioInactive_fd _ _)⟩
  | error =>
    cases hok
    exact ⟨new, ht.refused hstate⟩
  | sent n =>
    dsimp only at hok
    split at hok
    · cases hok
      exact ⟨new, ht.refused hstate⟩
    · obtain ⟨rest, hdone, hok⟩ := bind_eq_ok_iff.mp hok
      obtain ⟨-, hrest⟩ := HttpBuf.unread_of_bufDoneRead hdone
      obtain ⟨bs, hbs⟩ : ∃ bs, bs = res.unread.take (min n res.bufRead) := ⟨_, rfl⟩
      have htext' : sentBytes (new ++ [.sent .header bs]) ++ rest.unread = text := by
        rw [sentBytes_append, List.append_assoc, hrest, hbs, ← htext]
        show sentBytes new ++ (res.unread.take _ ++ [] ++ res.unread.drop _) = _
        rw [List.append_nil, List.take_append_drop]
      have hlog : h.log ++ [.sent .header bs] = h₀.log ++ (new ++ [.sent .header bs]) := by
        rw [ht.log, List.append_assoc]
      have hfd := ht.fd (by simp [hstate])
      rw [hstate, ← hbs] at hok
      split at hok
      · cases hok
        have htell : Telling text h₀ ((h.logged [.sent .header bs]).withRes (some rest))
            (new ++ [Event.sent .header bs]) :=
          telling_header hlog ht.idle hfd hstate hlen rfl htext'
        exact ⟨_, htell⟩
      · next hempty =>
        have hsent : sentBytes (new ++ [.sent .header bs]) = text := by
          rw [not_not, ← HttpBuf.unread_length, List.length_eq_zero_iff] at hempty
          rwa [hempty, List.append_nil] at htext'
        have hfreed : sentBytes (new ++ [.sent .header bs] ++ [.freed .res]) = text := by
          rw [sentBytes_append, hsent]
          exact List.append_nil text
        have hlog' : h.log ++ [.sent .header bs] ++ [.freed .res] =
            h₀.log ++ (new ++ [.sent .header bs] ++ [.freed .res]) := by
          rw [hlog, List.append_assoc]
        obtain ⟨g, hg⟩ : ∃ g, g = ((h.logged [.sent .header bs]).free (some rest) .res).withRes none := ⟨_, rfl⟩
        have hglen : ¬ g.hDataLen ≠ 0 := by
          rw [hg]
          exact not_not.mpr hlen
        rw [← hg] at hok
        unfold HttpConn.headerDone at hok
        rw [if_neg hglen] at hok
        split at hok
        · have hrefused : Refused text h₀ g (new ++ [Event.sent .header bs] ++ [Event.freed .res]) := by
            rw [hg]
            exact ⟨hlog', ht.idle, hfd, hstate, by rw [hfreed]⟩
          cases hok
          exact ⟨_, hrefused⟩
        · obtain ⟨h₁, hwait, hok⟩ := bind_eq_ok_iff.mp hok
          cases hok
          unfold HttpConn.nbioSetWait at hwait
          obtain ⟨io, hio, rfl⟩ := map_eq_ok_iff.mp hwait
          unfold Nbio.doSetWait at hio
          split at hio
          · cases hio
          · cases hio
            subst hg
            exact ⟨new ++ [Event.sent .header bs] ++ [Event.freed .res], hlog', ht.idle, fun _ => hfd, hfreed⟩

/-- Every step while a text is sent goes on with it, or kills the connection. -/
theorem Telling.step (ht : Telling text h₀ h new) (hr : h.Responding) {e : HttpConn.Happening}
    (hstep : h.Steps s e h') : ∃ new', Telling text h₀ h' new' := by
  have hstate : h.hState = .header := by
    refine hr.resolve_left fun hdata => ?_
    have hleft := ht.left
    rw [hdata] at hleft
    exact hleft
  unfold HttpConn.Steps HttpConn.step at hstep
  cases e with
  | ready flags =>
    dsimp only at hstep
    split at hstep
    · cases hstep
      exact ⟨new, ht.withNbio rfl⟩
    · cases hstep
  | error =>
    dsimp only at hstep
    split at hstep
    · cases hstep
      exact ⟨new, ht.withNbio rfl⟩
    · cases hstep
  | read o =>
    dsimp only at hstep
    split at hstep
    · obtain ⟨h₁, hok, -⟩ := map_eq_ok_iff.mp hstep
      unfold HttpConn.httpRead at hok
      rw [if_pos (by simp [hstate])] at hok
      cases hok
    · cases hstep
  | completion result =>
    dsimp only at hstep
    rw [ht.idle] at hstep
    cases hstep
  | write o =>
    dsimp only at hstep
    split at hstep
    · obtain ⟨h₁, hok, hsome⟩ := map_eq_ok_iff.mp hstep
      cases hsome
      unfold HttpConn.httpWrite HttpConn.httpWriteState at hok
      rw [hstate] at hok
      obtain ⟨⟨h₂, ok⟩, hhdr, hok⟩ := bind_eq_ok_iff.mp hok
      obtain ⟨new', htell⟩ := ht.httpWriteHdr hstate hhdr
      cases ok with
      | true =>
        cases hok
        exact ⟨new', htell⟩
      | false => exact htell.kill hok
    · cases hstep

theorem Telling.run (ht : Telling text h₀ h₀ []) {es : List HttpConn.Happening}
    (hrun : GuardedRun (HttpConn.Steps s) (fun h _ => h.Responding) h₀ es h) : ∃ new, Telling text h₀ h new := by
  refine hrun.invariant (I := fun _ h => ∃ new, Telling text h₀ h new) ?_ ⟨[], ht⟩
  rintro _ h e h' ⟨new, ht⟩ hr hstep
  exact ht.step hr hstep

theorem Telling.sent_prefix (ht : Telling text h₀ h new) : sentBytes new <+: text := by
  have hleft := ht.left
  split at hleft
  · obtain ⟨-, res, -, htext⟩ := hleft
    exact ⟨res.unread, htext⟩
  · rw [hleft]
  · exact hleft.elim
  · exact hleft

/-- A connection that sends a header and nothing else ends with it. -/
theorem Telling.endsWithHead (ht : Telling text h₀ h₀ []) (htext : behindBlankLine text = some []) :
    EndsWithHead s h₀ := by
  intro es h hrun
  obtain ⟨new, hnew⟩ := ht.run hrun
  have hends : EndsAtBlankLine text := by
    intro rest hrest
    cases htext.symm.trans hrest
    rfl
  refine ⟨new, hnew.log, hends.of_prefix hnew.sent_prefix, fun hstate => ?_⟩
  have hleft := hnew.left
  rw [hstate] at hleft
  rw [show sentBytes new = text from hleft]
  exact htext

theorem steps_write {o : HttpConn.WriteResults} (hcalled : h.Called NBIO_WRITE)
    (hok : h.httpWrite s.fio s.roots o = .ok h') : h.Steps s (.write o) h' := by
  unfold HttpConn.Steps HttpConn.step
  dsimp only
  rw [if_pos hcalled]
  exact map_eq_ok_iff.mpr ⟨h', hok, rfl⟩

theorem httpWriteHdr_all {res : HttpBuf} (hres : h.hRes = some res) (hpos : res.bufRead ≠ 0) :
    ∃ rest, h.httpWriteHdr (.sent res.bufRead) =
      (((h.logged [.sent h.hState res.unread]).free (some rest) .res).withRes none).headerDone := by
  obtain ⟨rest, hdone, -⟩ := res.bufDoneRead_spec (Nat.le_refl res.bufRead)
  have hempty : rest.bufRead = 0 := by
    rw [← HttpBuf.unread_length, (HttpBuf.unread_of_bufDoneRead hdone).2, List.length_drop, HttpBuf.unread_length]
    omega
  refine ⟨rest, ?_⟩
  unfold HttpConn.httpWriteHdr
  rw [hres]
  simp only [deref, ok_bind, Nat.min_self]
  rw [if_neg hpos, hdone, ok_bind, if_neg (by simp [hempty]), ← HttpBuf.unread_length, List.take_length]

/-- Where nothing follows a header that is out, the connection is closed or waits for a request. -/
theorem httpWrite_headerDone {g : HttpConn} {o : HttpConn.WriteResults} (hstate : h.hState = .header)
    (hhdr : h.httpWriteHdr o.send = g.headerDone) (hdata : g.hDataLen = 0) (hfd : g.hNbio.fd = true)
    (hmask : g.hNbio.mask ≠ NBIO_DELETED) (hkill : g.Killable s.fio) :
    h.httpWrite s.fio s.roots o = .ok (if g.hConnClose ≠ 0 then (g.close.logged g.held).buried
      else (g.withNbio (HttpConn.waiting g.hNbio NBIO_READ)).withState .request) := by
  unfold HttpConn.httpWrite HttpConn.httpWriteState
  rw [hstate]
  dsimp only
  rw [hhdr, HttpConn.headerDone, if_neg (not_not.mpr hdata)]
  by_cases hclose : g.hConnClose ≠ 0
  · rw [if_pos hclose, if_pos hclose]
    exact httpKill_eq hfd hkill
  · rw [if_neg hclose, if_neg hclose, HttpConn.nbioSetWait_eq hmask]
    rfl

/-- A connection that sends a page goes behind the first blank line: its text may go in one piece. -/
theorem Telling.not_endsWithHead (ht : Telling text h₀ h₀ []) (hcalled : h₀.Called NBIO_WRITE)
    (hstate : h₀.hState = .header) (hkill : h₀.Killable s.fio) (hpage : HasPage text) : ¬ EndsWithHead s h₀ := by
  obtain ⟨hlen, res, hres, htext⟩ := ht.header hstate
  have hfd := ht.fd (by simp [hstate])
  have hmask : h₀.hNbio.mask ≠ NBIO_DELETED := by
    intro hdel
    have hflag := hcalled.2
    rw [hdel, UInt8.and_assoc, (by decide : NBIO_DELETED &&& NBIO_WRITE = 0), UInt8.and_zero] at hflag
    exact hflag rfl
  rw [sentBytes_nil, List.nil_append] at htext
  have hpos : res.bufRead ≠ 0 := by
    rw [← HttpBuf.unread_length, htext]
    intro hzero
    rw [List.length_eq_zero_iff.mp hzero] at hpage
    obtain ⟨rest, hrest, -⟩ := hpage
    cases hrest
  obtain ⟨rest, hhdr⟩ := httpWriteHdr_all hres hpos
  rw [hstate, htext] at hhdr
  have hsteps : ∃ h, h₀.Steps s (.write ⟨.sent res.bufRead, [], .submitted⟩) h ∧ ∃ last,
      h.log = h₀.log ++ .sent .header text :: last := by
    obtain ⟨g, hg⟩ : ∃ g, g = ((h₀.logged [.sent .header text]).free (some rest) .res).withRes none := ⟨_, rfl⟩
    rw [← hg] at hhdr
    have hlog : g.log = h₀.log ++ .sent .header text :: [.freed .res] := by
      rw [hg]
      show h₀.log ++ [.sent .header text] ++ [.freed .res] = _
      rw [List.append_assoc]
      rfl
    have hkill' : g.Killable s.fio := by
      rw [hg]
      exact ⟨hkill.idle, hkill.state, fun _ => rfl, hkill.priv⟩
    have hwrite := @httpWrite_headerDone s h₀ g ⟨.sent res.bufRead, [], .submitted⟩ hstate hhdr (by rw [hg]; exact hlen)
      (by rw [hg]; exact hfd) (by rw [hg]; exact hmask) hkill'
    refine ⟨_, steps_write hcalled hwrite, ?_⟩
    split
    · refine ⟨[.freed .res] ++ (.closed :: g.held), ?_⟩
      show g.log ++ [.closed] ++ g.held = _
      rw [hlog]
      simp
    · exact ⟨[.freed .res], hlog⟩
  obtain ⟨h, hstep, last, hlog⟩ := hsteps
  intro hends
  obtain ⟨new, hnew, hblank, -⟩ := hends _ h (.step (.start h₀) (Or.inr hstate) hstep)
  have heq : new = .sent .header text :: last := List.append_cancel_left (hnew.symm.trans hlog)
  rw [heq, sentBytes_cons] at hblank
  exact (hasPage_iff text).mp hpage (hblank.of_prefix (List.prefix_append text _))

theorem endsWithHead_of_dead (hdead : h₀.hState = .dead) : EndsWithHead s h₀ := by
  intro es h hrun
  have hstill : h = h₀ := by
    refine hrun.invariant (I := fun _ h => h = h₀) ?_ rfl
    rintro _ _ e h' rfl hr -
    exact absurd hr (by simp [HttpConn.Responding, hdead])
  refine ⟨[], by rw [hstill, List.append_nil], nofun, fun hstate => ?_⟩
  rw [hstill, hdead] at hstate
  cases hstate

/-- The end of `handle_request` does not touch the response. -/
theorem finishRequest_keeps {hlen : ℕ} (hok : h.finishRequest hlen = .ok h') :
    SameResponse h h' ∧ h'.hState = h.hState ∧ h'.hNbio = h.hNbio ∧ h'.aio = h.aio ∧ h'.hIoPriv = h.hIoPriv := by
  unfold HttpConn.finishRequest at hok
  obtain ⟨req, -, hok⟩ := bind_eq_ok_iff.mp hok
  obtain ⟨rest, -, hok⟩ := bind_eq_ok_iff.mp hok
  dsimp only at hok
  split at hok
  · cases hok
    exact ⟨⟨rfl, rfl, rfl, rfl, rfl⟩, rfl, rfl, rfl, rfl⟩
  · cases hok
    exact ⟨⟨rfl, rfl, rfl, rfl, rfl⟩, rfl, rfl, rfl, rfl⟩

theorem not_sameText_get {method : Bytes} (hhead : SameText method HttpConn.methodHead) :
    ¬ SameText method HttpConn.methodGet := by
  intro hget
  have hlen := hhead.length_eq.symm.trans hget.length_eq
  exact absurd hlen (by decide)

/-- A HEAD request without a body is answered by `handle_get`. -/
theorem handleRequest_head (hp : h.Poised s.fio) (hstate : h.hState = .request) {req : HttpBuf}
    (hreq : h.hReq = some req) {hlen : ℕ} (hparsed : httpReq {} req.unread = (hlen, r)) (hpos : hlen ≠ 0)
    (hhead : SameText r.method.bytes HttpConn.methodHead) {block : Mem} (hblock : o.resBlock = some block)
    (hbody : r.contentLen = 0) :
    h.handleRequest s o = ((h.toAnswer block r.connClose.toNat).handleGet s (HttpConn.defaultHost r o.sockname) true o
      >>= fun h' => h'.finishRequest hlen) := by
  rw [handleRequest_answers hp.mask_ne hstate hreq hparsed hpos hblock hbody]
  unfold HttpConn.answer
  rw [HttpConn.defaultHost_method, if_neg (mt (vstrcmpFast_eq_zero_iff _ _).mp (not_sameText_get hhead)),
    if_pos ((vstrcmpFast_eq_zero_iff _ _).mpr hhead)]

/-- The answer to a HEAD request ends with its header exactly if the request is not answered, or is for a file
the type of which has no blank line in it or behind it. -/
theorem head_answer_ends_iff (hp : h.Poised s.fio) (hidle : h.aio = none) (hstate : h.hState = .request)
    {req : HttpBuf} (hreq : h.hReq = some req) {hlen : ℕ} (hparsed : httpReq {} req.unread = (hlen, r))
    (hpos : hlen ≠ 0) (hhead : SameText r.method.bytes HttpConn.methodHead) :
    (∀ h₀, h.handleRequest s o = .ok h₀ → EndsWithHead s h₀) ↔
      ¬ (o.resBlock ≠ none ∧ r.contentLen = 0 ∧ HeadHasBody s (HttpConn.defaultHost r o.sockname) o) := by
  have hle : hlen ≤ req.bufRead := by
    have hle := httpReq_fst_le req.unread
    rwa [hparsed, req.unread_length] at hle
  have hclose : r.connClose = (HttpConn.defaultHost r o.sockname).connClose := by simp
  have hfd := hp.unclosed.fd
  cases hblock : o.resBlock with
  | none =>
    refine iff_of_true ?_ (by simp)
    intro h₀ hok
    unfold HttpConn.handleRequest at hok
    rw [if_neg (by simp [hstate]), hblock] at hok
    exact endsWithHead_of_dead (httpKill_dead (h := h.withRes none) hfd hok)
  | some block =>
    by_cases hbody : r.contentLen = 0
    · have hrun := handleRequest_head hp hstate hreq hparsed hpos hhead hblock hbody
      obtain ⟨g, hg⟩ : ∃ g, g = h.toAnswer block r.connClose.toNat := ⟨_, rfl⟩
      have hres : g.hRes = some (.alloc block HTTP_MAX_REQ) := by
        rw [hg]
        rfl
      have hgstate : g.hState = .header := by
        rw [hg]
        rfl
      have hgnbio : g.hNbio = HttpConn.waiting h.hNbio NBIO_WRITE := by
        rw [hg]
        rfl
      have hgclose : g.hConnClose = (HttpConn.defaultHost r o.sockname).connClose.toNat := by
        rw [hg, ← hclose]
        rfl
      have hgkill : g.aio = none ∧ g.hIoPriv = none := by
        rw [hg]
        exact ⟨hidle, hp.noBody (Or.inl hstate)⟩
      have htell : ∀ {text h' h₀}, Says g h' text → h'.finishRequest hlen = .ok h₀ →
          Telling text h₀ h₀ [] ∧ h₀.Called NBIO_WRITE ∧ h₀.hState = .header ∧ h₀.Killable s.fio := by
        rintro text h' h₀ ⟨res, off, hun, rfl⟩ hfinish
        obtain ⟨hsame, hstate₀, hnbio₀, haio₀, hpriv₀⟩ := finishRequest_keeps hfinish
        have hres₀ : h₀.hRes = some res := hsame.res
        have hlen₀ : h₀.hDataLen = 0 := hsame.len
        have hstate₀ : h₀.hState = .header := hstate₀.trans hgstate
        have haio₀ : h₀.aio = none := haio₀.trans hgkill.1
        have hnbio₀ : h₀.hNbio = HttpConn.waiting h.hNbio NBIO_WRITE := hnbio₀.trans hgnbio
        refine ⟨telling_header (List.append_nil _).symm haio₀ (by rw [hnbio₀]; exact hfd) hstate₀ hlen₀ hres₀ hun, ?_,
          hstate₀, haio₀, by simp [hstate₀], fun hne => absurd hstate₀ hne, fun _ => hpriv₀.trans hgkill.2⟩
        unfold HttpConn.Called
        rw [hnbio₀]
        exact ⟨rfl, (by decide : NBIO_WRITE &&& NBIO_WAIT &&& (NBIO_WRITE &&& NBIO_WAIT) &&& NBIO_WRITE ≠ 0)⟩
      rw [← hg] at hrun
      rw [hrun, headHasBody_iff hgclose]
      constructor
      · rintro hall ⟨-, -, text, hqueues, hpage⟩
        have hmask : g.hNbio.mask ≠ NBIO_DELETED := by
          rw [hgnbio]
          exact (by decide : NBIO_WRITE &&& NBIO_WAIT ≠ NBIO_DELETED)
        obtain ⟨h', hget, -, hsaid, -⟩ := hqueues.handleGet hres (Or.inr hgstate) hmask
        have hreq' : h'.hReq = some req := by
          obtain ⟨res, off, -, rfl⟩ := hsaid rfl
          show g.hReq = some req
          rw [hg]
          exact hreq
        obtain ⟨h₀, hfinish, -⟩ := finishRequest_response hreq' hle
        obtain ⟨ht, hcalled, hstate₀, hkill⟩ := htell (hsaid rfl) hfinish
        exact ht.not_endsWithHead hcalled hstate₀ hkill hpage (hall h₀ (by rw [hget, ok_bind, hfinish]))
      · intro hnone h₀ hok
        obtain ⟨h', hget, hfinish⟩ := bind_eq_ok_iff.mp hok
        obtain ⟨text, hqueues, -, hsaid, -⟩ := handleGet_queues hres hget
        obtain ⟨ht, -⟩ := htell (hsaid rfl) hfinish
        exact ht.endsWithHead (hqueues.complete fun hpage => hnone ⟨by simp, hbody, text, hqueues, hpage⟩)
    · refine iff_of_true ?_ fun hcond => hbody hcond.2.1
      intro h₀ hok
      unfold HttpConn.handleRequest at hok
      rw [if_neg (by simp [hstate]), hblock] at hok
      dsimp only at hok
      rw [HttpConn.nbioSetWait_eq (h := (h.withRes (some (.alloc block HTTP_MAX_REQ))).withState .header) hp.mask_ne,
        ok_bind] at hok
      simp only [HttpConn.withNbio_hReq, HttpConn.withState_hReq, HttpConn.withRes_hReq, hreq, deref, ok_bind,
        hparsed] at hok
      unfold HttpConn.handleParsed at hok
      rw [if_neg hpos, if_pos hbody] at hok
      exact endsWithHead_of_dead (httpKill_dead (by exact hfd) hok)

/-- "HEAD uri HTTP/1.1". -/
def headFor (uri : Bytes) (huri : IsWord uri) : ReqHead where
  method := HttpConn.methodHead
  uri := uri
  version := ascii "HTTP/1.1"
  fields := []
  methodWord := ⟨by decide, by decide, by decide, by decide⟩
  uriWord := huri
  versionWord := versionWord
  fieldsOk := noFields

theorem otherWord : IsWord (ascii "/x") := ⟨by decide, by decide, by decide, by decide⟩

theorem askingConn_poised {head : ReqHead} (hlen : head.text.length ≤ HTTP_MAX_RESP) :
    (askingConn head hlen).Poised taggedServer.fio := by
  refine ⟨⟨rfl, rfl, nofun⟩, nofun, fun _ => rfl, fun hne => absurd rfl hne, ?_, ?_, fun _ => rfl, fun _ => rfl⟩
  · exact ⟨fun hne => absurd rfl hne, nofun⟩
  · rintro (hcase | ⟨hcase, -⟩)
    · cases hcase
    · cases hcase

/-- The answer to a HEAD request for the file that there is ends with its header. -/
theorem head_answer_ends_iff_file : ∃ h₀,
    (askingConn (headFor [47] rootWord) (by decide)).handleRequest taggedServer enoughMemory = .ok h₀ ∧
    EndsWithHead taggedServer h₀ := by
  have hlen : (headFor [47] rootWord).text.length ≤ HTTP_MAX_RESP := by decide
  have hall : ((askingConn (headFor [47] rootWord) (by decide)).handleRequest taggedServer
      enoughMemory).toOption.any (fun _ => true) = true := by
    decide +kernel
  obtain ⟨h₀, hok, -⟩ := exists_of_any hall
  refine ⟨h₀, hok, ?_⟩
  obtain ⟨r, hparsed, hmethod, huri, -⟩ := httpReq_head (headFor [47] rootWord) []
  have hun : ∀ req, (askingConn (headFor [47] rootWord) hlen).hReq = some req →
      req.unread = (headFor [47] rootWord).text ++ [] := by
    rintro req ⟨⟩
    rw [List.append_nil]
    exact Mem.slice_store_same _ 0 _
  rw [← hun _ rfl] at hparsed
  apply (head_answer_ends_iff (askingConn_poised hlen) rfl rfl rfl hparsed (by decide)
    (by rw [hmethod]; rfl)).mpr ?_ h₀ hok
  rintro ⟨-, -, nads, hnads, hbody⟩
  rw [HttpConn.defaultHost_uri, huri] at hnads
  obtain ⟨nads', hnads', hfind⟩ := taggedServer_find
  cases hnads.symm.trans hnads'
  have hhost : taggedServer.vhostsLookup (untilNul (HttpConn.defaultHost r enoughMemory.sockname).host.bytes) = some 0 :=
    rfl
  rw [hhost] at hbody
  dsimp only at hbody
  rw [hfind] at hbody
  dsimp only at hbody
  rw [if_neg (by decide)] at hbody
  obtain hforbidden | ⟨mimeType, ofs, len, mtime, etag, hmime, -, -, hblank⟩ := hbody
  · cases hforbidden
  · cases hmime
    exact hblank (by decide)

/-- A HEAD request for something that is not there is answered with a page. -/
theorem head_answer_has_page : ∃ h₀ h,
    (askingConn (headFor (ascii "/x") otherWord) (by decide)).handleRequest taggedServer enoughMemory = .ok h₀ ∧
    sentBytes h₀.log = [] ∧
    GuardedRun (HttpConn.Steps taggedServer) (fun h _ => h.Responding) h₀ [.write ⟨.sent 2048, [], .submitted⟩] h ∧
    h.hState = .request ∧ HasPage (sentBytes h.log) := by
  have hall : ((askingConn (headFor (ascii "/x") otherWord) (by decide)).handleRequest taggedServer
      enoughMemory).toOption.any (fun h₀ => sentBytes h₀.log = [] ∧
        (play (HttpConn.next taggedServer) (fun h _ => h.Responding) h₀ [.write ⟨.sent 2048, [], .submitted⟩]).any
          (fun h => h.hState = .request ∧ HasPage (sentBytes h.log)) = true) = true := by
    decide +kernel
  obtain ⟨h₀, hok, hrest⟩ := exists_of_any hall
  obtain ⟨hnone, hplayed⟩ := of_decide_eq_true hrest
  obtain ⟨h, hplay, hend⟩ := (Option.any_eq_true _ _).mp hplayed
  have hend := of_decide_eq_true hend
  exact ⟨h₀, h, hok, hnone, guardedRun_of_play (fun _ _ _ => HttpConn.steps_of_next) hplay, hend.1, hend.2⟩

end Ashttpd
