import Ashttpd.Outcomes
import Ashttpd.RequestFrame

/-!
# The states of a connection

What `h_state` says of the flags waited for, of the buffers and of the scanner. Every callback leaves a
connection like that or kills it, once. What is said of faults is left open for `fio_async`.
-/
namespace Ashttpd

variable {h h' : HttpConn} {fio : Fio}

/-- The descriptor was not closed yet, and the connection not deleted. -/
structure HttpConn.Unclosed (h : HttpConn) : Prop where
  fd : h.hNbio.fd = true
  closed : h.log.count .closed = 0
  list : h.hNbio.list ≠ .deleted

/-- What the buffers of a connection are returned as. -/
def HttpConn.held (h : HttpConn) : List Event :=
  (h.hReq.toList.map fun _ => .freed .req) ++ (h.hRes.toList.map fun _ => .freed .res) ++
    h.hIoPriv.toList.map fun _ => .freed .data

/-- A connection that was killed, once, when all its buffers were returned. -/
structure HttpConn.Dead (h : HttpConn) : Prop where
  state : h.hState = .dead
  fd : h.hNbio.fd = false
  list : h.hNbio.list = .deleted
  idle : h.aio = none
  log : ∃ before, before.count .closed = 0 ∧ h.log = before ++ .closed :: h.held

/-- Whether a connection may be killed: it has no buffer that would be forgotten. -/
structure HttpConn.Killable (fio : Fio) (h : HttpConn) : Prop where
  idle : h.aio = none
  state : h.hState ≠ .dead
  res : h.hState ≠ .header → h.hRes = none
  priv : h.hState = .request ∨ fio = .sendfile → h.hIoPriv = none

/-- A connection that waits for a read that is in flight. -/
structure HttpConn.InFlight (h : HttpConn) : Prop where
  responding : h.Responding
  mask : h.hNbio.mask = 0
  list : h.hNbio.list = .inactive
  polled : h.hNbio.polled = false

theorem HttpConn.InFlight.congr (hi : h.InFlight) (hstate : h'.hState = h.hState) (hnbio : h'.hNbio = h.hNbio) :
    h'.InFlight := by
  obtain ⟨hresp, hmask, hlist, hpolled⟩ := hi
  rw [← hnbio] at hmask hlist hpolled
  refine ⟨?_, hmask, hlist, hpolled⟩
  unfold HttpConn.Responding at *
  rwa [hstate]

/-- What a connection waits for, and when it has a response, a buffer for the body and a webroot to read from. -/
structure HttpConn.Poised (fio : Fio) (h : HttpConn) : Prop where
  unclosed : h.Unclosed
  state : h.hState ≠ .dead
  mask : h.aio = none → h.hNbio.mask = if h.hState = .request then NBIO_READ else NBIO_WRITE
  inFlight : h.aio ≠ none → fio = .async ∧ h.InFlight
  res : h.hRes ≠ none ↔ h.hState = .header
  body : h.hState = .data ∨ h.hState = .header ∧ h.hDataLen ≠ 0 →
    h.hWebroot ≠ none ∧ (fio ≠ .sendfile → h.hIoPriv ≠ none)
  noBody : h.hState = .request ∨ h.hState = .header ∧ h.hDataLen = 0 → h.hIoPriv = none
  sendfile : fio = .sendfile → h.hIoPriv = none

/-- A connection between callbacks: its request can be scanned further, unless it is to be killed. -/
structure HttpConn.Standing (fio : Fio) (h : HttpConn) : Prop extends h.Poised fio where
  scan : h.hReq ≠ none → h.hRstate.terminal = false ∨ Doomed h

def HttpConn.Settled (fio : Fio) (h : HttpConn) : Prop := h.Standing fio ∨ h.Dead

def Written (fio : Fio) (p : HttpConn × Bool) : Prop :=
  p.2 = true ∧ p.1.Settled fio ∨ p.2 = false ∧ p.1.Unclosed ∧ p.1.Killable fio

abbrev NoFault : Fault → Prop := fun _ => False

abbrev AsyncFault (fio : Fio) : Fault → Prop := fun _ => fio = .async

theorem HttpConn.Unclosed.logged (hu : h.Unclosed) (new : List Event) (hnew : new.count .closed = 0) :
    (h.logged new).Unclosed := by
  refine ⟨hu.fd, ?_, hu.list⟩
  rw [HttpConn.logged_log, List.count_append, hu.closed, hnew]

theorem free_eq_logged (h : HttpConn) (b : Option HttpBuf) (kind : BufKind) :
    h.free b kind = h.logged (b.toList.map fun _ => .freed kind) := by
  cases b with
  | none =>
    unfold HttpConn.logged
    rw [Option.toList_none, List.map_nil, List.append_nil]
    rfl
  | some b => rfl

theorem held_count (h : HttpConn) : h.held.count .closed = 0 := by
  rw [List.count_eq_zero]
  simp [HttpConn.held]

theorem HttpConn.Dead.closed (hd : h.Dead) : h.log.count .closed = 1 := by
  obtain ⟨before, hbefore, hlog⟩ := hd.log
  rw [hlog, List.count_append, hbefore, List.count_cons_self, held_count]

theorem ioAbort_eq (hr : h.Responding) (hpriv : fio = .sendfile → h.hIoPriv = none) :
    h.ioAbort fio = .ok (h.logged (h.hIoPriv.toList.map fun _ => .freed .data)) := by
  cases fio with
  | sendfile =>
    rw [hpriv rfl]
    exact congrArg Except.ok (free_eq_logged h none .data)
  | sync | async =>
    unfold HttpConn.ioAbort
    rw [HttpConn.httpConnGetPriv_eq hr, ok_bind, free_eq_logged]
    rfl

/-- Whatever a connection does, the buffers for its response are returned. -/
theorem dropResponse_eq (hk : h.Killable fio) :
    h.dropResponse fio = .ok (h.logged ((h.hRes.toList.map fun _ => .freed .res) ++
      h.hIoPriv.toList.map fun _ => .freed .data)) := by
  have hpriv : fio = .sendfile → h.hIoPriv = none := fun hf => hk.priv (Or.inr hf)
  unfold HttpConn.dropResponse
  cases hstate : h.hState with
  | request =>
    have hres := hk.res (by simp [hstate])
    rw [hres, hk.priv (Or.inl hstate)]
    exact congrArg Except.ok (free_eq_logged h none .data)
  | header =>
    dsimp only
    rw [free_eq_logged, ioAbort_eq (h := h.logged (h.hRes.toList.map fun _ => .freed .res)) (Or.inr hstate) hpriv,
      HttpConn.logged_logged]
    rfl
  | data =>
    have hres := hk.res (by simp [hstate])
    dsimp only
    rw [ioAbort_eq (Or.inl hstate) hpriv, hres]
    rfl
  | dead => exact absurd hstate hk.state

theorem httpKill_eq (hfd : h.hNbio.fd = true) (hk : h.Killable fio) :
    h.httpKill fio = .ok (h.close.logged h.held).buried := by
  have hk' : (h.close.logged (h.hReq.toList.map fun _ => .freed .req)).Killable fio :=
    ⟨hk.idle, hk.state, hk.res, hk.priv⟩
  unfold HttpConn.httpKill
  rw [if_neg (by simp [hfd]), free_eq_logged, dropResponse_eq hk', HttpConn.logged_logged]
  unfold HttpConn.held
  rw [List.append_assoc]
  rfl

theorem httpKill_ends (hu : h.Unclosed) (hk : h.Killable fio) : Ends NoFault HttpConn.Dead (h.httpKill fio) := by
  refine ends_of_ok (httpKill_eq hu.fd hk) ⟨rfl, rfl, rfl, hk.idle, h.log, hu.closed, ?_⟩
  show h.log ++ [.closed] ++ h.held = h.log ++ .closed :: h.held
  rw [List.append_assoc]
  rfl

theorem HttpConn.Poised.killable (hp : h.Poised fio) (haio : h.aio = none) : h.Killable fio := by
  refine ⟨haio, hp.state, fun hstate => ?_, ?_⟩
  · by_contra hres
    exact hstate (hp.res.mp hres)
  · rintro (hstate | hf)
    · exact hp.noBody (Or.inl hstate)
    · exact hp.sendfile hf

theorem HttpConn.Poised.kill (hp : h.Poised fio) (haio : h.aio = none) :
    Ends NoFault HttpConn.Dead (h.httpKill fio) :=
  httpKill_ends hp.unclosed (hp.killable haio)

theorem HttpConn.Poised.idle (hp : h.Poised fio) (hlist : h.hNbio.list = .active) : h.aio = none := by
  by_contra haio
  cases hlist.symm.trans (hp.inFlight haio).2.list

theorem HttpConn.Poised.mask_ne (hp : h.Poised fio) : h.hNbio.mask ≠ NBIO_DELETED := by
  by_cases haio : h.aio = none
  · rw [hp.mask haio]
    split <;> decide
  · rw [(hp.inFlight haio).2.mask]
    decide

theorem HttpConn.Poised.responding (hp : h.Poised fio) (hstate : h.hState ≠ .request) : h.Responding := by
  cases hcase : h.hState with
  | request => exact absurd hcase hstate
  | header => exact Or.inr hcase
  | data => exact Or.inl hcase
  | dead => exact absurd hcase hp.state

theorem HttpConn.Poised.logged (hp : h.Poised fio) (new : List Event) (hnew : new.count .closed = 0) :
    (h.logged new).Poised fio :=
  ⟨hp.unclosed.logged new hnew, hp.state, hp.mask, fun haio => (hp.inFlight haio).imp_right fun hi => hi.congr rfl rfl,
    hp.res, hp.body, hp.noBody, hp.sendfile⟩

theorem HttpConn.Poised.withRes (hp : h.Poised fio) (hstate : h.hState = .header) (res : HttpBuf) :
    (h.withRes (some res)).Poised fio :=
  ⟨⟨hp.unclosed.fd, hp.unclosed.closed, hp.unclosed.list⟩, hp.state, hp.mask,
    fun hne => (hp.inFlight hne).imp_right fun hi => hi.congr rfl rfl,
    ⟨fun _ => hstate, fun _ => Option.some_ne_none res⟩, hp.body, hp.noBody, hp.sendfile⟩

theorem HttpConn.Standing.logged (hs : h.Standing fio) (new : List Event) (hnew : new.count .closed = 0) :
    (h.logged new).Standing fio :=
  ⟨hs.toPoised.logged new hnew, hs.scan⟩

theorem nbioInactive_list {io : Nbio} (hlist : io.list ≠ .deleted) (mask : UInt8) :
    (io.nbioInactive mask).list ≠ .deleted := by
  unfold Nbio.nbioInactive
  dsimp only
  split
  · exact nofun
  · exact hlist

theorem waiting_list (io : Nbio) (wait : UInt8) : (HttpConn.waiting io wait).list ≠ .deleted := by
  unfold HttpConn.waiting
  dsimp only
  split
  · exact nofun
  · exact nofun

theorem HttpConn.Standing.withNbio (hs : h.Standing fio) (haio : h.aio = none) {io : Nbio}
    (hfd : io.fd = h.hNbio.fd) (hmask : io.mask = h.hNbio.mask) (hlist : io.list ≠ .deleted) :
    (h.withNbio io).Standing fio :=
  ⟨⟨⟨hfd.trans hs.unclosed.fd, hs.unclosed.closed, hlist⟩, hs.state, fun _ => hmask.trans (hs.mask haio),
    fun hne => absurd haio hne, hs.res, hs.body, hs.noBody, hs.sendfile⟩, hs.scan⟩

theorem HttpConn.Standing.inactive (hs : h.Standing fio) (haio : h.aio = none) (mask : UInt8) :
    (h.withNbio (h.hNbio.nbioInactive mask)).Standing fio :=
  hs.withNbio haio (HttpConn.nbioInactive_fd _ _) (HttpConn.nbioInactive_mask _ _)
    (nbioInactive_list hs.unclosed.list mask)

theorem withPriv_self {priv : Option HttpBuf} (hpriv : h.hIoPriv = priv) : h.withPriv priv = h := by
  unfold HttpConn.withPriv
  rw [← hpriv]

theorem HttpConn.Standing.scan_data (hs : h.Standing fio) (hstate : h.hState = .data) (hreq : h.hReq ≠ none) :
    h.hRstate.terminal = false := by
  refine (hs.scan hreq).resolve_right fun hd => ?_
  cases hstate.symm.trans hd.1

theorem HttpConn.Standing.withData (hs : h.Standing fio) (hstate : h.hState = .data) (off len : ℕ) :
    (h.withData off len).Standing fio := by
  refine ⟨⟨⟨hs.unclosed.fd, hs.unclosed.closed, hs.unclosed.list⟩, hs.state, hs.mask,
    fun haio => (hs.inFlight haio).imp_right fun hi => hi.congr rfl rfl, hs.res, fun _ => hs.body (Or.inl hstate), ?_,
    hs.sendfile⟩, fun hreq => Or.inl (hs.scan_data hstate hreq)⟩
  rintro (hcase | ⟨hcase, -⟩)
  · cases hstate.symm.trans hcase
  · cases hstate.symm.trans hcase

theorem HttpConn.Standing.withPriv (hs : h.Standing fio) (hstate : h.hState = .data) (hfio : fio ≠ .sendfile)
    (b : HttpBuf) : (h.withPriv (some b)).Standing fio := by
  refine ⟨⟨⟨hs.unclosed.fd, hs.unclosed.closed, hs.unclosed.list⟩, hs.state, hs.mask,
    fun haio => (hs.inFlight haio).imp_right fun hi => hi.congr rfl rfl, hs.res,
    fun _ => ⟨(hs.body (Or.inl hstate)).1, fun _ => Option.some_ne_none b⟩, ?_, fun hf => absurd hf hfio⟩, hs.scan⟩
  rintro (hcase | ⟨hcase, -⟩)
  · cases hstate.symm.trans hcase
  · cases hstate.symm.trans hcase

theorem dropWebroot_cases (h : HttpConn) :
    h.dropWebroot = h ∧ h.hWebroot = none ∨
      ∃ w, h.hWebroot = some w ∧ h.dropWebroot = (h.withWebroot none).logged [.webrootUnref w] := by
  unfold HttpConn.dropWebroot
  cases hw : h.hWebroot with
  | none => exact Or.inl ⟨rfl, rfl⟩
  | some w => exact Or.inr ⟨w, rfl, rfl⟩

theorem dropWebroot_aio (h : HttpConn) : h.dropWebroot.aio = h.aio := by
  rcases dropWebroot_cases h with ⟨heq, -⟩ | ⟨w, -, heq⟩
  · rw [heq]
  · rw [heq]
    rfl

theorem HttpConn.Standing.dropWebroot (hs : h.Standing fio) (hstate : h.hState = .request) :
    h.dropWebroot.Standing fio := by
  rcases dropWebroot_cases h with ⟨heq, -⟩ | ⟨w, -, heq⟩
  · rw [heq]
    exact hs
  · rw [heq]
    refine HttpConn.Standing.logged ?_ _ rfl
    refine ⟨⟨⟨hs.unclosed.fd, hs.unclosed.closed, hs.unclosed.list⟩, hs.state, hs.mask,
      fun haio => (hs.inFlight haio).imp_right fun hi => hi.congr rfl rfl, hs.res, ?_, hs.noBody, hs.sendfile⟩, hs.scan⟩
    rintro (hcase | ⟨hcase, -⟩)
    · cases hstate.symm.trans hcase
    · cases hstate.symm.trans hcase

/-- A body is complete: the connection waits for a request, or it is killed. -/
theorem httpConnDataComplete_ends (hs : h.Standing fio) (hidle : h.aio = none) (hstate : h.hState = .data)
    (hlen : h.hDataLen = 0) : Ends NoFault (HttpConn.Settled fio) ((h.withPriv none).httpConnDataComplete fio) := by
  unfold HttpConn.httpConnDataComplete
  rw [if_neg (by simp [hstate]), if_neg (by simp [hlen]),
    HttpConn.nbioSetWait_eq (h := ((h.withPriv none).withState .request).logged [.complete]) hs.mask_ne, ok_bind]
  obtain ⟨g, hg⟩ : ∃ g, g = (((h.withPriv none).withState .request).logged [.complete]).withNbio
      (HttpConn.waiting h.hNbio NBIO_READ) := ⟨_, rfl⟩
  have hres : h.hRes = none := by
    by_contra hne
    cases (hs.res.mp hne).symm.trans hstate
  have hclosed : (h.log ++ [Event.complete]).count .closed = 0 := by
    rw [List.count_append, hs.unclosed.closed]
    rfl
  have hg' : g.Standing fio := by
    rw [hg]
    refine ⟨⟨⟨hs.unclosed.fd, hclosed, waiting_list _ _⟩, nofun, fun _ => rfl, fun hne => absurd hidle hne, ?_, ?_, fun _ => rfl,
      fun _ => rfl⟩, fun hreq => Or.inl (hs.scan_data hstate hreq)⟩
    · exact ⟨fun hne => absurd hres hne, nofun⟩
    · rintro (hcase | ⟨hcase, -⟩)
      · cases hcase
      · cases hcase
  have hdrop : g.dropWebroot.Standing fio := by
    refine hg'.dropWebroot ?_
    rw [hg]
    rfl
  subst hg
  split
  · exact (hdrop.kill ((dropWebroot_aio _).trans hidle)).mono (fun _ => id) fun _ => Or.inr
  · exact Or.inl hdrop

end Ashttpd
