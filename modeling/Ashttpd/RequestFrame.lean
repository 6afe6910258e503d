import Ashttpd.Headers
import Ashttpd.Responding

/-!
# What a response leaves alone

Neither answering a request nor sending the answer touches the bytes that were received: they stay as
they are until the request is done with, unless the connection is killed.
-/
namespace Ashttpd

/-- The bytes an event takes from the socket. -/
def Event.taken : Event → Bytes
  | .received bytes => bytes
  | _ => []

def receivedBytes (log : List Event) : Bytes := log.flatMap Event.taken

/-- The head an event is the answer to. -/
def Event.head : Event → List Bytes
  | .answered head => [head]
  | _ => []

def answeredHeads (log : List Event) : List Bytes := log.flatMap Event.head

def Silent (new : List Event) : Prop := receivedBytes new = [] ∧ answeredHeads new = []

/-- The request in the buffer, and how far it was scanned, are as they were. -/
structure SameRequest (h h' : HttpConn) : Prop where
  req : h'.hReq = h.hReq
  rstate : h'.hRstate = h.hRstate
  rptr : h'.hRptr = h.hRptr
  fd : h'.hNbio.fd = h.hNbio.fd
  received : receivedBytes h'.log = receivedBytes h.log
  answered : answeredHeads h'.log = answeredHeads h.log

def Tended (h h' : HttpConn) : Prop := h'.hState = .dead ∨ SameRequest h h'

variable {h h' h'' : HttpConn}

theorem SameRequest.refl (h : HttpConn) : SameRequest h h := ⟨rfl, rfl, rfl, rfl, rfl, rfl⟩

theorem SameRequest.trans (h₁ : SameRequest h h') (h₂ : SameRequest h' h'') : SameRequest h h'' :=
  ⟨h₂.req.trans h₁.req, h₂.rstate.trans h₁.rstate, h₂.rptr.trans h₁.rptr, h₂.fd.trans h₁.fd,
    h₂.received.trans h₁.received, h₂.answered.trans h₁.answered⟩

theorem SameRequest.tended (h₁ : SameRequest h h') (h₂ : Tended h' h'') : Tended h h'' :=
  h₂.imp id h₁.trans

theorem SameRequest.logged (hs : SameRequest h h') (new : List Event) (hnew : Silent new) :
    SameRequest h (h'.logged new) := by
  refine ⟨hs.req, hs.rstate, hs.rptr, hs.fd, ?_, ?_⟩
  · rw [← hs.received, HttpConn.logged_log, receivedBytes, List.flatMap_append]
    show receivedBytes h'.log ++ receivedBytes new = receivedBytes h'.log
    rw [hnew.1, List.append_nil]
  · rw [← hs.answered, HttpConn.logged_log, answeredHeads, List.flatMap_append]
    show answeredHeads h'.log ++ answeredHeads new = answeredHeads h'.log
    rw [hnew.2, List.append_nil]

theorem sameRequest_free (h : HttpConn) (b : Option HttpBuf) (kind : BufKind) :
    SameRequest h (h.free b kind) := by
  cases b with
  | none => exact .refl h
  | some b => exact (SameRequest.refl h).logged [.freed kind] ⟨rfl, rfl⟩

theorem sameRequest_withNbio (h : HttpConn) {io : Nbio} (hfd : io.fd = h.hNbio.fd) :
    SameRequest h (h.withNbio io) :=
  ⟨rfl, rfl, rfl, hfd, rfl, rfl⟩

theorem sameRequest_nbioSetWait {wait : UInt8} (hok : h.nbioSetWait wait = .ok h') : SameRequest h h' := by
  unfold HttpConn.nbioSetWait Nbio.doSetWait at hok
  split at hok
  · cases hok
  · cases hok
    exact sameRequest_withNbio h rfl

theorem sameRequest_dropWebroot (h : HttpConn) : SameRequest h h.dropWebroot := by
  unfold HttpConn.dropWebroot
  cases h.hWebroot with
  | none => exact .refl h
  | some w =>
    have hsame : SameRequest h (h.withWebroot none) := ⟨rfl, rfl, rfl, rfl, rfl, rfl⟩
    exact hsame.logged [.webrootUnref w] ⟨rfl, rfl⟩

theorem httpKill_dead {fio : Fio} (hfd : h.hNbio.fd = true) (hok : h.httpKill fio = .ok h') :
    h'.hState = .dead := by
  unfold HttpConn.httpKill at hok
  rw [if_neg (by simp [hfd])] at hok
  obtain ⟨h₁, -, rfl⟩ := map_eq_ok_iff.mp hok
  rfl

theorem httpConnInactive_same (hok : h.httpConnInactive = .ok h') : SameRequest h h' := by
  unfold HttpConn.httpConnInactive at hok
  obtain ⟨-, -, hok⟩ := bind_eq_ok_iff.mp hok
  cases hok
  exact sameRequest_withNbio h (HttpConn.nbioInactive_fd _ _)

theorem httpConnDataRead_same {len : ℕ} (hok : h.httpConnDataRead len = .ok h') : SameRequest h h' := by
  unfold HttpConn.httpConnDataRead at hok
  obtain ⟨-, -, hok⟩ := bind_eq_ok_iff.mp hok
  split at hok
  · cases hok
    exact ⟨rfl, rfl, rfl, rfl, rfl, rfl⟩
  · cases hok

theorem httpConnSetPriv_same {priv : Option HttpBuf} (hok : h.httpConnSetPriv priv = .ok h') :
    SameRequest h h' := by
  unfold HttpConn.httpConnSetPriv at hok
  obtain ⟨-, -, hok⟩ := bind_eq_ok_iff.mp hok
  cases hok
  exact ⟨rfl, rfl, rfl, rfl, rfl, rfl⟩

theorem httpConnDataComplete_tended {fio : Fio} (hfd : h.hNbio.fd = true)
    (hok : h.httpConnDataComplete fio = .ok h') : Tended h h' := by
  unfold HttpConn.httpConnDataComplete at hok
  split at hok
  · cases hok
  · split at hok
    · cases hok
    · obtain ⟨h₁, hwait, hok⟩ := bind_eq_ok_iff.mp hok
      have hidle : SameRequest h (h.withState .request) := ⟨rfl, rfl, rfl, rfl, rfl, rfl⟩
      have hdone := (hidle.logged [.complete] ⟨rfl, rfl⟩).trans (sameRequest_nbioSetWait hwait)
      have hsame := hdone.trans (sameRequest_dropWebroot h₁)
      split at hok
      · exact Or.inl (httpKill_dead (hsame.fd.trans hfd) hok)
      · cases hok
        exact Or.inr hsame

theorem ioSyncTopUp_same {r : Webroots} {preads : List PreadResult}
    (hok : h.ioSyncTopUp r preads = .ok (some h')) : SameRequest h h' := by
  unfold HttpConn.ioSyncTopUp at hok
  obtain ⟨priv, -, hok⟩ := bind_eq_ok_iff.mp hok
  obtain ⟨buf, -, hok⟩ := bind_eq_ok_iff.mp hok
  obtain ⟨⟨w, off, len⟩, -, hok⟩ := bind_eq_ok_iff.mp hok
  dsimp only at hok
  split at hok
  · cases hok
    exact .refl h
  · split at hok
    · cases hok
    · cases hok
    · next bs _ =>
      obtain ⟨buf', -, hok⟩ := bind_eq_ok_iff.mp hok
      obtain ⟨h₁, hread, hok⟩ := map_eq_ok_iff.mp hok
      cases hok
      have hpriv : SameRequest h (h.withPriv (some buf')) := ⟨rfl, rfl, rfl, rfl, rfl, rfl⟩
      exact hpriv.trans (httpConnDataRead_same hread)

theorem ioSyncSent_tended {rest : HttpBuf} (hfd : h.hNbio.fd = true) (hok : h.ioSyncSent rest = .ok h') :
    Tended h h' := by
  unfold HttpConn.ioSyncSent at hok
  split at hok
  · obtain ⟨h₁, hpriv, hok⟩ := bind_eq_ok_iff.mp hok
    have hsame := (httpConnSetPriv_same hpriv).trans (sameRequest_free h₁ (some rest) .data)
    exact hsame.tended (httpConnDataComplete_tended (hsame.fd.trans hfd) hok)
  · split at hok
    · cases hok
      exact Or.inr ⟨rfl, rfl, rfl, rfl, rfl, rfl⟩
    · cases hok
      exact Or.inr ⟨rfl, rfl, rfl, rfl, rfl, rfl⟩

theorem ioSyncSend_tended {send : SendResult} {ok : Bool} (hfd : h.hNbio.fd = true)
    (hok : h.ioSyncSend send = .ok (h', ok)) : Tended h h' := by
  unfold HttpConn.ioSyncSend at hok
  obtain ⟨buf, -, hok⟩ := bind_eq_ok_iff.mp hok
  cases send with
  | eagain =>
    obtain ⟨h₁, hwait, hok⟩ := bind_eq_ok_iff.mp hok
    cases hok
    exact Or.inr (httpConnInactive_same hwait)
  | error =>
    cases hok
    exact Or.inr (.refl h)
  | sent n =>
    dsimp only at hok
    split at hok
    · cases hok
      exact Or.inr (.refl h)
    · obtain ⟨rest, -, hok⟩ := bind_eq_ok_iff.mp hok
      obtain ⟨h₁, hsent, hok⟩ := bind_eq_ok_iff.mp hok
      cases hok
      have hsame := (SameRequest.refl h).logged [.sent h.hState (buf.unread.take (min n buf.bufRead))]
        ⟨rfl, rfl⟩
      exact hsame.tended (ioSyncSent_tended (hsame.fd.trans hfd) hsent)

theorem ioSyncWrite_tended {r : Webroots} {preads : List PreadResult} {send : SendResult} {ok : Bool}
    (hfd : h.hNbio.fd = true) (hok : h.ioSyncWrite r preads send = .ok (h', ok)) : Tended h h' := by
  unfold HttpConn.ioSyncWrite at hok
  obtain ⟨o, htop, hok⟩ := bind_eq_ok_iff.mp hok
  cases o with
  | none =>
    cases hok
    exact Or.inr (.refl h)
  | some h₁ =>
    have hsame := ioSyncTopUp_same htop
    exact hsame.tended (ioSyncSend_tended (hsame.fd.trans hfd) hok)

theorem ioSendfileWrite_tended {r : Webroots} {send : SendResult} {ok : Bool} (hfd : h.hNbio.fd = true)
    (hok : h.ioSendfileWrite r send = .ok (h', ok)) : Tended h h' := by
  unfold HttpConn.ioSendfileWrite at hok
  obtain ⟨⟨w, off, len⟩, -, hok⟩ := bind_eq_ok_iff.mp hok
  cases send with
  | eagain =>
    obtain ⟨h₁, hwait, hok⟩ := bind_eq_ok_iff.mp hok
    cases hok
    exact Or.inr (httpConnInactive_same hwait)
  | error =>
    cases hok
    exact Or.inr (.refl h)
  | sent n =>
    dsimp only at hok
    split at hok
    · cases hok
      exact Or.inr (.refl h)
    · obtain ⟨h₁, hsent, hok⟩ := bind_eq_ok_iff.mp hok
      cases hok
      have hsame := (SameRequest.refl h).logged
        [.sent h.hState (fileSlice (r.file w) off (min n (min len SENDFILE_CHUNK)))] ⟨rfl, rfl⟩
      unfold HttpConn.ioSendfileSent at hsent
      obtain ⟨h₂, hread, hsent⟩ := bind_eq_ok_iff.mp hsent
      have hsame₂ := hsame.trans (httpConnDataRead_same hread)
      split at hsent
      · exact hsame₂.tended (httpConnDataComplete_tended (hsame₂.fd.trans hfd) hsent)
      · cases hsent
        exact Or.inr hsame₂

theorem aioSubmit_same {submit : SubmitResult} {ok : Bool} (hok : h.aioSubmit submit = .ok (h', ok)) :
    SameRequest h h' := by
  unfold HttpConn.aioSubmit at hok
  obtain ⟨⟨w, off, len⟩, -, hok⟩ := bind_eq_ok_iff.mp hok
  dsimp only at hok
  split at hok
  · cases hok
  · split at hok
    · cases hok
      exact .refl h
    · obtain ⟨priv, -, hok⟩ := bind_eq_ok_iff.mp hok
      obtain ⟨buf, -, hok⟩ := bind_eq_ok_iff.mp hok
      split at hok
      · cases hok
        exact .refl h
      · obtain ⟨h₁, hwait, hok⟩ := bind_eq_ok_iff.mp hok
        cases hok
        unfold HttpConn.httpConnToWaitq at hwait
        obtain ⟨-, -, hwait⟩ := bind_eq_ok_iff.mp hwait
        have hsame := sameRequest_nbioSetWait hwait
        exact ⟨hsame.req, hsame.rstate, hsame.rptr, hsame.fd, hsame.received, hsame.answered⟩

theorem ioAsyncWrite_tended {send : SendResult} {submit : SubmitResult} {ok : Bool}
    (hfd : h.hNbio.fd = true) (hok : h.ioAsyncWrite send submit = .ok (h', ok)) : Tended h h' := by
  unfold HttpConn.ioAsyncWrite at hok
  obtain ⟨priv, -, hok⟩ := bind_eq_ok_iff.mp hok
  obtain ⟨buf, -, hok⟩ := bind_eq_ok_iff.mp hok
  cases send with
  | eagain =>
    obtain ⟨h₁, hwait, hok⟩ := bind_eq_ok_iff.mp hok
    cases hok
    exact Or.inr (httpConnInactive_same hwait)
  | error =>
    cases hok
    exact Or.inr (.refl h)
  | sent n =>
    dsimp only at hok
    split at hok
    · cases hok
      exact Or.inr (.refl h)
    · obtain ⟨rest, -, hok⟩ := bind_eq_ok_iff.mp hok
      have hsame := (SameRequest.refl h).logged [.sent h.hState (buf.unread.take (min n buf.bufRead))]
        ⟨rfl, rfl⟩
      unfold HttpConn.ioAsyncSent at hok
      obtain ⟨h₁, hread, hok⟩ := bind_eq_ok_iff.mp hok
      have hrest : SameRequest h ((h.logged [.sent h.hState (buf.unread.take (min n buf.bufRead))]).withPriv
        (some rest)) := hsame.trans ⟨rfl, rfl, rfl, rfl, rfl, rfl⟩
      have hpriv := hrest.trans (httpConnDataRead_same hread)
      split at hok
      · cases hok
        exact Or.inr hpriv
      · split at hok
        · have hreset : SameRequest h (h₁.withPriv (some rest.bufReset)) :=
            hpriv.trans ⟨rfl, rfl, rfl, rfl, rfl, rfl⟩
          exact Or.inr (hreset.trans (aioSubmit_same hok))
        · obtain ⟨h₂, hset, hok⟩ := bind_eq_ok_iff.mp hok
          obtain ⟨h₃, hdone, hok⟩ := bind_eq_ok_iff.mp hok
          cases hok
          have hfreed := (hpriv.trans (sameRequest_free h₁ (some rest) .data)).trans (httpConnSetPriv_same hset)
          exact hfreed.tended (httpConnDataComplete_tended (hfreed.fd.trans hfd) hdone)

theorem ioWrite_tended {fio : Fio} {r : Webroots} {o : HttpConn.WriteResults} {ok : Bool}
    (hfd : h.hNbio.fd = true) (hok : h.ioWrite fio r o = .ok (h', ok)) : Tended h h' := by
  cases fio with
  | sync => exact ioSyncWrite_tended hfd hok
  | sendfile => exact ioSendfileWrite_tended hfd hok
  | async => exact ioAsyncWrite_tended hfd hok

def Doomed (h : HttpConn) : Prop := h.hState = .header ∧ h.hDataLen = 0 ∧ h.hConnClose ≠ 0

theorem httpWriteHdr_same {send : SendResult} {ok : Bool} (hok : h.httpWriteHdr send = .ok (h', ok)) :
    SameRequest h h' ∧ (Doomed h → Doomed h') := by
  unfold HttpConn.httpWriteHdr at hok
  obtain ⟨res, -, hok⟩ := bind_eq_ok_iff.mp hok
  cases send with
  | eagain =>
    cases hok
    exact ⟨sameRequest_withNbio h (HttpConn.nbioInactive_fd _ _), id⟩
  | error =>
    cases hok
    exact ⟨.refl h, id⟩
  | sent n =>
    dsimp only at hok
    split at hok
    · cases hok
      exact ⟨.refl h, id⟩
    · obtain ⟨rest, -, hok⟩ := bind_eq_ok_iff.mp hok
      have hsame := (SameRequest.refl h).logged [.sent h.hState (res.unread.take (min n res.bufRead))]
        ⟨rfl, rfl⟩
      split at hok
      · cases hok
        exact ⟨hsame.trans ⟨rfl, rfl, rfl, rfl, rfl, rfl⟩, id⟩
      · obtain ⟨g, hg⟩ : ∃ g, g = ((h.logged [.sent h.hState (res.unread.take (min n res.bufRead))]).free
            (some rest) .res).withRes none := ⟨_, rfl⟩
        have hgsame : SameRequest h g := by
          rw [hg]
          exact (hsame.trans (sameRequest_free _ (some rest) .res)).trans ⟨rfl, rfl, rfl, rfl, rfl, rfl⟩
        have hgdoomed : Doomed h → Doomed g := by
          rw [hg]
          exact id
        rw [← hg] at hok
        unfold HttpConn.headerDone at hok
        split at hok
        · next hlen =>
          cases hok
          exact ⟨hgsame.trans ⟨rfl, rfl, rfl, rfl, rfl, rfl⟩, fun hd => absurd (hgdoomed hd).2.1 hlen⟩
        · split at hok
          · cases hok
            exact ⟨hgsame, hgdoomed⟩
          · next hclose =>
            obtain ⟨h₁, hwait, hok⟩ := bind_eq_ok_iff.mp hok
            cases hok
            have hwaiting := hgsame.trans (sameRequest_nbioSetWait hwait)
            exact ⟨hwaiting.trans ⟨rfl, rfl, rfl, rfl, rfl, rfl⟩, fun hd => absurd (hgdoomed hd).2.2 hclose⟩

/-- A write callback leaves the request alone, or kills the connection. -/
theorem httpWrite_tended {fio : Fio} {r : Webroots} {o : HttpConn.WriteResults} (hfd : h.hNbio.fd = true)
    (hok : h.httpWrite fio r o = .ok h') :
    h'.hState = .dead ∨ SameRequest h h' ∧ (Doomed h → Doomed h') := by
  unfold HttpConn.httpWrite at hok
  obtain ⟨⟨h₁, ok⟩, hwrite, hok⟩ := bind_eq_ok_iff.mp hok
  have htended : h₁.hState = .dead ∨ SameRequest h h₁ ∧ (Doomed h → Doomed h₁) := by
    unfold HttpConn.httpWriteState at hwrite
    split at hwrite
    · exact Or.inr (httpWriteHdr_same hwrite)
    · next hstate =>
      refine (ioWrite_tended hfd hwrite).imp id fun hsame => ⟨hsame, fun hd => ?_⟩
      cases hstate.symm.trans hd.1
    · cases hwrite
  cases ok with
  | true =>
    cases hok
    exact htended
  | false =>
    apply Or.inl
    have hkill : h₁.httpKill fio = .ok h' := hok
    obtain hdead | ⟨hsame, -⟩ := htended
    · unfold HttpConn.httpKill at hkill
      split at hkill
      · cases hkill
        exact hdead
      · obtain ⟨h₂, -, rfl⟩ := map_eq_ok_iff.mp hkill
        rfl
    · exact httpKill_dead (hsame.fd.trans hfd) hkill

/-- A read that is done leaves the request alone, or the connection is killed. -/
theorem handleCompletion_tended {r : Webroots} {iocb : Iocb} {result : CompletionResult}
    (hfd : h.hNbio.fd = true) (hok : h.handleCompletion r iocb result = .ok h') :
    h'.hState = .dead ∨ SameRequest h h' ∧ (Doomed h → Doomed h') := by
  have habort : (h.withAio none).httpConnAbort .async = .ok h' → h'.hState = .dead := by
    intro hok
    unfold HttpConn.httpConnAbort at hok
    obtain ⟨-, -, hok⟩ := bind_eq_ok_iff.mp hok
    exact httpKill_dead (h := h.withAio none) hfd hok
  cases result with
  | error => exact Or.inl (habort hok)
  | read n =>
    unfold HttpConn.handleCompletion at hok
    dsimp only at hok
    split at hok
    · exact Or.inl (habort hok)
    · obtain ⟨priv, -, hok⟩ := bind_eq_ok_iff.mp hok
      obtain ⟨buf, -, hok⟩ := bind_eq_ok_iff.mp hok
      obtain ⟨buf', -, hok⟩ := bind_eq_ok_iff.mp hok
      unfold HttpConn.httpConnWakeOne at hok
      obtain ⟨-, -, hok⟩ := bind_eq_ok_iff.mp hok
      refine Or.inr ⟨?_, ?_⟩
      · have hpriv : SameRequest h ((h.withAio none).withPriv (some buf')) := ⟨rfl, rfl, rfl, rfl, rfl, rfl⟩
        exact hpriv.trans (sameRequest_nbioSetWait hok)
      · unfold HttpConn.nbioSetWait at hok
        obtain ⟨io, -, rfl⟩ := map_eq_ok_iff.mp hok
        exact id

theorem respond_same {text : Bytes} (hok : h.respond text = .ok h') : SameRequest h h' := by
  unfold HttpConn.respond at hok
  obtain ⟨res, -, hok⟩ := bind_eq_ok_iff.mp hok
  split at hok
  · cases hok
  · obtain ⟨res', -, hok⟩ := bind_eq_ok_iff.mp hok
    cases hok
    exact ⟨rfl, rfl, rfl, rfl, rfl, rfl⟩

theorem respondClose_same {text : Bytes} (hok : (h.respond text).map (·.withClose 1) = .ok h') :
    SameRequest h h' := by
  obtain ⟨h₁, hrespond, rfl⟩ := map_eq_ok_iff.mp hok
  exact (respond_same hrespond).trans ⟨rfl, rfl, rfl, rfl, rfl, rfl⟩

theorem response301_same {host loc : Bytes} (hok : h.response301 host loc = .ok h') : SameRequest h h' := by
  unfold HttpConn.response301 at hok
  obtain ⟨res, -, hok⟩ := bind_eq_ok_iff.mp hok
  split at hok
  · cases hok
  · obtain ⟨res', -, hok⟩ := bind_eq_ok_iff.mp hok
    cases hok
    exact ⟨rfl, rfl, rfl, rfl, rfl, rfl⟩

theorem ioPrep_same {fio : Fio} {block : Option Mem} {submit : SubmitResult} {ok : Bool}
    (hok : h.ioPrep fio block submit = .ok (h', ok)) : SameRequest h h' := by
  cases fio with
  | sync =>
    cases block with
    | none =>
      cases hok
      exact .refl h
    | some m =>
      obtain ⟨h₁, hset, hok⟩ := bind_eq_ok_iff.mp hok
      cases hok
      exact httpConnSetPriv_same hset
  | sendfile =>
    cases hok
    exact .refl h
  | async =>
    cases block with
    | none =>
      cases hok
      exact .refl h
    | some m =>
      obtain ⟨h₁, hset, hok⟩ := bind_eq_ok_iff.mp hok
      obtain ⟨⟨h₂, ok₂⟩, hsubmit, hok⟩ := bind_eq_ok_iff.mp hok
      have hsame := (httpConnSetPriv_same hset).trans (aioSubmit_same hsubmit)
      cases ok₂ with
      | true =>
        cases hok
        exact hsame
      | false =>
        obtain ⟨h₃, hclear, hok⟩ := bind_eq_ok_iff.mp hok
        cases hok
        exact (hsame.trans (sameRequest_free h₂ h₂.hIoPriv .data)).trans (httpConnSetPriv_same hclear)

theorem queueHeader_same {w : ℕ} {head : Bool} {g : GetHeader} (hok : h.queueHeader w head g = .ok h') :
    SameRequest h h' := by
  unfold HttpConn.queueHeader at hok
  obtain ⟨res, -, hok⟩ := bind_eq_ok_iff.mp hok
  obtain ⟨text, -, hok⟩ := bind_eq_ok_iff.mp hok
  obtain ⟨res', -, hok⟩ := bind_eq_ok_iff.mp hok
  cases head with
  | true =>
    cases hok
    exact ⟨rfl, rfl, rfl, rfl, rfl, rfl⟩
  | false =>
    cases hok
    have hsame : SameRequest h ((h.withRes (some res')).withWebroot (some w)) := ⟨rfl, rfl, rfl, rfl, rfl, rfl⟩
    exact hsame.logged [.webrootRef w] ⟨rfl, rfl⟩

theorem serveFile_same {s : Server} {r : HttpRequest} {head : Bool} {o : ReadResults} {w ofs len : ℕ}
    {mimeType : Bytes} {mtime : UInt32} {etag : Bytes}
    (hok : h.serveFile s r head o w mimeType ofs len mtime etag = .ok h') : SameRequest h h' := by
  unfold HttpConn.serveFile at hok
  obtain ⟨⟨h₁, ok⟩, hprep, hok⟩ := bind_eq_ok_iff.mp hok
  have hdata : SameRequest h (h.withData ofs len) := ⟨rfl, rfl, rfl, rfl, rfl, rfl⟩
  have hsame : SameRequest h h₁ := by
    unfold HttpConn.prepareBody at hprep
    split at hprep
    · exact hdata.trans (ioPrep_same hprep)
    · cases hprep
      exact hdata
  cases ok with
  | true => exact hsame.trans (queueHeader_same hok)
  | false => exact hsame.trans (respondClose_same hok)

theorem serveName_same {s : Server} {r : HttpRequest} {head : Bool} {o : ReadResults} {w : ℕ}
    {n : WebrootName} (hok : h.serveName s r head o w n = .ok h') : SameRequest h h' := by
  unfold HttpConn.serveName at hok
  split at hok
  · split at hok
    · exact response301_same hok
    · cases hok
  · split at hok
    · exact respond_same hok
    · split at hok
      · exact serveFile_same hok
      · cases hok

theorem handleGet_same {s : Server} {r : HttpRequest} {head : Bool} {o : ReadResults}
    (hok : h.handleGet s r head o = .ok h') : SameRequest h h' := by
  unfold HttpConn.handleGet at hok
  obtain ⟨nads, -, hok⟩ := bind_eq_ok_iff.mp hok
  split at hok
  · exact respond_same hok
  · obtain ⟨name, -, hok⟩ := bind_eq_ok_iff.mp hok
    cases name with
    | none => exact respond_same hok
    | some n => exact serveName_same hok

theorem answer_same {s : Server} {r : HttpRequest} {o : ReadResults} (hok : h.answer s r o = .ok h') :
    SameRequest h h' := by
  unfold HttpConn.answer at hok
  split at hok
  · exact handleGet_same hok
  · split at hok
    · exact handleGet_same hok
    · exact respondClose_same hok

end Ashttpd
