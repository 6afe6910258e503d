import Ashttpd.BodyRuns
import Ashttpd.HeadFraming

/-!
# A response on the wire

The bytes that reach the socket are those of the header and behind them those of the body. The
functions of the I/O models send parts of the body only, and a request is waited for again only
behind a body that is complete.
-/
namespace Ashttpd

variable {s : Server} {h h' h'' : HttpConn} {new : List Event}

theorem bodySent_of_unsent (hnew : sentBytes new = []) : bodySent new = [] := by
  induction new with
  | nil => rfl
  | cons e new ih =>
    rw [sentBytes_cons, List.append_eq_nil_iff] at hnew
    rw [bodySent_cons, ih hnew.2, List.append_nil]
    cases e with
    | sent state bytes =>
      cases state with
      | data => exact hnew.1
      | request | header | dead => rfl
    | received | answered | complete | closed | freed | webrootRef | webrootUnref => rfl

/-- What is sent on the way are parts of a body, and only where a body is sent. -/
structure Bodily (h h' : HttpConn) : Prop where
  res : h'.hRes = h.hRes
  log : ∃ new, h'.log = h.log ++ new ∧ sentBytes new = bodySent new ∧
    (h.hState ≠ .data → sentBytes new = [] ∧ (h'.hState = h.hState ∨ h'.hState = .dead)) ∧
    (h.hState = .data → h'.hState = .data ∨ h'.hState = .dead ∨ h'.hState = .request ∧ Event.complete ∈ new)

theorem Bodily.quiet (hres : h'.hRes = h.hRes) (hlog : h'.log = h.log ++ new) (hnew : sentBytes new = [])
    (hstate : h'.hState = h.hState ∨ h'.hState = .dead) : Bodily h h' := by
  refine ⟨hres, new, hlog, hnew.trans (bodySent_of_unsent hnew).symm, fun _ => ⟨hnew, hstate⟩, ?_⟩
  intro hdata
  rw [hdata] at hstate
  exact hstate.imp_right Or.inl

theorem Bodily.refl (h : HttpConn) : Bodily h h := .quiet rfl (List.append_nil _).symm rfl (Or.inl rfl)

theorem Bodily.unsent (hb : Bodily h h') (hstate : h.hState ≠ .data) : sentBytes h'.log = sentBytes h.log := by
  obtain ⟨-, new, hlog, -, hother, -⟩ := hb
  rw [hlog, sentBytes_append, (hother hstate).1, List.append_nil]

theorem Bodily.set (hres : h'.hRes = h.hRes) (hlog : h'.log = h.log) (hstate : h'.hState = h.hState) : Bodily h h' :=
  .quiet hres (hlog.trans (List.append_nil _).symm) rfl (Or.inl hstate)

theorem Bodily.trans (h₁ : Bodily h h') (h₂ : Bodily h' h'') : Bodily h h'' := by
  obtain ⟨new₁, hlog₁, hsent₁, hother₁, hdata₁⟩ := h₁.log
  obtain ⟨new₂, hlog₂, hsent₂, hother₂, hdata₂⟩ := h₂.log
  refine ⟨h₂.res.trans h₁.res, new₁ ++ new₂, by rw [hlog₂, hlog₁, List.append_assoc], ?_, ?_, ?_⟩
  · rw [sentBytes_append, hsent₁, hsent₂, bodySent_append]
  · intro hne
    obtain ⟨hnone₁, hstate₁⟩ := hother₁ hne
    have hne' : h'.hState ≠ .data := by
      rcases hstate₁ with hsame | hdead
      · rwa [hsame]
      · rw [hdead]
        decide
    obtain ⟨hnone₂, hstate₂⟩ := hother₂ hne'
    refine ⟨by rw [sentBytes_append, hnone₁, hnone₂]; rfl, ?_⟩
    rcases hstate₂ with hsame | hdead
    · rw [hsame]
      exact hstate₁
    · exact Or.inr hdead
  · intro hdata
    rcases hdata₁ hdata with hdata' | hdead | ⟨hrequest, hcomplete⟩
    · refine (hdata₂ hdata').imp_right fun hrest => hrest.imp_right fun ⟨hrequest, hcomplete⟩ => ?_
      exact ⟨hrequest, List.mem_append_right _ hcomplete⟩
    · obtain ⟨-, hstate₂⟩ := hother₂ (by rw [hdead]; decide)
      rw [hdead, or_self] at hstate₂
      exact Or.inr (Or.inl hstate₂)
    · obtain ⟨-, hstate₂⟩ := hother₂ (by rw [hrequest]; decide)
      rw [hrequest] at hstate₂
      exact Or.inr (hstate₂.symm.imp_right fun hsame => ⟨hsame, List.mem_append_left _ hcomplete⟩)

theorem Bodily.sent (hdata : h.hState = .data) (bs : Bytes) : Bodily h (h.logged [.sent h.hState bs]) := by
  refine ⟨rfl, [.sent h.hState bs], rfl, ?_, fun hne => absurd hdata hne, fun _ => Or.inl hdata⟩
  rw [hdata]
  rfl

theorem free_bodily (h : HttpConn) (b : Option HttpBuf) (kind : BufKind) : Bodily h (h.free b kind) := by
  cases b with
  | none => exact .refl h
  | some b => exact .quiet rfl rfl rfl (Or.inl rfl)

theorem nbioSetWait_bodily {wait : UInt8} (hok : h.nbioSetWait wait = .ok h') : Bodily h h' := by
  unfold HttpConn.nbioSetWait at hok
  obtain ⟨io, -, rfl⟩ := map_eq_ok_iff.mp hok
  exact .set rfl rfl rfl

theorem dropWebroot_bodily (h : HttpConn) : Bodily h h.dropWebroot := by
  unfold HttpConn.dropWebroot
  cases h.hWebroot with
  | none => exact .refl h
  | some w => exact .quiet rfl rfl rfl (Or.inl rfl)

theorem httpConnSetPriv_bodily {priv : Option HttpBuf} (hok : h.httpConnSetPriv priv = .ok h') : Bodily h h' := by
  unfold HttpConn.httpConnSetPriv at hok
  obtain ⟨-, -, hok⟩ := bind_eq_ok_iff.mp hok
  cases hok
  exact .set rfl rfl rfl

theorem ioAbort_bodily {fio : Fio} (hok : h.ioAbort fio = .ok h') : Bodily h h' := by
  cases fio with
  | sendfile =>
    cases hok
    exact .refl h
  | sync | async =>
    obtain ⟨priv, -, hok⟩ := bind_eq_ok_iff.mp hok
    cases hok
    exact free_bodily h priv .data

theorem httpKill_bodily {fio : Fio} (hok : h.httpKill fio = .ok h') : Bodily h h' := by
  unfold HttpConn.httpKill at hok
  split at hok
  · cases hok
    exact .refl h
  · obtain ⟨h₁, hdrop, rfl⟩ := map_eq_ok_iff.mp hok
    have hclose : Bodily h h.close := .quiet rfl rfl rfl (Or.inl rfl)
    have hbegun := hclose.trans (free_bodily h.close h.hReq .req)
    have hburied : Bodily h₁ h₁.buried := .quiet rfl (List.append_nil _).symm rfl (Or.inr rfl)
    refine (hbegun.trans ?_).trans hburied
    unfold HttpConn.dropResponse at hdrop
    split at hdrop
    · split at hdrop
      · cases hdrop
        exact .refl _
      · cases hdrop
    · exact (free_bodily _ _ .res).trans (ioAbort_bodily hdrop)
    · exact ioAbort_bodily hdrop
    · cases hdrop

theorem httpConnAbort_bodily {fio : Fio} (hok : h.httpConnAbort fio = .ok h') : Bodily h h' := by
  obtain ⟨-, -, hok⟩ := bind_eq_ok_iff.mp hok
  exact httpKill_bodily hok

theorem httpConnDataComplete_bodily {fio : Fio} (hok : h.httpConnDataComplete fio = .ok h') : Bodily h h' := by
  unfold HttpConn.httpConnDataComplete at hok
  split at hok
  · cases hok
  · next hdata =>
    split at hok
    · cases hok
    · obtain ⟨h₁, hwait, hok⟩ := bind_eq_ok_iff.mp hok
      have hdone : Bodily h ((h.withState .request).logged [.complete]) := by
        refine ⟨rfl, [.complete], rfl, rfl, fun hne => absurd hne hdata, fun _ => Or.inr (Or.inr ⟨rfl, by simp⟩)⟩
      have hdropped := (hdone.trans (nbioSetWait_bodily hwait)).trans (dropWebroot_bodily h₁)
      split at hok
      · exact hdropped.trans (httpKill_bodily hok)
      · cases hok
        exact hdropped

theorem httpConnInactive_bodily (hok : h.httpConnInactive = .ok h') : Bodily h h' := by
  unfold HttpConn.httpConnInactive at hok
  obtain ⟨-, -, hok⟩ := bind_eq_ok_iff.mp hok
  cases hok
  exact .set rfl rfl rfl

theorem httpConnDataRead_bodily {len : ℕ} (hok : h.httpConnDataRead len = .ok h') :
    Bodily h h' ∧ h'.hState = h.hState := by
  unfold HttpConn.httpConnDataRead at hok
  obtain ⟨-, -, hok⟩ := bind_eq_ok_iff.mp hok
  split at hok
  · cases hok
    exact ⟨.set rfl rfl rfl, rfl⟩
  · cases hok

theorem ioSyncTopUp_bodily {r : Webroots} {preads : List PreadResult} (hok : h.ioSyncTopUp r preads = .ok (some h')) :
    Bodily h h' ∧ h'.hState = h.hState := by
  unfold HttpConn.ioSyncTopUp at hok
  obtain ⟨priv, -, hok⟩ := bind_eq_ok_iff.mp hok
  obtain ⟨buf, -, hok⟩ := bind_eq_ok_iff.mp hok
  obtain ⟨⟨w, off, len⟩, -, hok⟩ := bind_eq_ok_iff.mp hok
  dsimp only at hok
  split at hok
  · cases hok
    exact ⟨.refl h, rfl⟩
  · split at hok
    · cases hok
    · cases hok
    · obtain ⟨buf', -, hok⟩ := bind_eq_ok_iff.mp hok
      obtain ⟨h₁, hread, hok⟩ := map_eq_ok_iff.mp hok
      cases hok
      have hpriv : Bodily h (h.withPriv (some buf')) := .set rfl rfl rfl
      obtain ⟨hbodily, hstate⟩ := httpConnDataRead_bodily hread
      exact ⟨hpriv.trans hbodily, hstate⟩

theorem ioSyncSent_bodily {rest : HttpBuf} (hok : h.ioSyncSent rest = .ok h') : Bodily h h' := by
  unfold HttpConn.ioSyncSent at hok
  split at hok
  · obtain ⟨h₁, hpriv, hok⟩ := bind_eq_ok_iff.mp hok
    have hfreed := (httpConnSetPriv_bodily hpriv).trans (free_bodily h₁ (some rest) .data)
    exact hfreed.trans (httpConnDataComplete_bodily hok)
  · split at hok
    · cases hok
      exact .set rfl rfl rfl
    · cases hok
      exact .set rfl rfl rfl

theorem ioSyncSend_bodily {send : SendResult} {ok : Bool} (hdata : h.hState = .data)
    (hok : h.ioSyncSend send = .ok (h', ok)) : Bodily h h' := by
  unfold HttpConn.ioSyncSend at hok
  obtain ⟨buf, -, hok⟩ := bind_eq_ok_iff.mp hok
  cases send with
  | eagain =>
    obtain ⟨h₁, hwait, hok⟩ := bind_eq_ok_iff.mp hok
    cases hok
    exact httpConnInactive_bodily hwait
  | error =>
    cases hok
    exact .refl h
  | sent n =>
    dsimp only at hok
    split at hok
    · cases hok
      exact .refl h
    · obtain ⟨rest, -, hok⟩ := bind_eq_ok_iff.mp hok
      obtain ⟨h₁, hsent, hok⟩ := bind_eq_ok_iff.mp hok
      cases hok
      exact (Bodily.sent hdata _).trans (ioSyncSent_bodily hsent)

theorem ioSyncWrite_bodily {r : Webroots} {preads : List PreadResult} {send : SendResult} {ok : Bool}
    (hdata : h.hState = .data) (hok : h.ioSyncWrite r preads send = .ok (h', ok)) : Bodily h h' := by
  unfold HttpConn.ioSyncWrite at hok
  obtain ⟨o, htop, hok⟩ := bind_eq_ok_iff.mp hok
  cases o with
  | none =>
    cases hok
    exact .refl h
  | some h₁ =>
    obtain ⟨hbodily, hstate⟩ := ioSyncTopUp_bodily htop
    exact hbodily.trans (ioSyncSend_bodily (hstate.trans hdata) hok)

theorem ioSendfileWrite_bodily {r : Webroots} {send : SendResult} {ok : Bool} (hdata : h.hState = .data)
    (hok : h.ioSendfileWrite r send = .ok (h', ok)) : Bodily h h' := by
  unfold HttpConn.ioSendfileWrite at hok
  obtain ⟨⟨w, off, len⟩, -, hok⟩ := bind_eq_ok_iff.mp hok
  cases send with
  | eagain =>
    obtain ⟨h₁, hwait, hok⟩ := bind_eq_ok_iff.mp hok
    cases hok
    exact httpConnInactive_bodily hwait
  | error =>
    cases hok
    exact .refl h
  | sent n =>
    dsimp only at hok
    split at hok
    · cases hok
      exact .refl h
    · obtain ⟨h₁, hsent, hok⟩ := bind_eq_ok_iff.mp hok
      cases hok
      unfold HttpConn.ioSendfileSent at hsent
      obtain ⟨h₂, hread, hsent⟩ := bind_eq_ok_iff.mp hsent
      have hbodily := (Bodily.sent hdata _).trans (httpConnDataRead_bodily hread).1
      split at hsent
      · exact hbodily.trans (httpConnDataComplete_bodily hsent)
      · cases hsent
        exact hbodily

theorem aioSubmit_bodily {submit : SubmitResult} {ok : Bool} (hok : h.aioSubmit submit = .ok (h', ok)) :
    Bodily h h' := by
  unfold HttpConn.aioSubmit at hok
  obtain ⟨⟨w, off, len⟩, -, hok⟩ := bind_eq_ok_iff.mp hok
  dsimp only at hok
  split at hok
  · cases hok
  · split at hok
    · cases hok
      exact .refl h
    · obtain ⟨priv, -, hok⟩ := bind_eq_ok_iff.mp hok
      obtain ⟨buf, -, hok⟩ := bind_eq_ok_iff.mp hok
      split at hok
      · cases hok
        exact .refl h
      · obtain ⟨h₁, hwait, hok⟩ := bind_eq_ok_iff.mp hok
        cases hok
        unfold HttpConn.httpConnToWaitq at hwait
        obtain ⟨-, -, hwait⟩ := bind_eq_ok_iff.mp hwait
        exact (nbioSetWait_bodily hwait).trans (.set rfl rfl rfl)

theorem ioPrep_bodily {fio : Fio} {block : Option Mem} {submit : SubmitResult} {ok : Bool}
    (hok : h.ioPrep fio block submit = .ok (h', ok)) : Bodily h h' := by
  cases fio with
  | sendfile =>
    cases hok
    exact .refl h
  | sync =>
    cases block with
    | none =>
      cases hok
      exact .refl h
    | some m =>
      obtain ⟨h₁, hset, hok⟩ := bind_eq_ok_iff.mp hok
      cases hok
      exact httpConnSetPriv_bodily hset
  | async =>
    cases block with
    | none =>
      cases hok
      exact .refl h
    | some m =>
      obtain ⟨h₁, hset, hok⟩ := bind_eq_ok_iff.mp hok
      obtain ⟨⟨h₂, ok₂⟩, hsubmit, hok⟩ := bind_eq_ok_iff.mp hok
      have hbodily := (httpConnSetPriv_bodily hset).trans (aioSubmit_bodily hsubmit)
      cases ok₂ with
      | true =>
        cases hok
        exact hbodily
      | false =>
        obtain ⟨h₃, hclear, hok⟩ := bind_eq_ok_iff.mp hok
        cases hok
        exact (hbodily.trans (free_bodily h₂ h₂.hIoPriv .data)).trans (httpConnSetPriv_bodily hclear)

theorem ioAsyncWrite_bodily {send : SendResult} {submit : SubmitResult} {ok : Bool} (hdata : h.hState = .data)
    (hok : h.ioAsyncWrite send submit = .ok (h', ok)) : Bodily h h' := by
  unfold HttpConn.ioAsyncWrite at hok
  obtain ⟨priv, -, hok⟩ := bind_eq_ok_iff.mp hok
  obtain ⟨buf, -, hok⟩ := bind_eq_ok_iff.mp hok
  cases send with
  | eagain =>
    obtain ⟨h₁, hwait, hok⟩ := bind_eq_ok_iff.mp hok
    cases hok
    exact httpConnInactive_bodily hwait
  | error =>
    cases hok
    exact .refl h
  | sent n =>
    dsimp only at hok
    split at hok
    · cases hok
      exact .refl h
    · obtain ⟨rest, -, hok⟩ := bind_eq_ok_iff.mp hok
      have hsent := Bodily.sent hdata (buf.unread.take (min n buf.bufRead))
      unfold HttpConn.ioAsyncSent at hok
      obtain ⟨h₁, hread, hok⟩ := bind_eq_ok_iff.mp hok
      have hpriv : Bodily (h.logged [.sent h.hState (buf.unread.take (min n buf.bufRead))])
          ((h.logged [.sent h.hState (buf.unread.take (min n buf.bufRead))]).withPriv (some rest)) :=
        .set rfl rfl rfl
      have hread := (hsent.trans hpriv).trans (httpConnDataRead_bodily hread).1
      split at hok
      · cases hok
        exact hread
      · split at hok
        · have hreset : Bodily h₁ (h₁.withPriv (some rest.bufReset)) := .set rfl rfl rfl
          exact (hread.trans hreset).trans (aioSubmit_bodily hok)
        · obtain ⟨h₂, hset, hok⟩ := bind_eq_ok_iff.mp hok
          obtain ⟨h₃, hdone, hok⟩ := bind_eq_ok_iff.mp hok
          cases hok
          have hfreed := (hread.trans (free_bodily h₁ (some rest) .data)).trans (httpConnSetPriv_bodily hset)
          exact hfreed.trans (httpConnDataComplete_bodily hdone)

theorem ioWrite_bodily {fio : Fio} {r : Webroots} {o : HttpConn.WriteResults} {ok : Bool} (hdata : h.hState = .data)
    (hok : h.ioWrite fio r o = .ok (h', ok)) : Bodily h h' := by
  cases fio with
  | sync => exact ioSyncWrite_bodily hdata hok
  | sendfile => exact ioSendfileWrite_bodily hdata hok
  | async => exact ioAsyncWrite_bodily hdata hok

/-- A read that is done sends nothing. -/
theorem handleCompletion_bodily {r : Webroots} {iocb : Iocb} {result : CompletionResult}
    (hok : h.handleCompletion r iocb result = .ok h') : Bodily h h' := by
  have hidle : Bodily h (h.withAio none) := .set rfl rfl rfl
  cases result with
  | error => exact hidle.trans (httpConnAbort_bodily hok)
  | read n =>
    unfold HttpConn.handleCompletion at hok
    dsimp only at hok
    split at hok
    · exact hidle.trans (httpConnAbort_bodily hok)
    · obtain ⟨priv, -, hok⟩ := bind_eq_ok_iff.mp hok
      obtain ⟨buf, -, hok⟩ := bind_eq_ok_iff.mp hok
      obtain ⟨buf', -, hok⟩ := bind_eq_ok_iff.mp hok
      unfold HttpConn.httpConnWakeOne at hok
      obtain ⟨-, -, hok⟩ := bind_eq_ok_iff.mp hok
      have hpriv : Bodily h ((h.withAio none).withPriv (some buf')) := .set rfl rfl rfl
      exact hpriv.trans (nbioSetWait_bodily hok)

/-- How far a response with a body is: behind the header there is what was sent of the body. -/
structure Framed (header : Bytes) (h₀ h : HttpConn) (new : List Event) : Prop where
  log : h.log = h₀.log ++ new
  left : match h.hState with
    | .header => bodySent new = [] ∧ ∃ res, h.hRes = some res ∧ sentBytes new ++ res.unread = header
    | .data => sentBytes new = header ++ bodySent new
    | .request => sentBytes new = header ++ bodySent new ∧ Event.complete ∈ new
    | .dead => sentBytes new = header ++ bodySent new ∨ bodySent new = [] ∧ sentBytes new <+: header

variable {header : Bytes} {h₀ : HttpConn}

theorem Framed.inHeader (hf : Framed header h₀ h new) (hstate : h.hState = .header) :
    bodySent new = [] ∧ ∃ res, h.hRes = some res ∧ sentBytes new ++ res.unread = header := by
  have hleft := hf.left
  rw [hstate] at hleft
  exact hleft

theorem Framed.inData (hf : Framed header h₀ h new) (hstate : h.hState = .data) :
    sentBytes new = header ++ bodySent new := by
  have hleft := hf.left
  rw [hstate] at hleft
  exact hleft

/-- While a response is sent, steps that send parts of the body keep the order. -/
theorem Framed.bodily (hf : Framed header h₀ h new) (hr : h.Responding) (hb : Bodily h h') :
    ∃ new', Framed header h₀ h' new' := by
  obtain ⟨hres, last, hlog, hsent, hother, hdata⟩ := hb
  refine ⟨new ++ last, by rw [hlog, hf.log, List.append_assoc], ?_⟩
  rcases hr with hstate | hstate
  · have hframe : sentBytes (new ++ last) = header ++ bodySent (new ++ last) := by
      rw [sentBytes_append, hf.inData hstate, hsent, bodySent_append, List.append_assoc]
    rcases hdata hstate with hdata | hdead | ⟨hrequest, hcomplete⟩
    · rw [hdata]
      exact hframe
    · rw [hdead]
      exact Or.inl hframe
    · rw [hrequest]
      exact ⟨hframe, List.mem_append_right _ hcomplete⟩
  · obtain ⟨hnone, res, hh, htext⟩ := hf.inHeader hstate
    obtain ⟨hunsent, hstate'⟩ := hother (by rw [hstate]; decide)
    have hbody : bodySent (new ++ last) = [] := by
      rw [bodySent_append, hnone, bodySent_of_unsent hunsent]
      rfl
    have hsame : sentBytes (new ++ last) = sentBytes new := by
      rw [sentBytes_append, hunsent, List.append_nil]
    rcases hstate' with hheader | hdead
    · rw [hheader, hstate]
      exact ⟨hbody, res, hres.trans hh, by rw [hsame, htext]⟩
    · rw [hdead]
      exact Or.inr ⟨hbody, by rw [hsame, ← htext]; exact List.prefix_append _ _⟩

/-- `http_write_hdr` goes on with the header, or to the body behind it. -/
theorem Framed.httpWriteHdr (hf : Framed header h₀ h new) (hstate : h.hState = .header) (hlen : h.hDataLen ≠ 0)
    {send : SendResult} {ok : Bool} (hok : h.httpWriteHdr send = .ok (h', ok)) :
    ∃ new', Framed header h₀ h' new' ∧ h'.Responding := by
  obtain ⟨hnone, res, hres, htext⟩ := hf.inHeader hstate
  have hresp : h.Responding := Or.inr hstate
  unfold HttpConn.httpWriteHdr at hok
  rw [hres] at hok
  obtain ⟨_, hderef, hok⟩ := bind_eq_ok_iff.mp hok
  cases hderef
  cases send with
  | eagain =>
    cases hok
    have hwaits : Bodily h (h.withNbio (h.hNbio.nbioInactive NBIO_WRITE)) := .set rfl rfl rfl
    obtain ⟨new', hf'⟩ := hf.bodily hresp hwaits
    exact ⟨new', hf', hresp⟩
  | error =>
    cases hok
    exact ⟨new, hf, hresp⟩
  | sent n =>
    dsimp only at hok
    split at hok
    · cases hok
      exact ⟨new, hf, hresp⟩
    · obtain ⟨rest, hdone, hok⟩ := bind_eq_ok_iff.mp hok
      obtain ⟨-, hrest⟩ := HttpBuf.unread_of_bufDoneRead hdone
      obtain ⟨bs, hbs⟩ : ∃ bs, bs = res.unread.take (min n res.bufRead) := ⟨_, rfl⟩
      rw [hstate, ← hbs] at hok
      have htext' : sentBytes (new ++ [.sent .header bs]) ++ rest.unread = header := by
        rw [sentBytes_append, List.append_assoc, hrest, hbs, ← htext]
        show sentBytes new ++ (res.unread.take _ ++ [] ++ res.unread.drop _) = _
        rw [List.append_nil, List.take_append_drop]
      have hbody : bodySent (new ++ [.sent .header bs]) = [] := by
        rw [bodySent_append, hnone]
        rfl
      split at hok
      · cases hok
        refine ⟨new ++ [.sent .header bs], ⟨?_, ?_⟩, hresp⟩
        · show h.log ++ [.sent .header bs] = _
          rw [hf.log, List.append_assoc]
        · show match h.hState with | .header => _ | .data => _ | .request => _ | .dead => _
          rw [hstate]
          exact ⟨hbody, rest, rfl, htext'⟩
      · next hempty =>
        unfold HttpConn.headerDone at hok
        have hlen' : ((h.logged [.sent .header bs]).free (some rest) .res).hDataLen ≠ 0 := hlen
        rw [HttpConn.withRes_hDataLen, if_pos hlen'] at hok
        cases hok
        refine ⟨new ++ [.sent .header bs, .freed .res], ⟨?_, ?_⟩, Or.inl rfl⟩
        · show h.log ++ [.sent .header bs] ++ [.freed .res] = _
          rw [hf.log, List.append_assoc, List.append_assoc]
          rfl
        · rw [not_not, ← HttpBuf.unread_length, List.length_eq_zero_iff] at hempty
          rw [hempty, List.append_nil] at htext'
          show sentBytes (new ++ ([.sent .header bs] ++ [.freed .res])) = header ++
            bodySent (new ++ ([.sent .header bs] ++ [.freed .res]))
          rw [← List.append_assoc, sentBytes_append, bodySent_append, htext', hbody]
          rfl

/-- A step of a response keeps header and body in their order. -/
theorem Framed.step {w ofs len : ℕ} (hf : Framed header h₀ h new) (hs : Serving s w ofs len h (bodySent new))
    {e : HttpConn.Happening} (hstep : h.Steps s e h') : ∃ new', Framed header h₀ h' new' := by
  have hresp := hs.responding
  unfold HttpConn.Steps HttpConn.step at hstep
  cases e with
  | ready flags | error =>
    dsimp only at hstep
    split at hstep
    · cases hstep
      exact hf.bodily hresp (.set rfl rfl rfl)
    · cases hstep
  | read o =>
    have hcalled : ¬ h.Called NBIO_READ := by
      rintro ⟨-, hflags⟩
      rw [UInt8.and_assoc, hs.noRead, UInt8.and_zero] at hflags
      exact hflags rfl
    dsimp only at hstep
    rw [if_neg hcalled] at hstep
    cases hstep
  | completion result =>
    dsimp only at hstep
    cases haio : h.aio with
    | none =>
      rw [haio] at hstep
      cases hstep
    | some iocb =>
      rw [haio] at hstep
      obtain ⟨h₁, hok, hsome⟩ := map_eq_ok_iff.mp hstep
      cases hsome
      exact hf.bodily hresp (handleCompletion_bodily hok)
  | write o =>
    dsimp only at hstep
    split at hstep
    · obtain ⟨h₁, hok, hsome⟩ := map_eq_ok_iff.mp hstep
      cases hsome
      unfold HttpConn.httpWrite at hok
      obtain ⟨⟨h₂, ok⟩, hwrite, hok⟩ := bind_eq_ok_iff.mp hok
      unfold HttpConn.httpWriteState at hwrite
      rcases hresp with hstate | hstate
      · rw [hstate] at hwrite
        have hbodily : Bodily h h' := by
          cases ok with
          | true =>
            cases hok
            exact ioWrite_bodily hstate hwrite
          | false => exact (ioWrite_bodily hstate hwrite).trans (httpKill_bodily hok)
        exact hf.bodily (Or.inl hstate) hbodily
      · rw [hstate] at hwrite
        obtain ⟨-, hlen, -⟩ := hs.header hstate
        obtain ⟨new', hf', hresp'⟩ := hf.httpWriteHdr hstate hlen hwrite
        cases ok with
        | true =>
          cases hok
          exact ⟨new', hf'⟩
        | false => exact hf'.bodily hresp' (httpKill_bodily hok)
    · cases hstep

/-- In any run of a response the bytes on the wire are the first ones of a text, and all of it when a
request is waited for again. -/
def Conveys (s : Server) (h₀ : HttpConn) (text : Bytes) : Prop :=
  ∀ es h, GuardedRun (HttpConn.Steps s) (fun h _ => h.Responding) h₀ es h →
    ∃ new, h.log = h₀.log ++ new ∧ sentBytes new <+: text ∧ (h.hState = .request → sentBytes new = text)

theorem Telling.conveys {text : Bytes} (ht : Telling text h₀ h₀ []) : Conveys s h₀ text := by
  intro es h hrun
  obtain ⟨new, hnew⟩ := ht.run hrun
  refine ⟨new, hnew.log, hnew.sent_prefix, fun hstate => ?_⟩
  have hleft := hnew.left
  rw [hstate] at hleft
  exact hleft

/-- A header with a body behind it. -/
theorem Serving.conveys {w ofs len : ℕ} (hs : Serving s w ofs len h₀ []) (hf : Framed header h₀ h₀ []) :
    Conveys s h₀ (header ++ fileSlice (s.roots.file w) ofs len) := by
  intro es h hrun
  have hinv : Course s w ofs len h₀ True h ∧ ∃ new, Framed header h₀ h new := by
    refine hrun.invariant (I := fun _ h => Course s w ofs len h₀ True h ∧ ∃ new, Framed header h₀ h new) ?_
      ⟨Course.start hs True, [], hf⟩
    rintro _ h e h' ⟨hc, new, hf⟩ hr hstep
    refine ⟨hc.step hr hstep fun _ => trivial, ?_⟩
    obtain ⟨new', hlog', ⟨-, hserving⟩ | ⟨hidle, -⟩ | ⟨hidle, -⟩⟩ := hc
    · obtain rfl : new = new' := List.append_cancel_left (hf.log.symm.trans hlog')
      exact hf.step hserving hstep
    · exact absurd hr hidle
    · exact absurd hr hidle
  obtain ⟨⟨new, hlog, hcourse⟩, new', hframed⟩ := hinv
  obtain rfl : new' = new := List.append_cancel_left (hframed.log.symm.trans hlog)
  have hprefix : bodySent new' <+: fileSlice (s.roots.file w) ofs len := by
    obtain ⟨-, hserving⟩ | ⟨-, -, hall, -⟩ | ⟨-, -, hprefix, -⟩ := hcourse
    · exact hserving.sent_prefix
    · rw [hall]
    · exact hprefix
  have hbody : header ++ bodySent new' <+: header ++ fileSlice (s.roots.file w) ofs len :=
    (List.prefix_append_right_inj header).mpr hprefix
  have hleft := hframed.left
  refine ⟨new', hlog, ?_, ?_⟩
  · split at hleft
    · obtain ⟨-, res, -, htext⟩ := hleft
      rw [← htext, List.append_assoc]
      exact List.prefix_append _ _
    · rw [hleft]
      exact hbody
    · rw [hleft.1]
      exact hbody
    · rcases hleft with hleft | ⟨-, hleft⟩
      · rw [hleft]
        exact hbody
      · exact hleft.trans (List.prefix_append _ _)
  · intro hstate
    rw [hstate] at hleft
    obtain ⟨hframe, hcomplete⟩ := hleft
    obtain ⟨hmore, -⟩ | ⟨-, -, hall, -⟩ | ⟨-, hmore, -⟩ := hcourse
    · exact absurd hcomplete hmore
    · rw [hframe, hall]
    · exact absurd hcomplete hmore

end Ashttpd
