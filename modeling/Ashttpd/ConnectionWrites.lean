import Ashttpd.ConnectionStates

/-!
# Write callbacks from state to state

A write callback leaves a connection as it should stand, or kills it. The synchronous models and
the header never come to a fault on the way.
-/
namespace Ashttpd

variable {h h' : HttpConn} {fio : Fio} {r : Webroots}

theorem HttpConn.Standing.written (hs : h.Standing fio) : Written fio (h, true) :=
  Or.inl ⟨rfl, Or.inl hs⟩

theorem HttpConn.Standing.refused (hs : h.Standing fio) (haio : h.aio = none) : Written fio (h, false) :=
  Or.inr ⟨rfl, hs.unclosed, hs.killable haio⟩

theorem ends_written {x : Except Fault HttpConn} {E : Fault → Prop} (hx : Ends E (HttpConn.Settled fio) x) :
    Ends E (Written fio) (x >>= fun h => .ok (h, true)) :=
  ends_bind hx fun _ hsettled => Or.inl ⟨rfl, hsettled⟩

theorem httpConnInactive_ends (hs : h.Standing fio) (haio : h.aio = none) (hstate : h.hState = .data) :
    Ends NoFault (HttpConn.Settled fio) h.httpConnInactive :=
  ends_of_ok (HttpConn.httpConnInactive_eq (Or.inl hstate)) (Or.inl (hs.inactive haio NBIO_WRITE))

theorem headerDone_ends (hs : h.Standing fio) (haio : h.aio = none) (hstate : h.hState = .header) :
    Ends NoFault (Written fio) (h.withRes none).headerDone := by
  have hbody : h.hDataLen ≠ 0 → h.hWebroot ≠ none ∧ (fio ≠ .sendfile → h.hIoPriv ≠ none) :=
    fun hlen => hs.body (Or.inr ⟨hstate, hlen⟩)
  have hmask : h.hNbio.mask = NBIO_WRITE := by
    rw [hs.mask haio, if_neg (by simp [hstate])]
  have hnone : h.hState = .request ∨ fio = .sendfile → h.hIoPriv = none := (hs.killable haio).priv
  unfold HttpConn.headerDone
  by_cases hlen : (h.withRes none).hDataLen = 0
  · rw [if_neg (not_not.mpr hlen)]
    by_cases hclose : (h.withRes none).hConnClose ≠ 0
    · rw [if_pos hclose]
      exact Or.inr ⟨rfl, ⟨hs.unclosed.fd, hs.unclosed.closed, hs.unclosed.list⟩, haio, hs.state, fun _ => rfl, hnone⟩
    · rw [if_neg hclose, HttpConn.nbioSetWait_eq (h := h.withRes none) hs.mask_ne, ok_bind]
      refine Or.inl ⟨rfl, Or.inl ⟨⟨⟨hs.unclosed.fd, hs.unclosed.closed, waiting_list _ _⟩, nofun, fun _ => rfl,
        fun hne => absurd haio hne, ?_, ?_, fun _ => hs.noBody (Or.inr ⟨hstate, hlen⟩), hs.sendfile⟩, ?_⟩⟩
      · exact ⟨fun hne => absurd rfl hne, nofun⟩
      · rintro (hcase | ⟨hcase, -⟩)
        · cases hcase
        · cases hcase
      · intro hreq
        exact Or.inl ((hs.scan hreq).resolve_right fun hd => hclose hd.2.2)
  · rw [if_pos hlen]
    refine Or.inl ⟨rfl, Or.inl ⟨⟨⟨hs.unclosed.fd, hs.unclosed.closed, hs.unclosed.list⟩, nofun, fun _ => hmask,
      fun hne => absurd haio hne, ?_, fun _ => hbody hlen, ?_, hs.sendfile⟩, ?_⟩⟩
    · exact ⟨fun hne => absurd rfl hne, nofun⟩
    · rintro (hcase | ⟨hcase, -⟩)
      · cases hcase
      · cases hcase
    · intro hreq
      exact Or.inl ((hs.scan hreq).resolve_right fun hd => hlen hd.2.1)

theorem HttpConn.Standing.withRes (hs : h.Standing fio) (hstate : h.hState = .header) (res : HttpBuf) :
    (h.withRes (some res)).Standing fio :=
  ⟨hs.toPoised.withRes hstate res, hs.scan⟩

theorem httpWriteHdr_ends (hs : h.Standing fio) (haio : h.aio = none) (hstate : h.hState = .header)
    (send : SendResult) : Ends NoFault (Written fio) (h.httpWriteHdr send) := by
  obtain ⟨res, hres⟩ := Option.ne_none_iff_exists'.mp (hs.res.mpr hstate)
  unfold HttpConn.httpWriteHdr
  rw [hres]
  simp only [deref, ok_bind]
  cases send with
  | eagain => exact (hs.inactive haio NBIO_WRITE).written
  | error => exact hs.refused haio
  | sent n =>
    dsimp only
    by_cases hzero : min n res.bufRead = 0
    · rw [if_pos hzero]
      exact hs.refused haio
    · rw [if_neg hzero]
      obtain ⟨rest, hdone, -⟩ := res.bufDoneRead_spec (by omega : min n res.bufRead ≤ res.bufRead)
      have hsent := hs.logged [.sent h.hState (res.unread.take (min n res.bufRead))] rfl
      rw [hdone, ok_bind]
      by_cases hmore : rest.bufRead ≠ 0
      · rw [if_pos hmore]
        exact (hsent.withRes hstate rest).written
      · rw [if_neg hmore]
        exact headerDone_ends (hsent.logged [.freed .res] rfl) haio hstate

/-- What `io_sync_write` goes on with after topping up the buffer. -/
def ToppedUp (o : Option HttpConn) : Prop :=
  ∀ h ∈ o, h.Standing .sync ∧ h.aio = none ∧ h.hState = .data

theorem ioSyncTopUp_ends (hs : h.Standing .sync) (haio : h.aio = none) (hstate : h.hState = .data)
    (preads : List PreadResult) : Ends NoFault ToppedUp (h.ioSyncTopUp r preads) := by
  obtain ⟨hweb, hpriv⟩ := hs.body (Or.inl hstate)
  obtain ⟨w, hw⟩ := Option.ne_none_iff_exists'.mp hweb
  obtain ⟨buf, hbuf⟩ := Option.ne_none_iff_exists'.mp (hpriv (by decide))
  unfold HttpConn.ioSyncTopUp
  rw [HttpConn.httpConnGetPriv_eq (Or.inl hstate), ok_bind, hbuf, HttpConn.httpConnData_eq (Or.inl hstate) hw]
  simp only [deref, ok_bind]
  by_cases hroom : buf.bufWrite = 0
  · rw [if_pos hroom]
    rintro _ ⟨⟩
    exact ⟨hs, haio, hstate⟩
  · rw [if_neg hroom]
    cases hread : fdPread (r.file w) preads h.hDataOff (min buf.bufWrite h.hDataLen) with
    | none => exact fun _ hmem => nomatch hmem
    | some res =>
      obtain ⟨bs, _ | _⟩ := res
      · obtain ⟨-, hlen⟩ := fdPread_eq_some_false hread
        obtain ⟨buf', hdone, -⟩ := buf.bufDoneWrite_spec (by omega : bs.length ≤ buf.bufWrite)
        dsimp only
        rw [hdone, ok_bind,
          HttpConn.httpConnDataRead_eq (h := h.withPriv (some buf')) (Or.inl hstate) (by simp [hlen])]
        rintro _ ⟨⟩
        exact ⟨(hs.withPriv hstate (by decide) buf').withData hstate _ _, haio, hstate⟩
      · exact fun _ hmem => nomatch hmem

theorem ioSyncSent_ends (hs : h.Standing .sync) (haio : h.aio = none) (hstate : h.hState = .data)
    (rest : HttpBuf) : Ends NoFault (HttpConn.Settled .sync) (h.ioSyncSent rest) := by
  unfold HttpConn.ioSyncSent
  by_cases hdone : rest.bufRead + h.hDataLen = 0
  · rw [if_pos hdone, HttpConn.httpConnSetPriv_eq (Or.inl hstate), ok_bind]
    exact httpConnDataComplete_ends (hs.logged [.freed .data] rfl) haio hstate (by simpa using by omega)
  · rw [if_neg hdone]
    split
    · exact Or.inl (hs.withPriv hstate (by decide) _)
    · exact Or.inl (hs.withPriv hstate (by decide) _)

theorem ioSyncSend_ends (hs : h.Standing .sync) (haio : h.aio = none) (hstate : h.hState = .data)
    (send : SendResult) : Ends NoFault (Written .sync) (h.ioSyncSend send) := by
  obtain ⟨-, hpriv⟩ := hs.body (Or.inl hstate)
  obtain ⟨buf, hbuf⟩ := Option.ne_none_iff_exists'.mp (hpriv (by decide))
  unfold HttpConn.ioSyncSend
  rw [hbuf]
  simp only [deref, ok_bind]
  cases send with
  | eagain => exact ends_written (httpConnInactive_ends hs haio hstate)
  | error => exact hs.refused haio
  | sent n =>
    dsimp only
    by_cases hzero : min n buf.bufRead = 0
    · rw [if_pos hzero]
      exact hs.refused haio
    · rw [if_neg hzero]
      obtain ⟨rest, hdone, -⟩ := buf.bufDoneRead_spec (by omega : min n buf.bufRead ≤ buf.bufRead)
      rw [hdone, ok_bind]
      exact ends_written (ioSyncSent_ends (hs.logged _ rfl) haio hstate rest)

theorem ioSyncWrite_ends (hs : h.Standing .sync) (haio : h.aio = none) (hstate : h.hState = .data)
    (preads : List PreadResult) (send : SendResult) :
    Ends NoFault (Written .sync) (h.ioSyncWrite r preads send) := by
  refine ends_bind (ioSyncTopUp_ends hs haio hstate preads) ?_
  intro o ho
  cases o with
  | none => exact hs.refused haio
  | some h' =>
    obtain ⟨hs', haio', hstate'⟩ := ho h' rfl
    exact ioSyncSend_ends hs' haio' hstate' send

theorem ioSendfileSent_ends (hs : h.Standing .sendfile) (haio : h.aio = none) (hstate : h.hState = .data)
    {len : ℕ} (hlen : len ≤ h.hDataLen) : Ends NoFault (HttpConn.Settled .sendfile) (h.ioSendfileSent len) := by
  have hread := hs.withData hstate (h.hDataOff + len) (h.hDataLen - len)
  unfold HttpConn.ioSendfileSent
  rw [HttpConn.httpConnDataRead_eq (Or.inl hstate) hlen, ok_bind]
  by_cases hdone : (h.withData (h.hDataOff + len) (h.hDataLen - len)).hDataLen = 0
  · rw [if_pos hdone]
    rw [← withPriv_self (hread.sendfile rfl)]
    exact httpConnDataComplete_ends hread haio hstate hdone
  · rw [if_neg hdone]
    exact Or.inl hread

theorem ioSendfileWrite_ends (hs : h.Standing .sendfile) (haio : h.aio = none) (hstate : h.hState = .data)
    (send : SendResult) : Ends NoFault (Written .sendfile) (h.ioSendfileWrite r send) := by
  obtain ⟨hweb, -⟩ := hs.body (Or.inl hstate)
  obtain ⟨w, hw⟩ := Option.ne_none_iff_exists'.mp hweb
  unfold HttpConn.ioSendfileWrite
  rw [HttpConn.httpConnData_eq (Or.inl hstate) hw]
  simp only [ok_bind]
  cases send with
  | eagain => exact ends_written (httpConnInactive_ends hs haio hstate)
  | error => exact hs.refused haio
  | sent n =>
    dsimp only
    have hle := fileSlice_length_le (r.file w) h.hDataOff (min n (min h.hDataLen SENDFILE_CHUNK))
    split
    · exact hs.refused haio
    · exact ends_written (ioSendfileSent_ends (hs.logged _ rfl) haio hstate (by simpa using by omega))

/-- A submission that succeeds leaves a read in flight, and any other leaves nothing. -/
theorem aioSubmit_cases {submit : SubmitResult} {ok : Bool} (hok : h.aioSubmit submit = .ok (h', ok)) :
    ok = false ∧ h' = h ∨ ok = true ∧ submit = .submitted ∧ h.Responding ∧
      ∃ iocb, h' = (h.withNbio (HttpConn.waiting h.hNbio 0)).withAio (some iocb) := by
  unfold HttpConn.aioSubmit at hok
  obtain ⟨⟨w, off, len⟩, -, hok⟩ := bind_eq_ok_iff.mp hok
  dsimp only at hok
  split at hok
  · cases hok
  · split at hok
    · cases hok
      exact Or.inl ⟨rfl, rfl⟩
    · next hoom =>
      obtain ⟨priv, -, hok⟩ := bind_eq_ok_iff.mp hok
      obtain ⟨buf, -, hok⟩ := bind_eq_ok_iff.mp hok
      split at hok
      · cases hok
        exact Or.inl ⟨rfl, rfl⟩
      · next herror =>
        have hsubmitted : submit = .submitted := by
          cases submit with
          | oom => exact absurd rfl hoom
          | error => exact absurd rfl herror
          | submitted => rfl
        obtain ⟨h₁, hwait, hok⟩ := bind_eq_ok_iff.mp hok
        cases hok
        unfold HttpConn.httpConnToWaitq at hwait
        obtain ⟨_, hassert, hwait⟩ := bind_eq_ok_iff.mp hwait
        have hresp : h.Responding := by
          unfold HttpConn.assertResponding at hassert
          split at hassert
          · next hresp => exact hresp
          · cases hassert
        have hmask : h.hNbio.mask ≠ NBIO_DELETED := by
          intro hdel
          rw [HttpConn.nbioSetWait, Nbio.doSetWait, if_pos hdel] at hwait
          cases hwait
        rw [HttpConn.nbioSetWait_eq hmask] at hwait
        cases hwait
        exact Or.inr ⟨rfl, hsubmitted, hresp, _, rfl⟩

theorem HttpConn.Standing.submitted (hs : h.Standing .async) (hresp : h.Responding) (iocb : Iocb) :
    ((h.withNbio (HttpConn.waiting h.hNbio 0)).withAio (some iocb)).Standing .async :=
  ⟨⟨⟨hs.unclosed.fd, hs.unclosed.closed, waiting_list _ _⟩, hs.state, fun hidle => absurd hidle (Option.some_ne_none iocb),
    fun _ => ⟨rfl, hresp, rfl, rfl, rfl⟩, hs.res, hs.body, hs.noBody, hs.sendfile⟩, hs.scan⟩

theorem ioAsyncSent_ends (hs : h.Standing .async) (haio : h.aio = none) (hstate : h.hState = .data)
    (rest : HttpBuf) (ret : ℕ) (submit : SubmitResult) :
    Ends (AsyncFault .async) (Written .async) (h.ioAsyncSent rest ret submit) := by
  have hrest := hs.withPriv hstate (by decide) rest
  unfold HttpConn.ioAsyncSent
  refine ends_bind (P := fun g => ∃ off len, g = (h.withPriv (some rest)).withData off len)
    (ends_of_forall (fun _ => rfl) fun g hg => ?_) ?_
  · unfold HttpConn.httpConnDataRead at hg
    obtain ⟨-, -, hg⟩ := bind_eq_ok_iff.mp hg
    split at hg
    · cases hg
      exact ⟨_, _, rfl⟩
    · cases hg
  · rintro _ ⟨off, len, rfl⟩
    have hread := hrest.withData hstate off len
    split
    · exact hread.written
    · split
      · refine ends_of_forall (fun _ => rfl) ?_
        rintro ⟨h', ok⟩ hsubmit
        have hreset := hread.withPriv hstate (by decide) rest.bufReset
        obtain ⟨rfl, rfl⟩ | ⟨rfl, -, hresp, iocb, rfl⟩ := aioSubmit_cases hsubmit
        · exact hreset.refused haio
        · exact (hreset.submitted hresp iocb).written
      · next hdone =>
        have hfreed := hread.logged [.freed .data] rfl
        have hclear := HttpConn.httpConnSetPriv_eq (h := ((h.withPriv (some rest)).withData off len).logged
          [.freed .data]) (Or.inl hstate) none
        rw [show ((h.withPriv (some rest)).withData off len).free (some rest) .data =
          ((h.withPriv (some rest)).withData off len).logged [.freed .data] from rfl, hclear, ok_bind]
        have hcomplete := httpConnDataComplete_ends hfreed haio hstate (not_not.mp hdone)
        exact (ends_written hcomplete).mono (fun _ hno => hno.elim) fun _ => id

theorem ioAsyncWrite_ends (hs : h.Standing .async) (haio : h.aio = none) (hstate : h.hState = .data)
    (send : SendResult) (submit : SubmitResult) :
    Ends (AsyncFault .async) (Written .async) (h.ioAsyncWrite send submit) := by
  obtain ⟨-, hpriv⟩ := hs.body (Or.inl hstate)
  obtain ⟨buf, hbuf⟩ := Option.ne_none_iff_exists'.mp (hpriv (by decide))
  unfold HttpConn.ioAsyncWrite
  rw [HttpConn.httpConnGetPriv_eq (Or.inl hstate), ok_bind, hbuf]
  simp only [deref, ok_bind]
  cases send with
  | eagain =>
    exact (ends_written (httpConnInactive_ends hs haio hstate)).mono (fun _ hno => hno.elim) fun _ => id
  | error => exact hs.refused haio
  | sent n =>
    dsimp only
    by_cases hzero : min n buf.bufRead = 0
    · rw [if_pos hzero]
      exact hs.refused haio
    · rw [if_neg hzero]
      obtain ⟨rest, hdone, -⟩ := buf.bufDoneRead_spec (by omega : min n buf.bufRead ≤ buf.bufRead)
      rw [hdone, ok_bind]
      exact ioAsyncSent_ends (hs.logged _ rfl) haio hstate rest _ submit

/-- When a read is done the connection is woken up, or killed. -/
theorem handleCompletion_ends (hs : h.Standing fio) {iocb : Iocb} (haio : h.aio = some iocb)
    (result : CompletionResult) :
    Ends (AsyncFault fio) (HttpConn.Settled fio) (h.handleCompletion r iocb result) := by
  obtain ⟨rfl, hresp, hmask, -, -⟩ := hs.inFlight (by simp [haio])
  have habort : Ends (AsyncFault .async) (HttpConn.Settled .async) ((h.withAio none).httpConnAbort .async) := by
    unfold HttpConn.httpConnAbort
    rw [HttpConn.assertResponding_eq (h := h.withAio none) hresp, ok_bind]
    have hres : h.hState ≠ .header → h.hRes = none := by
      intro hstate
      by_contra hne
      exact hstate (hs.res.mp hne)
    have hpriv : h.hState = .request ∨ Fio.async = .sendfile → h.hIoPriv = none := by
      rintro (hstate | hf)
      · exact hs.noBody (Or.inl hstate)
      · cases hf
    have hkill := httpKill_ends (h := h.withAio none) ⟨hs.unclosed.fd, hs.unclosed.closed, hs.unclosed.list⟩
      ⟨rfl, hs.state, hres, hpriv⟩
    exact hkill.mono (fun _ hno => hno.elim) fun _ => Or.inr
  cases result with
  | error => exact habort
  | read n =>
    unfold HttpConn.handleCompletion
    dsimp only
    split
    · exact habort
    · refine ends_of_forall (fun _ => rfl) fun h' hok => ?_
      rw [HttpConn.httpConnGetPriv_eq (h := h.withAio none) hresp, ok_bind] at hok
      obtain ⟨buf, hderef, hok⟩ := bind_eq_ok_iff.mp hok
      obtain ⟨buf', -, hok⟩ := bind_eq_ok_iff.mp hok
      have hmask' : h.hNbio.mask ≠ NBIO_DELETED := by
        rw [hmask]
        decide
      rw [HttpConn.httpConnWakeOne, HttpConn.assertResponding_eq (h := (h.withAio none).withPriv (some buf')) hresp,
        ok_bind, HttpConn.nbioSetWait_eq (h := (h.withAio none).withPriv (some buf')) hmask'] at hok
      cases hok
      have hwrite : h.hState ≠ .request := by
        obtain hstate | hstate := hresp
        · simp [hstate]
        · simp [hstate]
      refine Or.inl ⟨⟨⟨hs.unclosed.fd, hs.unclosed.closed, waiting_list _ _⟩, hs.state, fun _ => (if_neg hwrite).symm,
        fun hne => absurd rfl hne, hs.res, fun hbody => ⟨(hs.body hbody).1, fun _ => Option.some_ne_none buf'⟩, ?_,
        fun hf => nomatch hf⟩, hs.scan⟩
      intro hnone
      have hpriv : h.hIoPriv = none := hs.noBody hnone
      rw [HttpConn.withAio_hIoPriv, hpriv] at hderef
      cases hderef

theorem ioWrite_ends (hs : h.Standing fio) (haio : h.aio = none) (hstate : h.hState = .data) (o : HttpConn.WriteResults) :
    Ends (AsyncFault fio) (Written fio) (h.ioWrite fio r o) := by
  cases fio with
  | sync => exact (ioSyncWrite_ends hs haio hstate o.preads o.send).mono (fun _ hno => hno.elim) fun _ => id
  | sendfile => exact (ioSendfileWrite_ends hs haio hstate o.send).mono (fun _ hno => hno.elim) fun _ => id
  | async => exact ioAsyncWrite_ends hs haio hstate o.send o.submit

/-- A write callback on a connection with a response ends well. -/
theorem httpWrite_ends (hs : h.Standing fio) (haio : h.aio = none) (hresp : h.Responding) (o : HttpConn.WriteResults) :
    Ends (AsyncFault fio) (HttpConn.Settled fio) (h.httpWrite fio r o) := by
  have hwrite : Ends (AsyncFault fio) (Written fio) (h.httpWriteState fio r o) := by
    unfold HttpConn.httpWriteState
    obtain hstate | hstate := hresp
    · rw [hstate]
      exact ioWrite_ends hs haio hstate o
    · rw [hstate]
      exact (httpWriteHdr_ends hs haio hstate o.send).mono (fun _ hno => hno.elim) fun _ => id
  unfold HttpConn.httpWrite
  refine ends_bind hwrite ?_
  rintro ⟨h', ok⟩ (⟨rfl, hsettled⟩ | ⟨rfl, hu, hk⟩)
  · exact hsettled
  · exact (httpKill_ends hu hk).mono (fun _ hno => hno.elim) fun _ => Or.inr

end Ashttpd
