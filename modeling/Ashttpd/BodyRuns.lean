import Ashttpd.BodyStream
import Ashttpd.Headers

/-!
# Runs of a response

A step of the event loop that finds a connection serving a file either goes on with the response,
completes it or kills the connection. So the bytes sent in any run are at the front of the slice.
-/
namespace Ashttpd

variable {s : Server} {w ofs len : ℕ} {h h' : HttpConn} {sent : Bytes}

theorem Fio.Holds.congr {fio : Fio} {file ahead : Bytes} (hio : fio.Holds w file h ahead)
    (hpriv : h'.hIoPriv = h.hIoPriv) (haio : h'.aio = h.aio) (hoff : h'.hDataOff = h.hDataOff)
    (hlen : h'.hDataLen = h.hDataLen) (hnbio : h'.hNbio = h.hNbio) : fio.Holds w file h' ahead := by
  unfold Fio.Holds at hio ⊢
  rw [hpriv, haio, hoff, hlen, hnbio]
  exact hio

/-- A connection that is called back has no read in flight. -/
theorem Serving.idle (hs : Serving s w ofs len h sent) (hlist : h.hNbio.list = .active) :
    h.aio = none := by
  obtain ⟨ahead, -, -, hio⟩ := hs.stream
  cases hf : s.fio with
  | sync =>
    rw [hf] at hio
    exact hio.1
  | sendfile =>
    rw [hf] at hio
    exact hio.1
  | async =>
    rw [hf] at hio
    obtain ⟨-, -, buf, -, -, hflight⟩ := hio
    cases haio : h.aio with
    | none => rfl
    | some iocb =>
      rw [haio] at hflight
      obtain ⟨-, -, -, -, hinactive, -⟩ := hflight
      rw [hlist] at hinactive
      cases hinactive

/-- Sending the header leaves the body alone. -/
theorem httpWriteHdr_spec (hs : Serving s w ofs len h sent) (hstate : h.hState = .header)
    (hidle : h.aio = none) (send : SendResult) :
    ∃ h' ok, h.httpWriteHdr send = .ok (h', ok) ∧ (ok = true → Proceeds s w ofs len h sent h') ∧
      (ok = false → Fails s w ofs len h sent h' ∧ (send = .error ∨ send = .sent 0)) := by
  obtain ⟨-, -, res, hres, hpos⟩ := hs.header hstate
  unfold HttpConn.httpWriteHdr
  rw [hres]
  simp only [deref, ok_bind]
  cases send with
  | error => exact ⟨h, false, rfl, by simp, fun _ => ⟨hs.fails, Or.inl rfl⟩⟩
  | eagain =>
    refine ⟨_, true, rfl, fun _ => ?_, by simp⟩
    exact (hs.withNbio (by simpa using hs.fd) (by simpa using hs.noRead) hidle).proceeds rfl
  | sent n =>
    dsimp only
    by_cases hzero : min n res.bufRead = 0
    · rw [if_pos hzero]
      exact ⟨h, false, rfl, by simp, fun _ => ⟨hs.fails, Or.inr (by rw [show n = 0 by omega])⟩⟩
    · rw [if_neg hzero]
      obtain ⟨rest, hdone, -⟩ := res.bufDoneRead_spec (by omega : min n res.bufRead ≤ res.bufRead)
      obtain ⟨hresp, hfd, hread, hw, hb, hh, hd, ahead, hstream, hcount, hio⟩ := hs
      obtain ⟨rfl, hlen, -⟩ := hh hstate
      obtain ⟨bs, hbs⟩ : ∃ bs, bs = res.unread.take (min n res.bufRead) := ⟨_, rfl⟩
      rw [hdone, ok_bind, hstate, ← hbs]
      by_cases hmore : rest.bufRead ≠ 0
      · rw [if_pos hmore]
        refine ⟨_, true, rfl, fun _ => ⟨[.sent .header bs], rfl, Or.inl ⟨by simp, ?_⟩⟩, by simp⟩
        refine ⟨hresp, hfd, hread, hw, hb, fun _ => ⟨rfl, hlen, rest, rfl, by omega⟩, ?_, ahead, hstream,
          hcount, hio.congr rfl rfl rfl rfl rfl⟩
        intro hstate'
        have hstate'' : h.hState = .data := hstate'
        rw [hstate] at hstate''
        cases hstate''
      · rw [if_neg hmore]
        refine ⟨_, true, if_pos hlen, fun _ => ⟨[.sent .header bs, .freed .res], ?_, Or.inl ⟨by simp, ?_⟩⟩,
          by simp⟩
        · simp [HttpConn.free]
        · refine ⟨Or.inl rfl, hfd, hread, hw, hb, ?_, fun _ => rfl, ahead, hstream, hcount,
            hio.congr rfl rfl rfl rfl rfl⟩
          intro hstate'
          cases hstate'

/-- A read that ends fills the buffer again, or the connection is killed. -/
theorem handleCompletion_spec (hs : Serving s w ofs len h sent) {iocb : Iocb} (haio : h.aio = some iocb)
    (result : CompletionResult) :
    ∃ h', h.handleCompletion s.roots iocb result = .ok h' ∧
      (Proceeds s w ofs len h sent h' ∨ Broken s w ofs len h sent h' ∧ s.fio ≠ .sync) := by
  have hfails : Fails s w ofs len h sent (h.withAio none) := hs.fails
  obtain ⟨hresp, hfd, hread, hw, hb, hh, hd, ahead, hstream, hcount, hio⟩ := hs
  cases hf : s.fio with
  | sync =>
    rw [hf] at hio
    cases haio.symm.trans hio.1
  | sendfile =>
    rw [hf] at hio
    cases haio.symm.trans hio.1
  | async =>
    rw [hf] at hio
    obtain ⟨rfl, hpos, buf, hpriv, hend, hflight⟩ := hio
    rw [haio] at hflight
    obtain ⟨hempty, hroom, rfl, hmask, -, -⟩ := hflight
    have habort : ∃ h', (h.withAio none).httpConnAbort .async = .ok h' ∧ Broken s w ofs len h sent h' := by
      rw [HttpConn.httpConnAbort, HttpConn.assertResponding_eq (h := h.withAio none) hresp, ok_bind, ← hf]
      exact hfails.kill
    cases result with
    | error =>
      obtain ⟨h', hkill, hbroken⟩ := habort
      exact ⟨h', hkill, Or.inr ⟨hbroken, by simp⟩⟩
    | read n =>
      obtain ⟨bs, hbs⟩ : ∃ bs, bs = fileSlice (s.roots.file w) h.hDataOff
        (min (n + 1) (min h.hDataLen buf.bufWrite)) := ⟨_, rfl⟩
      have hfits : bs.length ≤ buf.bufWrite := by
        have hle := fileSlice_length_le (s.roots.file w) h.hDataOff
          (min (n + 1) (min h.hDataLen buf.bufWrite))
        rw [← hbs] at hle
        omega
      unfold HttpConn.handleCompletion
      dsimp only
      rw [← hbs]
      by_cases hzero : bs.length = 0
      · rw [if_pos hzero]
        obtain ⟨h', hkill, hbroken⟩ := habort
        exact ⟨h', hkill, Or.inr ⟨hbroken, by simp⟩⟩
      · rw [if_neg hzero, HttpConn.httpConnGetPriv_eq (h := h.withAio none) hresp]
        obtain ⟨buf', hdone, hun, hend', -⟩ := buf.bufDoneWrite_spec hfits
        have hpriv' : (h.withAio none).hIoPriv = some buf := hpriv
        have hdone' : (buf.putAt buf.bWrite bs).bufDoneWrite bs.length = .ok buf' := hdone
        have hmask' : h.hNbio.mask ≠ NBIO_DELETED := by
          rw [hmask]
          decide
        rw [ok_bind, hpriv']
        simp only [deref, ok_bind]
        rw [hdone', ok_bind, HttpConn.httpConnWakeOne,
          HttpConn.assertResponding_eq (h := (h.withAio none).withPriv (some buf')) hresp, ok_bind,
          HttpConn.nbioSetWait_eq (h := (h.withAio none).withPriv (some buf')) hmask']
        refine ⟨_, rfl, Or.inl (Serving.proceeds ?_ rfl)⟩
        refine ⟨hresp, hfd, (by decide : NBIO_WRITE &&& NBIO_WAIT &&& NBIO_READ = 0), hw, hb, hh, hd, [],
          hstream, hcount, ?_⟩
        rw [hf]
        refine ⟨rfl, hpos, buf', rfl, hend'.trans hend, ?_⟩
        show buf'.unread <+: fileSlice (s.roots.file w) h.hDataOff h.hDataLen
        rw [hun, hempty, List.nil_append, hbs, fileSlice_append (s.roots.file w) h.hDataOff
          (by omega : min (n + 1) (min h.hDataLen buf.bufWrite) ≤ h.hDataLen)]
        exact List.prefix_append _ _

def HttpConn.WriteResults.Fail (o : HttpConn.WriteResults) : Prop :=
  .error ∈ o.preads ∨ o.send = .error ∨ o.send = .sent 0

/-- A write callback goes on with the response, or the connection is killed for it. -/
theorem httpWrite_spec (hs : Serving s w ofs len h sent) (hcalled : h.Called NBIO_WRITE)
    (o : HttpConn.WriteResults) :
    ∃ h', h.httpWrite s.fio s.roots o = .ok h' ∧
      (Proceeds s w ofs len h sent h' ∨ Broken s w ofs len h sent h' ∧
        (s.fio = .sync → ofs + len ≤ (s.roots.file w).length →
          h.hState = .data ∧ Starved h ∨ o.Fail)) := by
  have hidle := hs.idle hcalled.1
  have hmask : h.hNbio.mask ≠ NBIO_DELETED := by
    intro hdel
    have hcalled := hcalled.2
    rw [hdel, UInt8.and_assoc, (by decide : NBIO_DELETED &&& NBIO_WRITE = 0), UInt8.and_zero] at hcalled
    exact hcalled rfl
  have hwrite : ∃ h' ok, h.httpWriteState s.fio s.roots o = .ok (h', ok) ∧
      (ok = true → Proceeds s w ofs len h sent h') ∧
      (ok = false → Fails s w ofs len h sent h' ∧
        (s.fio = .sync → ofs + len ≤ (s.roots.file w).length →
          h.hState = .data ∧ Starved h ∨ o.Fail)) := by
    unfold HttpConn.httpWriteState
    obtain hstate | hstate := hs.responding
    · rw [hstate]
      dsimp only [HttpConn.ioWrite]
      cases hf : s.fio with
      | sync =>
        obtain ⟨h', ok, hw, htrue, hfalse⟩ := ioSyncWrite_spec hf hs hstate hmask o.preads o.send
        refine ⟨h', ok, hw, fun hok => (htrue hok).1, fun hok => ?_⟩
        obtain ⟨hfails, hcause⟩ := hfalse hok
        refine ⟨hfails, fun _ hpres => ?_⟩
        obtain hstarved | hfail := hcause hpres
        · exact Or.inl ⟨rfl, hstarved⟩
        · exact Or.inr hfail
      | sendfile =>
        obtain ⟨h', ok, hw, htrue, hfalse⟩ := ioSendfileWrite_spec hf hs hstate hmask o.send
        exact ⟨h', ok, hw, htrue, fun hok => ⟨hfalse hok, by simp⟩⟩
      | async =>
        obtain ⟨h', ok, hw, htrue, hfalse⟩ := ioAsyncWrite_spec hf hs hstate hmask hidle o.send o.submit
        exact ⟨h', ok, hw, htrue, fun hok => ⟨hfalse hok, by simp⟩⟩
    · rw [hstate]
      obtain ⟨h', ok, hw, htrue, hfalse⟩ := httpWriteHdr_spec hs hstate hidle o.send
      refine ⟨h', ok, hw, htrue, fun hok => ?_⟩
      obtain ⟨hfails, hcause⟩ := hfalse hok
      exact ⟨hfails, fun _ _ => Or.inr (Or.inr hcause)⟩
  obtain ⟨h', ok, hwrite, htrue, hfalse⟩ := hwrite
  unfold HttpConn.httpWrite
  rw [hwrite, ok_bind]
  cases ok with
  | true => exact ⟨h', rfl, Or.inl (htrue rfl)⟩
  | false =>
    obtain ⟨hfails, hcause⟩ := hfalse rfl
    obtain ⟨h'', hkill, hbroken⟩ := hfails.kill
    exact ⟨h'', hkill, Or.inr ⟨hbroken, hcause⟩⟩

/-- What the system does lets a step down. -/
def HttpConn.Happening.Fails : HttpConn.Happening → Prop
  | .write o => o.Fail
  | _ => False

/-- The connection is to be written to, with nothing to read and room in the buffer. -/
def HttpConn.Happening.Stalls (h : HttpConn) : HttpConn.Happening → Prop
  | .write _ => h.hState = .data ∧ Starved h
  | _ => False

/-- No step of a response goes wrong: it goes on, is completed, or the connection is killed. -/
theorem step_spec (hs : Serving s w ofs len h sent) (e : HttpConn.Happening) :
    ∃ o, h.step s e = .ok o ∧ ∀ h' ∈ o, Proceeds s w ofs len h sent h' ∨
      Broken s w ofs len h sent h' ∧
        (s.fio = .sync → ofs + len ≤ (s.roots.file w).length → e.Stalls h ∨ e.Fails) := by
  unfold HttpConn.step
  cases e with
  | ready flags =>
    dsimp only
    by_cases hpolled : h.hNbio.list = .inactive ∧ h.hNbio.polled
    · rw [if_pos hpolled]
      refine ⟨_, rfl, ?_⟩
      rintro h' ⟨⟩
      refine Or.inl (Serving.proceeds (hs.withNbio hs.fd hs.noRead ?_) rfl)
      obtain ⟨ahead, -, -, hio⟩ := hs.stream
      cases haio : h.aio with
      | none => rfl
      | some iocb =>
        cases hf : s.fio with
        | sync =>
          rw [hf] at hio
          cases haio.symm.trans hio.1
        | sendfile =>
          rw [hf] at hio
          cases haio.symm.trans hio.1
        | async =>
          rw [hf] at hio
          obtain ⟨-, -, buf, -, -, hflight⟩ := hio
          rw [haio] at hflight
          obtain ⟨-, -, -, -, -, hunpolled⟩ := hflight
          rw [hunpolled] at hpolled
          cases hpolled.2
    · rw [if_neg hpolled]
      exact ⟨none, rfl, by simp⟩
  | write o =>
    dsimp only
    by_cases hcalled : h.Called NBIO_WRITE
    · rw [if_pos hcalled]
      obtain ⟨h', hwrite, hspec⟩ := httpWrite_spec hs hcalled o
      rw [hwrite]
      refine ⟨_, rfl, ?_⟩
      rintro h'' ⟨⟩
      exact hspec
    · rw [if_neg hcalled]
      exact ⟨none, rfl, by simp⟩
  | read o =>
    have hcalled : ¬ h.Called NBIO_READ := by
      rintro ⟨-, hflags⟩
      rw [UInt8.and_assoc, hs.noRead, UInt8.and_zero] at hflags
      exact hflags rfl
    dsimp only
    rw [if_neg hcalled]
    exact ⟨none, rfl, by simp⟩
  | error =>
    dsimp only
    by_cases hlist : h.hNbio.list = .active ∧ h.hNbio.flags &&& NBIO_ERROR ≠ 0
    · rw [if_pos hlist]
      refine ⟨_, rfl, ?_⟩
      rintro h' ⟨⟩
      exact Or.inl (Serving.proceeds (hs.withNbio hs.fd (show NBIO_DELETED &&& NBIO_READ = 0 by decide) (hs.idle hlist.1)) rfl)
    · rw [if_neg hlist]
      exact ⟨none, rfl, by simp⟩
  | completion result =>
    dsimp only
    cases haio : h.aio with
    | none => exact ⟨none, rfl, by simp⟩
    | some iocb =>
      obtain ⟨h', hcompletion, hspec⟩ := handleCompletion_spec hs haio result
      dsimp only
      rw [hcompletion]
      refine ⟨_, rfl, ?_⟩
      rintro h'' ⟨⟩
      obtain hproceeds | ⟨hbroken, hasync⟩ := hspec
      · exact Or.inl hproceeds
      · exact Or.inr ⟨hbroken, fun hf => absurd hf hasync⟩

/-- What `handle_get` hands to an I/O model: a connection that is to send a header, and behind it the
`len` bytes from `ofs` on of a file. -/
structure Handed (ofs len : ℕ) (h : HttpConn) : Prop where
  state : h.hState = .header
  fd : h.hNbio.fd = true
  mask : h.hNbio.mask = NBIO_WRITE
  idle : h.aio = none
  off : h.hDataOff = ofs
  length : h.hDataLen = len
  pos : len ≠ 0

/-- What the I/O model makes of a connection: it may have to wait, and has nothing ahead. -/
theorem ioPrep_spec (hh : Handed ofs len h) (hasync : s.fio = .async → h.hWebroot = some w)
    {block : Option Mem} {submit : SubmitResult} (hprep : h.ioPrep s.fio block submit = .ok (h', true)) :
    s.fio.Holds w (s.roots.file w) h' [] ∧ h'.hNbio.mask &&& NBIO_READ = 0 ∧
      ∃ priv aio mask flags list polled, h' = ((h.withPriv priv).withAio aio).withNbio
        ⟨true, mask, flags, list, polled⟩ := by
  have hresp : h.Responding := Or.inr hh.state
  have hpos : 0 < h.hDataLen := by
    rw [hh.length]
    exact Nat.pos_of_ne_zero hh.pos
  have hread : h.hNbio.mask &&& NBIO_READ = 0 := by
    rw [hh.mask]
    decide
  have hsame : ∀ priv, h.withPriv priv = ((h.withPriv priv).withAio none).withNbio
      ⟨true, h.hNbio.mask, h.hNbio.flags, h.hNbio.list, h.hNbio.polled⟩ := by
    intro priv
    have hidle := hh.idle
    have hfd := hh.fd
    cases h with
    | mk hNbio hState hRstate hRptr hReq hRes hIoPriv aio hWebroot hDataOff hDataLen hConnClose log =>
      cases hNbio
      cases hidle
      cases hfd
      rfl
  unfold HttpConn.ioPrep at hprep
  cases hf : s.fio with
  | sync =>
    rw [hf] at hprep
    cases block with
    | none => cases hprep
    | some m =>
      dsimp only [HttpConn.ioSyncPrep] at hprep
      rw [HttpConn.httpConnSetPriv_eq hresp] at hprep
      cases hprep
      refine ⟨⟨hh.idle, _, rfl, rfl, rfl, Nat.add_pos_right _ hpos, Or.inr rfl⟩, hread, ?_⟩
      exact ⟨_, _, _, _, _, _, hsame _⟩
  | sendfile =>
    rw [hf] at hprep
    cases hprep
    exact ⟨⟨hh.idle, rfl, hpos⟩, hread, _, _, _, _, _, _, hsame h.hIoPriv⟩
  | async =>
    rw [hf] at hprep
    cases block with
    | none => cases hprep
    | some m =>
      dsimp only [HttpConn.ioAsyncPrep] at hprep
      rw [HttpConn.httpConnSetPriv_eq hresp, ok_bind] at hprep
      have hmask : h.hNbio.mask ≠ NBIO_DELETED := by
        rw [hh.mask]
        decide
      obtain hsubmit | hsubmit := aioSubmit_spec (w := w) (h := h.withPriv (some (.alloc m HTTP_DATA_BUFFER)))
        hresp (hasync hf) hpos.ne' hmask rfl submit
      · rw [hsubmit, ok_bind] at hprep
        have hfreed : ((h.withPriv (some (.alloc m HTTP_DATA_BUFFER))).free
            (h.withPriv (some (.alloc m HTTP_DATA_BUFFER))).hIoPriv .data).Responding := hresp
        dsimp only at hprep
        rw [HttpConn.httpConnSetPriv_eq hfreed] at hprep
        cases hprep
      · have hfd : (h.withPriv (some (.alloc m HTTP_DATA_BUFFER))).hNbio.fd = true := hh.fd
        rw [hsubmit, hfd] at hprep
        cases hprep
        have hbuffer : 0 < HTTP_DATA_BUFFER := by decide
        exact ⟨⟨rfl, hpos, _, rfl, rfl, rfl, hbuffer, rfl, rfl, rfl, rfl⟩,
          show (0 : UInt8) &&& NBIO_READ = 0 by decide, _, _, _, _, _, _, rfl⟩

/-- When the header is queued, nothing was sent. -/
theorem serving_queued (hh : Handed ofs len h) (hasync : s.fio = .async → h.hWebroot = some w)
    {block : Option Mem} {submit : SubmitResult} {h₁ h₂ : HttpConn} {g : GetHeader}
    (hprep : h.ioPrep s.fio block submit = .ok (h₁, true))
    (hqueue : h₁.queueHeader w false g = .ok h₂) : Serving s w ofs len h₂ [] := by
  obtain ⟨hio, hread, priv, aio, mask, flags, list, polled, rfl⟩ := ioPrep_spec hh hasync hprep
  unfold HttpConn.queueHeader at hqueue
  simp only [bind_eq_ok_iff] at hqueue
  obtain ⟨res, -, text, htext, res', hdone, hqueue⟩ := hqueue
  cases hqueue
  have hres' : 0 < res'.bufRead := by
    have hpos := getHeader_pos htext
    unfold HttpBuf.bufDoneWrite at hdone
    split at hdone
    · cases hdone
      have hle := res.read_le
      show 0 < res.bWrite + text.length - res.bRead
      omega
    · cases hdone
  refine ⟨Or.inr hh.state, rfl, hread, rfl, ?_, ?_, ?_, [], ?_, ?_, hio.congr rfl rfl rfl rfl rfl⟩
  · show h.hDataOff + h.hDataLen = ofs + len
    rw [hh.off, hh.length]
  · intro _
    refine ⟨rfl, ?_, res', rfl, hres'⟩
    show h.hDataLen ≠ 0
    rw [hh.length]
    exact hh.pos
  · intro hstate
    cases hh.state.symm.trans hstate
  · show [] ++ [] ++ fileSlice _ h.hDataOff h.hDataLen = _
    rw [hh.off, hh.length]
    rfl
  · show 0 + 0 + h.hDataLen = len
    rw [hh.length, Nat.zero_add]

/-- The rest of `handle_request` leaves the response alone. -/
theorem Serving.finishRequest (hs : Serving s w ofs len h sent) {hlen : ℕ}
    (hfinish : h.finishRequest hlen = .ok h') : Serving s w ofs len h' sent := by
  obtain ⟨hresp, hfd, hread, hw, hb, hh, hd, ahead, hstream, hcount, hio⟩ := hs
  unfold HttpConn.finishRequest at hfinish
  simp only [bind_eq_ok_iff] at hfinish
  obtain ⟨req, -, rest, -, hfinish⟩ := hfinish
  by_cases hmore : rest.bufRead ≠ 0
  · rw [if_pos hmore] at hfinish
    cases hfinish
    exact ⟨hresp, hfd, hread, hw, hb, hh, hd, ahead, hstream, hcount, hio.congr rfl rfl rfl rfl rfl⟩
  · rw [if_neg hmore] at hfinish
    cases hfinish
    exact ⟨hresp, hfd, hread, hw, hb, hh, hd, ahead, hstream, hcount, hio.congr rfl rfl rfl rfl rfl⟩

/-- How a response stands that began in the state `h₀`: it goes on, it is complete, or the connection
was killed for a reason. -/
def Course (s : Server) (w ofs len : ℕ) (h₀ : HttpConn) (reason : Prop) (h : HttpConn) : Prop :=
  ∃ new, h.log = h₀.log ++ new ∧
    (Event.complete ∉ new ∧ Serving s w ofs len h (bodySent new) ∨
      ¬ h.Responding ∧ Event.complete ∈ new ∧ bodySent new = fileSlice (s.roots.file w) ofs len ∧
        (bodySent new).length = len ∨
      ¬ h.Responding ∧ Event.complete ∉ new ∧ bodySent new <+: fileSlice (s.roots.file w) ofs len ∧
        reason)

theorem Course.start (hs : Serving s w ofs len h []) (reason : Prop) : Course s w ofs len h reason h :=
  ⟨[], by simp, Or.inl ⟨by simp, hs⟩⟩

/-- One step of a response, and the reason for which it may end. -/
theorem Course.step {h₀ : HttpConn} {reason reason' : Prop} {e : HttpConn.Happening}
    (hc : Course s w ofs len h₀ reason h) (hr : h.Responding) (hstep : h.Steps s e h')
    (hreason : (s.fio = .sync → ofs + len ≤ (s.roots.file w).length → e.Stalls h ∨ e.Fails) → reason') :
    Course s w ofs len h₀ reason' h' := by
  obtain ⟨new, hlog, ⟨hcomplete, hs⟩ | ⟨hidle, -⟩ | ⟨hidle, -⟩⟩ := hc
  · obtain ⟨o, hok, hspec⟩ := step_spec hs e
    cases hok.symm.trans hstep
    obtain ⟨new', hlog', hnew'⟩ | ⟨⟨hdead, new', hlog', hcomplete', hprefix⟩, hcause⟩ := hspec h' rfl
    · refine ⟨new ++ new', by rw [hlog', hlog, List.append_assoc], ?_⟩
      rw [bodySent_append, List.mem_append]
      obtain ⟨hcomplete', hs'⟩ | ⟨hdead, hcomplete', hall⟩ := hnew'
      · exact Or.inl ⟨by simp [hcomplete, hcomplete'], hs'⟩
      · exact Or.inr (Or.inl ⟨hdead, Or.inr hcomplete', hall⟩)
    · refine ⟨new ++ new', by rw [hlog', hlog, List.append_assoc], Or.inr (Or.inr ⟨hdead, ?_, ?_, hreason hcause⟩)⟩
      · simp [hcomplete, hcomplete']
      · rw [bodySent_append]
        exact hprefix
  · exact absurd hr hidle
  · exact absurd hr hidle

/-- Whatever the system does, the bytes of a body that were sent are the first of the slice, the
response is complete only when all of them were sent, and no assertion fails. -/
theorem bodySent_prefix {h₀ h₁ h₂ h₃ : HttpConn} {block : Option Mem} {submit : SubmitResult}
    {g : GetHeader} {hlen : ℕ} {es : List HttpConn.Happening} (hh : Handed ofs len h₀)
    (hasync : s.fio = .async → h₀.hWebroot = some w)
    (hprep : h₀.ioPrep s.fio block submit = .ok (h₁, true))
    (hqueue : h₁.queueHeader w false g = .ok h₂) (hfinish : h₂.finishRequest hlen = .ok h₃)
    (hrun : GuardedRun (HttpConn.Steps s) (fun h _ => h.Responding) h₃ es h) :
    ∃ new, h.log = h₃.log ++ new ∧ bodySent new <+: fileSlice (s.roots.file w) ofs len ∧
      (Event.complete ∈ new → bodySent new = fileSlice (s.roots.file w) ofs len ∧
        (bodySent new).length = len) ∧
      (h.Responding → ∀ e, ∃ o, h.step s e = .ok o) := by
  have hserving : Serving s w ofs len h₃ [] := (serving_queued hh hasync hprep hqueue).finishRequest hfinish
  have hcourse : Course s w ofs len h₃ True h := by
    refine hrun.invariant (I := fun _ h => Course s w ofs len h₃ True h) ?_ (Course.start hserving True)
    intro _ h e h' hc hr hstep
    exact hc.step hr hstep fun _ => trivial
  obtain ⟨new, hlog, ⟨hcomplete, hs⟩ | ⟨hidle, -, hall, hlen⟩ | ⟨hidle, hcomplete, hprefix, -⟩⟩ := hcourse
  · refine ⟨new, hlog, hs.sent_prefix, fun hmem => absurd hmem hcomplete, fun _ e => ?_⟩
    obtain ⟨o, hok, -⟩ := step_spec hs e
    exact ⟨o, hok⟩
  · exact ⟨new, hlog, by rw [hall], fun _ => ⟨hall, hlen⟩, fun hr => absurd hr hidle⟩
  · exact ⟨new, hlog, hprefix, fun hmem => absurd hmem hcomplete, fun hr => absurd hr hidle⟩

/-- A connection that is about to send the two bytes of a file, after a request of one byte. -/
def twoByteConn : HttpConn where
  hNbio := ⟨true, NBIO_WRITE, NBIO_WRITE, .active, false⟩
  hState := .header
  hRstate := .initial
  hRptr := 0
  hReq := some ⟨fun _ => LF, HTTP_MAX_RESP, 0, 1, by decide, by decide⟩
  hRes := some (.alloc (fun _ => 0) HTTP_MAX_REQ)
  hIoPriv := none
  aio := none
  hWebroot := some 0
  hDataOff := 0
  hDataLen := 2
  hConnClose := 0
  log := []

/-- A server for one file of two bytes. -/
def twoByteServer (fio : Fio) : Server where
  roots := ⟨fun _ => ⟨[], 0, 0, 0, [], [], []⟩, fun _ => ascii "hi"⟩
  vhostsLookup := fun _ => none
  fio := fio

def twoByteHeader : GetHeader := ⟨200, ascii "text/plain", 2, 0, List.replicate 20 0, 5000000⟩

/-- What a step leads to, if it is possible. -/
def HttpConn.next (s : Server) (h : HttpConn) (e : HttpConn.Happening) : Option HttpConn :=
  match h.step s e with
  | .ok o => o
  | .error _ => none

theorem HttpConn.steps_of_next {e : HttpConn.Happening} (hnext : h.next s e = some h') :
    h.Steps s e h' := by
  unfold HttpConn.next at hnext
  unfold HttpConn.Steps
  split at hnext
  · next o ho => rw [ho, hnext]
  · cases hnext

theorem exists_of_any {ε α : Type} {x : Except ε α} {p : α → Bool} (h : x.toOption.any p = true) :
    ∃ a, x = .ok a ∧ p a = true := by
  cases x with
  | error e => cases h
  | ok a => exact ⟨a, rfl, h⟩

/-- The connection when the request is answered. -/
def twoByteStart (fio : Fio) : Except Fault HttpConn := do
  let h ← twoByteConn.ioPrep fio (some fun _ => 0) .submitted
  let h ← h.1.queueHeader 0 false twoByteHeader
  h.finishRequest 1

theorem twoByteConn_handed : Handed 0 2 twoByteConn := ⟨rfl, rfl, rfl, rfl, rfl, rfl, by decide⟩

theorem twoByteStart_ok {fio : Fio} (hstart : twoByteStart fio = .ok h) : ∃ h₁ h₂,
    twoByteConn.ioPrep fio (some fun _ => 0) .submitted = .ok (h₁, true) ∧
    h₁.queueHeader 0 false twoByteHeader = .ok h₂ ∧ h₂.finishRequest 1 = .ok h := by
  unfold twoByteStart at hstart
  simp only [bind_eq_ok_iff] at hstart
  obtain ⟨⟨h₁, ok⟩, hprep, h₂, hqueue, hfinish⟩ := hstart
  have hok : ok = true := by
    cases fio with
    | sync | sendfile | async =>
      cases hprep
      rfl
  subst hok
  exact ⟨h₁, h₂, hprep, hqueue, hfinish⟩

/-- One byte is read ahead and sent behind the header, then the other one is. -/
def twoByteHappenings : List HttpConn.Happening :=
  [.completion (.read 0), .write ⟨.sent 2048, [], .submitted⟩, .write ⟨.sent 2, [], .submitted⟩,
    .completion (.read 0), .write ⟨.sent 2, [], .submitted⟩]

theorem bodySent_prefix_twoBytes : ∃ h₃ h, twoByteStart .async = .ok h₃ ∧
    GuardedRun (HttpConn.Steps (twoByteServer .async)) (fun h _ => h.Responding) h₃ twoByteHappenings h ∧
    Event.complete ∈ h.log ∧ ∃ new, h.log = h₃.log ++ new ∧ bodySent new <+: ascii "hi" := by
  have hall : (twoByteStart .async).toOption.any (fun h₃ =>
      (play (HttpConn.next (twoByteServer .async)) (fun h _ => h.Responding) h₃ twoByteHappenings).any
        fun h => Event.complete ∈ h.log) = true := by
    decide +kernel
  obtain ⟨h₃, hstart, hplay⟩ := exists_of_any hall
  obtain ⟨h, hplay, hcomplete⟩ := (Option.any_eq_true _ _).mp hplay
  have hrun := guardedRun_of_play (fun _ _ _ => HttpConn.steps_of_next) hplay
  refine ⟨h₃, h, hstart, hrun, of_decide_eq_true hcomplete, ?_⟩
  obtain ⟨h₁, h₂, hprep, hqueue, hfinish⟩ := twoByteStart_ok hstart
  obtain ⟨new, hlog, hprefix, -⟩ := bodySent_prefix (s := twoByteServer .async) (w := 0) twoByteConn_handed
    (fun _ => rfl) hprep hqueue hfinish hrun
  exact ⟨new, hlog, hprefix⟩

end Ashttpd
