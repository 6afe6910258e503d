import Ashttpd.AioThread
import Ashttpd.WebrootBinding

/-!
# Callbacks that submit operations

A callback that submits an operation leaves the connection where no other callback gets at it, with the buffer
that is read into. The completion finds it like that, and leaves it as it should stand, parked again, or dead.
-/
namespace Ashttpd

variable {s : Server} {h h' : HttpConn} {fio : Fio} {r : HttpRequest} {o : ReadResults} {m : AioModel}
  {ro : Webroots} {iocb : Iocb}

/-- A connection that an operation is in flight for, and what it would be if it were woken up. -/
structure Waits (m : AioModel) (h : HttpConn) : Prop where
  idle : h.aio = none
  inFlight : h.InFlight
  woken : (h.withNbio (HttpConn.waiting h.hNbio NBIO_WRITE)).Standing m.fio
  body : h.NeedsBody
  data : m = .sendfile → h.hState = .data

def Unsubmitted (m : AioModel) (h : HttpConn) : Prop := h.aio = none ∧ (h.Standing m.fio ∨ h.hNbio.list = .deleted)

def Lands (m : AioModel) (h : HttpConn) : Prop :=
  Unsubmitted m h ∨ ∃ iocb, h.aio = some iocb ∧ Waits m (h.withAio none)

theorem Waits.resubmitted (hw : Waits m h) (aio : Option Iocb) : Waits m ((h.withAio aio).withAio none) := by
  have hsame : (h.withAio aio).withAio none = h := by
    unfold HttpConn.withAio
    rw [← hw.idle]
  rw [hsame]
  exact hw

theorem httpConnDataComplete_aio (hok : h.httpConnDataComplete fio = .ok h') : h'.aio = h.aio := by
  unfold HttpConn.httpConnDataComplete at hok
  split at hok
  · cases hok
  · split at hok
    · cases hok
    · obtain ⟨h₁, hwait, hok⟩ := bind_eq_ok_iff.mp hok
      obtain ⟨io, -, rfl⟩ := map_eq_ok_iff.mp hwait
      split at hok
      · exact (httpKill_aio hok).trans (dropWebroot_aio _)
      · cases hok
        exact dropWebroot_aio _

theorem httpWriteHdr_aio {send : SendResult} {ok : Bool} (hok : h.httpWriteHdr send = .ok (h', ok)) :
    h'.aio = h.aio := by
  obtain ⟨res, -, hok⟩ := bind_eq_ok_iff.mp hok
  cases send with
  | eagain =>
    cases hok
    rfl
  | error =>
    cases hok
    rfl
  | sent n =>
    dsimp only at hok
    split at hok
    · cases hok
      rfl
    · obtain ⟨rest, -, hok⟩ := bind_eq_ok_iff.mp hok
      split at hok
      · cases hok
        rfl
      · unfold HttpConn.headerDone at hok
        split at hok
        · cases hok
          rfl
        · split at hok
          · cases hok
            rfl
          · obtain ⟨h₁, hwait, hok⟩ := bind_eq_ok_iff.mp hok
            obtain ⟨io, -, rfl⟩ := map_eq_ok_iff.mp hwait
            cases hok
            rfl

def Sending (p : HttpConn × Bool) : Prop := p.1.aio = none ∨ p.2 = true ∧ p.1.hState = .data

theorem ioAsyncSent_sending (hidle : h.aio = none) (hstate : h.hState = .data) (rest : HttpBuf) (ret : ℕ)
    (submit : SubmitResult) : Ends AnyFault Sending (h.ioAsyncSent rest ret submit) := by
  refine ends_of_forall (fun _ => trivial) ?_
  rintro ⟨h', ok⟩ hok
  obtain ⟨h₁, hread, hok⟩ := bind_eq_ok_iff.mp hok
  obtain ⟨-, -, hread⟩ := bind_eq_ok_iff.mp hread
  split at hread
  · cases hread
    split at hok
    · cases hok
      exact Or.inl hidle
    · split at hok
      · obtain ⟨-, rfl⟩ | ⟨rfl, -, -, iocb, rfl⟩ := aioSubmit_cases hok
        · exact Or.inl hidle
        · exact Or.inr ⟨rfl, hstate⟩
      · obtain ⟨h₂, hset, hok⟩ := bind_eq_ok_iff.mp hok
        obtain ⟨-, -, hset⟩ := bind_eq_ok_iff.mp hset
        cases hset
        obtain ⟨h₃, hcomplete, hok⟩ := bind_eq_ok_iff.mp hok
        cases hok
        exact Or.inl ((httpConnDataComplete_aio hcomplete).trans hidle)
  · cases hread

theorem ioAsyncWrite_sending (hidle : h.aio = none) (hstate : h.hState = .data) (send : SendResult)
    (submit : SubmitResult) : Ends AnyFault Sending (h.ioAsyncWrite send submit) := by
  refine ends_bind (ends_any _) fun _ _ => ends_bind (ends_any _) fun buf _ => ?_
  cases send with
  | eagain =>
    refine ends_bind (P := fun h' => h'.aio = none) ?_ fun _ => Or.inl
    exact ends_bind (ends_any _) fun _ _ => hidle
  | error => exact Or.inl hidle
  | sent n =>
    dsimp only
    split
    · exact Or.inl hidle
    · have hsent : (h.logged [.sent h.hState (buf.unread.take (min n buf.bufRead))]).aio = none := hidle
      exact ends_bind (ends_any _) fun rest _ => ioAsyncSent_sending hsent hstate rest _ submit

/-- A write callback that submits an operation does so for a body that is being sent. -/
theorem httpWrite_sending (hidle : h.aio = none) (o : HttpConn.WriteResults) :
    Leads (fun h' => h'.aio = none ∨ h'.hState = .data) (h.httpWrite .async ro o) := by
  have hwrite : Ends AnyFault Sending (h.httpWriteState .async ro o) := by
    unfold HttpConn.httpWriteState
    split
    · refine ends_of_forall (fun _ => trivial) ?_
      rintro ⟨h', ok⟩ hok
      exact Or.inl ((httpWriteHdr_aio hok).trans hidle)
    · next hstate => exact ioAsyncWrite_sending hidle hstate o.send o.submit
    · trivial
  refine ends_bind hwrite ?_
  rintro ⟨h', ok⟩ hsending
  cases ok with
  | true => exact hsending.imp_right And.right
  | false =>
    have hnone : h'.aio = none := hsending.resolve_right fun hok => nomatch hok.1
    exact ends_of_forall (fun _ => trivial) fun _ hok => Or.inl ((httpKill_aio hok).trans hnone)

theorem ioPrep_false {block : Option Mem} {submit : SubmitResult} (hok : h.ioPrep fio block submit = .ok (h', false)) :
    h'.aio = h.aio := by
  cases fio with
  | sendfile => cases hok
  | sync =>
    cases block with
    | none =>
      cases hok
      rfl
    | some m =>
      obtain ⟨h₁, -, hok⟩ := bind_eq_ok_iff.mp hok
      cases hok
  | async =>
    cases block with
    | none =>
      cases hok
      rfl
    | some m =>
      obtain ⟨h₁, hset, hok⟩ := bind_eq_ok_iff.mp hok
      obtain ⟨-, -, hset⟩ := bind_eq_ok_iff.mp hset
      cases hset
      obtain ⟨⟨h₂, ok⟩, hsubmit, hok⟩ := bind_eq_ok_iff.mp hok
      cases ok with
      | true => cases hok
      | false =>
        obtain ⟨-, rfl⟩ | ⟨hfalse, -⟩ := aioSubmit_cases hsubmit
        · obtain ⟨h₃, hclear, hok⟩ := bind_eq_ok_iff.mp hok
          obtain ⟨-, -, hclear⟩ := bind_eq_ok_iff.mp hclear
          cases hclear
          cases hok
          rfl
        · cases hfalse

theorem respond_aio {text : Bytes} (hok : h.respond text = .ok h') : h'.aio = h.aio := by
  obtain ⟨res, -, hok⟩ := bind_eq_ok_iff.mp hok
  split at hok
  · cases hok
  · obtain ⟨res', -, hok⟩ := bind_eq_ok_iff.mp hok
    cases hok
    rfl

theorem respondClose_aio {text : Bytes} (hok : (h.respond text).map (·.withClose 1) = .ok h') : h'.aio = h.aio := by
  obtain ⟨h₁, hrespond, rfl⟩ := map_eq_ok_iff.mp hok
  exact (respond_aio hrespond : h₁.aio = h.aio)

theorem response301_aio {host loc : Bytes} (hok : h.response301 host loc = .ok h') : h'.aio = h.aio := by
  unfold HttpConn.response301 at hok
  obtain ⟨res, -, hok⟩ := bind_eq_ok_iff.mp hok
  dsimp only at hok
  generalize (resp301 (ascii "%.*s") (ascii "%.*s")).length = format at hok
  split at hok
  · cases hok
  · obtain ⟨res', -, hok⟩ := bind_eq_ok_iff.mp hok
    cases hok
    rfl

def Preparing (h : HttpConn) : Prop := h.aio = none ∨ h.hDataLen ≠ 0

theorem serveFile_preparing {head : Bool} {w ofs len : ℕ} {mimeType etag : Bytes} {mtime : UInt32}
    (hidle : h.aio = none) : Leads Preparing (h.serveFile s r head o w mimeType ofs len mtime etag) := by
  refine ends_of_forall (fun _ => trivial) fun h' hok => ?_
  obtain ⟨⟨h₁, ok⟩, hprep, hok⟩ := bind_eq_ok_iff.mp hok
  have hqueue : ∀ {g : HttpConn} {bare} {hdr : GetHeader}, g.queueHeader w bare hdr = .ok h' →
      h'.aio = g.aio ∧ (bare = false → h'.hDataLen = g.hDataLen) := by
    intro g bare hdr hok
    obtain ⟨res, -, hok⟩ := bind_eq_ok_iff.mp hok
    obtain ⟨text, -, hok⟩ := bind_eq_ok_iff.mp hok
    obtain ⟨res', -, hok⟩ := bind_eq_ok_iff.mp hok
    cases bare with
    | true =>
      cases hok
      exact ⟨rfl, nofun⟩
    | false =>
      cases hok
      exact ⟨rfl, fun _ => rfl⟩
  unfold HttpConn.prepareBody at hprep
  split at hprep
  · next hwanted =>
    obtain ⟨hsame, -⟩ := ioPrep_sameResponse hprep
    cases ok with
    | false => exact Or.inl ((respondClose_aio hok).trans ((ioPrep_false hprep).trans hidle))
    | true =>
      rw [hwanted.2] at hok
      refine Or.inr ?_
      rw [(hqueue hok).2 rfl, hsame.len]
      exact hwanted.1
  · cases hprep
    exact Or.inl ((hqueue hok).1.trans hidle)

theorem handleGet_preparing {head : Bool} (hidle : h.aio = none) : Leads Preparing (h.handleGet s r head o) := by
  have hkeeps : ∀ {x : Except Fault HttpConn}, (∀ h', x = .ok h' → h'.aio = h.aio) → Leads Preparing x :=
    fun hx => ends_of_forall (fun _ => trivial) fun h' hok => Or.inl ((hx h' hok).trans hidle)
  refine ends_bind (ends_any _) fun nads _ => ?_
  split
  · exact hkeeps fun _ => respond_aio
  · refine ends_bind (ends_any _) fun found _ => ?_
    split
    · exact hkeeps fun _ => respond_aio
    · unfold HttpConn.serveName
      split
      · split
        · exact hkeeps fun _ => response301_aio
        · trivial
      · split
        · exact hkeeps fun _ => respond_aio
        · split
          · exact serveFile_preparing hidle
          · trivial

/-- A read callback that submits an operation does so for a response with a body. -/
theorem httpRead_preparing (hfd : h.hNbio.fd = true) (hstate : h.hState = .request) (hidle : h.aio = none) :
    Leads Preparing (h.httpRead s o) := by
  refine (httpRead_reads hfd hstate).mono (fun _ => id) fun h' hreads => ?_
  cases hreads with
  | silent _ haio => exact Or.inl (haio.trans hidle)
  | refused hopened hok => exact Or.inl ((respondClose_aio hok).trans (hopened.aio.trans hidle))
  | @answered g h₁ hlen hopened hanswer hok =>
    have hgidle := hopened.aio.trans hidle
    have hprepared : Preparing h₁ := by
      unfold HttpConn.answer at hanswer
      split at hanswer
      · exact (handleGet_preparing hgidle).result hanswer
      · split at hanswer
        · exact (handleGet_preparing hgidle).result hanswer
        · exact Or.inl ((respondClose_aio hanswer).trans hgidle)
    obtain ⟨hsame, -, -, haio, -⟩ := finishRequest_keeps hok
    unfold Preparing at *
    rwa [haio, hsame.len]

theorem HttpConn.Dead.lands (hd : h.Dead) : Lands m h := Or.inl ⟨hd.idle, Or.inr hd.list⟩

theorem HttpConn.Standing.waits (hs : h.Standing .async) (haio : h.aio ≠ none) (hneeds : h.NeedsBody) :
    Waits .file (h.withAio none) := by
  have hflight := (hs.inFlight haio).2
  have hwrite : h.hState ≠ .request := by
    obtain hstate | hstate := hflight.responding
    · simp [hstate]
    · simp [hstate]
  refine ⟨rfl, hflight.congr rfl rfl, ?_, hneeds, nofun⟩
  exact ⟨⟨⟨hs.unclosed.fd, hs.unclosed.closed, waiting_list _ _⟩, hs.state, fun _ => (if_neg hwrite).symm,
    fun hne => absurd rfl hne, hs.res, hs.body, hs.noBody, hs.sendfile⟩, hs.scan⟩

theorem Waits.submitted (hw : Waits .file h) (iocb : Iocb) : (h.withAio (some iocb)).Standing .async := by
  have hs := hw.woken
  have hlist : h.hNbio.list ≠ .deleted := by
    rw [hw.inFlight.list]
    exact nofun
  exact ⟨⟨⟨hs.unclosed.fd, hs.unclosed.closed, hlist⟩, hs.state, fun hne => (nomatch hne),
    fun _ => ⟨rfl, hw.inFlight.congr rfl rfl⟩, hs.res, hs.body, hs.noBody, hs.sendfile⟩, hs.scan⟩

/-- What is submitted is submitted for a body. -/
theorem submitted_needsBody (hs : h.Standing s.fio) (hasync : s.fio = .async) (hidle : h.aio = none)
    {e : HttpConn.Happening} (hstep : h.Steps s e h') (hnone : h'.aio ≠ none) (hresp : h'.Responding) : h'.NeedsBody := by
  unfold HttpConn.Steps HttpConn.step at hstep
  cases e with
  | ready flags =>
    dsimp only at hstep
    split at hstep
    · cases hstep
      exact absurd hidle hnone
    · cases hstep
  | error =>
    dsimp only at hstep
    split at hstep
    · cases hstep
      exact absurd hidle hnone
    · cases hstep
  | completion o =>
    dsimp only at hstep
    rw [hidle] at hstep
    cases hstep
  | write o =>
    dsimp only at hstep
    split at hstep
    · obtain ⟨h₁, hok, heq⟩ := map_eq_ok_iff.mp hstep
      cases heq
      rw [hasync] at hok
      exact Or.inl (((httpWrite_sending hidle o).result hok).resolve_left hnone)
    · cases hstep
  | read o =>
    dsimp only at hstep
    split at hstep
    · next hcalled =>
      obtain ⟨h₁, hok, heq⟩ := map_eq_ok_iff.mp hstep
      cases heq
      have hprepared := (httpRead_preparing hs.unclosed.fd (hs.request_of_called hcalled) hidle).result hok
      exact hresp.imp_right fun hheader => ⟨hheader, hprepared.resolve_left hnone⟩
    · cases hstep

/-- A step of the connection model lands, for the model that shares it. -/
theorem step_lands (hs : h.Standing s.fio) (hidle : h.aio = none) (hfio : s.fio = m.fio) {e : HttpConn.Happening}
    (hstep : h.Steps s e h') : Lands m h' := by
  by_cases he : e = .error
  · subst he
    unfold HttpConn.Steps HttpConn.step at hstep
    dsimp only at hstep
    split at hstep
    · cases hstep
      exact Or.inl ⟨hidle, Or.inr rfl⟩
    · cases hstep
  · have hsettled : h.Settled s.fio := Or.inl hs
    obtain hs' | hd := hsettled.step he hstep
    · by_cases hnone : h'.aio = none
      · exact Or.inl ⟨hnone, Or.inl (hfio ▸ hs')⟩
      · obtain ⟨iocb, haio⟩ := Option.ne_none_iff_exists'.mp hnone
        obtain ⟨hasync, hflight⟩ := hs'.inFlight hnone
        have hm : m = .file := by
          cases m with
          | file => rfl
          | sendfile => cases hfio.symm.trans hasync
        subst hm
        have hneeds := submitted_needsBody hs hasync hidle hstep hnone hflight.responding
        exact Or.inr ⟨iocb, haio, HttpConn.Standing.waits (hasync ▸ hs') hnone hneeds⟩
    · exact hd.lands

/-- A submission that succeeds is in flight, and any other changes nothing. -/
theorem aioSubmitSendfile_cases {submit : SubmitResult} {ok : Bool}
    (hok : h.aioSubmitSendfile submit = .ok (h', ok)) :
    ok = false ∧ h' = h ∨ ok = true ∧ ∃ iocb, h' = h.withAio (some iocb) := by
  obtain ⟨⟨w, off, len⟩, -, hok⟩ := bind_eq_ok_iff.mp hok
  dsimp only at hok
  split at hok
  · cases hok
  · split at hok
    · cases hok
      exact Or.inl ⟨rfl, rfl⟩
    · obtain ⟨-, -, hok⟩ := bind_eq_ok_iff.mp hok
      split at hok
      · cases hok
        exact Or.inl ⟨rfl, rfl⟩
      · cases hok
        exact Or.inr ⟨rfl, _, rfl⟩

theorem HttpConn.Standing.parked (hs : h.Standing .sendfile) (hidle : h.aio = none) (hstate : h.hState = .data) :
    Waits .sendfile (h.withNbio (HttpConn.waiting h.hNbio 0)) := by
  have hmask : NBIO_WRITE = h.hNbio.mask := by
    rw [hs.mask hidle, if_neg (by simp [hstate])]
  exact ⟨hidle, ⟨Or.inl hstate, rfl, rfl, rfl⟩, hs.withNbio hidle rfl hmask (waiting_list _ _), Or.inl hstate,
    fun _ => hstate⟩

theorem Waits.kill (hw : Waits m h) : Ends NoFault HttpConn.Dead (h.httpKill m.fio) := by
  have hs := hw.woken
  have hk := hs.killable hw.idle
  have hlist : h.hNbio.list ≠ .deleted := by
    rw [hw.inFlight.list]
    exact nofun
  exact httpKill_ends ⟨hs.unclosed.fd, hs.unclosed.closed, hlist⟩ ⟨hw.idle, hk.state, hk.res, hk.priv⟩

theorem Waits.abort (hw : Waits m h) : Leads (Lands m) (h.httpConnAbort m.fio) := by
  refine ends_bind (ends_any _) fun _ _ => ?_
  exact hw.kill.mono (fun _ _ => trivial) fun _ hd => hd.lands

theorem Waits.sent (hw : Waits .sendfile h) (bytes : Bytes) (off len : ℕ) :
    Waits .sendfile ((h.logged [.sent h.hState bytes]).withData off len) := by
  have hstate := hw.data rfl
  refine ⟨hw.idle, hw.inFlight.congr rfl rfl, ?_, Or.inl hstate, fun _ => hstate⟩
  exact (hw.woken.logged [.sent h.hState bytes] rfl).withData hstate off len

/-- A completion with nothing left to be sent ends the response. -/
theorem Waits.complete (hw : Waits .sendfile h) : Leads (Lands .sendfile) (h.httpConnDataComplete .sendfile) := by
  obtain ⟨g, hg⟩ : ∃ g, g = h.withNbio (HttpConn.waiting h.hNbio NBIO_WRITE) := ⟨_, rfl⟩
  have hs : g.Standing .sendfile := hg ▸ hw.woken
  have hgidle : g.aio = none := by
    rw [hg]
    exact hw.idle
  have hgstate : g.hState = .data := by
    rw [hg]
    exact hw.data rfl
  have hsame : h.httpConnDataComplete .sendfile = g.httpConnDataComplete .sendfile := by
    have hmask : h.hNbio.mask ≠ NBIO_DELETED := by
      rw [hw.inFlight.mask]
      decide
    unfold HttpConn.httpConnDataComplete
    rw [HttpConn.nbioSetWait_eq (h := (h.withState .request).logged [.complete]) hmask,
      HttpConn.nbioSetWait_eq (h := (g.withState .request).logged [.complete]) hs.mask_ne, hg]
    rfl
  by_cases hlen : g.hDataLen = 0
  · have hends := httpConnDataComplete_ends hs hgidle hgstate hlen
    rw [withPriv_self (hs.sendfile rfl)] at hends
    rw [hsame]
    refine ends_of_forall (fun _ => trivial) fun h' hok => ?_
    have haio := (httpConnDataComplete_aio hok).trans hgidle
    obtain hs' | hd := hends.result hok
    · exact Or.inl ⟨haio, Or.inl hs'⟩
    · exact hd.lands
  · rw [hsame]
    unfold HttpConn.httpConnDataComplete
    rw [if_neg (by simp [hgstate]), if_pos hlen]
    trivial

theorem Waits.sendfileCompletion (hw : Waits .sendfile h) (result : AioResult) (submit : SubmitResult) :
    Leads (Lands .sendfile) (h.sendfileCompletion ro iocb result submit) := by
  cases result with
  | error => exact hw.abort
  | eagain =>
    refine ends_bind (ends_any _) fun _ _ => ?_
    refine ends_of_forall (fun _ => trivial) fun h' hok => ?_
    obtain ⟨io, hwait, rfl⟩ := map_eq_ok_iff.mp hok
    unfold Nbio.nbioWaitOn at hwait
    split at hwait
    · cases hwait
    · cases hwait
      exact Or.inl ⟨hw.idle, Or.inl (hw.woken.withNbio hw.idle rfl rfl nofun)⟩
  | done n =>
    unfold HttpConn.sendfileCompletion
    dsimp only
    split
    · exact hw.abort
    · refine ends_of_forall (fun _ => trivial) fun h' hok => ?_
      obtain ⟨h₁, hread, hok⟩ := bind_eq_ok_iff.mp hok
      obtain ⟨-, -, hread⟩ := bind_eq_ok_iff.mp hread
      split at hread
      · cases hread
        have hsent := hw.sent (fileSlice (ro.file iocb.file) iocb.off (min (n + 1) iocb.size))
          (h.hDataOff + (fileSlice (ro.file iocb.file) iocb.off (min (n + 1) iocb.size)).length)
          (h.hDataLen - (fileSlice (ro.file iocb.file) iocb.off (min (n + 1) iocb.size)).length)
        split at hok
        · obtain ⟨⟨h₂, ok⟩, hsubmit, hok⟩ := bind_eq_ok_iff.mp hok
          obtain ⟨rfl, rfl⟩ | ⟨rfl, iocb', rfl⟩ := aioSubmitSendfile_cases hsubmit
          · exact hsent.abort.result hok
          · cases hok
            exact Or.inr ⟨iocb', rfl, hsent.resubmitted (some iocb')⟩
        · exact hsent.complete.result hok
      · cases hread

theorem sendfileWrite_lands (hs : h.Standing .sendfile) (hidle : h.aio = none) (hresp : h.Responding)
    (o : HttpConn.WriteResults) : Leads (Lands .sendfile) (AioModel.sendfile.httpWrite ro h o) := by
  unfold AioModel.httpWrite HttpConn.httpWriteBy
  dsimp only
  refine ends_bind (P := fun p : HttpConn × Bool =>
    p.2 = true ∧ Lands .sendfile p.1 ∨ p.2 = false ∧ p.1.Unclosed ∧ p.1.Killable .sendfile) ?_ ?_
  · obtain hstate | hstate := hresp
    · rw [hstate]
      refine ends_of_forall (fun _ => trivial) ?_
      rintro ⟨h', ok⟩ hok
      obtain ⟨h₁, hpark, hok⟩ := bind_eq_ok_iff.mp hok
      obtain ⟨-, -, hpark⟩ := bind_eq_ok_iff.mp hpark
      rw [HttpConn.nbioSetWait_eq hs.mask_ne] at hpark
      cases hpark
      have hparked := hs.parked hidle hstate
      obtain ⟨rfl, rfl⟩ | ⟨rfl, iocb, rfl⟩ := aioSubmitSendfile_cases hok
      · have hk := hs.killable hidle
        exact Or.inr ⟨rfl, ⟨hs.unclosed.fd, hs.unclosed.closed, waiting_list _ _⟩, hk.idle, hk.state, hk.res, hk.priv⟩
      · exact Or.inl ⟨rfl, Or.inr ⟨iocb, rfl, hparked.resubmitted (some iocb)⟩⟩
    · rw [hstate]
      refine ends_of_forall (fun _ => trivial) ?_
      rintro ⟨h', ok⟩ hok
      have haio := (httpWriteHdr_aio hok).trans hidle
      obtain ⟨rfl, hs' | hd⟩ | hrefused := (httpWriteHdr_ends hs hidle hstate o.send).result hok
      · exact Or.inl ⟨rfl, Or.inl ⟨haio, Or.inl hs'⟩⟩
      · exact Or.inl ⟨rfl, hd.lands⟩
      · exact Or.inr hrefused
  · rintro ⟨h', ok⟩ (⟨rfl, hlands⟩ | ⟨rfl, hu, hk⟩)
    · exact hlands
    · exact (httpKill_ends hu hk).mono (fun _ _ => trivial) fun _ hd => hd.lands

theorem callback_lands (hs : h.Standing m.fio) (hidle : h.aio = none) {e : HttpConn.Happening}
    (hok : m.callback s h e = .ok (some h')) : Lands m h' := by
  have hstep : h.Steps { s with fio := m.fio } e h' → Lands m h' :=
    step_lands (s := { s with fio := m.fio }) hs hidle rfl
  unfold AioModel.callback at hok
  cases e with
  | ready _ | read _ | error => exact hstep hok
  | completion _ => cases hok
  | write o =>
    cases m with
    | file => exact hstep hok
    | sendfile =>
      dsimp only at hok
      split at hok
      · next hcalled =>
        obtain ⟨h₁, hok, heq⟩ := map_eq_ok_iff.mp hok
        cases heq
        exact (sendfileWrite_lands hs hidle (hs.responding_of_called hcalled) o).result hok
      · cases hok

/-- A completion of a read submits nothing. -/
theorem handleCompletion_aio {result : CompletionResult} (hok : h.handleCompletion ro iocb result = .ok h') :
    h'.aio = none := by
  have habort : (h.withAio none).httpConnAbort .async = .ok h' → h'.aio = none := by
    intro hok
    obtain ⟨-, -, hkill⟩ := bind_eq_ok_iff.mp hok
    exact httpKill_aio hkill
  unfold HttpConn.handleCompletion at hok
  cases result with
  | error => exact habort hok
  | read n =>
    dsimp only at hok
    split at hok
    · exact habort hok
    · obtain ⟨_, -, hok⟩ := bind_eq_ok_iff.mp hok
      obtain ⟨buf, -, hok⟩ := bind_eq_ok_iff.mp hok
      obtain ⟨buf', -, hok⟩ := bind_eq_ok_iff.mp hok
      obtain ⟨-, -, hwake⟩ := bind_eq_ok_iff.mp hok
      obtain ⟨io, -, rfl⟩ := map_eq_ok_iff.mp hwake
      rfl

theorem handleCompletion_lands (hw : Waits m h) (result : AioResult) (submit : SubmitResult) :
    Leads (Lands m) (m.handleCompletion ro h iocb result submit) := by
  cases m with
  | sendfile => exact hw.sendfileCompletion result submit
  | file =>
    refine ends_of_forall (fun _ => trivial) fun h' hok => ?_
    have haio := handleCompletion_aio hok
    have hok' : (h.withAio (some iocb)).handleCompletion ro iocb result.completion = .ok h' := hok
    obtain hs' | hd := (handleCompletion_ends (hw.submitted iocb) rfl result.completion).result hok'
    · exact Or.inl ⟨haio, Or.inl hs'⟩
    · exact hd.lands

theorem HttpConn.InFlight.unreached (hi : h.InFlight) (e : HttpConn.Happening) : m.callback s h e = .ok none := by
  have hcalled : ∀ flag, ¬ h.Called flag := by
    rintro flag ⟨hlist, -⟩
    cases hlist.symm.trans hi.list
  have hready : ¬ (h.hNbio.list = .inactive ∧ h.hNbio.polled = true) := by simp [hi.polled]
  have herror : ¬ (h.hNbio.list = .active ∧ h.hNbio.flags &&& NBIO_ERROR ≠ 0) := by simp [hi.list]
  cases e with
  | ready flags => exact if_neg hready
  | write o => exact if_neg (hcalled _)
  | read o => exact if_neg (hcalled _)
  | error => exact if_neg herror
  | completion o => rfl

end Ashttpd
