import Ashttpd.Answers
import Ashttpd.Pipelining

/-!
# What every callback leaves as it is

A predicate that survives every assignment to a connection, but for those to its webroot, and every event
but those of references, survives every callback. Where a webroot is taken for a file, what holds before
may become something else.
-/
namespace Ashttpd

variable {s : Server} {h h' : HttpConn} {fio : Fio} {r : HttpRequest} {o : ReadResults} {P P' : HttpConn → Prop}

abbrev AnyFault : Fault → Prop := fun _ => True

theorem ends_any {α : Type} (x : Except Fault α) : Ends AnyFault (fun _ => True) x := by
  cases x with
  | error f => trivial
  | ok a => trivial

def Refless (new : List Event) : Prop := ∀ w, .webrootRef w ∉ new ∧ .webrootUnref w ∉ new

theorem refless_freed (kind : BufKind) : Refless [.freed kind] := fun w => ⟨by simp, by simp⟩

/-- What survives whatever is assigned, and giving the webroot back. -/
structure Steady (P : HttpConn → Prop) : Prop where
  nbio : ∀ {h} io, P h → P (h.withNbio io)
  state : ∀ {h} state, P h → P (h.withState state)
  req : ∀ {h} req rstate rptr, P h → P (h.withReq req rstate rptr)
  res : ∀ {h} res, P h → P (h.withRes res)
  priv : ∀ {h} priv, P h → P (h.withPriv priv)
  data : ∀ {h} off len, P h → P (h.withData off len)
  aio : ∀ {h} aio, P h → P (h.withAio aio)
  close : ∀ {h} close, P h → P (h.withClose close)
  logged : ∀ {h new}, Refless new → P h → P (h.logged new)
  dropWebroot : ∀ {h}, P h → P h.dropWebroot

abbrev Leads (P : HttpConn → Prop) (x : Except Fault HttpConn) : Prop := Ends AnyFault P x

abbrev LeadsFst (P : HttpConn → Prop) (x : Except Fault (HttpConn × Bool)) : Prop :=
  Ends AnyFault (fun p => P p.1) x

namespace Steady

variable (hP : Steady P)
include hP

theorem free (hp : P h) (b : Option HttpBuf) (kind : BufKind) : P (h.free b kind) := by
  cases b with
  | none => exact hp
  | some b => exact hP.logged (refless_freed kind) hp

theorem nbioSetWait (hp : P h) (wait : UInt8) : Leads P (h.nbioSetWait wait) :=
  ends_map (ends_any _) fun io _ => hP.nbio io hp

theorem httpConnDataRead (hp : P h) (len : ℕ) : Leads P (h.httpConnDataRead len) := by
  refine ends_bind (ends_any _) fun _ _ => ?_
  split
  · exact hP.data _ _ hp
  · trivial

theorem httpConnSetPriv (hp : P h) (priv : Option HttpBuf) : Leads P (h.httpConnSetPriv priv) :=
  ends_bind (ends_any _) fun _ _ => hP.priv priv hp

theorem httpConnInactive (hp : P h) : Leads P h.httpConnInactive :=
  ends_bind (ends_any _) fun _ _ => hP.nbio _ hp

theorem ioAbort (hp : P h) (fio : Fio) : Leads P (h.ioAbort fio) := by
  cases fio with
  | sendfile => exact hp
  | sync | async => exact ends_bind (ends_any _) fun b _ => hP.free hp b .data

theorem dropResponse (hp : P h) (fio : Fio) : Leads P (h.dropResponse fio) := by
  unfold HttpConn.dropResponse
  split
  · split
    · exact hp
    · trivial
  · exact hP.ioAbort (hP.free hp h.hRes .res) fio
  · exact hP.ioAbort hp fio
  · trivial

theorem httpKill (hp : P h) (fio : Fio) : Leads P (h.httpKill fio) := by
  unfold HttpConn.httpKill
  split
  · exact hp
  · have hclose : P h.close := hP.logged (fun w => ⟨by simp, by simp⟩) (hP.nbio _ hp)
    exact ends_map (hP.dropResponse (hP.free hclose h.hReq .req) fio) fun _ hp' => hP.nbio _ (hP.state _ hp')

theorem httpConnDataComplete (hp : P h) (fio : Fio) : Leads P (h.httpConnDataComplete fio) := by
  unfold HttpConn.httpConnDataComplete
  split
  · trivial
  · split
    · trivial
    · have hdone : P ((h.withState .request).logged [.complete]) :=
        hP.logged (fun w => ⟨by simp, by simp⟩) (hP.state _ hp)
      refine ends_bind (hP.nbioSetWait hdone NBIO_READ) fun h' hp' => ?_
      split
      · exact hP.httpKill (hP.dropWebroot hp') fio
      · exact hP.dropWebroot hp'

theorem httpConnAbort (hp : P h) (fio : Fio) : Leads P (h.httpConnAbort fio) :=
  ends_bind (ends_any _) fun _ _ => hP.httpKill hp fio

theorem sent (hp : P h) (state : HttpState) (bytes : Bytes) : P (h.logged [.sent state bytes]) :=
  hP.logged (fun _ => ⟨by simp, by simp⟩) hp

omit hP in
theorem leads_true {x : Except Fault HttpConn} (hx : Leads P x) : LeadsFst P (x >>= fun h => .ok (h, true)) :=
  ends_bind hx fun _ hp => hp

theorem ioSyncTopUp (hp : P h) (r : Webroots) (preads : List PreadResult) :
    Ends AnyFault (fun o => ∀ h' ∈ o, P h') (h.ioSyncTopUp r preads) := by
  refine ends_bind (ends_any _) fun _ _ => ends_bind (ends_any _) fun buf _ => ends_bind (ends_any _) fun d _ => ?_
  obtain ⟨w, off, len⟩ := d
  dsimp only
  split
  · rintro _ ⟨⟩
    exact hp
  · split
    · exact fun _ hmem => nomatch hmem
    · exact fun _ hmem => nomatch hmem
    · next bs _ =>
      refine ends_bind (ends_any _) fun buf' _ => ?_
      refine ends_map (hP.httpConnDataRead (hP.priv (some buf') hp) bs.length) ?_
      rintro h' hp' _ ⟨⟩
      exact hp'

theorem ioSyncSent (hp : P h) (rest : HttpBuf) : Leads P (h.ioSyncSent rest) := by
  unfold HttpConn.ioSyncSent
  split
  · exact ends_bind (hP.httpConnSetPriv hp none)
      fun h' hp' => hP.httpConnDataComplete (hP.free hp' (some rest) .data) .sync
  · split
    · exact hP.priv _ hp
    · exact hP.priv _ hp

theorem ioSyncSend (hp : P h) (send : SendResult) : LeadsFst P (h.ioSyncSend send) := by
  refine ends_bind (ends_any _) fun buf _ => ?_
  cases send with
  | eagain => exact leads_true (hP.httpConnInactive hp)
  | error => exact hp
  | sent n =>
    dsimp only
    split
    · exact hp
    · exact ends_bind (ends_any _) fun rest _ => leads_true (hP.ioSyncSent (hP.sent hp _ _) rest)

theorem ioSyncWrite (hp : P h) (r : Webroots) (preads : List PreadResult) (send : SendResult) :
    LeadsFst P (h.ioSyncWrite r preads send) := by
  refine ends_bind (hP.ioSyncTopUp hp r preads) fun o ho => ?_
  cases o with
  | none => exact hp
  | some h' => exact hP.ioSyncSend (ho h' rfl) send

theorem ioSendfileWrite (hp : P h) (r : Webroots) (send : SendResult) : LeadsFst P (h.ioSendfileWrite r send) := by
  refine ends_bind (ends_any _) fun d _ => ?_
  obtain ⟨w, off, len⟩ := d
  cases send with
  | eagain => exact leads_true (hP.httpConnInactive hp)
  | error => exact hp
  | sent n =>
    dsimp only
    split
    · exact hp
    · refine leads_true (ends_bind (hP.httpConnDataRead (hP.sent hp _ _) _) fun h' hp' => ?_)
      split
      · exact hP.httpConnDataComplete hp' .sendfile
      · exact hp'

theorem aioSubmit (hp : P h) (submit : SubmitResult) : LeadsFst P (h.aioSubmit submit) := by
  refine ends_of_forall (fun _ => trivial) ?_
  rintro ⟨h', ok⟩ hok
  obtain ⟨-, rfl⟩ | ⟨-, -, -, iocb, rfl⟩ := aioSubmit_cases hok
  · exact hp
  · exact hP.aio _ (hP.nbio _ hp)

theorem ioAsyncSent (hp : P h) (rest : HttpBuf) (ret : ℕ) (submit : SubmitResult) :
    LeadsFst P (h.ioAsyncSent rest ret submit) := by
  refine ends_bind (hP.httpConnDataRead (hP.priv (some rest) hp) ret) fun h' hp' => ?_
  split
  · exact hp'
  · split
    · exact hP.aioSubmit (hP.priv (some rest.bufReset) hp') submit
    · exact ends_bind (hP.httpConnSetPriv (hP.free hp' (some rest) .data) none)
        fun _ hp'' => leads_true (hP.httpConnDataComplete hp'' .async)

theorem ioAsyncWrite (hp : P h) (send : SendResult) (submit : SubmitResult) :
    LeadsFst P (h.ioAsyncWrite send submit) := by
  refine ends_bind (ends_any _) fun _ _ => ends_bind (ends_any _) fun buf _ => ?_
  cases send with
  | eagain => exact leads_true (hP.httpConnInactive hp)
  | error => exact hp
  | sent n =>
    dsimp only
    split
    · exact hp
    · exact ends_bind (ends_any _) fun rest _ => hP.ioAsyncSent (hP.sent hp _ _) rest _ submit

theorem handleCompletion (hp : P h) (r : Webroots) (iocb : Iocb) (result : CompletionResult) :
    Leads P (h.handleCompletion r iocb result) := by
  have hidle : P (h.withAio none) := hP.aio none hp
  cases result with
  | error => exact hP.httpConnAbort hidle .async
  | read n =>
    unfold HttpConn.handleCompletion
    dsimp only
    split
    · exact hP.httpConnAbort hidle .async
    · refine ends_bind (ends_any _) fun _ _ => ends_bind (ends_any _) fun buf _ => ends_bind (ends_any _) fun buf' _ => ?_
      exact ends_bind (ends_any _) fun _ _ => hP.nbioSetWait (hP.priv (some buf') hidle) NBIO_WRITE

theorem headerDone (hp : P h) : LeadsFst P h.headerDone := by
  unfold HttpConn.headerDone
  split
  · exact hP.state _ hp
  · split
    · exact hp
    · exact ends_bind (hP.nbioSetWait hp NBIO_READ) fun _ hp' => hP.state _ hp'

theorem httpWriteHdr (hp : P h) (send : SendResult) : LeadsFst P (h.httpWriteHdr send) := by
  refine ends_bind (ends_any _) fun res _ => ?_
  cases send with
  | eagain => exact hP.nbio _ hp
  | error => exact hp
  | sent n =>
    dsimp only
    split
    · exact hp
    · refine ends_bind (ends_any _) fun rest _ => ?_
      have hsent := hP.sent hp h.hState (res.unread.take (min n res.bufRead))
      split
      · exact hP.res _ hsent
      · exact hP.headerDone (hP.res _ (hP.logged (refless_freed .res) hsent))

theorem httpWrite (hp : P h) (fio : Fio) (r : Webroots) (o : HttpConn.WriteResults) :
    Leads P (h.httpWrite fio r o) := by
  have hwrite : LeadsFst P (h.httpWriteState fio r o) := by
    unfold HttpConn.httpWriteState
    split
    · exact hP.httpWriteHdr hp o.send
    · cases fio with
      | sync => exact hP.ioSyncWrite hp r o.preads o.send
      | sendfile => exact hP.ioSendfileWrite hp r o.send
      | async => exact hP.ioAsyncWrite hp o.send o.submit
    · trivial
  refine ends_bind hwrite ?_
  rintro ⟨h', ok⟩ hp'
  cases ok with
  | true => exact hp'
  | false => exact hP.httpKill hp' fio

end Steady

end Ashttpd
