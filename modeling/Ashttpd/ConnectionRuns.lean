import Ashttpd.ConnectionReads
import Ashttpd.StrongEtags

/-!
# The states of a connection over its runs

A connection stands between any two steps, or it was killed; after that nothing happens to it. So
no assertion about its state fails, and the only faults there are come from answering a request.
-/
namespace Ashttpd

variable {s : Server} {h h' : HttpConn} {fio : Fio}

def StepFault (s : Server) (h : HttpConn) (e : HttpConn.Happening) (f : Fault) : Prop :=
  s.fio = .async ∨ ∃ o, e = .read o ∧ AnswerFault s (h.requestRead o) o f

theorem not_called_of_mask {flag wait : UInt8} (hcalled : h.Called flag) (hmask : h.hNbio.mask = wait) :
    wait &&& flag ≠ 0 := by
  intro hzero
  apply hcalled.2
  rw [hmask, UInt8.and_assoc, hzero, UInt8.and_zero]

theorem HttpConn.Poised.responding_of_called (hp : h.Poised fio) (hcalled : h.Called NBIO_WRITE) : h.Responding := by
  refine hp.responding fun hstate => ?_
  have hmask := hp.mask (hp.idle hcalled.1)
  rw [if_pos hstate] at hmask
  exact not_called_of_mask hcalled hmask (by decide)

theorem HttpConn.Poised.request_of_called (hp : h.Poised fio) (hcalled : h.Called NBIO_READ) : h.hState = .request := by
  by_contra hstate
  have hmask := hp.mask (hp.idle hcalled.1)
  rw [if_neg hstate] at hmask
  exact not_called_of_mask hcalled hmask (by decide)

/-- Every step but that of an error leaves the connection standing or dead. -/
theorem step_ends (hs : h.Standing s.fio) {e : HttpConn.Happening} (he : e ≠ .error) :
    Ends (StepFault s h e) (fun o => ∀ h' ∈ o, h'.Settled s.fio) (h.step s e) := by
  have hnothing : Ends (StepFault s h e) (fun o => ∀ h' ∈ o, HttpConn.Settled s.fio h') (.ok none) :=
    fun _ hmem => nomatch hmem
  have hsome : ∀ {x : Except Fault HttpConn}, Ends (StepFault s h e) (HttpConn.Settled s.fio) x →
      Ends (StepFault s h e) (fun o => ∀ h' ∈ o, HttpConn.Settled s.fio h') (x.map some) := by
    intro x hx
    refine ends_map hx ?_
    rintro h' hsettled _ ⟨⟩
    exact hsettled
  unfold HttpConn.step
  cases e with
  | ready flags =>
    dsimp only
    split
    · next hready =>
      have haio : h.aio = none := by
        by_contra hne
        have hpolled := (hs.inFlight hne).2.polled
        rw [hready.2] at hpolled
        cases hpolled
      rintro _ ⟨⟩
      exact Or.inl (hs.withNbio haio rfl rfl nofun)
    · exact hnothing
  | write o =>
    dsimp only
    split
    · next hcalled =>
      refine hsome ((httpWrite_ends hs (hs.idle hcalled.1) (hs.responding_of_called hcalled) o).mono ?_ fun _ => id)
      exact fun _ => Or.inl
    · exact hnothing
  | read o =>
    dsimp only
    split
    · next hcalled =>
      refine hsome ((httpRead_ends hs (hs.idle hcalled.1) (hs.request_of_called hcalled) o).mono ?_ fun _ => id)
      exact fun f hfault => hfault.imp And.left fun hanswer => ⟨o, rfl, hanswer⟩
    · exact hnothing
  | error => exact absurd rfl he
  | completion o =>
    dsimp only
    split
    · exact hnothing
    · next iocb haio => exact hsome ((handleCompletion_ends hs haio o).mono (fun _ => Or.inl) fun _ => id)

/-- Nothing happens to a connection that was deleted from the event loop. -/
theorem step_of_deleted (hlist : h.hNbio.list = .deleted) (haio : h.aio = none) (e : HttpConn.Happening) :
    h.step s e = .ok none := by
  have hcalled : ∀ flag, ¬ h.Called flag := by
    rintro flag ⟨hlist', -⟩
    cases hlist.symm.trans hlist'
  unfold HttpConn.step
  cases e with
  | ready flags => exact if_neg (by simp [hlist])
  | write o => exact if_neg (hcalled _)
  | read o => exact if_neg (hcalled _)
  | error => exact if_neg (by simp [hlist])
  | completion o =>
    dsimp only
    rw [haio]

theorem HttpConn.Dead.step (hd : h.Dead) (e : HttpConn.Happening) : h.step s e = .ok none :=
  step_of_deleted hd.list hd.idle e

theorem httpConn_standing (fio : Fio) : HttpConn.httpConn.Standing fio := by
  refine ⟨⟨⟨rfl, rfl, nofun⟩, nofun, fun _ => rfl, fun hne => absurd rfl hne, ?_, ?_, fun _ => rfl, fun _ => rfl⟩,
    fun hne => absurd rfl hne⟩
  · exact ⟨fun hne => absurd rfl hne, nofun⟩
  · rintro (hcase | ⟨hcase, -⟩)
    · cases hcase
    · cases hcase

theorem HttpConn.Settled.step (hs : h.Settled s.fio) {e : HttpConn.Happening} (he : e ≠ .error)
    (hstep : h.Steps s e h') : h'.Settled s.fio := by
  unfold HttpConn.Steps at hstep
  obtain hstanding | hdead := hs
  · exact (step_ends hstanding he).result hstep h' rfl
  · rw [hdead.step e] at hstep
    cases hstep

theorem settled_of_run {es : List HttpConn.Happening}
    (hrun : GuardedRun (HttpConn.Steps s) (fun _ e => e ≠ .error) .httpConn es h) : h.Settled s.fio :=
  hrun.invariant (I := fun _ h => h.Settled s.fio) (fun _ _ _ _ hs he hstep => hs.step he hstep)
    (Or.inl (httpConn_standing s.fio))

/-- What a connection waits for and what it has, as `h_state` tells. -/
structure HttpConn.Consistent (fio : Fio) (h : HttpConn) : Prop where
  read : h.hNbio.mask = NBIO_READ ↔ h.hState = .request
  write : h.hNbio.mask = NBIO_WRITE ↔ h.hState = .header ∨ h.hState = .data
  res : h.hRes ≠ none ↔ h.hState = .header
  buffered : h.hIoPriv ≠ none → h.hState = .header ∨ h.hState = .data
  data : fio = .sync → h.hState = .data → h.hIoPriv ≠ none
  scan : h.hState = .request → h.hReq ≠ none → h.hRstate.terminal = false

theorem HttpConn.Standing.consistent (hs : h.Standing fio) (hfio : fio ≠ .async) : h.Consistent fio := by
  have haio : h.aio = none := by
    by_contra hne
    exact hfio (hs.inFlight hne).1
  have hmask := hs.mask haio
  have hresp : h.hState ≠ .request → h.hState = .header ∨ h.hState = .data :=
    fun hstate => (hs.responding hstate).symm
  refine ⟨?_, ?_, hs.res, ?_, ?_, ?_⟩
  · rw [hmask]
    split
    · next hstate => exact iff_of_true rfl hstate
    · next hstate => exact iff_of_false (by decide) hstate
  · rw [hmask]
    split
    · next hstate => exact iff_of_false (by decide) (by simp [hstate])
    · next hstate => exact iff_of_true rfl (hresp hstate)
  · exact fun hpriv => hresp fun hstate => hpriv (hs.noBody (Or.inl hstate))
  · rintro rfl hstate
    exact (hs.body (Or.inl hstate)).2 nofun
  · intro hstate hreq
    refine (hs.scan hreq).resolve_right fun hd => ?_
    cases hstate.symm.trans hd.1

/-- For the synchronous models, a connection that was not killed is as its state tells after every run
without an error, it is killed at most once, and no step faults but for the answer to a request. -/
theorem conn_consistent {es : List HttpConn.Happening} (hfio : s.fio ≠ .async)
    (hrun : GuardedRun (HttpConn.Steps s) (fun _ e => e ≠ .error) .httpConn es h) :
    (h.hState ≠ .dead → h.Consistent s.fio) ∧ h.log.count .closed ≤ 1 ∧
      ∀ e f, e ≠ .error → h.step s e = .error f → ∃ o, e = .read o ∧ AnswerFault s (h.requestRead o) o f := by
  obtain hs | hd := settled_of_run hrun
  · refine ⟨fun _ => hs.consistent hfio, by simp [hs.unclosed.closed], fun e f he hfault => ?_⟩
    exact ((step_ends hs he).fault hfault).resolve_left hfio
  · refine ⟨fun hlive => absurd hd.state hlive, by simp [hd.closed], fun e f _ hfault => ?_⟩
    rw [hd.step e] at hfault
    cases hfault

def headerSent : List HttpConn.Happening := [readOf (.bytes plainHead), .write ⟨.sent 2048, [], .submitted⟩]

instance (e : HttpConn.Happening) : Decidable (e = .error) :=
  match e with
  | .error => isTrue rfl
  | .ready _ | .write _ | .read _ | .completion _ => isFalse nofun

theorem conn_consistent_data : ∃ h, GuardedRun (HttpConn.Steps taggedServer) (fun _ e => e ≠ .error) .httpConn
    headerSent h ∧ h.hState = .data ∧ h.Consistent .sync := by
  have hall : (play (HttpConn.next taggedServer) (fun _ e => e ≠ .error) .httpConn headerSent).any
      (fun h => h.hState = .data) = true := by
    decide +kernel
  obtain ⟨h, hplay, hdata⟩ := (Option.any_eq_true _ _).mp hall
  have hdata := of_decide_eq_true hdata
  have hrun := guardedRun_of_play (fun _ _ _ => HttpConn.steps_of_next) hplay
  exact ⟨h, hrun, hdata, (conn_consistent (by decide) hrun).1 (by simp [hdata])⟩

end Ashttpd
