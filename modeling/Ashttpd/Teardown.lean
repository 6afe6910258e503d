import Ashttpd.ConnPool
import Ashttpd.ConnectionRuns

/-!
# The end of connections

As long as `nbio_pump` finds no error, a connection is destroyed only after it was killed, and the
connections that live are counted. The error branch destroys a connection that nobody has killed.
-/
namespace Ashttpd

variable {s : Server} {h h' : HttpConn} {p p' : ConnPool} {ev : PoolEvent}

/-- Nothing is left of a connection: the descriptor is closed, once, and the buffers were returned. -/
structure HttpConn.TornDown (h : HttpConn) : Prop where
  fd : h.hNbio.fd = false
  unwatched : ¬ h.Watched
  log : ∃ before, before.count .closed = 0 ∧ h.log = before ++ .closed :: h.held

def Peer.live (q : Peer) : Bool := !q.destroyed && q.conn.log.count .closed == 0

/-- A connection that was destroyed after it was killed. -/
structure HttpConn.Gone (h : HttpConn) : Prop where
  fd : h.hNbio.fd = false
  idle : h.aio = none
  closed : h.log.count .closed = 1

theorem HttpConn.Gone.unreached (hg : h.Gone) {e : HttpConn.Happening} : ¬ h.Reached e := by
  cases e with
  | ready flags =>
    rintro ⟨hfd, -⟩
    rw [hg.fd] at hfd
    cases hfd
  | completion o => exact fun haio => haio hg.idle
  | write o | read o | error => exact id

def Peer.Settled (fio : Fio) (q : Peer) : Prop :=
  q.destroyed = false ∧ q.conn.Settled fio ∨ q.destroyed = true ∧ q.conn.Gone

/-- The connections are settled, and those that live are counted. -/
structure ConnPool.Counted (fio : Fio) (p : ConnPool) : Prop where
  peers : ∀ q ∈ p.peers, q.Settled fio
  count : p.concurrency = p.peers.countP Peer.live

theorem HttpConn.Dead.tornDown (hd : h.Dead) : h.TornDown := by
  refine ⟨hd.fd, ?_, hd.log⟩
  rintro ⟨hfd, -⟩
  rw [hd.fd] at hfd
  cases hfd

theorem count_closed_unref (l : List Event) (w : ℕ) :
    (l ++ [Event.webrootUnref w]).count Event.closed = l.count .closed := by
  rw [List.count_append]
  rfl

theorem HttpConn.Dead.httpDtor (hd : h.Dead) : h.httpDtor.Gone := by
  unfold HttpConn.httpDtor
  obtain ⟨heq, -⟩ | ⟨w, -, heq⟩ := dropWebroot_cases (h.withState .dead)
  · rw [heq]
    exact ⟨hd.fd, hd.idle, hd.closed⟩
  · rw [heq]
    exact ⟨hd.fd, hd.idle, (count_closed_unref h.log w).trans hd.closed⟩

theorem HttpConn.Settled.dead_of_deleted {fio : Fio} (hs : h.Settled fio) (hlist : h.hNbio.list = .deleted) :
    h.Dead := by
  exact hs.resolve_left fun hstanding => hstanding.unclosed.list hlist

theorem countP_live_set {l : List Peer} {i : ℕ} {q : Peer} (hq : l[i]? = some q) (q' : Peer) :
    (l.set i q').countP Peer.live =
      l.countP Peer.live - (if q.live then 1 else 0) + (if q'.live then 1 else 0) := by
  obtain ⟨hi, rfl⟩ := List.getElem?_eq_some_iff.mp hq
  exact List.countP_set hi

theorem countP_live_pos {l : List Peer} {i : ℕ} {q : Peer} (hq : l[i]? = some q) (hlive : q.live = true) :
    0 < l.countP Peer.live :=
  List.countP_pos_iff.mpr ⟨q, List.mem_of_getElem? hq, hlive⟩

theorem live_of_standing {fio : Fio} (hs : h.Standing fio) : (Peer.mk h false).live = true := by
  simp [Peer.live, hs.unclosed.closed]

theorem not_live_of_dead (hd : h.Dead) : (Peer.mk h false).live = false := by
  simp [Peer.live, hd.closed]

theorem HttpConn.Settled.standing {fio : Fio} (hs : h.Settled fio) {e : HttpConn.Happening}
    (hstep : h.Steps s e h') : h.Standing fio := by
  refine hs.resolve_right fun hd => ?_
  cases (hd.step e).symm.trans hstep

namespace ConnPool

/-- The change of a connection is counted. -/
theorem Counted.changed (hp : p.Counted s.fio) {i : ℕ} (hpeer : p.peers[i]? = some ⟨h, false⟩)
    (hs : h.Standing s.fio) (hs' : h'.Settled s.fio) :
    ∃ p', p.changed i h h' = .ok p' ∧ p'.Counted s.fio := by
  have hpeers : ∀ q ∈ p.peers.set i ⟨h', false⟩, q.Settled s.fio := by
    intro q hq
    obtain hmem | rfl := List.mem_or_eq_of_mem_set hq
    · exact hp.peers q hmem
    · exact Or.inl ⟨rfl, hs'⟩
  have hlive := live_of_standing hs
  have hpos := countP_live_pos hpeer hlive
  have hset := countP_live_set hpeer ⟨h', false⟩
  rw [hlive, if_pos rfl, ← hp.count] at hset
  rw [← hp.count] at hpos
  unfold ConnPool.changed
  dsimp only
  rw [hs.unclosed.closed]
  obtain hstanding | hdead := hs'
  · rw [live_of_standing hstanding, if_pos rfl] at hset
    rw [hstanding.unclosed.closed, if_neg (by omega)]
    exact ⟨_, rfl, hpeers, by
      show p.concurrency - 0 = (p.peers.set i ⟨h', false⟩).countP Peer.live
      omega⟩
  · rw [not_live_of_dead hdead, if_neg (by simp)] at hset
    rw [hdead.closed, if_neg (by omega)]
    exact ⟨_, rfl, hpeers, by
      show p.concurrency - 1 = (p.peers.set i ⟨h', false⟩).countP Peer.live
      omega⟩

theorem Counted.empty (fio : Fio) : empty.Counted fio := ⟨fun _ hq => (nomatch hq), rfl⟩

theorem Counted.settled (hp : p.Counted s.fio) {i : ℕ} (hpeer : p.peers[i]? = some ⟨h, false⟩) :
    h.Settled s.fio := by
  obtain ⟨-, hs⟩ | ⟨hgone, -⟩ := hp.peers _ (List.mem_of_getElem? hpeer)
  · exact hs
  · cases hgone

/-- Unless there is an error, every step keeps the count. -/
theorem Counted.step (hp : p.Counted s.fio) (hev : ∀ i, ev ≠ .conn i .error) (hstep : p.Steps s ev p') :
    p'.Counted s.fio := by
  cases hstep.change with
  | accept =>
    refine ⟨fun q hq => ?_, ?_⟩
    · obtain hmem | hnew := List.mem_append.mp hq
      · exact hp.peers q hmem
      · obtain rfl := List.mem_singleton.mp hnew
        exact Or.inl ⟨rfl, Or.inl (httpConn_standing s.fio)⟩
    · show p.concurrency + 1 = _
      rw [hp.count, List.countP_append]
      rfl
  | @conn i e h h' p' hpeer hconn hchanged =>
    have he : e ≠ .error := by
      rintro rfl
      exact hev i rfl
    have hs := hp.settled hpeer
    obtain ⟨p₁, hchanged', hcounted⟩ := hp.changed hpeer (hs.standing hconn) (hs.step he hconn)
    cases hchanged.symm.trans hchanged'
    exact hcounted
  | @dtor i h hpeer hlist =>
    have hd := (hp.settled hpeer).dead_of_deleted hlist
    refine ⟨fun q hq => ?_, ?_⟩
    · obtain hmem | rfl := List.mem_or_eq_of_mem_set hq
      · exact hp.peers q hmem
      · exact Or.inr ⟨rfl, hd.httpDtor⟩
    · have hset := countP_live_set hpeer ⟨h.httpDtor, true⟩
      rw [not_live_of_dead hd, if_neg (by simp), if_neg (by simp [Peer.live])] at hset
      show p.concurrency = _
      rw [hset, hp.count]
      omega

theorem counted_of_run {evs : List PoolEvent}
    (hrun : GuardedRun (Steps s) (fun _ ev => ∀ i, ev ≠ .conn i .error) empty evs p) : p.Counted s.fio :=
  hrun.invariant (I := fun _ p => p.Counted s.fio) (fun _ _ _ _ hp hev hstep => hp.step hev hstep)
    (.empty s.fio)

/-- A fault of the pool is one of a connection that lives, in a step of its own. -/
theorem Counted.fault (hp : p.Counted s.fio) {f : Fault} (hev : ∀ i, ev ≠ .conn i .error)
    (hfault : p.step s ev = .error f) :
    ∃ i e h, ev = .conn i e ∧ p.peers[i]? = some ⟨h, false⟩ ∧ h.step s e = .error f := by
  unfold ConnPool.step at hfault
  cases ev with
  | accept => cases hfault
  | conn i e =>
    dsimp only at hfault
    split at hfault
    · cases hfault
    · next h hpeer =>
      obtain ⟨hgone, -⟩ | ⟨-, hgone⟩ := hp.peers _ (List.mem_of_getElem? hpeer)
      · cases hgone
      · split at hfault
        · next hreached => exact absurd hreached hgone.unreached
        · cases hfault
    · next h hpeer =>
      split at hfault
      · next f' hconn =>
        cases hfault
        exact ⟨i, e, h, rfl, hpeer, hconn⟩
      · cases hfault
      · next h' hconn =>
        have he : e ≠ .error := by
          rintro rfl
          exact hev i rfl
        have hs := hp.settled hpeer
        obtain ⟨p₁, hchanged, -⟩ := hp.changed hpeer (hs.standing hconn) (hs.step he hconn)
        rw [hchanged] at hfault
        cases hfault
  | dtor i =>
    dsimp only at hfault
    split at hfault
    · cases hfault
    · cases hfault
    · split at hfault
      · cases hfault
      · cases hfault

/-- What is told of the connections of a pool, when the error branch of `nbio_pump` was never taken. -/
structure TornDown (s : Server) (p : ConnPool) : Prop where
  deleted : ∀ q ∈ p.peers, q.destroyed = false → q.conn.hNbio.list = .deleted → q.conn.TornDown
  destroyed : ∀ q ∈ p.peers, q.destroyed = true → q.conn.log.count .closed = 1 ∧ ∀ e, ¬ q.conn.Reached e
  concurrency : p.concurrency = p.peers.countP Peer.live
  fault : ∀ ev f, (∀ i, ev ≠ .conn i .error) → p.step s ev = .error f →
    ∃ i e h, ev = .conn i e ∧ p.peers[i]? = some ⟨h, false⟩ ∧ h.step s e = .error f

theorem Counted.tornDown (hp : p.Counted s.fio) : p.TornDown s := by
  refine ⟨fun q hq hlive hlist => ?_, fun q hq hgone => ?_, hp.count, fun _ _ hev hfault => hp.fault hev hfault⟩
  · obtain ⟨-, hs⟩ | ⟨hdestroyed, -⟩ := hp.peers q hq
    · exact (hs.dead_of_deleted hlist).tornDown
    · cases hlive.symm.trans hdestroyed
  · obtain ⟨hlive, -⟩ | ⟨-, hg⟩ := hp.peers q hq
    · cases hlive.symm.trans hgone
    · exact ⟨hg.closed, fun _ => hg.unreached⟩

/-- Where the error branch is taken, a connection is to be destroyed that nobody has killed. -/
theorem Counted.error_step (hp : p.Counted s.fio) {i : ℕ} (hstep : p.Steps s (.conn i .error) p') :
    ∃ q ∈ p'.peers, q.destroyed = false ∧ q.conn.hNbio.list = .deleted ∧ q.conn.log.count .closed = 0 := by
  cases hstep.change with
  | @conn i e h h' p' hpeer hconn hchanged =>
    have hs := (hp.settled hpeer).standing hconn
    have hdel : h' = h.withNbio h.hNbio.nbioDel := by
      unfold HttpConn.Steps HttpConn.step at hconn
      dsimp only at hconn
      split at hconn
      · cases hconn
        rfl
      · cases hconn
    obtain ⟨hi, -⟩ := List.getElem?_eq_some_iff.mp hpeer
    rw [changed_peers hchanged]
    refine ⟨⟨h', false⟩, List.mem_set hi _, rfl, ?_, ?_⟩
    · rw [hdel]
      rfl
    · rw [hdel]
      exact hs.unclosed.closed

/-- In every run in which the error branch of `nbio_pump` is not taken, a connection is killed once before
it is destroyed: its descriptor is closed and not watched any more, and its buffers were returned;
nothing reaches it afterwards, and `concurrency` is the number of connections that were neither
destroyed nor killed. The error branch leaves a connection to be destroyed that was not killed. -/
theorem torn_down_before_dtor {evs : List PoolEvent}
    (hrun : GuardedRun (Steps s) (fun _ ev => ∀ i, ev ≠ .conn i .error) empty evs p) :
    p.TornDown s ∧ ∀ i p', p.Steps s (.conn i .error) p' → ¬ p'.TornDown s := by
  have hp := counted_of_run hrun
  refine ⟨hp.tornDown, fun i p' hstep htorn => ?_⟩
  obtain ⟨q, hq, hlive, hlist, hclosed⟩ := hp.error_step hstep
  obtain ⟨before, -, hlog⟩ := (htorn.deleted q hq hlive hlist).log
  rw [hlog, List.count_append, List.count_cons_self] at hclosed
  omega

def readFailed : List PoolEvent := [.accept, .conn 0 (readOf .error), .dtor 0]

theorem torn_down_before_dtor_readFailed : ∃ p, GuardedRun (Steps (twoByteServer .sync))
    (fun _ ev => ∀ i, ev ≠ .conn i .error) empty readFailed p ∧ (p.peers.all fun q => q.destroyed) = true ∧
    p.concurrency = 0 ∧ p.TornDown (twoByteServer .sync) := by
  obtain ⟨p, hrun, hdestroyed, hcount⟩ : ∃ p, GuardedRun (Steps (twoByteServer .sync))
      (fun _ ev => ∀ i, ev ≠ .conn i .error) empty readFailed p ∧ (p.peers.all fun q => q.destroyed) = true ∧
      p.concurrency = 0 :=
    ⟨_, .cons nofun rfl (.cons nofun rfl (.cons nofun rfl (.start _))), rfl, rfl⟩
  exact ⟨p, hrun, hdestroyed, hcount, (torn_down_before_dtor hrun).1⟩

def errorReported : List PoolEvent :=
  [.accept, .conn 0 (readOf .eagain), .conn 0 (.ready NBIO_ERROR), .conn 0 .error]

/-- It is destroyed without having been killed: it stays open and watched, its buffer is not returned, it is
counted for ever, and what is reported on it next finds memory that was returned. -/
theorem destroyed_without_kill : ∃ p p' h, Run (Steps (twoByteServer .sync)) empty errorReported p ∧
    p.peers = [⟨h, false⟩] ∧ h.hNbio.list = .deleted ∧ h.log = [] ∧ h.hReq.isSome ∧ h.Watched ∧
    p.Steps (twoByteServer .sync) (.dtor 0) p' ∧ p'.concurrency = 1 ∧ p'.peers.countP Peer.live = 0 ∧
    p'.step (twoByteServer .sync) (.conn 0 (.ready NBIO_READ)) = .error .undefined :=
  ⟨_, _, _, .cons trivial rfl (.cons trivial rfl (.cons trivial rfl (.cons trivial rfl (.start _)))), rfl, rfl, rfl,
    rfl, by decide, rfl, rfl, rfl, rfl⟩

end ConnPool
end Ashttpd
