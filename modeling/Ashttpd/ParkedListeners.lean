import Ashttpd.GuardedRuns
import Ashttpd.Listeners
import Ashttpd.Teardown

/-!
# Who wakes up a listener

A listener that was parked for want of resources is woken up by the next `http_kill`, so that there has to be a
connection which that is still to be run for. There is none if a listener is parked with no connection left, or if
the last connection is destroyed by the error branch of `nbio_pump`.
-/
namespace Ashttpd

variable {s : Server} {h h' : HttpConn} {fio : Fio} {p p' : ConnPool} {l l' : Listener} {e : AcceptError}

/-- A connection that `http_kill` is still to be run for. -/
def Peer.Pending (q : Peer) : Prop := q.destroyed = false ∧ q.conn.hNbio.fd = true ∧ q.conn.hNbio.list ≠ .deleted

instance (q : Peer) : Decidable q.Pending := inferInstanceAs (Decidable (_ ∧ _ ∧ _))

def Peer.Kept (fio : Fio) (q : Peer) : Prop :=
  q.destroyed = true ∨ q.conn.Standing fio ∨ q.conn.hNbio.list = .deleted ∧ q.conn.aio = none

theorem wakeListeners_spec {ls ls' : List Listener} (hok : wakeListeners ls = .ok ls') : ∀ l ∈ ls', ¬ l.Parked := by
  induction ls generalizing ls' with
  | nil =>
    cases hok
    exact nofun
  | cons l rest ih =>
    unfold wakeListeners at hok
    obtain ⟨l₁, hwake, hok⟩ := bind_eq_ok_iff.mp hok
    obtain ⟨rest', hrest, hok⟩ := bind_eq_ok_iff.mp hok
    cases hok
    have hl₁ : ¬ l₁.Parked := by
      split at hwake
      · unfold Listener.listenerWake Listener.nbioSetWait Listener.doSetWait at hwake
        split at hwake
        · cases hwake
        · cases hwake
          exact nofun
      · next hnot =>
        cases hwake
        exact hnot
    intro l' hl'
    obtain rfl | hmem := List.mem_cons.mp hl'
    · exact hl₁
    · exact ih hrest l' hmem

theorem doSetWait_list {wait : UInt8} {q : Queue} (hok : l.doSetWait wait q = .ok l') :
    l'.list = if wait &&& NBIO_WAIT = 0 then q else .active := by
  unfold Listener.doSetWait at hok
  split at hok
  · cases hok
  · cases hok
    rfl

def accepted (accepts : List Bool) : List Peer := (accepts.filter id).map fun _ => ⟨.httpConn, false⟩

/-- A callback creates the connections that there is memory for, and parks the listener if there are no resources. -/
theorem listenerRead_spec {accepts : List Bool} (hlist : l.list = .active)
    (hok : listenerRead l p accepts e = .ok (l', p')) :
    p'.peers = p.peers ++ accepted accepts ∧ p.concurrency ≤ p'.concurrency ∧ (l'.Parked ↔ e.Oom) := by
  induction accepts generalizing l p with
  | nil =>
    unfold listenerRead at hok
    split at hok
    · next hoom =>
      obtain ⟨l₁, hpark, heq⟩ := map_eq_ok_iff.mp hok
      cases heq
      have hlist' : l'.list = OOMQ := doSetWait_list hpark
      exact ⟨(List.append_nil _).symm, Nat.le_refl _, iff_of_true hlist' hoom⟩
    · next hnot =>
      split at hok
      · cases hok
        refine ⟨(List.append_nil _).symm, Nat.le_refl _, iff_of_false ?_ hnot⟩
        unfold Listener.Parked Listener.nbioInactive
        dsimp only
        split
        · exact nofun
        · rw [hlist]
          exact nofun
      · cases hok
        refine ⟨(List.append_nil _).symm, Nat.le_refl _, iff_of_false ?_ hnot⟩
        unfold Listener.Parked
        rw [hlist]
        exact nofun
  | cons memory rest ih =>
    unfold listenerRead at hok
    obtain ⟨l₁, hwait, hok⟩ := bind_eq_ok_iff.mp hok
    obtain ⟨hpeers, hcount, hparked⟩ := ih (doSetWait_list hwait) hok
    refine ⟨?_, ?_, hparked⟩
    · rw [hpeers]
      cases memory with
      | false => rfl
      | true =>
        show p.peers ++ [_] ++ accepted rest = p.peers ++ (_ :: accepted rest)
        rw [List.append_assoc]
        rfl
    · refine Nat.le_trans ?_ hcount
      cases memory with
      | false => exact Nat.le_refl _
      | true => exact Nat.le_succ _

theorem accepted_pending {accepts : List Bool} : (∃ q ∈ accepted accepts, q.Pending) ↔ true ∈ accepts := by
  constructor
  · rintro ⟨q, hq, -⟩
    obtain ⟨memory, hmem, -⟩ := List.mem_map.mp hq
    obtain ⟨hmem, htrue⟩ := List.mem_filter.mp hmem
    rwa [show memory = true from htrue] at hmem
  · intro hmem
    exact ⟨_, List.mem_map_of_mem (List.mem_filter.mpr ⟨hmem, rfl⟩), rfl, rfl, nofun⟩

theorem HttpConn.Standing.pending (hs : h.Standing fio) : (Peer.mk h false).Pending :=
  ⟨rfl, hs.unclosed.fd, hs.unclosed.list⟩

/-- What a step of a connection comes to: it goes on, is deleted by the error branch, or is killed. -/
inductive PeerStep (fio : Fio) (h : HttpConn) (e : HttpConn.Happening) (h' : HttpConn) : Prop
  | goes (hs : h.Standing fio) (hs' : h'.Standing fio) (he : e ≠ .error)
  | deleted (hs : h.Standing fio) (hlist : h'.hNbio.list = .deleted) (haio : h'.aio = none) (hfd : h'.hNbio.fd = true)
      (hlog : h'.log = h.log) (he : e = .error)
  | killed (hs : h.Standing fio) (hd : h'.Dead) (he : e ≠ .error)

theorem peerStep_of_steps (hkept : (Peer.mk h false).Kept s.fio) {e : HttpConn.Happening} (hstep : h.Steps s e h') :
    PeerStep s.fio h e h' := by
  obtain hfalse | hs | ⟨hlist, haio⟩ := hkept
  · cases hfalse
  · by_cases he : e = .error
    · subst he
      unfold HttpConn.Steps HttpConn.step at hstep
      dsimp only at hstep
      split at hstep
      · next hactive =>
        cases hstep
        exact .deleted hs rfl (hs.idle hactive.1) hs.unclosed.fd rfl rfl
      · cases hstep
    · have hsettled : h.Settled s.fio := Or.inl hs
      obtain hs' | hd := hsettled.step he hstep
      · exact .goes hs hs' he
      · exact .killed hs hd he
  · have hlist : h.hNbio.list = .deleted := hlist
    unfold HttpConn.Steps at hstep
    rw [step_of_deleted hlist haio e] at hstep
    cases hstep

/-- `http_kill` counts down, and nothing else that is done to a connection does. -/
theorem changed_concurrency {i : ℕ} (hchanged : p.changed i h h' = .ok p') :
    p'.concurrency < p.concurrency ↔ h.log.count .closed < h'.log.count .closed := by
  unfold ConnPool.changed at hchanged
  dsimp only at hchanged
  split at hchanged
  · cases hchanged
  · cases hchanged
    dsimp only
    omega

theorem PeerStep.kept {e : HttpConn.Happening} (hp : PeerStep fio h e h') : (Peer.mk h' false).Kept fio := by
  cases hp with
  | goes _ hs' _ => exact Or.inr (Or.inl hs')
  | deleted _ hlist haio _ _ _ => exact Or.inr (Or.inr ⟨hlist, haio⟩)
  | killed _ hd _ => exact Or.inr (Or.inr ⟨hd.list, hd.idle⟩)

namespace Acceptor

variable {t t' : Acceptor} {ev : Server × AcceptorEvent}

/-- If a listener is parked there is a connection that `http_kill` is still to be run for. -/
def Wakeable (t : Acceptor) : Prop := (∃ l ∈ t.listeners, l.Parked) → ∃ q ∈ t.pool.peers, q.Pending

/-- A step leaves somebody to wake up a listener: no listener is parked with no connection there, and no error deletes
the last connection while one is parked. -/
def LeavesWaker (t : Acceptor) (ev : Server × AcceptorEvent) : Prop :=
  match ev.2 with
  | .read _ accepts e => e.Oom → true ∈ accepts ∨ ∃ q ∈ t.pool.peers, q.Pending
  | .conn i .error => (∃ l ∈ t.listeners, l.Parked) → ∃ j q, j ≠ i ∧ t.pool.peers[j]? = some q ∧ q.Pending
  | _ => True

/-- A connection is killed by a step. -/
def Kills (t t' : Acceptor) : Prop :=
  ∃ (i : ℕ) (h h' : HttpConn), t.pool.peers[i]? = some ⟨h, false⟩ ∧ h.hNbio.fd = true ∧
    t'.pool.peers[i]? = some ⟨h', false⟩ ∧ h'.hNbio.fd = false

/-- All that a step can do to connections and listeners. -/
inductive Change (fio : Fio) (t : Acceptor) : AcceptorEvent → Acceptor → Prop
  | conn {i : ℕ} {e : HttpConn.Happening} {h h' : HttpConn} {p' : ConnPool} {ls : List Listener}
      (hpeer : t.pool.peers[i]? = some ⟨h, false⟩) (hstep : PeerStep fio h e h')
      (hpeers : p'.peers = t.pool.peers.set i ⟨h', false⟩)
      (hwoken : h'.Dead ∧ (∀ l ∈ ls, ¬ l.Parked) ∨ ls = t.listeners ∧ h'.hNbio.fd = true) :
      Change fio t (.conn i e) ⟨p', ls⟩
  | dtor {i : ℕ} {h h' : HttpConn} {p' : ConnPool} (hpeer : t.pool.peers[i]? = some ⟨h, false⟩)
      (hlist : h.hNbio.list = .deleted) (hpeers : p'.peers = t.pool.peers.set i ⟨h', true⟩) :
      Change fio t (.dtor i) ⟨p', t.listeners⟩
  | read {j : ℕ} {accepts : List Bool} {e : AcceptError} {p' : ConnPool} {l' : Listener} (hlt : j < t.listeners.length)
      (hpeers : p'.peers = t.pool.peers ++ accepted accepts) (hparked : l'.Parked ↔ e.Oom) :
      Change fio t (.read j accepts e) ⟨p', t.listeners.set j l'⟩
  | listener {ev : AcceptorEvent} {ls : List Listener} (hev : ∀ i e, ev ≠ .conn i e)
      (hread : ∀ j accepts e, ev ≠ .read j accepts e) (hls : ∀ l ∈ ls, l.Parked → l ∈ t.listeners) :
      Change fio t ev ⟨t.pool, ls⟩

theorem parked_of_mem_set {ls : List Listener} {j : ℕ} (hl' : ¬ l'.Parked) (hl : l ∈ ls.set j l') (hparked : l.Parked) :
    l ∈ ls := by
  obtain hmem | rfl := List.mem_or_eq_of_mem_set hl
  · exact hmem
  · exact absurd hparked hl'

theorem Steps.change (hkept : ∀ q ∈ t.pool.peers, q.Kept fio) (hstep : t.Steps fio ev t') : t.Change fio ev.2 t' := by
  obtain ⟨s, ev⟩ := ev
  obtain ⟨rfl, hstep⟩ := hstep
  have hpool : ∀ {ev : PoolEvent}, t.poolStep s ev = .ok (some t') → ∃ p, t.pool.Steps s ev p ∧
      (p.concurrency < t.pool.concurrency ∧ (∃ ls, wakeListeners t.listeners = .ok ls ∧ t' = ⟨p, ls⟩) ∨
        ¬ p.concurrency < t.pool.concurrency ∧ t' = ⟨p, t.listeners⟩) := by
    intro ev hok
    obtain ⟨o, ho, hok⟩ := bind_eq_ok_iff.mp hok
    cases o with
    | none => cases hok
    | some p =>
      dsimp only at hok
      split at hok
      · next hlt =>
        obtain ⟨ls, hwake, hok⟩ := bind_eq_ok_iff.mp hok
        cases hok
        exact ⟨p, ho, Or.inl ⟨hlt, ls, hwake, rfl⟩⟩
      · next hlt =>
        cases hok
        exact ⟨p, ho, Or.inr ⟨hlt, rfl⟩⟩
  unfold Acceptor.step at hstep
  cases ev with
  | listen =>
    cases hstep
    refine .listener nofun nofun fun l hl hparked => ?_
    obtain hmem | hnew := List.mem_append.mp hl
    · exact hmem
    · rw [List.mem_singleton.mp hnew] at hparked
      cases hparked
  | ready j flags =>
    dsimp only at hstep
    split at hstep
    · cases hstep
    · split at hstep
      · cases hstep
        refine .listener nofun nofun fun l hl => parked_of_mem_set ?_ hl
        exact (by decide : Queue.active ≠ OOMQ)
      · cases hstep
  | error j =>
    dsimp only at hstep
    split at hstep
    · cases hstep
    · split at hstep
      · cases hstep
        refine .listener nofun nofun fun l hl => parked_of_mem_set ?_ hl
        exact (by decide : Queue.deleted ≠ OOMQ)
      · cases hstep
  | read j accepts e =>
    dsimp only at hstep
    split at hstep
    · cases hstep
    · next l hl =>
      split at hstep
      · next hactive =>
        obtain ⟨⟨l', p'⟩, hread, heq⟩ := map_eq_ok_iff.mp hstep
        cases heq
        obtain ⟨hpeers, -, hparked⟩ := listenerRead_spec hactive.1 hread
        exact .read (List.getElem?_eq_some_iff.mp hl).1 hpeers hparked
      · cases hstep
  | conn i e =>
    obtain ⟨p, hp, hcases⟩ := hpool hstep
    cases hp.change with
    | @conn i e h h' p hpeer hconn hchanged =>
      have hmove := peerStep_of_steps (hkept _ (List.mem_of_getElem? hpeer)) hconn
      have hpeers := ConnPool.changed_peers hchanged
      have hcount := changed_concurrency hchanged
      obtain ⟨hlt, ls, hwake, rfl⟩ | ⟨hnot, rfl⟩ := hcases
      · have hwoken := wakeListeners_spec hwake
        cases hmove with
        | goes hs hs' _ =>
          rw [hcount, hs.unclosed.closed, hs'.unclosed.closed] at hlt
          exact absurd hlt (Nat.lt_irrefl 0)
        | deleted _ _ _ _ hlog _ =>
          rw [hcount, hlog] at hlt
          exact absurd hlt (Nat.lt_irrefl _)
        | killed hs hd he => exact .conn hpeer (.killed hs hd he) hpeers (Or.inl ⟨hd, hwoken⟩)
      · cases hmove with
        | goes hs hs' he => exact .conn hpeer (.goes hs hs' he) hpeers (Or.inr ⟨rfl, hs'.unclosed.fd⟩)
        | deleted hs hlist haio hfd hlog he =>
          exact .conn hpeer (.deleted hs hlist haio hfd hlog he) hpeers (Or.inr ⟨rfl, hfd⟩)
        | killed hs hd he =>
          rw [hcount, hs.unclosed.closed, hd.closed] at hnot
          exact absurd Nat.zero_lt_one hnot
  | dtor i =>
    obtain ⟨p, hp, hcases⟩ := hpool hstep
    cases hp.change with
    | @dtor i h hpeer hlist =>
      obtain ⟨hlt, -⟩ | ⟨-, rfl⟩ := hcases
      · exact absurd hlt (Nat.lt_irrefl _)
      · exact .dtor hpeer hlist rfl

/-- Connections stay what they are between callbacks, are deleted, or destroyed. -/
theorem Change.kept {ev : AcceptorEvent} (hkept : ∀ q ∈ t.pool.peers, q.Kept fio) (hchange : t.Change fio ev t') :
    ∀ q ∈ t'.pool.peers, q.Kept fio := by
  have hset : ∀ {i : ℕ} {q' : Peer}, q'.Kept fio → ∀ q ∈ t.pool.peers.set i q', q.Kept fio := by
    intro i q' hq' q hq
    obtain hmem | rfl := List.mem_or_eq_of_mem_set hq
    · exact hkept q hmem
    · exact hq'
  cases hchange with
  | conn _ hstep hpeers _ =>
    rw [hpeers]
    exact hset hstep.kept
  | dtor _ _ hpeers =>
    rw [hpeers]
    exact hset (Or.inl rfl)
  | read _ hpeers _ =>
    rw [hpeers]
    intro q hq
    obtain hmem | hnew := List.mem_append.mp hq
    · exact hkept q hmem
    · obtain ⟨_, -, rfl⟩ := List.mem_map.mp hnew
      exact Or.inr (Or.inl (httpConn_standing fio))
  | listener _ _ _ => exact hkept

theorem pending_of_set {l : List Peer} {i j : ℕ} {q q' : Peer} (hq : l[j]? = some q) (hne : j ≠ i) (hp : q.Pending) :
    ∃ q ∈ l.set i q', q.Pending :=
  ⟨q, List.mem_of_getElem? ((List.getElem?_set_ne fun he => hne he.symm).trans hq), hp⟩

/-- Whether somebody is left to wake up a listener is told by what happens. -/
theorem Change.wakeable_iff {ev : Server × AcceptorEvent} (hw : t.Wakeable) (hchange : t.Change fio ev.2 t') :
    t'.Wakeable ↔ t.LeavesWaker ev := by
  obtain ⟨s, ev⟩ := ev
  unfold LeavesWaker
  cases hchange with
  | @conn i e h h' p' ls hpeer hstep hpeers hwoken =>
    have hlt : i < t.pool.peers.length := (List.getElem?_eq_some_iff.mp hpeer).1
    have hown : (t.pool.peers.set i ⟨h', false⟩)[i]? = some ⟨h', false⟩ := List.getElem?_set_self hlt
    unfold Wakeable
    dsimp only
    rw [hpeers]
    cases hstep with
    | goes hs hs' he =>
      refine iff_of_true (fun _ => ⟨_, List.mem_of_getElem? hown, hs'.pending⟩) ?_
      split
      · next heq => cases heq
      · next heq =>
        cases heq
        exact absurd rfl he
      · trivial
    | killed hs hd he =>
      refine iff_of_true ?_ ?_
      · rintro ⟨l, hl, hparked⟩
        obtain ⟨-, hnone⟩ | ⟨-, hfd⟩ := hwoken
        · exact absurd hparked (hnone l hl)
        · cases hfd.symm.trans hd.fd
      · split
        · next heq => cases heq
        · next heq =>
          cases heq
          exact absurd rfl he
        · trivial
    | deleted hs hlist haio hfd hlog he =>
      subst he
      obtain ⟨hd, -⟩ | ⟨rfl, -⟩ := hwoken
      · cases hfd.symm.trans hd.fd
      · refine forall_congr' fun _ => ⟨?_, ?_⟩
        · rintro ⟨q, hq, hpending⟩
          obtain ⟨j, hj⟩ := List.mem_iff_getElem?.mp hq
          have hne : j ≠ i := by
            rintro rfl
            cases hown.symm.trans hj
            exact hpending.2.2 hlist
          exact ⟨j, q, hne, (List.getElem?_set_ne fun he => hne he.symm).symm.trans hj, hpending⟩
        · rintro ⟨j, q, hne, hq, hpending⟩
          exact pending_of_set hq hne hpending
  | @dtor i h h' p' hpeer hlist hpeers =>
    refine iff_of_true (fun hparked => ?_) trivial
    obtain ⟨q, hq, hpending⟩ := hw hparked
    obtain ⟨j, hj⟩ := List.mem_iff_getElem?.mp hq
    have hne : j ≠ i := by
      rintro rfl
      cases hpeer.symm.trans hj
      exact hpending.2.2 hlist
    show ∃ q ∈ p'.peers, q.Pending
    rw [hpeers]
    exact pending_of_set hj hne hpending
  | @read j accepts e p' l' hlt hpeers hparked =>
    have hnew : (∃ q ∈ p'.peers, q.Pending) ↔ true ∈ accepts ∨ ∃ q ∈ t.pool.peers, q.Pending := by
      rw [hpeers, ← accepted_pending, or_comm]
      simp only [List.mem_append, or_and_right, exists_or]
    by_cases hoom : e.Oom
    · have hmem : l' ∈ t.listeners.set j l' := List.mem_set hlt l'
      constructor
      · exact fun hw' _ => hnew.mp (hw' ⟨l', hmem, hparked.mpr hoom⟩)
      · exact fun hleaves _ => hnew.mpr (hleaves hoom)
    · refine iff_of_true ?_ fun ho => absurd ho hoom
      rintro ⟨l, hl, hlparked⟩
      have hl := parked_of_mem_set (fun hp => hoom (hparked.mp hp)) hl hlparked
      exact hnew.mpr (Or.inr (hw ⟨l, hl, hlparked⟩))
  | @listener ev ls hev hread hls =>
    refine iff_of_true ?_ ?_
    · rintro ⟨l, hl, hparked⟩
      exact hw ⟨l, hls l hl hparked, hparked⟩
    · split
      · next heq => exact absurd heq (hread _ _ _)
      · next heq => exact absurd heq (hev _ _)
      · trivial

/-- Where a connection is killed, no listener is left parked. -/
theorem Change.kills {ev : AcceptorEvent} (hchange : t.Change fio ev t') (hkills : t.Kills t') :
    ∀ l ∈ t'.listeners, ¬ l.Parked := by
  obtain ⟨k, g, g', hg, hfd, hg', hfd'⟩ := hkills
  have hsame : t'.pool.peers[k]? = t.pool.peers[k]? → False := by
    intro heq
    cases (hg'.symm.trans heq).trans hg
    cases hfd.symm.trans hfd'
  cases hchange with
  | @conn i e h h' p' ls hpeer hstep hpeers hwoken =>
    obtain ⟨-, hnone⟩ | ⟨-, hopen⟩ := hwoken
    · exact hnone
    · have hg' : p'.peers[k]? = some ⟨g', false⟩ := hg'
      rw [hpeers] at hg'
      by_cases hk : k = i
      · subst hk
        rw [List.getElem?_set_self (List.getElem?_eq_some_iff.mp hpeer).1] at hg'
        cases hg'
        cases hopen.symm.trans hfd'
      · refine (hsame ?_).elim
        show p'.peers[k]? = _
        rw [hpeers, List.getElem?_set_ne fun he => hk he.symm]
  | @dtor i h h' p' hpeer hlist hpeers =>
    have hg' : p'.peers[k]? = some ⟨g', false⟩ := hg'
    rw [hpeers] at hg'
    by_cases hk : k = i
    · subst hk
      rw [List.getElem?_set_self (List.getElem?_eq_some_iff.mp hpeer).1] at hg'
      cases hg'
    · refine (hsame ?_).elim
      show p'.peers[k]? = _
      rw [hpeers, List.getElem?_set_ne fun he => hk he.symm]
  | read hlt hpeers hparked =>
    refine (hsame ?_).elim
    rw [hpeers, List.getElem?_append_left (List.getElem?_eq_some_iff.mp hg).1]
  | listener _ _ _ => exact (hsame rfl).elim

/-- In every run in which each step leaves somebody to wake up a listener, a listener is only parked while there is
a connection that is still to be killed, and to kill any connection wakes up all of them. A step that leaves nobody
is what parks a listener for ever. -/
theorem parked_listener_woken {evs : List (Server × AcceptorEvent)}
    (hrun : GuardedRun (Steps fio) LeavesWaker empty evs t) :
    t.Wakeable ∧ ∀ ev t', t.Steps fio ev t' →
      (t'.Wakeable ↔ t.LeavesWaker ev) ∧ (t.Kills t' → ∀ l ∈ t'.listeners, ¬ l.Parked) := by
  have hinv : (∀ q ∈ t.pool.peers, q.Kept fio) ∧ t.Wakeable := by
    refine hrun.invariant (I := fun _ t => (∀ q ∈ t.pool.peers, q.Kept fio) ∧ t.Wakeable) ?_ ?_
    · rintro _ t ev t' ⟨hkept, hw⟩ hleaves hstep
      have hchange := hstep.change hkept
      exact ⟨hchange.kept hkept, (hchange.wakeable_iff hw).mpr hleaves⟩
    · refine ⟨fun _ hq => (nomatch hq), ?_⟩
      rintro ⟨l, hl, -⟩
      cases hl
  refine ⟨hinv.2, fun ev t' hstep => ?_⟩
  have hchange := hstep.change hinv.1
  exact ⟨hchange.wakeable_iff hinv.2, hchange.kills⟩

/-- What a step leads to, if it is possible. -/
def next (fio : Fio) (t : Acceptor) (ev : Server × AcceptorEvent) : Option Acceptor :=
  if ev.1.fio = fio then
    match t.step ev.1 ev.2 with
    | .ok o => o
    | .error _ => none
  else none

theorem steps_of_next {ev : Server × AcceptorEvent} (hnext : next fio t ev = some t') : t.Steps fio ev t' := by
  unfold next at hnext
  split at hnext
  · next hfio =>
    split at hnext
    · next o ho => exact ⟨hfio, by rw [ho, hnext]⟩
    · cases hnext
  · cases hnext

def acceptedOne : List (Server × AcceptorEvent) := [.listen, .read 0 [true] .emfile].map fun ev => (twoByteServer .sync, ev)

theorem parked_listener_woken_acceptedOne : ∃ t, GuardedRun (Steps .sync) LeavesWaker empty acceptedOne t ∧
    (∃ l ∈ t.listeners, l.Parked) ∧ t.Wakeable := by
  obtain ⟨t, hrun, hparked⟩ : ∃ t, GuardedRun (Steps .sync) LeavesWaker empty acceptedOne t ∧
      ∃ l ∈ t.listeners, l.Parked := by
    refine ⟨_, .cons trivial ⟨rfl, rfl⟩ (.cons (fun _ => Or.inl (by simp)) ⟨rfl, rfl⟩ (.start _)), ?_⟩
    exact ⟨_, List.mem_singleton_self _, rfl⟩
  exact ⟨t, hrun, hparked, (parked_listener_woken hrun).1⟩

def acceptedNone : List (Server × AcceptorEvent) := [.listen, .read 0 [] .emfile].map fun ev => (twoByteServer .sync, ev)

/-- The connection that was accepted is deleted for an error. -/
def acceptedDeleted : List (Server × AcceptorEvent) :=
  acceptedOne ++ [.conn 0 (readOf .eagain), .conn 0 (.ready NBIO_ERROR), .conn 0 .error].map
    fun ev => (twoByteServer .sync, ev)

/-- A listener is parked where no connection is there, or where one is there that is deleted later. -/
theorem parked_for_ever : (∃ t, Run (Steps .sync) empty acceptedNone t ∧ ¬ t.Wakeable) ∧
    ∃ t, Run (Steps .sync) empty acceptedDeleted t ∧ ¬ t.Wakeable := by
  have hrun : ∀ {evs}, (play (next .sync) (fun _ _ => True) empty evs).any
      (fun t => (∃ l ∈ t.listeners, l.Parked) ∧ ∀ q ∈ t.pool.peers, ¬ q.Pending) = true →
      ∃ t, Run (Steps .sync) empty evs t ∧ ¬ t.Wakeable := by
    intro evs hall
    obtain ⟨t, hplay, hstuck⟩ := (Option.any_eq_true _ _).mp hall
    obtain ⟨hparked, hnone⟩ := of_decide_eq_true hstuck
    refine ⟨t, guardedRun_of_play (fun _ _ _ => steps_of_next) hplay, fun hw => ?_⟩
    obtain ⟨q, hq, hpending⟩ := hw hparked
    exact hnone q hq hpending
  exact ⟨hrun (by decide +kernel), hrun (by decide +kernel)⟩

end Acceptor
end Ashttpd
