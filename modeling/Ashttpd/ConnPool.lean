import Ashttpd.HttpConn
import Mathlib.Data.List.Basic

/-!
# All connections of a thread (`http_conn.c`, `nbio.c`)

Connections are created by a listener, go through their steps in any order and are destroyed by
`nbio_pump` after they were put on its list of deleted ones. `concurrency` counts them.
-/
namespace Ashttpd

/-- A connection, and whether it was destroyed. -/
structure Peer where
  conn : HttpConn
  destroyed : Bool

/-- The connections in the order they were created in, and `concurrency`. -/
structure ConnPool where
  peers : List Peer
  concurrency : ℕ

namespace HttpConn

def Watched (h : HttpConn) : Prop := h.hNbio.fd = true ∧ h.hNbio.polled = true

instance (h : HttpConn) : Decidable h.Watched := inferInstanceAs (Decidable (_ ∧ _))

/-- `http_dtor`, where the state is not compared but assigned. -/
def httpDtor (h : HttpConn) : HttpConn := (h.withState .dead).dropWebroot

/-- Whether something happens to a connection from outside of the event loop. -/
def Reached (h : HttpConn) : Happening → Prop
  | .ready _ => h.Watched
  | .completion _ => h.aio ≠ none
  | .write _ | .read _ | .error => False

instance (h : HttpConn) (e : Happening) : Decidable (h.Reached e) :=
  match e with
  | .ready _ => inferInstanceAs (Decidable h.Watched)
  | .completion _ => inferInstanceAs (Decidable (¬ h.aio = none))
  | .write _ | .read _ | .error => inferInstanceAs (Decidable False)

end HttpConn

/-- What happens to the connections of a thread. -/
inductive PoolEvent where
  | accept
  | conn (i : ℕ) (e : HttpConn.Happening)
  | dtor (i : ℕ)

namespace ConnPool

def empty : ConnPool := ⟨[], 0⟩

/-- A connection has changed. `http_kill` counts down for every connection that it closes. -/
def changed (p : ConnPool) (i : ℕ) (h h' : HttpConn) : Except Fault ConnPool :=
  let kills := h'.log.count .closed - h.log.count .closed
  if p.concurrency < kills then .error .assertion
  else .ok ⟨p.peers.set i ⟨h', false⟩, p.concurrency - kills⟩

/-- A step of the pool; `none` if this cannot happen. What reaches a connection that was destroyed
finds memory that was returned. -/
def step (s : Server) (p : ConnPool) : PoolEvent → Except Fault (Option ConnPool)
  | .accept => .ok (some ⟨p.peers ++ [⟨.httpConn, false⟩], p.concurrency + 1⟩)
  | .conn i e =>
    match p.peers[i]? with
    | none => .ok none
    | some ⟨h, true⟩ => if h.Reached e then .error .undefined else .ok none
    | some ⟨h, false⟩ =>
      match h.step s e with
      | .error f => .error f
      | .ok none => .ok none
      | .ok (some h') => (p.changed i h h').map some
  | .dtor i =>
    match p.peers[i]? with
    | none | some ⟨_, true⟩ => .ok none
    | some ⟨h, false⟩ =>
      if h.hNbio.list = .deleted then .ok (some { p with peers := p.peers.set i ⟨h.httpDtor, true⟩ }) else .ok none

def Steps (s : Server) (p : ConnPool) (ev : PoolEvent) (p' : ConnPool) : Prop := p.step s ev = .ok (some p')

/-- All that a step can do. -/
inductive Change (s : Server) (p : ConnPool) : PoolEvent → ConnPool → Prop
  | accept : Change s p .accept ⟨p.peers ++ [⟨.httpConn, false⟩], p.concurrency + 1⟩
  | conn {i : ℕ} {e : HttpConn.Happening} {h h' : HttpConn} {p' : ConnPool} (hpeer : p.peers[i]? = some ⟨h, false⟩)
      (hstep : h.Steps s e h') (hchanged : p.changed i h h' = .ok p') : Change s p (.conn i e) p'
  | dtor {i : ℕ} {h : HttpConn} (hpeer : p.peers[i]? = some ⟨h, false⟩) (hlist : h.hNbio.list = .deleted) :
      Change s p (.dtor i) { p with peers := p.peers.set i ⟨h.httpDtor, true⟩ }

variable {s : Server} {p p' : ConnPool} {ev : PoolEvent}

theorem Steps.change (hstep : p.Steps s ev p') : p.Change s ev p' := by
  unfold Steps step at hstep
  cases ev with
  | accept =>
    cases hstep
    exact .accept
  | conn i e =>
    dsimp only at hstep
    split at hstep
    · cases hstep
    · split at hstep
      · cases hstep
      · cases hstep
    · next h hpeer =>
      split at hstep
      · cases hstep
      · cases hstep
      · next h' hconn =>
        cases hchanged : p.changed i h h' with
        | error f =>
          rw [hchanged] at hstep
          cases hstep
        | ok p₁ =>
          rw [hchanged] at hstep
          cases hstep
          exact .conn hpeer hconn hchanged
  | dtor i =>
    dsimp only at hstep
    split at hstep
    · cases hstep
    · cases hstep
    · next h hpeer =>
      split at hstep
      · next hlist =>
        cases hstep
        exact .dtor hpeer hlist
      · cases hstep

theorem changed_peers {i : ℕ} {h h' : HttpConn} (hchanged : p.changed i h h' = .ok p') :
    p'.peers = p.peers.set i ⟨h', false⟩ := by
  unfold changed at hchanged
  dsimp only at hchanged
  split at hchanged
  · cases hchanged
  · cases hchanged
    rfl

end ConnPool
end Ashttpd
