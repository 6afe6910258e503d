import Ashttpd.Connection
import Ashttpd.GuardedRuns
import Ashttpd.LinkedLists
import Mathlib.Logic.Function.Basic

/-!
# The event loop (`nbio.c`)

An nbio is known by its address. What it is for, and with it the callbacks, is left out: what they
do to the event loop are calls of the functions here.
-/
namespace Ashttpd

/-- A list that nbios are linked on: those of `struct iothread`, and the wait queues of others. -/
inductive Queue where
  | active
  | inactive
  | deleted
  | waitq (i : ℕ)
  deriving DecidableEq, Repr

/-- `struct nbio`, with `ev_priv.poll`. A descriptor that was closed is none any more. -/
structure LoopNbio where
  fd : Option ℕ
  mask : UInt8
  flags : UInt8
  evPriv : ℤ
  deriving DecidableEq, Repr

/-- `struct iothread` with all nbios there are. -/
structure IoThread (κ : Type) where
  io : ℕ → LoopNbio
  lists : Queue → List ℕ
  priv : κ

/-- `struct eventloop`: what a backend does to its own state and to an nbio, and what it does when
the system reports something. `closed` is what the system does when a descriptor is closed. -/
structure Backend (κ ε : Type) where
  inactive : κ → ℕ → LoopNbio → κ × LoopNbio
  active : κ → ℕ → LoopNbio → κ × LoopNbio
  pump : IoThread κ → ε → IoThread κ
  closed : κ → ℕ → κ

namespace IoThread

variable {κ ε : Type} (p : Backend κ ε) (t : IoThread κ)

def setIo (n : ℕ) (io : LoopNbio) : IoThread κ := { t with io := Function.update t.io n io }

def listMoveTail (n : ℕ) (q : Queue) : IoThread κ := { t with lists := moveTail t.lists n q }

/-- `t->plugin->active`. -/
def pluginActive (n : ℕ) : IoThread κ :=
  { t.setIo n (p.active t.priv n (t.io n)).2 with priv := (p.active t.priv n (t.io n)).1 }

/-- `t->plugin->inactive`. -/
def pluginInactive (n : ℕ) : IoThread κ :=
  { t.setIo n (p.inactive t.priv n (t.io n)).2 with priv := (p.inactive t.priv n (t.io n)).1 }

def nbioDel (n : ℕ) : IoThread κ :=
  let t := t.pluginActive p n
  (t.setIo n { t.io n with mask := NBIO_DELETED, flags := 0 }).listMoveTail n .deleted

def nbioInactive (n : ℕ) (mask : UInt8) : IoThread κ :=
  let t := t.setIo n { t.io n with flags := (t.io n).flags &&& ~~~mask }
  if (t.io n).mask &&& (t.io n).flags = 0 then (t.listMoveTail n .inactive).pluginInactive p n else t

/-- `do_set_wait`, with the wait queue if there is one. -/
def doSetWait (n : ℕ) (wait : UInt8) (q : Option ℕ) : Except Fault (IoThread κ) :=
  if (t.io n).mask = NBIO_DELETED then .error .assertion
  else
    let wait := wait &&& NBIO_WAIT
    let t := (t.setIo n { t.io n with mask := wait, flags := wait }).pluginActive p n
    if wait = 0 then
      .ok (t.listMoveTail n (match q with
        | none => .inactive
        | some i => .waitq i))
    else .ok (t.listMoveTail n .active)

def nbioSetWait (n : ℕ) (wait : UInt8) : Except Fault (IoThread κ) := t.doSetWait p n wait none

def nbioToWaitq (n : ℕ) (q : Option ℕ) : Except Fault (IoThread κ) := t.doSetWait p n 0 q

def nbioWake (n : ℕ) (wait : UInt8) : Except Fault (IoThread κ) := t.doSetWait p n wait none

def nbioWaitOn (n : ℕ) (wait : UInt8) : Except Fault (IoThread κ) :=
  if (t.io n).mask = NBIO_DELETED then .error .assertion
  else
    let wait := wait &&& NBIO_WAIT
    .ok (((t.setIo n { t.io n with mask := wait, flags := wait }).listMoveTail n .inactive).pluginInactive p n)

/-- `nbio_add` of an nbio that was allocated and has got its descriptor. -/
def nbioAdd (n : ℕ) (fd : ℕ) (wait : UInt8) : Except Fault (IoThread κ) :=
  (t.setIo n ⟨some fd, 0, 0, 0⟩).doSetWait p n wait none

/-- What `http_kill` does to the event loop: a descriptor that is open is closed, and the nbio deleted. -/
def kill (n : ℕ) : IoThread κ :=
  match (t.io n).fd with
  | none => t
  | some fd => { t.setIo n { t.io n with fd := none } with priv := p.closed t.priv fd }.nbioDel p n

/-- The error branch of `nbio_pump`. -/
def pumpError (n : ℕ) : IoThread κ :=
  (t.setIo n { t.io n with mask := NBIO_DELETED, flags := 0 }).listMoveTail n .deleted

/-- The second loop of `nbio_pump`, which destroys what was deleted. -/
def reap : IoThread κ := { t with lists := Function.update t.lists .deleted [] }

/-- What `nbio_pump` does about an nbio of the active list that is not deleted, where `write` and
`read` are its callbacks. -/
def pumpVisit (write read : IoThread κ → IoThread κ) (n : ℕ) : IoThread κ :=
  let t := if (t.io n).flags &&& (t.io n).mask &&& NBIO_WRITE ≠ 0 then write t else t
  let t := if (t.io n).flags &&& (t.io n).mask &&& NBIO_READ ≠ 0 then read t else t
  if (t.io n).flags &&& NBIO_ERROR ≠ 0 then t.pumpError n else t

end IoThread

/-- The calls that are made for an nbio. -/
inductive NbioCall where
  | add (n fd : ℕ) (wait : UInt8)
  | setWait (n : ℕ) (wait : UInt8)
  | inactive (n : ℕ) (mask : UInt8)
  | toWaitq (n : ℕ) (q : Option ℕ)
  | wake (n : ℕ) (wait : UInt8)
  | waitOn (n : ℕ) (wait : UInt8)
  | del (n : ℕ)
  deriving DecidableEq, Repr

/-- What the event loop goes through: calls, connections that are killed, reports of the system, the
error branch and the destructors. -/
inductive LoopStep (ε : Type) where
  | call (c : NbioCall)
  | kill (n : ℕ)
  | report (e : ε)
  | fail (n : ℕ)
  | reap

namespace IoThread

variable {κ ε : Type}

def call (p : Backend κ ε) (t : IoThread κ) : NbioCall → Except Fault (IoThread κ)
  | .add n fd wait => t.nbioAdd p n fd wait
  | .setWait n wait => t.nbioSetWait p n wait
  | .inactive n mask => .ok (t.nbioInactive p n mask)
  | .toWaitq n q => t.nbioToWaitq p n q
  | .wake n wait => t.nbioWake p n wait
  | .waitOn n wait => t.nbioWaitOn p n wait
  | .del n => .ok (t.nbioDel p n)

def Live (t : IoThread κ) (n : ℕ) : Prop := ∃ q, n ∈ t.lists q ∧ q ≠ .deleted

/-- A step of the event loop. -/
inductive Takes (p : Backend κ ε) (t : IoThread κ) : LoopStep ε → IoThread κ → Prop
  | call {c : NbioCall} {t' : IoThread κ} (hcall : t.call p c = .ok t') : Takes p t (.call c) t'
  | kill {n : ℕ} (hlive : t.Live n) : Takes p t (.kill n) (t.kill p n)
  | report (e : ε) : Takes p t (.report e) (p.pump t e)
  | fail {n : ℕ} (hlive : t.Live n) (herror : (t.io n).flags &&& NBIO_ERROR ≠ 0) :
      Takes p t (.fail n) (t.pumpError n)
  | reap : Takes p t .reap t.reap

/-- `nbio_init`, where nothing is linked yet. -/
def init (io : ℕ → LoopNbio) (priv : κ) : IoThread κ := ⟨io, fun _ => [], priv⟩

def CallsBack (p : Backend κ ε) (guard : IoThread κ → LoopStep ε → Prop) (t t' : IoThread κ) : Prop :=
  ∃ steps, GuardedRun (Takes p) (fun t s => guard t s ∧ ((∃ c, s = .call c) ∨ ∃ n, s = .kill n)) t steps t'

/-- `tmp` in `list_for_each_entry_safe`: the nbio that is linked behind one, or none where the active list ends. -/
inductive Behind (t : IoThread κ) (n : ℕ) : Option ℕ → Prop
  | nbio {q : Queue} {before after : List ℕ} {tmp : ℕ} (h : t.lists q = before ++ n :: tmp :: after) :
      Behind t n (some tmp)
  | head {before : List ℕ} (h : t.lists .active = before ++ [n]) : Behind t n none

/-- A pass of `nbio_pump` from an nbio on, with the nbios that it visits and how things are when it does. What is to be
visited next is known before the callbacks run, and if they have deleted it the pass breaks off. -/
inductive Pass (p : Backend κ ε) (guard : IoThread κ → LoopStep ε → Prop) :
    IoThread κ → Option ℕ → List (IoThread κ × ℕ) → IoThread κ → Prop
  | ended (t : IoThread κ) : Pass p guard t none [] t
  | deleted {t : IoThread κ} {n : ℕ} (hmask : (t.io n).mask = NBIO_DELETED) : Pass p guard t (some n) [] t
  | visit {t t' : IoThread κ} {n : ℕ} {tmp : Option ℕ} {visits : List (IoThread κ × ℕ)}
      {write read : IoThread κ → IoThread κ} (hmask : (t.io n).mask ≠ NBIO_DELETED) (hbehind : t.Behind n tmp)
      (hwrite : ∀ t, CallsBack p guard t (write t)) (hread : ∀ t, CallsBack p guard t (read t))
      (hrest : Pass p guard (t.pumpVisit write read n) tmp visits t') : Pass p guard t (some n) ((t, n) :: visits) t'

/-- The first loop of `nbio_pump`: passes over the active list, until it is empty. -/
inductive Passes (p : Backend κ ε) (guard : IoThread κ → LoopStep ε → Prop) :
    IoThread κ → List (IoThread κ × ℕ) → IoThread κ → Prop
  | ended {t : IoThread κ} (h : t.lists .active = []) : Passes p guard t [] t
  | pass {t t' t'' : IoThread κ} {n : ℕ} {rest : List ℕ} {visits visits' : List (IoThread κ × ℕ)}
      (h : t.lists .active = n :: rest) (hpass : Pass p guard t (some n) visits t')
      (hpasses : Passes p guard t' visits' t'') : Passes p guard t (visits ++ visits') t''

/-- `nbio_pump`: what was deleted is destroyed, and the system is asked only if something is inactive. -/
inductive NbioPump (p : Backend κ ε) (guard : IoThread κ → LoopStep ε → Prop) (t : IoThread κ) :
    List (IoThread κ × ℕ) → IoThread κ → Prop
  | waits {t' : IoThread κ} {visits : List (IoThread κ × ℕ)} {e : ε} (hpasses : Passes p guard t visits t')
      (hinactive : t'.reap.lists .inactive ≠ []) (hreport : guard t'.reap (.report e)) :
      NbioPump p guard t visits (p.pump t'.reap e)
  | returns {t' : IoThread κ} {visits : List (IoThread κ × ℕ)} (hpasses : Passes p guard t visits t')
      (hinactive : t'.reap.lists .inactive = []) : NbioPump p guard t visits t'.reap

end IoThread

/-- Whether an nbio that was added has not been deleted since. -/
def StaysAdded {ε : Type} (n : ℕ) (added : Prop) : LoopStep ε → Prop
  | .call (.add m _ _) => m = n ∨ added
  | .call (.del m) | .kill m | .fail m => m ≠ n ∧ added
  | _ => added

def Added {ε : Type} (n : ℕ) (steps : List (LoopStep ε)) : Prop := steps.foldl (StaysAdded n) False

end Ashttpd
