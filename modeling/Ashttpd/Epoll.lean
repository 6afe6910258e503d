import Ashttpd.GuardedRuns
import Ashttpd.NbioCalls

/-!
# The epoll backend (`nbio-epoll.c`)

Interest in a descriptor is kept while its nbio is active, and every call leaves it as the mask of
the nbio asks for.
-/
namespace Ashttpd

def EPOLLIN : UInt32 := 0x1
def EPOLLOUT : UInt32 := 0x4
def EPOLLERR : UInt32 := 0x8
def EPOLLHUP : UInt32 := 0x10
def EPOLLET : UInt32 := 0x80000000

/-- The set behind an epoll descriptor: `data.ptr` and `events` for each descriptor in it. -/
abbrev EpollSet := ℕ → Option (ℕ × UInt32)

/-- `epoll_active`. What `epoll_ctl` returns is not looked at. -/
def epollActive (s : EpollSet) (_ : ℕ) (io : LoopNbio) : EpollSet × LoopNbio :=
  if io.evPriv = 0 then (s, io)
  else match io.fd with
    | none => (s, io)
    | some fd => (Function.update s fd none, { io with evPriv := 0 })

/-- The events that are asked for. -/
def epollInterest (mask : UInt8) : UInt32 :=
  EPOLLERR ||| EPOLLHUP ||| EPOLLET ||| (if mask &&& NBIO_READ ≠ 0 then EPOLLIN else 0) |||
    (if mask &&& NBIO_WRITE ≠ 0 then EPOLLOUT else 0)

/-- `epoll_inactive`. A descriptor that is in the set already cannot be added. -/
def epollInactive (s : EpollSet) (n : ℕ) (io : LoopNbio) : EpollSet × LoopNbio :=
  if io.evPriv = 1 then (s, io)
  else match io.fd with
    | none => (s, io)
    | some fd =>
      if s fd = none then (Function.update s fd (some (n, epollInterest io.mask)), { io with evPriv := 1 })
      else (s, io)

/-- The flags for events that were reported. -/
def epollFlags (events : UInt32) : UInt8 :=
  (if events &&& (EPOLLIN ||| EPOLLHUP) ≠ 0 then NBIO_READ else 0) |||
    (if events &&& EPOLLOUT ≠ 0 then NBIO_WRITE else 0) |||
    (if events &&& EPOLLERR ≠ 0 then NBIO_ERROR else 0)

/-- What is done about an event, given as `data.ptr` and `events`. -/
def epollDeliver (t : IoThread EpollSet) (ev : ℕ × UInt32) : IoThread EpollSet :=
  (t.setIo ev.1 { t.io ev.1 with flags := epollFlags ev.2 }).listMoveTail ev.1 .active

/-- `epoll_pump`, when `epoll_wait` returns some events. -/
def epollPump (t : IoThread EpollSet) (ev : List (ℕ × UInt32)) : IoThread EpollSet := ev.foldl epollDeliver t

def epollClosed (s : EpollSet) (fd : ℕ) : EpollSet := Function.update s fd none

def epoll : Backend EpollSet (List (ℕ × UInt32)) := ⟨epollInactive, epollActive, epollPump, epollClosed⟩

abbrev EpollThread := IoThread EpollSet

/-- Whether `ev_priv.poll` tells how the set stands to a descriptor. -/
def Watched (n : ℕ) (io : LoopNbio) (e : Option (ℕ × UInt32)) : Prop :=
  io.evPriv = 0 ∧ e = none ∨ io.evPriv = 1 ∧ e = some (n, epollInterest io.mask) ∧ io.mask ≠ 0

/-- How an nbio stands on its list. -/
structure Placed (n : ℕ) (io : LoopNbio) (q : Queue) (e : Option (ℕ × UInt32)) : Prop where
  watched : Watched n io e
  mask : io.mask ≠ NBIO_DELETED
  active : q = .active → io.mask ≠ 0
  inactive : q = .inactive → io.mask ≠ 0 → io.evPriv = 1

namespace IoThread

variable {t t' : EpollThread} {m n fd : ℕ} {io : LoopNbio} {q : Queue} {e : Option (ℕ × UInt32)}

structure EpollSound (t : EpollThread) : Prop where
  linked : Linked t.lists
  placed : ∀ n q, n ∈ t.lists q → q ≠ .deleted → ∃ fd, (t.io n).fd = some fd ∧ Placed n (t.io n) q (t.priv fd)
  apart : ∀ m n fd, t.Live m → t.Live n → (t.io m).fd = some fd → (t.io n).fd = some fd → m = n

def NoStale (t : EpollThread) : Prop :=
  ∀ fd n i, t.priv fd = some (n, i) → t.Live n ∧ (t.io n).fd = some fd

/-- New fields for an nbio with the descriptor `fd`, for which the set has `e` from now on. -/
structure PutsWell (t : EpollThread) (n : ℕ) (io : LoopNbio) (q : Queue) (fd : ℕ)
    (e : Option (ℕ × UInt32)) : Prop where
  own : t.Live n → (t.io n).fd = some fd
  others : ∀ m ≠ n, t.Live m → (t.io m).fd ≠ some fd
  io_fd : q ≠ .deleted → io.fd = some fd
  placed : q ≠ .deleted → Placed n io q e

/-- All that can happen to an nbio as long as every call is made where it may be made. -/
inductive EpollChange (t : EpollThread) (n : ℕ) : EpollThread → Prop
  | put {io : LoopNbio} {q : Queue} {fd : ℕ} {e : Option (ℕ × UInt32)} (h : PutsWell t n io q fd e)
      (howner : e = none ∨ q ≠ .deleted ∧ ∃ i, e = some (n, i)) :
      EpollChange t n (t.put n io q (Function.update t.priv fd e))
  | flags (hactive : n ∈ t.lists .active) (flags : UInt8) :
      EpollChange t n (t.setIo n { t.io n with flags := flags })

theorem EpollSound.put (ht : t.EpollSound) (h : PutsWell t n io q fd e) :
    (t.put n io q (Function.update t.priv fd e)).EpollSound := by
  refine ⟨ht.linked.moveTail n q, ?_, ?_⟩
  · intro m r hm hr
    by_cases hmn : m = n
    · subst hmn
      cases mem_put_self.mp hm
      refine ⟨fd, ?_, ?_⟩
      · rw [put_io_self, h.io_fd hr]
      · rw [put_io_self, put_priv, Function.update_self]
        exact h.placed hr
    · rw [mem_put_of_ne hmn] at hm
      obtain ⟨fd', hfd', hplaced⟩ := ht.placed m r hm hr
      have hne : fd' ≠ fd := by
        rintro rfl
        exact h.others m hmn ⟨r, hm, hr⟩ hfd'
      refine ⟨fd', ?_, ?_⟩
      · rw [put_io_of_ne hmn, hfd']
      · rw [put_io_of_ne hmn, put_priv, Function.update_of_ne hne]
        exact hplaced
  · -- only the nbio that was changed could have a descriptor that it had not before
    have hself : ∀ k fd', q ≠ .deleted → k ≠ n → t.Live k → (t.io k).fd = some fd' → io.fd ≠ some fd' := by
      intro k fd' hq hk hlive hfd' hio
      rw [h.io_fd hq] at hio
      cases hio
      exact h.others k hk hlive hfd'
    intro k l fd' hk hl hkfd hlfd
    by_cases hkn : k = n
    · by_cases hln : l = n
      · rw [hkn, hln]
      · subst hkn
        rw [put_io_self] at hkfd
        rw [put_io_of_ne hln] at hlfd
        exact absurd hkfd (hself l fd' (live_put_self.mp hk) hln ((live_put_of_ne hln).mp hl) hlfd)
    · rw [put_io_of_ne hkn] at hkfd
      rw [live_put_of_ne hkn] at hk
      by_cases hln : l = n
      · subst hln
        rw [put_io_self] at hlfd
        exact absurd hlfd (hself k fd' (live_put_self.mp hl) hkn hk hkfd)
      · rw [put_io_of_ne hln] at hlfd
        exact ht.apart k l fd' hk ((live_put_of_ne hln).mp hl) hkfd hlfd

theorem EpollSound.setFlags (ht : t.EpollSound) (n : ℕ) (flags : UInt8) :
    (t.setIo n { t.io n with flags := flags }).EpollSound := by
  refine ⟨ht.linked, ?_, ?_⟩
  · intro m q hm hq
    obtain ⟨fd, hmfd, hplaced⟩ := ht.placed m q hm hq
    refine ⟨fd, (setFlags_fd flags).trans hmfd, ?_⟩
    by_cases hmn : m = n
    · subst hmn
      rw [setIo_io_self]
      exact ⟨hplaced.watched, hplaced.mask, hplaced.active, hplaced.inactive⟩
    · rw [setIo_io_of_ne hmn]
      exact hplaced
  · intro k l fd hk hl hkfd hlfd
    rw [setFlags_fd] at hkfd hlfd
    exact ht.apart k l fd hk hl hkfd hlfd

theorem EpollSound.change (ht : t.EpollSound) (h : EpollChange t n t') : t'.EpollSound := by
  cases h with
  | put h _ => exact ht.put h
  | flags _ flags => exact ht.setFlags n flags

theorem NoStale.change (ht : t.NoStale) (h : EpollChange t n t') : t'.NoStale := by
  cases h with
  | @put io q fd e h howner =>
    intro fd' m i hm
    rw [put_priv] at hm
    by_cases hfd : fd' = fd
    · subst hfd
      rw [Function.update_self] at hm
      rcases howner with he | ⟨hq, j, he⟩
      · rw [he] at hm
        cases hm
      · rw [he] at hm
        cases hm
        exact ⟨live_put_self.mpr hq, by rw [put_io_self, h.io_fd hq]⟩
    · rw [Function.update_of_ne hfd] at hm
      obtain ⟨hlive, hown⟩ := ht fd' m i hm
      have hmn : m ≠ n := by
        rintro rfl
        rw [h.own hlive] at hown
        cases hown
        exact hfd rfl
      exact ⟨(live_put_of_ne hmn).mpr hlive, by rw [put_io_of_ne hmn, hown]⟩
  | flags hactive flags =>
    intro fd m i hm
    obtain ⟨hlive, hown⟩ := ht fd m i hm
    exact ⟨hlive, (setFlags_fd flags).trans hown⟩

end IoThread
end Ashttpd
