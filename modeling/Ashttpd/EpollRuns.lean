import Ashttpd.Epoll

/-!
# Runs with the epoll backend

Every call that is made where it may be made leaves the set in step with the masks.
-/
namespace Ashttpd

theorem Watched.none_of_zero {n : ℕ} {io : LoopNbio} {e : Option (ℕ × UInt32)} (h : Watched n io e)
    (hpriv : io.evPriv = 0) : e = none := by
  rcases h with ⟨-, he⟩ | ⟨hone, -⟩
  · exact he
  · rw [hpriv] at hone
    cases hone

theorem Watched.none_of_parked {n : ℕ} {io : LoopNbio} {e : Option (ℕ × UInt32)} (h : Watched n io e)
    (hmask : io.mask = 0) : io.evPriv = 0 ∧ e = none := by
  rcases h with h | ⟨-, -, hne⟩
  · exact h
  · exact absurd hmask hne

/-- Afterwards the descriptor is in the set no more, if it was told so before. -/
theorem epollActive_eq {s : EpollSet} {io : LoopNbio} (n fd : ℕ) (hfd : io.fd = some fd)
    (hzero : io.evPriv = 0 → s fd = none) :
    epoll.active s n io = (Function.update s fd none, { io with evPriv := 0 }) := by
  change epollActive s n io = _
  unfold epollActive
  split
  · next hpriv =>
    have hs : Function.update s fd none = s := by
      rw [← hzero hpriv]
      exact Function.update_eq_self fd s
    have hio : { io with evPriv := 0 } = io := by
      rw [← hpriv]
    rw [hs, hio]
  · rw [hfd]

theorem epollActive_closed (s : EpollSet) (n : ℕ) (io : LoopNbio) :
    epoll.active s n { io with fd := none } = (s, { io with fd := none }) := by
  change epollActive s n _ = _
  unfold epollActive
  split <;> rfl

/-- Afterwards the descriptor is in the set with the events that its mask asks for. -/
theorem epollInactive_eq {s : EpollSet} {io : LoopNbio} {n fd : ℕ} (hfd : io.fd = some fd)
    (h : Watched n io (s fd)) :
    epoll.inactive s n io = (Function.update s fd (some (n, epollInterest io.mask)), { io with evPriv := 1 }) := by
  change epollInactive s n io = _
  unfold epollInactive
  rcases h with ⟨hpriv, hs⟩ | ⟨hpriv, hs, -⟩
  · have hne : io.evPriv ≠ 1 := by
      rw [hpriv]
      decide
    rw [if_neg hne, hfd]
    simp only
    rw [if_pos hs]
  · have hupdate : Function.update s fd (some (n, epollInterest io.mask)) = s := by
      rw [← hs]
      exact Function.update_eq_self fd s
    have hio : { io with evPriv := 1 } = io := by
      rw [← hpriv]
    rw [if_pos hpriv, hupdate, hio]

theorem epollInterest_in (mask : UInt8) : epollInterest mask &&& EPOLLIN ≠ 0 ↔ mask &&& NBIO_READ ≠ 0 := by
  unfold epollInterest
  split <;> split <;> simp_all +decide

theorem epollInterest_out (mask : UInt8) : epollInterest mask &&& EPOLLOUT ≠ 0 ↔ mask &&& NBIO_WRITE ≠ 0 := by
  unfold epollInterest
  split <;> split <;> simp_all +decide

namespace IoThread

variable {t t' : EpollThread} {m n fd : ℕ} {c : NbioCall}

/-- Where an nbio is put after `do_set_wait`. -/
theorem placed_wait {io : LoopNbio} (n : ℕ) (wait : UInt8) (w : Option ℕ) (hmask : io.mask = wait &&& NBIO_WAIT)
    (hpriv : io.evPriv = 0) : Placed n io (waitQueue wait w) none := by
  refine ⟨Or.inl ⟨hpriv, rfl⟩, ?_, ?_, ?_⟩
  · rw [hmask]
    exact wait_ne_deleted wait
  · intro hq hzero
    rw [hmask] at hzero
    unfold waitQueue at hq
    rw [if_pos hzero] at hq
    cases w <;> cases hq
  · intro hq hne
    rw [hmask] at hne
    unfold waitQueue at hq
    rw [if_neg hne] at hq
    cases hq

theorem EpollSound.live (ht : t.EpollSound) (hn : t.Live n) :
    ∃ q fd, n ∈ t.lists q ∧ (t.io n).fd = some fd ∧ Placed n (t.io n) q (t.priv fd) ∧
      ∀ m ≠ n, t.Live m → (t.io m).fd ≠ some fd := by
  obtain ⟨q, hq, hdeleted⟩ := hn
  obtain ⟨fd, hfd, hplaced⟩ := ht.placed n q hq hdeleted
  refine ⟨q, fd, hq, hfd, hplaced, ?_⟩
  intro m hmn hm hmfd
  exact hmn (ht.apart m n fd hm ⟨q, hq, hdeleted⟩ hmfd hfd)

theorem EpollSound.doSetWait_change (ht : t.EpollSound) (hn : t.Live n) {wait : UInt8} {w : Option ℕ}
    (h : t.doSetWait epoll n wait w = .ok t') : EpollChange t n t' := by
  obtain ⟨q, fd, hq, hfd, hplaced, hothers⟩ := ht.live hn
  obtain ⟨-, rfl⟩ := doSetWait_eq_ok h
  rw [epollActive_eq n fd]
  · exact .put ⟨fun _ => hfd, hothers, fun _ => hfd, fun _ => placed_wait n wait w rfl rfl⟩ (Or.inl rfl)
  · exact hfd
  · exact hplaced.watched.none_of_zero

theorem EpollSound.del_change (ht : t.EpollSound) (hn : t.Live n) : EpollChange t n (t.nbioDel epoll n) := by
  obtain ⟨q, fd, hq, hfd, hplaced, hothers⟩ := ht.live hn
  rw [nbioDel_eq, epollActive_eq n fd hfd hplaced.watched.none_of_zero]
  exact .put ⟨fun _ => hfd, hothers, fun _ => hfd, fun h => absurd rfl h⟩ (Or.inl rfl)

theorem EpollSound.inactive_put (ht : t.EpollSound) (hn : t.Live n) {io : LoopNbio} {fd : ℕ}
    (hfd : io.fd = some fd) (hown : (t.io n).fd = some fd) (hwatched : Watched n io (t.priv fd))
    (hmask : io.mask ≠ 0) (hdeleted : io.mask ≠ NBIO_DELETED) :
    EpollChange t n (t.put n (epoll.inactive t.priv n io).2 .inactive (epoll.inactive t.priv n io).1) := by
  rw [epollInactive_eq hfd hwatched]
  refine .put ⟨fun _ => hown, ?_, fun _ => hfd, fun _ => ?_⟩ (Or.inr ⟨by simp, _, rfl⟩)
  · intro m hmn hm hmfd
    exact hmn (ht.apart m n fd hm hn hmfd hown)
  · exact ⟨Or.inr ⟨rfl, rfl, hmask⟩, hdeleted, fun _ => hmask, fun _ _ => rfl⟩

theorem EpollSound.inactive_change (ht : t.EpollSound) (hn : n ∈ t.lists .active) (mask : UInt8) :
    EpollChange t n (t.nbioInactive epoll n mask) := by
  obtain ⟨fd, hfd, hplaced⟩ := ht.placed n .active hn (by simp)
  rcases nbioInactive_cases epoll t n mask with ⟨-, heq⟩ | ⟨-, heq⟩
  · rw [heq]
    exact ht.inactive_put ⟨.active, hn, by simp⟩ hfd hfd hplaced.watched (hplaced.active rfl) hplaced.mask
  · rw [heq]
    exact .flags hn _

theorem EpollSound.waitOn_change (ht : t.EpollSound) (hn : t.Live n) {wait : UInt8} (hparked : (t.io n).mask = 0)
    (hwait : wait &&& NBIO_WAIT ≠ 0) (h : t.nbioWaitOn epoll n wait = .ok t') : EpollChange t n t' := by
  obtain ⟨q, fd, hq, hfd, hplaced, -⟩ := ht.live hn
  obtain ⟨-, rfl⟩ := nbioWaitOn_eq_ok h
  exact ht.inactive_put hn hfd hfd (Or.inl (hplaced.watched.none_of_parked hparked)) hwait (wait_ne_deleted wait)

theorem EpollSound.add_change {wait : UInt8} (hnew : ∀ q, n ∉ t.lists q)
    (hfd : ∀ m, t.Live m → (t.io m).fd ≠ some fd) (hset : t.priv fd = none)
    (h : t.nbioAdd epoll n fd wait = .ok t') : EpollChange t n t' := by
  rw [nbioAdd_eq_ok h, epollActive_eq n fd rfl fun _ => hset]
  refine .put ⟨?_, fun m _ => hfd m, fun _ => rfl, fun _ => placed_wait n wait none rfl rfl⟩ (Or.inl rfl)
  rintro ⟨q, hq, -⟩
  exact absurd hq (hnew q)

theorem EpollSound.kill_change (ht : t.EpollSound) (hn : t.Live n) : EpollChange t n (t.kill epoll n) := by
  obtain ⟨q, fd, hq, hfd, hplaced, hothers⟩ := ht.live hn
  rw [kill_of_open epoll hfd, epollActive_closed]
  exact .put ⟨fun _ => hfd, hothers, fun h => absurd rfl h, fun h => absurd rfl h⟩ (Or.inl rfl)

/-- A call changes one nbio, and the set where its descriptor is. -/
theorem EpollSound.call_change (ht : t.EpollSound) (hc : t.CalledFor c)
    (hset : ∀ n fd wait, c = .add n fd wait → t.priv fd = none) (h : t.call epoll c = .ok t') :
    ∃ n, EpollChange t n t' := by
  cases c with
  | add n fd wait => exact ⟨n, add_change hc.1 hc.2 (hset n fd wait rfl) h⟩
  | setWait n wait =>
    change t.doSetWait epoll n wait none = .ok t' at h
    exact ⟨n, ht.doSetWait_change hc h⟩
  | inactive n mask =>
    cases h
    exact ⟨n, ht.inactive_change hc mask⟩
  | toWaitq n q => exact ⟨n, ht.doSetWait_change hc h⟩
  | wake n wait =>
    change t.doSetWait epoll n wait none = .ok t' at h
    exact ⟨n, ht.doSetWait_change hc h⟩
  | waitOn n wait => exact ⟨n, ht.waitOn_change hc.1 hc.2.1 hc.2.2 h⟩
  | del n =>
    cases h
    exact ⟨n, ht.del_change hc⟩

/-- An event puts the nbio it is for on the active list, and nothing else changes but its flags. -/
theorem EpollSound.deliver_change (ht : t.EpollSound) {i : UInt32} (events : UInt32) (hn : t.Live n)
    (hfd : (t.io n).fd = some fd) (hset : t.priv fd = some (n, i)) : EpollChange t n (epollDeliver t (n, events)) := by
  obtain ⟨q, fd', -, hfd', hplaced, hothers⟩ := ht.live hn
  cases hfd.symm.trans hfd'
  have hmask : (t.io n).mask ≠ 0 := by
    intro hzero
    rw [(hplaced.watched.none_of_parked hzero).2] at hset
    cases hset
  have hput : epollDeliver t (n, events) =
      t.put n { t.io n with flags := epollFlags events } .active (Function.update t.priv fd (t.priv fd)) := by
    rw [Function.update_eq_self]
    rfl
  rw [hput]
  refine .put ⟨fun _ => hfd, hothers, fun _ => hfd, fun _ => ?_⟩ (Or.inr ⟨by simp, i, hset⟩)
  exact ⟨hplaced.watched, hplaced.mask, fun _ => hmask, nofun⟩

theorem EpollSound.reap (ht : t.EpollSound) : t.reap.EpollSound := by
  refine ⟨linked_reap ht.linked, ?_, ?_⟩
  · intro n q hn hq
    rw [reap_lists_of_ne hq] at hn
    exact ht.placed n q hn hq
  · intro m n fd hm hn hmfd hnfd
    exact ht.apart m n fd (live_reap.mp hm) (live_reap.mp hn) hmfd hnfd

theorem NoStale.reap (ht : t.NoStale) : t.reap.NoStale := by
  intro fd n i hset
  obtain ⟨hlive, hfd⟩ := ht fd n i hset
  exact ⟨live_reap.mpr hlive, hfd⟩

/-- Steps that are in order: calls where they may be made, and events for what is in the set. The error
branch of `nbio_pump` is none of them. -/
def EpollContract (t : EpollThread) : LoopStep (List (ℕ × UInt32)) → Prop
  | .call c => t.CalledFor c
  | .kill n => t.Live n
  | .report ev => ∀ e ∈ ev, ∃ fd i, t.priv fd = some (e.1, i)
  | .fail _ => False
  | .reap => True

/-- What holds in a run, where some nbios were added. -/
structure EpollKeeps (t : EpollThread) (steps : List (LoopStep (List (ℕ × UInt32)))) : Prop where
  sound : t.EpollSound
  noStale : t.NoStale
  added : ∀ n, Added n steps → t.Live n

theorem live_deliver (e : ℕ × UInt32) (hn : t.Live n) : (epollDeliver t e).Live n := by
  have hput : epollDeliver t e = t.put e.1 { t.io e.1 with flags := epollFlags e.2 } .active t.priv := rfl
  rw [hput]
  by_cases hne : n = e.1
  · subst hne
    exact live_put_self.mpr (by simp)
  · exact (live_put_of_ne hne).mpr hn

theorem pump_keeps {ev : List (ℕ × UInt32)} (ht : t.EpollSound) (hstale : t.NoStale)
    (hev : ∀ e ∈ ev, ∃ fd i, t.priv fd = some (e.1, i)) :
    (epollPump t ev).EpollSound ∧ (epollPump t ev).NoStale ∧ ∀ n, t.Live n → (epollPump t ev).Live n := by
  induction ev generalizing t with
  | nil => exact ⟨ht, hstale, fun _ hn => hn⟩
  | cons e ev ih =>
    obtain ⟨fd, i, hset⟩ := hev e (List.mem_cons_self ..)
    obtain ⟨hlive, hfd⟩ := hstale fd e.1 i hset
    have hchange := ht.deliver_change e.2 hlive hfd hset
    obtain ⟨hsound', hstale', hlive'⟩ := ih (ht.change hchange) (hstale.change hchange)
      fun e' he' => hev e' (List.mem_cons_of_mem _ he')
    exact ⟨hsound', hstale', fun n hn => hlive' n (live_deliver e hn)⟩

theorem EpollKeeps.step {steps : List (LoopStep (List (ℕ × UInt32)))} {s : LoopStep (List (ℕ × UInt32))}
    (h : t.EpollKeeps steps) (hs : t.EpollContract s) (hstep : Takes epoll t s t') :
    t'.EpollKeeps (steps ++ [s]) := by
  cases hstep with
  | @call c t' hcall =>
    have hnew : ∀ n fd wait, c = .add n fd wait → t.priv fd = none := by
      rintro n fd wait rfl
      cases hset : t.priv fd with
      | none => rfl
      | some e =>
        obtain ⟨hlive, hfd⟩ := h.noStale fd e.1 e.2 hset
        exact absurd hfd (hs.2 e.1 hlive)
    obtain ⟨n, hchange⟩ := h.sound.call_change hs hnew hcall
    refine ⟨h.sound.change hchange, h.noStale.change hchange, ?_⟩
    intro m hm
    rw [added_append] at hm
    exact live_call hcall (h.added m) hm
  | @kill n hlive =>
    have hchange := h.sound.kill_change hlive
    refine ⟨h.sound.change hchange, h.noStale.change hchange, ?_⟩
    intro m hm
    rw [added_append] at hm
    exact live_kill hm.1 (h.added m hm.2)
  | report ev =>
    obtain ⟨hsound, hstale, hlive⟩ := pump_keeps h.sound h.noStale hs
    refine ⟨hsound, hstale, ?_⟩
    intro m hm
    rw [added_append] at hm
    exact hlive m (h.added m hm)
  | fail => exact hs.elim
  | reap =>
    refine ⟨h.sound.reap, h.noStale.reap, ?_⟩
    intro m hm
    rw [added_append] at hm
    exact live_reap.mpr (h.added m hm)

theorem epollKeeps_init (io : ℕ → LoopNbio) : (init io fun _ => none : EpollThread).EpollKeeps [] := by
  refine ⟨⟨linked_nil, ?_, ?_⟩, ?_, ?_⟩
  · intro n q hq
    cases hq
  · rintro m n fd ⟨q, hq, -⟩
    cases hq
  · intro fd n i h
    cases h
  · exact fun _ h => h.elim

/-- How the set stands to an nbio with the descriptor `fd`. -/
structure InterestKept (t : EpollThread) (n fd : ℕ) : Prop where
  poll : (t.io n).evPriv = 1 ↔ t.priv fd ≠ none
  events : ∀ e, t.priv fd = some e → e.1 = n ∧ (e.2 &&& EPOLLIN ≠ 0 ↔ (t.io n).mask &&& NBIO_READ ≠ 0) ∧
    (e.2 &&& EPOLLOUT ≠ 0 ↔ (t.io n).mask &&& NBIO_WRITE ≠ 0)
  inactive : n ∈ t.lists .inactive → (t.io n).mask ≠ 0 → t.priv fd ≠ none
  parked : (t.io n).mask = 0 → t.priv fd = none

theorem Placed.interestKept {q : Queue} (ht : Linked t.lists) (hn : n ∈ t.lists q)
    (h : Placed n (t.io n) q (t.priv fd)) : InterestKept t n fd := by
  have hpoll : (t.io n).evPriv = 1 ↔ t.priv fd ≠ none := by
    rcases h.watched with ⟨hpriv, hset⟩ | ⟨hpriv, hset, -⟩
    · simp [hpriv, hset]
    · simp [hpriv, hset]
  refine ⟨hpoll, ?_, ?_, ?_⟩
  · intro e he
    rcases h.watched with ⟨-, hset⟩ | ⟨-, hset, -⟩
    · rw [hset] at he
      cases he
    · rw [hset] at he
      cases he
      exact ⟨rfl, epollInterest_in _, epollInterest_out _⟩
  · intro hin hmask
    exact hpoll.mp (h.inactive (ht.apart q .inactive n hn hin) hmask)
  · exact fun hmask => (h.watched.none_of_parked hmask).2

/-- **The epoll backend never loses interest.** An nbio that was added and not deleted is linked on one list,
once; its descriptor is in the set if and only if its own field says so, then with the events its mask asks
for; it is in the set if it is inactive and waits for something, and it is not if it is parked. -/
theorem epoll_keeps_interest {io : ℕ → LoopNbio} {steps : List (LoopStep (List (ℕ × UInt32)))}
    (hrun : GuardedRun (Takes epoll) EpollContract (init io fun _ => none) steps t) (hadded : Added n steps) :
    (∃! q, n ∈ t.lists q) ∧ (∀ q, (t.lists q).count n ≤ 1) ∧
      ∃ fd, (t.io n).fd = some fd ∧ InterestKept t n fd := by
  have hkeeps : t.EpollKeeps steps :=
    hrun.invariant (I := fun steps t => EpollKeeps t steps) (fun _ _ _ _ h hs hstep => h.step hs hstep)
      (epollKeeps_init io)
  obtain ⟨q, fd, hq, hfd, hplaced, -⟩ := hkeeps.sound.live (hkeeps.added n hadded)
  refine ⟨⟨q, hq, fun r hr => hkeeps.sound.linked.apart r q n hr hq⟩, ?_, fd, hfd, ?_⟩
  · exact fun r => List.nodup_iff_count_le_one.mp (hkeeps.sound.linked.nodup r) n
  · exact Placed.interestKept hkeeps.sound.linked hq hplaced

/-- A descriptor is added, read until nothing is left, reported, read again and then waited for to be written to. -/
def readThenWrite : List (LoopStep (List (ℕ × UInt32))) :=
  [.call (.add 0 5 NBIO_READ), .call (.inactive 0 NBIO_READ), .report [(0, EPOLLIN)],
    .call (.setWait 0 NBIO_WRITE), .call (.inactive 0 NBIO_WRITE)]

theorem readThenWrite_run :
    ∃ t, GuardedRun (Takes epoll) EpollContract (init (fun _ => ⟨none, 0, 0, 0⟩) fun _ => none) readThenWrite t := by
  refine ⟨_, .cons ?_ (.call rfl) (.cons ?_ (.call rfl) (.cons ?_ (.report _) (.cons ?_ (.call rfl)
    (.cons ?_ (.call rfl) (.start _)))))⟩
  · refine ⟨fun q hq => (nomatch hq), ?_⟩
    rintro m ⟨q, hq, -⟩
    cases hq
  · exact List.mem_singleton.mpr rfl
  · intro e he
    cases List.mem_singleton.mp he
    exact ⟨5, _, rfl⟩
  · exact ⟨.active, List.mem_singleton.mpr rfl, by decide⟩
  · exact List.mem_singleton.mpr rfl

theorem epoll_keeps_interest_write :
    ∃ t, GuardedRun (Takes epoll) EpollContract (init (fun _ => ⟨none, 0, 0, 0⟩) fun _ => none) readThenWrite t ∧
      (∃! q, 0 ∈ t.lists q) ∧ (∀ q, (t.lists q).count 0 ≤ 1) ∧
      ∃ fd, (t.io 0).fd = some fd ∧ InterestKept t 0 fd := by
  obtain ⟨t, hrun⟩ := readThenWrite_run
  exact ⟨t, hrun, epoll_keeps_interest hrun (Or.inl rfl)⟩

end IoThread
end Ashttpd
