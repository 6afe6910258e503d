import Ashttpd.GuardedRuns
import Ashttpd.Poll

/-!
# Runs with the poll backend

As long as the slots that `poll_pump` keeps are numbered in the order of the inactive list, every
inactive nbio has its own slot. A slot that is moved goes astray.
-/
namespace Ashttpd

/-- Whether an nbio has an index of its own slot. -/
structure Slotted (p : PollPriv) (io : LoopNbio) : Prop where
  below : io.evPriv.toNat < p.numPfd
  fd : (p.slot io).fd = io.fd
  events : (p.slot io).events = pollInterest io.mask

namespace IoThread

variable {t t' : PollThread} {m n : ℕ} {io : LoopNbio} {q : Queue}

/-- What is to hold of the inactive nbios that have an index. -/
structure SlotsOwned (t : PollThread) : Prop where
  slotted : ∀ n ∈ t.lists .inactive, 0 ≤ (t.io n).evPriv → Slotted t.priv (t.io n)
  apart : ∀ m ∈ t.lists .inactive, ∀ n ∈ t.lists .inactive, 0 ≤ (t.io m).evPriv →
    (t.io m).evPriv = (t.io n).evPriv → m = n

/-- An nbio without an index may go anywhere. -/
theorem SlotsOwned.put_without (h : t.SlotsOwned) (hio : q = .inactive → io.evPriv < 0) :
    (t.put n io q t.priv).SlotsOwned := by
  have hother : ∀ m, m ∈ (t.put n io q t.priv).lists .inactive → 0 ≤ ((t.put n io q t.priv).io m).evPriv →
      m ∈ t.lists .inactive ∧ (t.put n io q t.priv).io m = t.io m := by
    intro m hm hpos
    by_cases hmn : m = n
    · subst hmn
      rw [put_io_self] at hpos
      exact absurd (hio (mem_put_self.mp hm).symm) (by omega)
    · exact ⟨(mem_put_of_ne hmn).mp hm, put_io_of_ne hmn⟩
  constructor
  · intro m hm hpos
    obtain ⟨hm', heq⟩ := hother m hm hpos
    rw [heq] at hpos ⊢
    exact h.slotted m hm' hpos
  · intro k hk l hl hpos hkl
    obtain ⟨hk', hkeq⟩ := hother k hk hpos
    obtain ⟨hl', hleq⟩ := hother l hl (hkl ▸ hpos)
    rw [hkeq] at hpos hkl
    rw [hleq] at hkl
    exact h.apart k hk' l hl' hpos hkl

/-- What `poll_inactive` does to the slots that are there. -/
theorem pollInactive_slot (p : PollPriv) (n : ℕ) (io : LoopNbio) :
    (pollInactive p n io).1.numPfd = p.numPfd + 1 ∧
      ((pollInactive p n io).1.pfd p.numPfd).fd = io.fd ∧
      ((pollInactive p n io).1.pfd p.numPfd).events = pollInterest io.mask ∧
      ∀ i < p.numPfd, (pollInactive p n io).1.pfd i = p.pfd i := by
  unfold pollInactive PollPriv.upsizePfdset
  have hne : ∀ i < p.numPfd, i ≠ p.numPfd := fun i hi => Nat.ne_of_lt hi
  split
  · refine ⟨rfl, by simp, by simp, fun i hi => ?_⟩
    simp [hne i hi]
  · refine ⟨rfl, by simp, by simp, fun i hi => ?_⟩
    simp [hne i hi]

theorem pollInactive_io (p : PollPriv) (n : ℕ) (io : LoopNbio) :
    (pollInactive p n io).2 = { io with evPriv := p.numPfd } := by
  unfold pollInactive PollPriv.upsizePfdset
  split <;> rfl

theorem SlotsOwned.put_inactive (h : t.SlotsOwned) (n : ℕ) (io : LoopNbio) :
    (t.put n (pollInactive t.priv n io).2 .inactive (pollInactive t.priv n io).1).SlotsOwned := by
  obtain ⟨hnum, hfd, hevents, hslots⟩ := pollInactive_slot t.priv n io
  rw [pollInactive_io]
  constructor
  · intro m hm hpos
    by_cases hmn : m = n
    · subst hmn
      rw [put_io_self, put_priv]
      refine ⟨?_, hfd, hevents⟩
      rw [hnum, Int.toNat_natCast]
      exact Nat.lt_succ_self _
    · rw [put_io_of_ne hmn] at hpos ⊢
      obtain ⟨hbelow, hmfd, hmevents⟩ := h.slotted m ((mem_put_of_ne hmn).mp hm) hpos
      rw [put_priv]
      refine ⟨?_, ?_, ?_⟩
      · rw [hnum]
        exact Nat.lt_succ_of_lt hbelow
      · unfold PollPriv.slot at hmfd ⊢
        rw [hslots _ hbelow, hmfd]
      · unfold PollPriv.slot at hmevents ⊢
        rw [hslots _ hbelow, hmevents]
  · -- the new index is above those that were given
    have hbelow : ∀ m, m ≠ n → m ∈ t.lists .inactive → 0 ≤ (t.io m).evPriv → (t.io m).evPriv < t.priv.numPfd := by
      intro m _ hm hpos
      have hlt := (h.slotted m hm hpos).below
      omega
    intro k hk l hl hpos hkl
    by_cases hkn : k = n
    · by_cases hln : l = n
      · rw [hkn, hln]
      · subst hkn
        rw [put_io_self, put_io_of_ne hln] at hkl
        change (t.priv.numPfd : ℤ) = (t.io l).evPriv at hkl
        have hlt := hbelow l hln ((mem_put_of_ne hln).mp hl) (by omega)
        omega
    · have hk' := (mem_put_of_ne hkn).mp hk
      rw [put_io_of_ne hkn] at hpos hkl
      by_cases hln : l = n
      · subst hln
        rw [put_io_self] at hkl
        change (t.io k).evPriv = (t.priv.numPfd : ℤ) at hkl
        have hlt := hbelow k hkn hk' hpos
        omega
      · rw [put_io_of_ne hln] at hkl
        exact h.apart k hk' l ((mem_put_of_ne hln).mp hl) hpos hkl

theorem SlotsOwned.setFlags (h : t.SlotsOwned) (n : ℕ) (flags : UInt8) :
    (t.setIo n { t.io n with flags := flags }).SlotsOwned := by
  have hio : ∀ m, ((t.setIo n { t.io n with flags := flags }).io m).evPriv = (t.io m).evPriv := by
    intro m
    by_cases hmn : m = n
    · rw [hmn, setIo_io_self]
    · rw [setIo_io_of_ne hmn]
  constructor
  · intro m hm hpos
    rw [hio m] at hpos
    obtain ⟨hbelow, hfd, hevents⟩ := h.slotted m hm hpos
    refine ⟨?_, ?_, ?_⟩
    · rw [hio m]
      exact hbelow
    · unfold PollPriv.slot
      rw [hio m, setFlags_fd]
      exact hfd
    · unfold PollPriv.slot
      rw [hio m, setFlags_mask]
      exact hevents
  · intro k hk l hl hpos hkl
    rw [hio k] at hpos hkl
    rw [hio l] at hkl
    exact h.apart k hk l hl hpos hkl

theorem SlotsOwned.doSetWait (h : t.SlotsOwned) {wait : UInt8} {w : Option ℕ}
    (hcall : t.doSetWait pollLoop n wait w = .ok t') : t'.SlotsOwned := by
  rw [(doSetWait_eq_ok hcall).2]
  exact h.put_without fun _ => by simp [pollLoop, pollActive]

theorem SlotsOwned.call {c : NbioCall} (h : t.SlotsOwned) (hcall : t.call pollLoop c = .ok t') : t'.SlotsOwned := by
  cases c with
  | add n fd wait =>
    rw [nbioAdd_eq_ok hcall]
    exact h.put_without fun _ => by simp [pollLoop, pollActive]
  | setWait n wait =>
    change t.doSetWait pollLoop n wait none = .ok t' at hcall
    exact h.doSetWait hcall
  | inactive n mask =>
    cases hcall
    rcases nbioInactive_cases pollLoop t n mask with ⟨-, heq⟩ | ⟨-, heq⟩
    · rw [heq]
      exact h.put_inactive n _
    · rw [heq]
      exact h.setFlags n _
  | toWaitq n q => exact h.doSetWait hcall
  | wake n wait =>
    change t.doSetWait pollLoop n wait none = .ok t' at hcall
    exact h.doSetWait hcall
  | waitOn n wait =>
    rw [(nbioWaitOn_eq_ok hcall).2]
    exact h.put_inactive n _
  | del n =>
    cases hcall
    rw [nbioDel_eq]
    exact h.put_without nofun

/-- A step at which the slots that are kept are numbered in the order of the list: those of the inactive nbios
that `poll` reports nothing for have the indices from zero on. -/
def SlotsInOrder (t : PollThread) : LoopStep (Option (ℕ → UInt16)) → Prop
  | .report (some r) => (polled t r).Numbered (t.lists .inactive)
  | _ => True

/-- What holds in a run. -/
structure PollKeeps (t : PollThread) : Prop where
  linked : Linked t.lists
  owned : t.SlotsOwned

/-- `poll` leaves what was asked for in the slots. -/
theorem reported_slot (p : PollPriv) (r : ℕ → UInt16) (i : ℕ) :
    ((p.reported r).pfd i).fd = (p.pfd i).fd ∧ ((p.reported r).pfd i).events = (p.pfd i).events := by
  unfold PollPriv.reported
  simp only
  split
  · exact ⟨rfl, rfl⟩
  · exact ⟨rfl, rfl⟩

/-- An nbio that `poll_pump` leaves inactive is as it was. -/
theorem Woken.same_of_inactive {l : List ℕ} (h : Woken t l t') (hn : n ∈ t'.lists .inactive) : Same t t' n := by
  refine h.same n ?_
  rintro ⟨hl, hwakes⟩
  cases ((h.woken n hl hwakes).2 .inactive).mp hn

theorem PollKeeps.pump (h : t.PollKeeps) (r : ℕ → UInt16) (horder : t.SlotsInOrder (.report (some r))) :
    (pollPump t (some r)).PollKeeps := by
  have hnodup := h.linked.nodup .inactive
  have hwoken := woken_visits (polled t r) hnodup
  have hstay := slotsStay_visits (polled t r) hnodup horder
  refine ⟨hwoken.linked h.linked, ?_, ?_⟩
  · intro n hn hpos
    have hsame := hwoken.same_of_inactive hn
    have hin : n ∈ t.lists .inactive := (hsame.lists .inactive).mp hn
    have hio : (pollPump t (some r)).io n = t.io n := hsame.io
    rw [hio] at hpos ⊢
    obtain ⟨hbelow, hfd, hevents⟩ := h.owned.slotted n hin hpos
    have hpfd : (pollPump t (some r)).priv.pfd = (t.priv.reported r).pfd := hstay.pfd
    refine ⟨?_, ?_, ?_⟩
    · -- its index is one of those of the slots that are kept
      have hkeeps : (polled t r).Keeps n := by
        refine ⟨hpos, ?_⟩
        by_contra hne
        have hactive := ((hwoken.woken n hin ⟨hpos, hne⟩).2 .inactive).mp hn
        cases hactive
      have hmem : n ∈ (t.lists .inactive).filter (polled t r).Keeps := List.mem_filter.mpr ⟨hin, decide_eq_true hkeeps⟩
      have hindex : (t.io n).evPriv.toNat ∈
          List.range' 0 ((t.lists .inactive).filter (polled t r).Keeps).length :=
        horder ▸ List.mem_map_of_mem (f := fun n => (t.io n).evPriv.toNat) hmem
      exact (List.mem_range'_1.mp hindex).2.trans_eq hstay.numPfd.symm
    · unfold PollPriv.slot
      rw [hpfd, (reported_slot t.priv r _).1]
      exact hfd
    · unfold PollPriv.slot
      rw [hpfd, (reported_slot t.priv r _).2]
      exact hevents
  · intro m hm n hn hpos heq
    have hmsame := hwoken.same_of_inactive hm
    have hnsame := hwoken.same_of_inactive hn
    have hmio : (pollPump t (some r)).io m = t.io m := hmsame.io
    have hnio : (pollPump t (some r)).io n = t.io n := hnsame.io
    rw [hmio] at hpos heq
    rw [hnio] at heq
    exact h.owned.apart m ((hmsame.lists .inactive).mp hm) n ((hnsame.lists .inactive).mp hn) hpos heq

theorem PollKeeps.step {s : LoopStep (Option (ℕ → UInt16))} (h : t.PollKeeps) (hs : t.SlotsInOrder s)
    (hstep : Takes pollLoop t s t') : t'.PollKeeps := by
  cases hstep with
  | call hcall => exact ⟨linked_call h.linked hcall, h.owned.call hcall⟩
  | @kill n hlive =>
    cases hfd : (t.io n).fd with
    | none =>
      rw [kill_of_closed pollLoop hfd]
      exact h
    | some fd =>
      rw [kill_of_open pollLoop hfd]
      exact ⟨h.linked.moveTail _ _, h.owned.put_without nofun⟩
  | report e =>
    cases e with
    | none => exact h
    | some r => exact h.pump r hs
  | fail => exact ⟨h.linked.moveTail _ _, h.owned.put_without nofun⟩
  | reap =>
    refine ⟨linked_reap h.linked, ?_, ?_⟩
    · intro n hn
      rw [reap_lists_of_ne (by simp)] at hn
      exact h.owned.slotted n hn
    · intro m hm n hn
      rw [reap_lists_of_ne (by simp)] at hm hn
      exact h.owned.apart m hm n hn

theorem pollKeeps_init (io : ℕ → LoopNbio) (pfd : ℕ → Pollfd) : (init io (pollInit pfd)).PollKeeps :=
  ⟨linked_nil, fun _ h => (nomatch h), fun _ h => (nomatch h)⟩

/-- What `poll_pump` wakes an inactive nbio for was reported in its own slot. -/
theorem PollKeeps.woken (h : t.PollKeeps) (r : ℕ → UInt16) (hin : n ∈ t.lists .inactive)
    (hactive : n ∈ (pollPump t (some r)).lists .active) :
    ∃ i < t.priv.numPfd, (t.priv.pfd i).fd = (t.io n).fd ∧ r i ≠ 0 ∧
      ((pollPump t (some r)).io n).flags = pollFlags (r i) := by
  have hwoken := woken_visits (polled t r) (h.linked.nodup .inactive)
  have hwakes : (polled t r).Wakes n := by
    by_contra hnot
    have hsame := hwoken.same n fun h => hnot h.2
    cases h.linked.apart _ _ n hin ((hsame.lists .active).mp hactive)
  obtain ⟨hpos, hrevents⟩ := hwakes
  obtain ⟨hbelow, hfd, -⟩ := h.owned.slotted n hin hpos
  have hslot : ((t.priv.reported r).slot (t.io n)).revents = r (t.io n).evPriv.toNat := by
    unfold PollPriv.reported PollPriv.slot
    simp only
    rw [if_pos hbelow]
  refine ⟨(t.io n).evPriv.toNat, hbelow, hfd, ?_, ?_⟩
  · rw [← hslot]
    exact hrevents
  · rw [← hslot]
    exact congrArg LoopNbio.flags (hwoken.woken n hin ⟨hpos, hrevents⟩).1

/-- **The bookkeeping of the poll backend**, as long as the slots that are kept are in order: every inactive nbio
that has an index has one below `num_pfd`, of a slot with its descriptor and the events of its mask, no two
have the same, and an nbio is woken only for what is reported on its own descriptor. -/
theorem poll_slots_owned {io : ℕ → LoopNbio} {pfd : ℕ → Pollfd} {steps : List (LoopStep (Option (ℕ → UInt16)))}
    (hrun : GuardedRun (Takes pollLoop) SlotsInOrder (init io (pollInit pfd)) steps t) :
    t.SlotsOwned ∧ ∀ r n, n ∈ t.lists .inactive → n ∈ (pollPump t (some r)).lists .active →
      ∃ i < t.priv.numPfd, (t.priv.pfd i).fd = (t.io n).fd ∧ r i ≠ 0 ∧
        ((pollPump t (some r)).io n).flags = pollFlags (r i) := by
  have hkeeps : t.PollKeeps :=
    hrun.invariant (I := fun _ => PollKeeps) (fun _ _ _ _ h hs hstep => h.step hs hstep) (pollKeeps_init io pfd)
  exact ⟨hkeeps.owned, fun r n hin hactive => hkeeps.woken r hin hactive⟩

/-- Of two descriptors that are waited for, the one with the first slot can be read from. -/
def firstReadable : List (LoopStep (Option (ℕ → UInt16))) :=
  [.call (.add 0 10 NBIO_READ), .call (.inactive 0 NBIO_READ), .call (.add 1 11 NBIO_READ),
    .call (.inactive 1 NBIO_READ), .report (some fun i => if i = 0 then POLLIN else 0), .call (.inactive 0 NBIO_READ)]

theorem poll_slots_owned_one :
    ∃ t, GuardedRun (Takes pollLoop) SlotsInOrder (init (fun _ => ⟨none, 0, 0, 0⟩) (pollInit fun _ => ⟨none, 0, 0⟩))
        (firstReadable.take 2 ++ [.report (some fun _ => POLLIN), .call (.inactive 0 NBIO_READ)]) t ∧
      t.SlotsOwned ∧ ∀ r n, n ∈ t.lists .inactive → n ∈ (pollPump t (some r)).lists .active →
        ∃ i < t.priv.numPfd, (t.priv.pfd i).fd = (t.io n).fd ∧ r i ≠ 0 ∧
          ((pollPump t (some r)).io n).flags = pollFlags (r i) := by
  have hrun : ∃ t, GuardedRun (Takes pollLoop) SlotsInOrder
      (init (fun _ => ⟨none, 0, 0, 0⟩) (pollInit fun _ => ⟨none, 0, 0⟩))
      (firstReadable.take 2 ++ [.report (some fun _ => POLLIN), .call (.inactive 0 NBIO_READ)]) t :=
    ⟨_, .cons trivial (.call rfl) (.cons trivial (.call rfl) (.cons rfl (.report _)
      (.cons trivial (.call rfl) (.start _))))⟩
  obtain ⟨t, hrun⟩ := hrun
  exact ⟨t, hrun, poll_slots_owned hrun⟩

/-- The second descriptor keeps the index of a slot that is given to the first one again. -/
theorem poll_slot_shared :
    ∃ t, Run (Takes pollLoop) (init (fun _ => ⟨none, 0, 0, 0⟩) (pollInit fun _ => ⟨none, 0, 0⟩)) firstReadable t ∧
      0 ∈ t.lists .inactive ∧ 1 ∈ t.lists .inactive ∧ (t.io 0).evPriv = 1 ∧ (t.io 1).evPriv = 1 ∧
      (t.io 1).fd = some 11 ∧ (t.priv.pfd 1).fd = some 10 := by
  refine ⟨_, .cons trivial (.call rfl) (.cons trivial (.call rfl) (.cons trivial (.call rfl)
    (.cons trivial (.call rfl) (.cons trivial (.report _) (.cons trivial (.call rfl) (.start _)))))), ?_⟩
  decide

end IoThread
end Ashttpd
