import Ashttpd.EpollRuns
import Ashttpd.PollRuns

/-!
# The passes of `nbio_pump`

A pass over the active list does something about every nbio on it, unless the system reports only that
a peer hung up on a descriptor that is to be written to.
-/
namespace Ashttpd

/-- Whether `nbio_pump` does something about an nbio of the active list. -/
def LoopNbio.Due (io : LoopNbio) : Prop :=
  io.mask ≠ NBIO_DELETED ∧ (io.flags &&& io.mask &&& NBIO_WRITE ≠ 0 ∨ io.flags &&& io.mask &&& NBIO_READ ≠ 0 ∨
    io.flags &&& NBIO_ERROR ≠ 0)

instance (io : LoopNbio) : Decidable io.Due := inferInstanceAs (Decidable (_ ∧ _))

theorem wait_cases {x : UInt8} (hx : x ≠ 0) (hwait : x &&& NBIO_WAIT = x) :
    x &&& NBIO_WRITE ≠ 0 ∨ x &&& NBIO_READ ≠ 0 ∨ x &&& NBIO_ERROR ≠ 0 := by
  by_contra hnone
  push Not at hnone
  obtain ⟨hwrite, hread, herror⟩ := hnone
  have hsplit : x &&& NBIO_WAIT = x &&& NBIO_READ ||| x &&& NBIO_WRITE ||| x &&& NBIO_ERROR := by
    apply UInt8.toBitVec_inj.mp
    simp only [NBIO_WAIT, UInt8.toBitVec_and, UInt8.toBitVec_or, BitVec.and_or_distrib_left]
  rw [hwait, hread, hwrite, herror] at hsplit
  exact hx hsplit

/-- An nbio is due if something is reported that it waits for. -/
theorem due_of_ne {io : LoopNbio} (hmask : io.mask &&& NBIO_WAIT = io.mask) (hne : io.mask &&& io.flags ≠ 0) :
    io.Due := by
  have hdeleted : io.mask ≠ NBIO_DELETED := by
    rw [← hmask]
    exact IoThread.wait_ne_deleted io.mask
  have hwait : io.flags &&& io.mask &&& NBIO_WAIT = io.flags &&& io.mask := by
    rw [UInt8.and_assoc, hmask]
  rw [UInt8.and_comm] at hne
  refine ⟨hdeleted, ?_⟩
  rcases wait_cases hne hwait with hwrite | hread | herror
  · exact Or.inl hwrite
  · exact Or.inr (Or.inl hread)
  · refine Or.inr (Or.inr ?_)
    intro hzero
    rw [UInt8.and_assoc, UInt8.and_comm io.mask, ← UInt8.and_assoc, hzero] at herror
    exact herror UInt8.zero_and

theorem IoThread.pumpVisit_of_not_due {κ : Type} {t : IoThread κ} {n : ℕ} (hmask : (t.io n).mask ≠ NBIO_DELETED)
    (h : ¬ (t.io n).Due) (write read : IoThread κ → IoThread κ) : t.pumpVisit write read n = t := by
  have hnone := not_and.mp h hmask
  push Not at hnone
  obtain ⟨hwrite, hread, herror⟩ := hnone
  unfold IoThread.pumpVisit
  simp [hwrite, hread, herror]

/-- The events of a report, for either backend. -/
structure Reported where
  input : Bool
  output : Bool
  err : Bool
  hup : Bool
  deriving DecidableEq, Repr

namespace Reported

def epoll (s : Reported) : UInt32 :=
  (if s.input then EPOLLIN else 0) ||| (if s.output then EPOLLOUT else 0) ||| (if s.err then EPOLLERR else 0) |||
    (if s.hup then EPOLLHUP else 0)

def poll (s : Reported) : UInt16 :=
  (if s.input then POLLIN else 0) ||| (if s.output then POLLOUT else 0) ||| (if s.err then POLLERR else 0) |||
    (if s.hup then POLLHUP else 0)

/-- The flags that both backends make of a report. -/
def flags (s : Reported) : UInt8 :=
  (if s.input || s.hup then NBIO_READ else 0) ||| (if s.output then NBIO_WRITE else 0) |||
    (if s.err then NBIO_ERROR else 0)

theorem epollFlags_eq (s : Reported) : epollFlags s.epoll = s.flags := by
  obtain ⟨input, output, err, hup⟩ := s
  cases input <;> cases output <;> cases err <;> cases hup <;> decide

theorem pollFlags_eq (s : Reported) : pollFlags s.poll = s.flags := by
  obtain ⟨input, output, err, hup⟩ := s
  cases input <;> cases output <;> cases err <;> cases hup <;> decide

def hupAlone : Reported := ⟨false, false, false, true⟩

/-- Whether input and output are only reported to an nbio that waits for them. -/
structure AskedBy (s : Reported) (mask : UInt8) : Prop where
  input : s.input = true → mask &&& NBIO_READ ≠ 0
  output : s.output = true → mask &&& NBIO_WRITE ≠ 0

/-- An nbio is due after a report, other than that a peer hung up that is not waited for to be read from. -/
theorem AskedBy.due {s : Reported} (io : LoopNbio) (h : s.AskedBy io.mask) (hflags : io.flags = s.flags)
    (hmask : io.mask ≠ NBIO_DELETED) (hsome : s ≠ ⟨false, false, false, false⟩)
    (hhup : s = hupAlone → io.mask &&& NBIO_READ ≠ 0) : io.Due := by
  have hand : ∀ f : UInt8, s.flags &&& f = f → io.mask &&& f ≠ 0 → io.flags &&& io.mask &&& f ≠ 0 := by
    intro f hf hne
    rwa [hflags, UInt8.and_comm s.flags, UInt8.and_assoc, hf]
  obtain ⟨input, output, err, hup⟩ := s
  refine ⟨hmask, ?_⟩
  cases err with
  | true =>
    refine Or.inr (Or.inr ?_)
    rw [hflags]
    cases input <;> cases output <;> cases hup <;> decide
  | false =>
    cases output with
    | true =>
      refine Or.inl (hand NBIO_WRITE ?_ (h.output rfl))
      cases input <;> cases hup <;> decide
    | false =>
      refine Or.inr (Or.inl ?_)
      cases input with
      | true =>
        refine hand NBIO_READ ?_ (h.input rfl)
        cases hup <;> decide
      | false =>
        cases hup with
        | true => exact hand NBIO_READ (by decide) (hhup rfl)
        | false => exact absurd rfl hsome

end Reported

namespace IoThread

section
variable {κ ε : Type} {p : Backend κ ε} {t t' : IoThread κ} {n : ℕ}

/-- A backend that has no business with what an nbio waits for. -/
structure LeavesFlags (p : Backend κ ε) : Prop where
  inactive : ∀ k n io, (p.inactive k n io).2.mask = io.mask ∧ (p.inactive k n io).2.flags = io.flags
  active : ∀ k n io, (p.active k n io).2.mask = io.mask ∧ (p.active k n io).2.flags = io.flags

/-- Whether a pass does something about every nbio that is active. -/
structure CannotSpin (t : IoThread κ) : Prop where
  waits : ∀ n, t.Live n → (t.io n).mask &&& NBIO_WAIT = (t.io n).mask
  due : ∀ n ∈ t.lists .active, (t.io n).Due
  gone : ∀ n ∈ t.lists .deleted, (t.io n).mask = NBIO_DELETED ∧ (t.io n).flags = 0

theorem CannotSpin.put (h : t.CannotSpin) {io : LoopNbio} {q : Queue} {priv : κ}
    (hwaits : q ≠ .deleted → io.mask &&& NBIO_WAIT = io.mask) (hdue : q = .active → io.Due)
    (hgone : q = .deleted → io.mask = NBIO_DELETED ∧ io.flags = 0) : (t.put n io q priv).CannotSpin := by
  refine ⟨?_, ?_, ?_⟩
  · intro m hm
    by_cases hmn : m = n
    · subst hmn
      rw [put_io_self]
      exact hwaits (live_put_self.mp hm)
    · rw [put_io_of_ne hmn]
      exact h.waits m ((live_put_of_ne hmn).mp hm)
  · intro m hm
    by_cases hmn : m = n
    · subst hmn
      rw [put_io_self]
      exact hdue (mem_put_self.mp hm).symm
    · rw [put_io_of_ne hmn]
      exact h.due m ((mem_put_of_ne hmn).mp hm)
  · intro m hm
    by_cases hmn : m = n
    · subst hmn
      rw [put_io_self]
      exact hgone (mem_put_self.mp hm).symm
    · rw [put_io_of_ne hmn]
      exact h.gone m ((mem_put_of_ne hmn).mp hm)

/-- `do_set_wait` makes an nbio active for what it is to wait for. -/
theorem CannotSpin.put_wait (h : t.CannotSpin) {io : LoopNbio} {wait : UInt8} {w : Option ℕ} {priv : κ}
    (hmask : io.mask = wait &&& NBIO_WAIT) (hflags : io.flags = wait &&& NBIO_WAIT) :
    (t.put n io (waitQueue wait w) priv).CannotSpin := by
  have hwait : io.mask &&& NBIO_WAIT = io.mask := by
    rw [hmask, UInt8.and_assoc, UInt8.and_self]
  refine h.put (fun _ => hwait) ?_ fun hq => absurd hq (waitQueue_ne_deleted wait w)
  intro hq
  refine due_of_ne hwait ?_
  rw [hflags, hmask, UInt8.and_self]
  intro hzero
  unfold waitQueue at hq
  rw [if_pos hzero] at hq
  cases w <;> cases hq

theorem CannotSpin.setFlags (h : t.CannotSpin) {flags : UInt8} (hn : t.Live n) (hne : (t.io n).mask &&& flags ≠ 0) :
    (t.setIo n { t.io n with flags := flags }).CannotSpin := by
  refine ⟨?_, ?_, ?_⟩
  · intro m hm
    by_cases hmn : m = n
    · subst hmn
      rw [setIo_io_self]
      exact h.waits m hm
    · rw [setIo_io_of_ne hmn]
      exact h.waits m hm
  · intro m hm
    by_cases hmn : m = n
    · subst hmn
      rw [setIo_io_self]
      exact due_of_ne (h.waits m hn) hne
    · rw [setIo_io_of_ne hmn]
      exact h.due m hm
  · intro m hm
    by_cases hmn : m = n
    · subst hmn
      have hwait := h.waits m hn
      rw [(h.gone m hm).1] at hwait
      exact absurd hwait (wait_ne_deleted _)
    · rw [setIo_io_of_ne hmn]
      exact h.gone m hm

theorem CannotSpin.call {c : NbioCall} (hp : LeavesFlags p) (h : t.CannotSpin) (hc : t.CalledFor c)
    (hcall : t.call p c = .ok t') : t'.CannotSpin := by
  have hset : ∀ {n wait w}, t.doSetWait p n wait w = .ok t' → t'.CannotSpin := by
    intro n wait w hcall
    rw [(doSetWait_eq_ok hcall).2]
    exact h.put_wait (hp.active ..).1 (hp.active ..).2
  cases c with
  | add n fd wait =>
    rw [nbioAdd_eq_ok hcall]
    exact h.put_wait (hp.active ..).1 (hp.active ..).2
  | setWait n wait => exact hset (show t.doSetWait p n wait none = .ok t' from hcall)
  | inactive n mask =>
    cases hcall
    have hlive : t.Live n := ⟨.active, hc, by simp⟩
    rcases nbioInactive_cases p t n mask with ⟨-, heq⟩ | ⟨hne, heq⟩
    · rw [heq]
      refine h.put (fun _ => ?_) nofun nofun
      rw [(hp.inactive ..).1]
      exact h.waits n hlive
    · rw [heq]
      exact h.setFlags hlive hne
  | toWaitq n q => exact hset hcall
  | wake n wait => exact hset (show t.doSetWait p n wait none = .ok t' from hcall)
  | waitOn n wait =>
    rw [(nbioWaitOn_eq_ok hcall).2]
    refine h.put (fun _ => ?_) nofun nofun
    rw [(hp.inactive ..).1, UInt8.and_assoc, UInt8.and_self]
  | del n =>
    cases hcall
    rw [nbioDel_eq]
    exact h.put (fun hq => absurd rfl hq) nofun fun _ => ⟨rfl, rfl⟩

theorem CannotSpin.kill (h : t.CannotSpin) (p : Backend κ ε) (n : ℕ) : (t.kill p n).CannotSpin := by
  cases hfd : (t.io n).fd with
  | none =>
    rw [kill_of_closed p hfd]
    exact h
  | some fd =>
    rw [kill_of_open p hfd]
    exact h.put (fun hq => absurd rfl hq) nofun fun _ => ⟨rfl, rfl⟩

theorem CannotSpin.pumpError (h : t.CannotSpin) (n : ℕ) : (t.pumpError n).CannotSpin := by
  rw [pumpError_eq]
  exact h.put (fun hq => absurd rfl hq) nofun fun _ => ⟨rfl, rfl⟩

theorem CannotSpin.reap (h : t.CannotSpin) : t.reap.CannotSpin := by
  refine ⟨fun n hn => h.waits n (live_reap.mp hn), ?_, ?_⟩
  · intro n hn
    rw [reap_lists_of_ne (by simp)] at hn
    exact h.due n hn
  · intro n hn
    have hnone : t.reap.lists .deleted = [] := by simp [IoThread.reap]
    rw [hnone] at hn
    cases hn

theorem cannotSpin_init (io : ℕ → LoopNbio) (priv : κ) : (init io priv).CannotSpin := by
  refine ⟨?_, ?_, ?_⟩
  · rintro n ⟨q, hq, -⟩
    cases hq
  · intro n hn
    cases hn
  · intro n hn
    cases hn

end

section
variable {κ ε : Type} {p : Backend κ ε} {guard : IoThread κ → LoopStep ε → Prop} {t t' : IoThread κ} {n : ℕ}
  {tmp : Option ℕ} {visits : List (IoThread κ × ℕ)}

theorem onList_put {m : ℕ} {io : LoopNbio} {q : Queue} {priv : κ} (hn : ∃ q, n ∈ t.lists q) :
    ∃ q', n ∈ (t.put m io q priv).lists q' := by
  by_cases hnm : n = m
  · rw [hnm]
    exact ⟨q, mem_put_self.mpr rfl⟩
  · obtain ⟨r, hr⟩ := hn
    exact ⟨r, (mem_put_of_ne hnm).mpr hr⟩

theorem onList_call {c : NbioCall} (hcall : t.call p c = .ok t') (hn : ∃ q, n ∈ t.lists q) : ∃ q, n ∈ t'.lists q := by
  have hset : ∀ {m wait w}, t.doSetWait p m wait w = .ok t' → ∃ q, n ∈ t'.lists q := by
    intro m wait w hcall
    rw [(doSetWait_eq_ok hcall).2]
    exact onList_put hn
  cases c with
  | add m fd wait =>
    rw [nbioAdd_eq_ok hcall]
    exact onList_put hn
  | setWait m wait => exact hset (show t.doSetWait p m wait none = .ok t' from hcall)
  | inactive m mask =>
    cases hcall
    rcases nbioInactive_cases p t m mask with ⟨-, heq⟩ | ⟨-, heq⟩
    · rw [heq]
      exact onList_put hn
    · rw [heq]
      exact hn
  | toWaitq m q => exact hset hcall
  | wake m wait => exact hset (show t.doSetWait p m wait none = .ok t' from hcall)
  | waitOn m wait =>
    rw [(nbioWaitOn_eq_ok hcall).2]
    exact onList_put hn
  | del m =>
    cases hcall
    rw [nbioDel_eq]
    exact onList_put hn

theorem onList_kill (p : Backend κ ε) (m : ℕ) (hn : ∃ q, n ∈ t.lists q) : ∃ q, n ∈ (t.kill p m).lists q := by
  cases hfd : (t.io m).fd with
  | none => rwa [kill_of_closed p hfd]
  | some fd =>
    rw [kill_of_open p hfd]
    exact onList_put hn

theorem Behind.onList (h : t.Behind n tmp) : ∃ q, n ∈ t.lists q := by
  cases h with
  | @nbio q before after tmp h => exact ⟨q, by rw [h]; simp⟩
  | head h => exact ⟨.active, by rw [h]; simp⟩

/-- What a callback comes to is a run of the loop that leaves nothing active which is not due. -/
theorem CallsBack.run (hp : LeavesFlags p) (hcalls : ∀ t c, guard t (.call c) → t.CalledFor c) (h : t.CannotSpin)
    (hn : ∃ q, n ∈ t.lists q) (hback : CallsBack p guard t t') :
    (∃ steps, GuardedRun (Takes p) guard t steps t') ∧ t'.CannotSpin ∧ ∃ q, n ∈ t'.lists q := by
  obtain ⟨steps, hrun⟩ := hback
  refine ⟨⟨steps, hrun.mono fun _ _ => And.left⟩, ?_⟩
  refine hrun.invariant (I := fun _ t => t.CannotSpin ∧ ∃ q, n ∈ t.lists q) ?_ ⟨h, hn⟩
  rintro _ t s t' ⟨hspin, hlinked⟩ ⟨hguard, hs⟩ hstep
  cases hstep with
  | @call c t' hcall => exact ⟨hspin.call hp (hcalls t c hguard) hcall, onList_call hcall hlinked⟩
  | @kill m hlive => exact ⟨hspin.kill p m, onList_kill p m hlinked⟩
  | report e => simp at hs
  | fail => simp at hs
  | reap => simp at hs

/-- So is a visit. -/
theorem CannotSpin.visit (hp : LeavesFlags p) (hcalls : ∀ t c, guard t (.call c) → t.CalledFor c)
    (hfails : ∀ t n, guard t (.fail n)) (h : t.CannotSpin) (hn : ∃ q, n ∈ t.lists q)
    {write read : IoThread κ → IoThread κ} (hwrite : ∀ t, CallsBack p guard t (write t))
    (hread : ∀ t, CallsBack p guard t (read t)) :
    (∃ steps, GuardedRun (Takes p) guard t steps (t.pumpVisit write read n)) ∧
      (t.pumpVisit write read n).CannotSpin := by
  have hcallback : ∀ {t : IoThread κ} {back : IoThread κ → IoThread κ} (due : Prop) [Decidable due],
      (∀ t, CallsBack p guard t (back t)) → t.CannotSpin → (∃ q, n ∈ t.lists q) →
      (∃ steps, GuardedRun (Takes p) guard t steps (if due then back t else t)) ∧
        (if due then back t else t).CannotSpin ∧ ∃ q, n ∈ (if due then back t else t).lists q := by
    intro t back due _ hback h hn
    split
    · exact (hback t).run hp hcalls h hn
    · exact ⟨⟨[], .start t⟩, h, hn⟩
  unfold pumpVisit
  dsimp only
  obtain ⟨⟨steps₁, hrun₁⟩, h₁, hn₁⟩ := hcallback ((t.io n).flags &&& (t.io n).mask &&& NBIO_WRITE ≠ 0) hwrite h hn
  generalize (if (t.io n).flags &&& (t.io n).mask &&& NBIO_WRITE ≠ 0 then write t else t) = t₁ at hrun₁ h₁ hn₁ ⊢
  obtain ⟨⟨steps₂, hrun₂⟩, h₂, q, hq⟩ :=
    hcallback ((t₁.io n).flags &&& (t₁.io n).mask &&& NBIO_READ ≠ 0) hread h₁ hn₁
  generalize (if (t₁.io n).flags &&& (t₁.io n).mask &&& NBIO_READ ≠ 0 then read t₁ else t₁) = t₂ at hrun₂ h₂ hq ⊢
  have hrun := hrun₁.append hrun₂
  split
  · next herror =>
    have hlive : t₂.Live n := by
      refine ⟨q, hq, ?_⟩
      rintro rfl
      rw [(h₂.gone n hq).2] at herror
      exact herror UInt8.zero_and
    exact ⟨⟨_, hrun.step (hfails t₂ n) (.fail hlive herror)⟩, h₂.pumpError n⟩
  · exact ⟨⟨_, hrun⟩, h₂⟩

/-- A pass is a run of the loop, and so is what comes before a visit; nothing is active that is not due. -/
theorem Pass.run (hp : LeavesFlags p) (hcalls : ∀ t c, guard t (.call c) → t.CalledFor c)
    (hfails : ∀ t n, guard t (.fail n)) (hpass : Pass p guard t tmp visits t') (h : t.CannotSpin) :
    (∃ steps, GuardedRun (Takes p) guard t steps t') ∧ t'.CannotSpin ∧
      ∀ v ∈ visits, v.1.CannotSpin ∧ ∃ steps, GuardedRun (Takes p) guard t steps v.1 := by
  induction hpass with
  | ended t => exact ⟨⟨[], .start t⟩, h, by simp⟩
  | @deleted t n hmask => exact ⟨⟨[], .start t⟩, h, by simp⟩
  | @visit t t' n tmp visits write read hmask hbehind hwrite hread hrest ih =>
    obtain ⟨⟨steps, hrun⟩, hvisited⟩ := h.visit hp hcalls hfails hbehind.onList hwrite hread
    obtain ⟨⟨steps', hrun'⟩, hspin, hvisits⟩ := ih hvisited
    refine ⟨⟨_, hrun.append hrun'⟩, hspin, ?_⟩
    intro v hv
    rcases List.mem_cons.mp hv with rfl | hv
    · exact ⟨h, [], .start t⟩
    · obtain ⟨hv, steps'', hrun''⟩ := hvisits v hv
      exact ⟨hv, _, hrun.append hrun''⟩

theorem Passes.run (hp : LeavesFlags p) (hcalls : ∀ t c, guard t (.call c) → t.CalledFor c)
    (hfails : ∀ t n, guard t (.fail n)) (hpasses : Passes p guard t visits t') (h : t.CannotSpin) :
    (∃ steps, GuardedRun (Takes p) guard t steps t') ∧ t'.CannotSpin ∧
      ∀ v ∈ visits, v.1.CannotSpin ∧ ∃ steps, GuardedRun (Takes p) guard t steps v.1 := by
  induction hpasses with
  | @ended t hnone => exact ⟨⟨[], .start t⟩, h, by simp⟩
  | pass hactive hpass hpasses ih =>
    obtain ⟨⟨steps, hrun⟩, hspin, hvisits⟩ := hpass.run hp hcalls hfails h
    obtain ⟨⟨steps', hrun'⟩, hspin', hvisits'⟩ := ih hspin
    refine ⟨⟨_, hrun.append hrun'⟩, hspin', ?_⟩
    intro v hv
    rcases List.mem_append.mp hv with hv | hv
    · exact hvisits v hv
    · obtain ⟨hv, steps'', hrun''⟩ := hvisits' v hv
      exact ⟨hv, _, hrun.append hrun''⟩

/-- A pass comes at least to the first nbio of the list. -/
theorem Passes.visits_first (h : t.CannotSpin) (hpasses : Passes p guard t visits t')
    (hn : (t.lists .active).head? = some n) : (t, n) ∈ visits := by
  cases hpasses with
  | ended hnone =>
    rw [hnone] at hn
    cases hn
  | @pass _ _ _ m rest _ _ hactive hpass hrest =>
    rw [hactive] at hn
    cases hn
    have hmem : n ∈ t.lists .active := by simp [hactive]
    cases hpass with
    | deleted hmask => exact absurd hmask (h.due n hmem).1
    | visit => exact List.mem_append_left _ (List.mem_cons_self ..)

/-- `nbio_pump` is a run of the loop, and does something about every nbio that it visits on the active list. -/
theorem NbioPump.run (hp : LeavesFlags p) (hcalls : ∀ t c, guard t (.call c) → t.CalledFor c)
    (hfails : ∀ t n, guard t (.fail n)) (hreaps : ∀ t, guard t .reap) (hpump : NbioPump p guard t visits t')
    (h : t.CannotSpin) : (∃ steps, GuardedRun (Takes p) guard t steps t') ∧
      (∀ n, (t.lists .active).head? = some n → (t, n) ∈ visits) ∧
      ∀ v ∈ visits, v.2 ∈ v.1.lists .active → (v.1.io v.2).Due := by
  cases hpump with
  | @waits t₁ visits e hpasses hinactive hreport =>
    obtain ⟨⟨steps, hrun⟩, -, hvisits⟩ := hpasses.run hp hcalls hfails h
    exact ⟨⟨_, (hrun.step (hreaps t₁) .reap).step hreport (.report e)⟩, fun n hn => hpasses.visits_first h hn,
      fun v hv => (hvisits v hv).1.due v.2⟩
  | @returns t₁ visits hpasses hinactive =>
    obtain ⟨⟨steps, hrun⟩, -, hvisits⟩ := hpasses.run hp hcalls hfails h
    exact ⟨⟨_, hrun.step (hreaps t₁) .reap⟩, fun n hn => hpasses.visits_first h hn,
      fun v hv => (hvisits v hv).1.due v.2⟩

end

section
variable {t t' : EpollThread} {n : ℕ} {e : ℕ × UInt32}

/-- Whether epoll may report `s` as the event `e`, and the report is for an nbio that was not destroyed and does
not pass it over: a peer that hung up is not reported alone if the nbio is not to be read from. -/
structure EpollHeard (t : EpollThread) (e : ℕ × UInt32) (fd : ℕ) (i : UInt32) (s : Reported) : Prop where
  set : t.priv fd = some (e.1, i)
  events : e.2 = s.epoll
  some : s ≠ ⟨false, false, false, false⟩
  input : s.input = true → i &&& EPOLLIN ≠ 0
  output : s.output = true → i &&& EPOLLOUT ≠ 0
  live : t.Live e.1
  fd : (t.io e.1).fd = Option.some fd
  hup : s = .hupAlone → (t.io e.1).mask &&& NBIO_READ ≠ 0

/-- Steps that are in order, where a new descriptor is in no set, with reports that are heard. -/
def EpollHeeded (t : EpollThread) : LoopStep (List (ℕ × UInt32)) → Prop
  | .call c => t.CalledFor c ∧ ∀ n fd wait, c = .add n fd wait → t.priv fd = none
  | .report ev => ∀ e ∈ ev, ∃ fd i s, t.EpollHeard e fd i s
  | _ => True

theorem leavesFlags_epoll : LeavesFlags epoll := by
  constructor
  · intro k n io
    change (epollInactive k n io).2.mask = _ ∧ (epollInactive k n io).2.flags = _
    unfold epollInactive
    split
    · exact ⟨rfl, rfl⟩
    · split
      · exact ⟨rfl, rfl⟩
      · split <;> exact ⟨rfl, rfl⟩
  · intro k n io
    change (epollActive k n io).2.mask = _ ∧ (epollActive k n io).2.flags = _
    unfold epollActive
    split
    · exact ⟨rfl, rfl⟩
    · split <;> exact ⟨rfl, rfl⟩

/-- The nbio that an event is for has the interest that its mask asks for. -/
theorem EpollHeard.due {fd : ℕ} {i : UInt32} {s : Reported} (h : t.EpollHeard e fd i s) (ht : t.EpollSound) :
    LoopNbio.Due { t.io e.1 with flags := epollFlags e.2 } := by
  obtain ⟨q, fd', -, hfd, hplaced, -⟩ := ht.live h.live
  cases h.fd.symm.trans hfd
  have hi : i = epollInterest (t.io e.1).mask := by
    rcases hplaced.watched with ⟨-, hset⟩ | ⟨-, hset, -⟩
    · rw [h.set] at hset
      cases hset
    · rw [h.set] at hset
      cases hset
      rfl
  have hasked : s.AskedBy (t.io e.1).mask := by
    constructor
    · intro hin
      exact (epollInterest_in _).mp (hi ▸ h.input hin)
    · intro hout
      exact (epollInterest_out _).mp (hi ▸ h.output hout)
  exact hasked.due { t.io e.1 with flags := epollFlags e.2 } (by rw [h.events, s.epollFlags_eq]) hplaced.mask
    h.some h.hup

theorem CannotSpin.deliver (h : t.CannotSpin) (hlive : t.Live e.1)
    (hdue : LoopNbio.Due { t.io e.1 with flags := epollFlags e.2 }) : (epollDeliver t e).CannotSpin := by
  have hput : epollDeliver t e = t.put e.1 { t.io e.1 with flags := epollFlags e.2 } .active t.priv := rfl
  rw [hput]
  exact h.put (fun _ => h.waits e.1 hlive) (fun _ => hdue) nofun

theorem EpollHeard.deliver {fd : ℕ} {i : UInt32} {s : Reported} {e' : ℕ × UInt32} (h : t.EpollHeard e' fd i s) :
    (epollDeliver t e).EpollHeard e' fd i s := by
  refine ⟨h.set, h.events, h.some, h.input, h.output, live_deliver e h.live, ?_, ?_⟩
  · exact (setFlags_fd (epollFlags e.2)).trans h.fd
  · intro hs
    have hmask : ((epollDeliver t e).io e'.1).mask = (t.io e'.1).mask := setFlags_mask (epollFlags e.2)
    rw [hmask]
    exact h.hup hs

theorem CannotSpin.epollPump {ev : List (ℕ × UInt32)} (h : t.CannotSpin) (ht : t.EpollSound)
    (hev : ∀ e ∈ ev, ∃ fd i s, t.EpollHeard e fd i s) :
    (epollPump t ev).EpollSound ∧ (epollPump t ev).CannotSpin := by
  induction ev generalizing t with
  | nil => exact ⟨ht, h⟩
  | cons e ev ih =>
    obtain ⟨fd, i, s, heard⟩ := hev e (List.mem_cons_self ..)
    refine ih (h.deliver heard.live (heard.due ht)) (ht.change (ht.deliver_change e.2 heard.live heard.fd heard.set)) ?_
    intro e' he'
    obtain ⟨fd', i', s', heard'⟩ := hev e' (List.mem_cons_of_mem _ he')
    exact ⟨fd', i', s', heard'.deliver⟩

theorem EpollSound.pumpError (ht : t.EpollSound) (hn : t.Live n) : (t.pumpError n).EpollSound := by
  obtain ⟨q, fd, -, hfd, -, hothers⟩ := ht.live hn
  have hput : t.pumpError n = t.put n { t.io n with mask := NBIO_DELETED, flags := 0 } .deleted
      (Function.update t.priv fd (t.priv fd)) := by
    rw [Function.update_eq_self]
    rfl
  rw [hput]
  exact ht.put ⟨fun _ => hfd, hothers, fun _ => hfd, fun h => absurd rfl h⟩

theorem CannotSpin.epollStep {s : LoopStep (List (ℕ × UInt32))} (h : t.CannotSpin) (ht : t.EpollSound)
    (hs : t.EpollHeeded s) (hstep : Takes epoll t s t') : t'.EpollSound ∧ t'.CannotSpin := by
  cases hstep with
  | call hcall =>
    obtain ⟨n, hchange⟩ := ht.call_change hs.1 hs.2 hcall
    exact ⟨ht.change hchange, h.call leavesFlags_epoll hs.1 hcall⟩
  | @kill n hlive => exact ⟨ht.change (ht.kill_change hlive), h.kill epoll n⟩
  | report ev => exact h.epollPump ht hs
  | @fail n hlive => exact ⟨ht.pumpError hlive, h.pumpError n⟩
  | reap => exact ⟨ht.reap, h.reap⟩

end

section
variable {t t' : PollThread} {n : ℕ}

/-- Whether `poll` may report `r`, and no nbio that is to be woken passes it over. -/
structure PollHeard (t : PollThread) (r : ℕ → UInt16) : Prop where
  slots : ∀ i < t.priv.numPfd, ∃ s : Reported, r i = s.poll ∧
    (s.input = true → (t.priv.pfd i).events &&& POLLIN ≠ 0) ∧
    (s.output = true → (t.priv.pfd i).events &&& POLLOUT ≠ 0)
  hup : ∀ n ∈ t.lists .inactive, 0 ≤ (t.io n).evPriv → r (t.io n).evPriv.toNat = Reported.hupAlone.poll →
    (t.io n).mask &&& NBIO_READ ≠ 0

/-- Steps that are in order, with slots that are in order and reports that are heard. -/
def PollHeeded (t : PollThread) : LoopStep (Option (ℕ → UInt16)) → Prop
  | .call c => t.CalledFor c
  | .report (some r) => t.SlotsInOrder (.report (some r)) ∧ t.PollHeard r
  | _ => True

theorem leavesFlags_poll : LeavesFlags pollLoop := by
  constructor
  · intro k n io
    change (pollInactive k n io).2.mask = _ ∧ (pollInactive k n io).2.flags = _
    rw [pollInactive_io]
    exact ⟨rfl, rfl⟩
  · exact fun k n io => ⟨rfl, rfl⟩

theorem pollInterest_in (mask : UInt8) : pollInterest mask &&& POLLIN ≠ 0 ↔ mask &&& NBIO_READ ≠ 0 := by
  unfold pollInterest
  split <;> split <;> simp_all +decide

theorem pollInterest_out (mask : UInt8) : pollInterest mask &&& POLLOUT ≠ 0 ↔ mask &&& NBIO_WRITE ≠ 0 := by
  unfold pollInterest
  split <;> split <;> simp_all +decide

/-- An inactive nbio that something is reported for in its slot is due. -/
theorem PollKeeps.due (ht : t.PollKeeps) (h : t.CannotSpin) {r : ℕ → UInt16} (hr : t.PollHeard r)
    (hn : n ∈ t.lists .inactive) (hwakes : (polled t r).Wakes n) : ((polled t r).priv.woke (t.io n)).Due := by
  obtain ⟨hpos, hrevents⟩ := hwakes
  obtain ⟨hbelow, -, hevents⟩ := ht.owned.slotted n hn hpos
  obtain ⟨s, hs, hin, hout⟩ := hr.slots _ hbelow
  have hslot : ((polled t r).priv.slot (t.io n)).revents = s.poll := by
    rw [← hs]
    unfold polled PollPriv.reported PollPriv.slot
    simp only
    rw [if_pos hbelow]
  have hmask : (t.io n).mask ≠ NBIO_DELETED := by
    rw [← h.waits n ⟨.inactive, hn, by simp⟩]
    exact wait_ne_deleted _
  have hasked : s.AskedBy (t.io n).mask := by
    unfold PollPriv.slot at hevents
    rw [hevents] at hin hout
    exact ⟨fun h => (pollInterest_in _).mp (hin h), fun h => (pollInterest_out _).mp (hout h)⟩
  refine hasked.due ((polled t r).priv.woke (t.io n)) ?_ hmask ?_ ?_
  · unfold PollPriv.woke
    rw [hslot, s.pollFlags_eq]
  · rintro rfl
    exact hrevents hslot
  · rintro rfl
    exact hr.hup n hn hpos hs

theorem CannotSpin.pollPump (h : t.CannotSpin) (ht : t.PollKeeps) {r : ℕ → UInt16} (hr : t.PollHeard r) :
    (pollPump t (some r)).CannotSpin := by
  have hwoken := woken_visits (polled t r) (ht.linked.nodup .inactive)
  refine ⟨?_, ?_, ?_⟩
  · intro n hn
    by_cases hn' : n ∈ t.lists .inactive ∧ (polled t r).Wakes n
    · have hio : (Ashttpd.pollPump t (some r)).io n = (polled t r).priv.woke (t.io n) := (hwoken.woken n hn'.1 hn'.2).1
      rw [hio]
      exact h.waits n ⟨.inactive, hn'.1, by simp⟩
    · have hsame := hwoken.same n hn'
      have hio : (Ashttpd.pollPump t (some r)).io n = t.io n := hsame.io
      rw [hio]
      exact h.waits n (hsame.live.mp hn)
  · intro n hn
    by_cases hn' : n ∈ t.lists .inactive ∧ (polled t r).Wakes n
    · have hio : (Ashttpd.pollPump t (some r)).io n = (polled t r).priv.woke (t.io n) := (hwoken.woken n hn'.1 hn'.2).1
      rw [hio]
      exact ht.due h hr hn'.1 hn'.2
    · have hsame := hwoken.same n hn'
      have hio : (Ashttpd.pollPump t (some r)).io n = t.io n := hsame.io
      rw [hio]
      exact h.due n ((hsame.lists .active).mp hn)
  · intro n hn
    by_cases hn' : n ∈ t.lists .inactive ∧ (polled t r).Wakes n
    · have hactive := ((hwoken.woken n hn'.1 hn'.2).2 .deleted).mp hn
      cases hactive
    · have hsame := hwoken.same n hn'
      have hio : (Ashttpd.pollPump t (some r)).io n = t.io n := hsame.io
      rw [hio]
      exact h.gone n ((hsame.lists .deleted).mp hn)

theorem CannotSpin.pollStep {s : LoopStep (Option (ℕ → UInt16))} (h : t.CannotSpin) (ht : t.PollKeeps)
    (hs : t.PollHeeded s) (hstep : Takes pollLoop t s t') : t'.PollKeeps ∧ t'.CannotSpin := by
  have horder : t.SlotsInOrder s := by
    cases s with
    | report e =>
      cases e with
      | none => trivial
      | some r => exact hs.1
    | _ => trivial
  refine ⟨ht.step horder hstep, ?_⟩
  cases hstep with
  | call hcall => exact h.call leavesFlags_poll hs hcall
  | @kill n hlive => exact h.kill pollLoop n
  | report e =>
    cases e with
    | none => exact h
    | some r => exact h.pollPump ht hs.2
  | @fail n hlive => exact h.pumpError n
  | reap => exact h.reap

end

theorem cannotSpin_of_epoll {io : ℕ → LoopNbio} {steps : List (LoopStep (List (ℕ × UInt32)))} {t : EpollThread}
    (hrun : GuardedRun (Takes epoll) EpollHeeded (init io fun _ => none) steps t) : t.CannotSpin :=
  (hrun.invariant (I := fun _ t => t.EpollSound ∧ t.CannotSpin)
    (fun _ _ _ _ h hs hstep => h.2.epollStep h.1 hs hstep) ⟨(epollKeeps_init io).sound, cannotSpin_init io _⟩).2

theorem cannotSpin_of_poll {io : ℕ → LoopNbio} {pfd : ℕ → Pollfd} {steps : List (LoopStep (Option (ℕ → UInt16)))}
    {t : PollThread} (hrun : GuardedRun (Takes pollLoop) PollHeeded (init io (pollInit pfd)) steps t) : t.CannotSpin :=
  (hrun.invariant (I := fun _ t => t.PollKeeps ∧ t.CannotSpin)
    (fun _ _ _ _ h hs hstep => h.2.pollStep h.1 hs hstep) ⟨pollKeeps_init io pfd, cannotSpin_init io _⟩).2

/-- **The event loop cannot spin**, with either backend, as long as reports are heard and, for `poll`, the slots
are in order: a pass over the active list runs a callback of every nbio on it, or deletes it. -/
theorem loop_cannot_spin (io : ℕ → LoopNbio) :
    (∀ (steps : List (LoopStep (List (ℕ × UInt32)))) (t : EpollThread),
      GuardedRun (Takes epoll) EpollHeeded (init io fun _ => none) steps t → ∀ n ∈ t.lists .active, (t.io n).Due) ∧
    ∀ (pfd : ℕ → Pollfd) (steps : List (LoopStep (Option (ℕ → UInt16)))) (t : PollThread),
      GuardedRun (Takes pollLoop) PollHeeded (init io (pollInit pfd)) steps t →
        ∀ n ∈ t.lists .active, (t.io n).Due := by
  constructor
  · exact fun steps t hrun => (cannotSpin_of_epoll hrun).due
  · exact fun pfd steps t hrun => (cannotSpin_of_poll hrun).due

/-- A call of `nbio_pump` goes on with such a run: it comes to the first nbio of the active list, and every nbio of that
list that it visits is due. -/
theorem nbioPump_works (io : ℕ → LoopNbio) :
    (∀ (steps : List (LoopStep (List (ℕ × UInt32)))) (t t' : EpollThread) (visits : List (EpollThread × ℕ)),
      GuardedRun (Takes epoll) EpollHeeded (init io fun _ => none) steps t → NbioPump epoll EpollHeeded t visits t' →
        (∃ steps', GuardedRun (Takes epoll) EpollHeeded (init io fun _ => none) steps' t') ∧
        (∀ n, (t.lists .active).head? = some n → (t, n) ∈ visits) ∧
        ∀ v ∈ visits, v.2 ∈ v.1.lists .active → (v.1.io v.2).Due) ∧
    ∀ (pfd : ℕ → Pollfd) (steps : List (LoopStep (Option (ℕ → UInt16)))) (t t' : PollThread)
      (visits : List (PollThread × ℕ)),
      GuardedRun (Takes pollLoop) PollHeeded (init io (pollInit pfd)) steps t → NbioPump pollLoop PollHeeded t visits t' →
        (∃ steps', GuardedRun (Takes pollLoop) PollHeeded (init io (pollInit pfd)) steps' t') ∧
        (∀ n, (t.lists .active).head? = some n → (t, n) ∈ visits) ∧
        ∀ v ∈ visits, v.2 ∈ v.1.lists .active → (v.1.io v.2).Due := by
  constructor
  · intro steps t t' visits hrun hpump
    obtain ⟨⟨steps', hrun'⟩, hworks⟩ := hpump.run leavesFlags_epoll (fun _ _ h => h.1) (fun _ _ => trivial)
      (fun _ => trivial) (cannotSpin_of_epoll hrun)
    exact ⟨⟨_, hrun.append hrun'⟩, hworks⟩
  · intro pfd steps t t' visits hrun hpump
    obtain ⟨⟨steps', hrun'⟩, hworks⟩ := hpump.run leavesFlags_poll (fun _ _ h => h) (fun _ _ => trivial)
      (fun _ => trivial) (cannotSpin_of_poll hrun)
    exact ⟨⟨_, hrun.append hrun'⟩, hworks⟩

/-- A descriptor is to be written to, and `s` is reported for it. -/
def writeThen (s : Reported) : List (LoopStep (List (ℕ × UInt32))) :=
  [.call (.add 0 5 NBIO_WRITE), .call (.inactive 0 NBIO_WRITE), .report [(0, s.epoll)]]

def writeThenPoll (s : Reported) : List (LoopStep (Option (ℕ → UInt16))) :=
  [.call (.add 0 5 NBIO_WRITE), .call (.inactive 0 NBIO_WRITE), .report (some fun _ => s.poll)]

theorem calledFor_first {κ : Type} {io : ℕ → LoopNbio} {priv : κ} (n fd : ℕ) (wait : UInt8) :
    (init io priv).CalledFor (.add n fd wait) := by
  refine ⟨fun q hq => (nomatch hq), ?_⟩
  rintro m ⟨q, hq, -⟩
  cases hq

theorem loop_cannot_spin_writable :
    (∃ t, GuardedRun (Takes epoll) EpollHeeded (init (fun _ => ⟨none, 0, 0, 0⟩) fun _ => none)
      (writeThen ⟨false, true, false, false⟩) t ∧ 0 ∈ t.lists .active ∧ ∀ n ∈ t.lists .active, (t.io n).Due) ∧
    ∃ t, GuardedRun (Takes pollLoop) PollHeeded (init (fun _ => ⟨none, 0, 0, 0⟩) (pollInit fun _ => ⟨none, 0, 0⟩))
      (writeThenPoll ⟨false, true, false, false⟩) t ∧ 0 ∈ t.lists .active ∧ ∀ n ∈ t.lists .active, (t.io n).Due := by
  constructor
  · have hrun : ∃ t, GuardedRun (Takes epoll) EpollHeeded (init (fun _ => ⟨none, 0, 0, 0⟩) fun _ => none)
        (writeThen ⟨false, true, false, false⟩) t ∧ 0 ∈ t.lists .active := by
      refine ⟨_, .cons ⟨calledFor_first 0 5 NBIO_WRITE, fun _ _ _ _ => rfl⟩ (.call rfl)
        (.cons ⟨List.mem_singleton.mpr rfl, nofun⟩ (.call rfl) (.cons ?_ (.report _) (.start _))),
        List.mem_singleton.mpr rfl⟩
      intro e he
      cases List.mem_singleton.mp he
      exact ⟨5, _, ⟨false, true, false, false⟩, rfl, rfl, by decide, by decide, by decide,
        ⟨.inactive, List.mem_singleton.mpr rfl, by decide⟩, rfl, by decide⟩
    obtain ⟨t, hrun, hactive⟩ := hrun
    exact ⟨t, hrun, hactive, (loop_cannot_spin _).1 _ t hrun⟩
  · have hrun : ∃ t, GuardedRun (Takes pollLoop) PollHeeded
        (init (fun _ => ⟨none, 0, 0, 0⟩) (pollInit fun _ => ⟨none, 0, 0⟩))
        (writeThenPoll ⟨false, true, false, false⟩) t ∧ 0 ∈ t.lists .active := by
      refine ⟨_, .cons (calledFor_first 0 5 NBIO_WRITE) (.call rfl) (.cons (List.mem_singleton.mpr rfl) (.call rfl)
        (.cons ⟨rfl, ?_, ?_⟩ (.report _) (.start _))), List.mem_singleton.mpr rfl⟩
      · intro i hi
        refine ⟨⟨false, true, false, false⟩, rfl, nofun, fun _ => ?_⟩
        cases Nat.lt_one_iff.mp hi
        decide
      · intro n hn hpos hr
        have hne : Reported.poll ⟨false, true, false, false⟩ ≠ Reported.hupAlone.poll := by decide
        exact absurd hr hne
    obtain ⟨t, hrun, hactive⟩ := hrun
    exact ⟨t, hrun, hactive, (loop_cannot_spin _).2 _ _ t hrun⟩

/-- A peer hangs up, and a pass does nothing about the nbio that waits for its descriptor to be written to. -/
theorem loop_spins_on_hup :
    (∃ t, GuardedRun (Takes epoll) EpollContract (init (fun _ => ⟨none, 0, 0, 0⟩) fun _ => none)
      (writeThen .hupAlone) t ∧ t.lists .active = [0] ∧ ¬ (t.io 0).Due ∧
      ∀ write read, t.pumpVisit write read 0 = t) ∧
    ∃ t, GuardedRun (Takes pollLoop) SlotsInOrder (init (fun _ => ⟨none, 0, 0, 0⟩) (pollInit fun _ => ⟨none, 0, 0⟩))
      (writeThenPoll .hupAlone) t ∧ t.lists .active = [0] ∧ ¬ (t.io 0).Due ∧
      ∀ write read, t.pumpVisit write read 0 = t := by
  constructor
  · have hrun : ∃ t, GuardedRun (Takes epoll) EpollContract (init (fun _ => ⟨none, 0, 0, 0⟩) fun _ => none)
        (writeThen .hupAlone) t ∧ t.lists .active = [0] ∧ (t.io 0).mask ≠ NBIO_DELETED ∧ ¬ (t.io 0).Due := by
      refine ⟨_, .cons (calledFor_first 0 5 NBIO_WRITE) (.call rfl) (.cons (List.mem_singleton.mpr rfl) (.call rfl)
        (.cons ?_ (.report _) (.start _))), rfl, by decide, by decide⟩
      intro e he
      cases List.mem_singleton.mp he
      exact ⟨5, _, rfl⟩
    obtain ⟨t, hrun, hactive, hmask, hdue⟩ := hrun
    exact ⟨t, hrun, hactive, hdue, pumpVisit_of_not_due hmask hdue⟩
  · have hrun : ∃ t, GuardedRun (Takes pollLoop) SlotsInOrder
        (init (fun _ => ⟨none, 0, 0, 0⟩) (pollInit fun _ => ⟨none, 0, 0⟩))
        (writeThenPoll .hupAlone) t ∧ t.lists .active = [0] ∧ (t.io 0).mask ≠ NBIO_DELETED ∧ ¬ (t.io 0).Due :=
      ⟨_, .cons trivial (.call rfl) (.cons trivial (.call rfl) (.cons rfl (.report _) (.start _))), rfl, by decide,
        by decide⟩
    obtain ⟨t, hrun, hactive, hmask, hdue⟩ := hrun
    exact ⟨t, hrun, hactive, hdue, pumpVisit_of_not_due hmask hdue⟩

end IoThread
end Ashttpd
