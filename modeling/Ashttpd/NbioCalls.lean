import Ashttpd.EventLoop
import Ashttpd.Headers

/-!
# What the calls for an nbio come to

Every call gives one nbio new fields, a list to be on and the backend a new state.
-/
namespace Ashttpd
namespace IoThread

variable {κ ε : Type} {p : Backend κ ε} {t t' : IoThread κ} {m n : ℕ} {io : LoopNbio} {q r : Queue} {priv : κ}

@[simp] theorem setIo_io_self : (t.setIo n io).io n = io := Function.update_self ..

theorem setIo_io_of_ne (h : m ≠ n) : (t.setIo n io).io m = t.io m := Function.update_of_ne h ..

theorem setFlags_fd (flags : UInt8) :
    ((t.setIo n { t.io n with flags := flags }).io m).fd = (t.io m).fd := by
  by_cases hmn : m = n
  · rw [hmn, setIo_io_self]
  · rw [setIo_io_of_ne hmn]

theorem setFlags_mask (flags : UInt8) :
    ((t.setIo n { t.io n with flags := flags }).io m).mask = (t.io m).mask := by
  by_cases hmn : m = n
  · rw [hmn, setIo_io_self]
  · rw [setIo_io_of_ne hmn]

/-- New fields for an nbio, the list it goes to, and the backend's own state. -/
def put (t : IoThread κ) (n : ℕ) (io : LoopNbio) (q : Queue) (priv : κ) : IoThread κ where
  io := Function.update t.io n io
  lists := moveTail t.lists n q
  priv := priv

@[simp] theorem put_priv : (t.put n io q priv).priv = priv := rfl

@[simp] theorem put_io_self : (t.put n io q priv).io n = io := Function.update_self ..

theorem put_io_of_ne (h : m ≠ n) : (t.put n io q priv).io m = t.io m := Function.update_of_ne h ..

theorem mem_put_self : n ∈ (t.put n io q priv).lists r ↔ r = q := mem_moveTail_self

theorem mem_put_of_ne (h : m ≠ n) : m ∈ (t.put n io q priv).lists r ↔ m ∈ t.lists r := mem_moveTail_of_ne h

theorem live_put_self : (t.put n io q priv).Live n ↔ q ≠ .deleted := by
  constructor
  · rintro ⟨r, hr, hdeleted⟩
    rwa [mem_put_self.mp hr] at hdeleted
  · intro hq
    exact ⟨q, mem_put_self.mpr rfl, hq⟩

theorem live_put_of_ne (h : m ≠ n) : (t.put n io q priv).Live m ↔ t.Live m := by
  constructor
  · rintro ⟨r, hr, hdeleted⟩
    exact ⟨r, (mem_put_of_ne h).mp hr, hdeleted⟩
  · rintro ⟨r, hr, hdeleted⟩
    exact ⟨r, (mem_put_of_ne h).mpr hr, hdeleted⟩

/-- An nbio that nothing is done about. -/
structure Same (t t' : IoThread κ) (m : ℕ) : Prop where
  io : t'.io m = t.io m
  lists : ∀ q, m ∈ t'.lists q ↔ m ∈ t.lists q

theorem same_put (h : m ≠ n) : Same t (t.put n io q priv) m := ⟨put_io_of_ne h, fun _ => mem_put_of_ne h⟩

theorem Same.live (h : Same t t' m) : t'.Live m ↔ t.Live m := by
  unfold Live
  simp only [h.lists]

/-- Where a call may be made: a new nbio has a descriptor of its own, only an active one is put on the
inactive list, and only a parked one is waited for. -/
def CalledFor (t : IoThread κ) : NbioCall → Prop
  | .add n fd _ => (∀ q, n ∉ t.lists q) ∧ ∀ m, t.Live m → (t.io m).fd ≠ some fd
  | .inactive n _ => n ∈ t.lists .active
  | .waitOn n wait => t.Live n ∧ (t.io n).mask = 0 ∧ wait &&& NBIO_WAIT ≠ 0
  | .setWait n _ | .toWaitq n _ | .wake n _ | .del n => t.Live n

theorem wait_ne_deleted (wait : UInt8) : wait &&& NBIO_WAIT ≠ NBIO_DELETED := by
  intro h
  have hand : wait &&& NBIO_WAIT &&& NBIO_DELETED = 0 := by
    rw [UInt8.and_assoc]
    exact UInt8.and_zero
  rw [h] at hand
  revert hand
  decide

/-- The queue that `do_set_wait` puts an nbio on. -/
def waitQueue (wait : UInt8) (q : Option ℕ) : Queue :=
  if wait &&& NBIO_WAIT = 0 then
    match q with
    | none => .inactive
    | some i => .waitq i
  else .active

theorem waitQueue_ne_deleted (wait : UInt8) (q : Option ℕ) : waitQueue wait q ≠ .deleted := by
  unfold waitQueue
  split
  · cases q <;> simp
  · simp

theorem nbioDel_eq (p : Backend κ ε) (t : IoThread κ) (n : ℕ) :
    t.nbioDel p n = t.put n { (p.active t.priv n (t.io n)).2 with mask := NBIO_DELETED, flags := 0 } .deleted
      (p.active t.priv n (t.io n)).1 := by
  unfold nbioDel pluginActive listMoveTail setIo put
  simp

theorem doSetWait_eq_ok {wait : UInt8} {w : Option ℕ} (h : t.doSetWait p n wait w = .ok t') :
    (t.io n).mask ≠ NBIO_DELETED ∧
      t' = t.put n
        (p.active t.priv n { t.io n with mask := wait &&& NBIO_WAIT, flags := wait &&& NBIO_WAIT }).2
        (waitQueue wait w)
        (p.active t.priv n { t.io n with mask := wait &&& NBIO_WAIT, flags := wait &&& NBIO_WAIT }).1 := by
  unfold doSetWait at h
  split at h
  · cases h
  · next hmask =>
    refine ⟨hmask, ?_⟩
    unfold waitQueue put
    simp only at h
    split at h
    · next hwait =>
      cases h
      rw [if_pos hwait]
      unfold pluginActive listMoveTail setIo
      cases w <;> simp
    · next hwait =>
      cases h
      rw [if_neg hwait]
      unfold pluginActive listMoveTail setIo
      simp

theorem nbioAdd_eq_ok {fd : ℕ} {wait : UInt8} (h : t.nbioAdd p n fd wait = .ok t') :
    t' = t.put n (p.active t.priv n ⟨some fd, wait &&& NBIO_WAIT, wait &&& NBIO_WAIT, 0⟩).2 (waitQueue wait none)
      (p.active t.priv n ⟨some fd, wait &&& NBIO_WAIT, wait &&& NBIO_WAIT, 0⟩).1 := by
  obtain ⟨-, ht⟩ := doSetWait_eq_ok h
  rw [ht]
  unfold setIo put
  simp

theorem nbioWaitOn_eq_ok {wait : UInt8} (h : t.nbioWaitOn p n wait = .ok t') :
    (t.io n).mask ≠ NBIO_DELETED ∧
      t' = t.put n
        (p.inactive t.priv n { t.io n with mask := wait &&& NBIO_WAIT, flags := wait &&& NBIO_WAIT }).2
        .inactive
        (p.inactive t.priv n { t.io n with mask := wait &&& NBIO_WAIT, flags := wait &&& NBIO_WAIT }).1 := by
  unfold nbioWaitOn at h
  split at h
  · cases h
  · next hmask =>
    cases h
    refine ⟨hmask, ?_⟩
    unfold pluginInactive listMoveTail setIo put
    simp

/-- An nbio that waits for nothing that was reported becomes inactive, and another one stays. -/
theorem nbioInactive_cases (p : Backend κ ε) (t : IoThread κ) (n : ℕ) (mask : UInt8) :
    ((t.io n).mask &&& ((t.io n).flags &&& ~~~mask) = 0 ∧
      t.nbioInactive p n mask = t.put n
        (p.inactive t.priv n { t.io n with flags := (t.io n).flags &&& ~~~mask }).2 .inactive
        (p.inactive t.priv n { t.io n with flags := (t.io n).flags &&& ~~~mask }).1) ∨
    ((t.io n).mask &&& ((t.io n).flags &&& ~~~mask) ≠ 0 ∧
      t.nbioInactive p n mask = t.setIo n { t.io n with flags := (t.io n).flags &&& ~~~mask }) := by
  unfold nbioInactive
  simp only [setIo_io_self]
  split
  · next hflags =>
    refine Or.inl ⟨hflags, ?_⟩
    unfold pluginInactive listMoveTail setIo put
    simp
  · next hflags => exact Or.inr ⟨hflags, rfl⟩

theorem kill_of_closed (p : Backend κ ε) (h : (t.io n).fd = none) : t.kill p n = t := by
  unfold kill
  rw [h]

theorem kill_of_open (p : Backend κ ε) {fd : ℕ} (h : (t.io n).fd = some fd) :
    t.kill p n = t.put n
      { (p.active (p.closed t.priv fd) n { t.io n with fd := none }).2 with mask := NBIO_DELETED, flags := 0 }
      .deleted (p.active (p.closed t.priv fd) n { t.io n with fd := none }).1 := by
  unfold kill
  rw [h]
  simp only
  rw [nbioDel_eq]
  unfold setIo put
  simp

theorem pumpError_eq (t : IoThread κ) (n : ℕ) :
    t.pumpError n = t.put n { t.io n with mask := NBIO_DELETED, flags := 0 } .deleted t.priv := rfl

theorem added_append {n : ℕ} {steps : List (LoopStep ε)} {s : LoopStep ε} :
    Added n (steps ++ [s]) = StaysAdded n (Added n steps) s := by
  unfold Added
  rw [List.foldl_append, List.foldl_cons, List.foldl_nil]

@[simp] theorem reap_lists_deleted : t.reap.lists .deleted = [] := by
  unfold reap
  simp

theorem reap_lists_of_ne (h : q ≠ .deleted) : t.reap.lists q = t.lists q := by
  unfold reap
  simp [h]

theorem live_reap : t.reap.Live n ↔ t.Live n := by
  constructor
  · rintro ⟨q, hn, hq⟩
    exact ⟨q, by rwa [reap_lists_of_ne hq] at hn, hq⟩
  · rintro ⟨q, hn, hq⟩
    exact ⟨q, by rwa [reap_lists_of_ne hq], hq⟩

theorem linked_reap (h : Linked t.lists) : Linked t.reap.lists := by
  have hsub : ∀ q a, a ∈ t.reap.lists q → a ∈ t.lists q := by
    intro q a ha
    by_cases hq : q = .deleted
    · rw [hq, reap_lists_deleted] at ha
      cases ha
    · rwa [reap_lists_of_ne hq] at ha
  constructor
  · intro q
    by_cases hq : q = .deleted
    · rw [hq, reap_lists_deleted]
      exact List.nodup_nil
    · rw [reap_lists_of_ne hq]
      exact h.nodup q
  · intro q r a hq hr
    exact h.apart q r a (hsub q a hq) (hsub r a hr)

theorem live_kill {p : Backend κ ε} (h : n ≠ m) (hm : t.Live m) : (t.kill p n).Live m := by
  cases hfd : (t.io n).fd with
  | none => rwa [kill_of_closed p hfd]
  | some fd =>
    rw [kill_of_open p hfd]
    exact (live_put_of_ne (Ne.symm h)).mpr hm

/-- A call leaves no nbio on two lists. -/
theorem linked_call {c : NbioCall} (ht : Linked t.lists) (hcall : t.call p c = .ok t') : Linked t'.lists := by
  have hput : ∀ {n io q priv}, t' = t.put n io q priv → Linked t'.lists := by
    rintro n io q priv rfl
    exact ht.moveTail n q
  cases c with
  | add n fd wait => exact hput (nbioAdd_eq_ok hcall)
  | setWait n wait =>
    change t.doSetWait p n wait none = .ok t' at hcall
    exact hput (doSetWait_eq_ok hcall).2
  | inactive n mask =>
    cases hcall
    rcases nbioInactive_cases p t n mask with ⟨-, heq⟩ | ⟨-, heq⟩
    · exact hput heq
    · rw [heq]
      exact ht
  | toWaitq n q => exact hput (doSetWait_eq_ok hcall).2
  | wake n wait =>
    change t.doSetWait p n wait none = .ok t' at hcall
    exact hput (doSetWait_eq_ok hcall).2
  | waitOn n wait => exact hput (nbioWaitOn_eq_ok hcall).2
  | del n =>
    cases hcall
    exact hput (nbioDel_eq ..)

/-- A call leaves the nbios linked that were added, the one that it adds among them. -/
theorem live_call {c : NbioCall} {added : Prop} (hcall : t.call p c = .ok t') (h : added → t.Live n)
    (hadded : StaysAdded n added (.call c : LoopStep ε)) : t'.Live n := by
  have hput : ∀ {m io q priv}, t' = t.put m io q priv → q ≠ .deleted → m = n ∨ added → t'.Live n := by
    rintro m io q priv rfl hq hn
    by_cases hmn : n = m
    · subst hmn
      exact live_put_self.mpr hq
    · exact (live_put_of_ne hmn).mpr (h (hn.resolve_left (Ne.symm hmn)))
  cases c with
  | add m fd wait => exact hput (nbioAdd_eq_ok hcall) (waitQueue_ne_deleted wait none) hadded
  | setWait m wait =>
    change t.doSetWait p m wait none = .ok t' at hcall
    exact hput (doSetWait_eq_ok hcall).2 (waitQueue_ne_deleted wait none) (Or.inr hadded)
  | inactive m mask =>
    cases hcall
    rcases nbioInactive_cases p t m mask with ⟨-, heq⟩ | ⟨-, heq⟩
    · exact hput heq (by simp) (Or.inr hadded)
    · rw [heq]
      exact h hadded
  | toWaitq m w => exact hput (doSetWait_eq_ok hcall).2 (waitQueue_ne_deleted 0 w) (Or.inr hadded)
  | wake m wait =>
    change t.doSetWait p m wait none = .ok t' at hcall
    exact hput (doSetWait_eq_ok hcall).2 (waitQueue_ne_deleted wait none) (Or.inr hadded)
  | waitOn m wait => exact hput (nbioWaitOn_eq_ok hcall).2 (by simp) (Or.inr hadded)
  | del m =>
    cases hcall
    rw [nbioDel_eq]
    exact (live_put_of_ne (Ne.symm hadded.1)).mpr (h hadded.2)

end IoThread
end Ashttpd
