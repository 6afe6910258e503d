import Ashttpd.NbioCalls

/-!
# The poll backend (`nbio-poll.c`)

`poll_pump` goes through the inactive list, wakes what something is reported for and moves the slots of
the others to the front. The indices that the nbios keep stay as they are.
-/
namespace Ashttpd

def POLLIN : UInt16 := 0x1
def POLLOUT : UInt16 := 0x4
def POLLERR : UInt16 := 0x8
def POLLHUP : UInt16 := 0x10

/-- `struct pollfd`. -/
structure Pollfd where
  fd : Option ℕ
  events : UInt16
  revents : UInt16
  deriving DecidableEq, Repr

/-- `struct poll_priv`. Memory that was not written to holds anything. -/
structure PollPriv where
  maxPfd : ℕ
  numPfd : ℕ
  pfd : ℕ → Pollfd

abbrev PollThread := IoThread PollPriv

/-- `upsize_pfdset`, when there is the memory. -/
def PollPriv.upsizePfdset (p : PollPriv) : PollPriv := { p with maxPfd := p.maxPfd + 8 }

/-- `poll_init`, in memory that holds `pfd`. -/
def pollInit (pfd : ℕ → Pollfd) : PollPriv := PollPriv.upsizePfdset ⟨0, 0, pfd⟩

/-- The events that are asked for. -/
def pollInterest (mask : UInt8) : UInt16 :=
  POLLERR ||| POLLHUP ||| (if mask &&& NBIO_READ ≠ 0 then POLLIN else 0) |||
    (if mask &&& NBIO_WRITE ≠ 0 then POLLOUT else 0)

def pollInactive (p : PollPriv) (_ : ℕ) (io : LoopNbio) : PollPriv × LoopNbio :=
  let p := if p.maxPfd ≤ p.numPfd then p.upsizePfdset else p
  let pfd := { p.pfd p.numPfd with fd := io.fd, events := pollInterest io.mask }
  ({ p with pfd := Function.update p.pfd p.numPfd pfd, numPfd := p.numPfd + 1 }, { io with evPriv := p.numPfd })

def pollActive (p : PollPriv) (_ : ℕ) (io : LoopNbio) : PollPriv × LoopNbio := (p, { io with evPriv := -1 })

/-- The flags for events that were reported. -/
def pollFlags (revents : UInt16) : UInt8 :=
  (if revents &&& (POLLIN ||| POLLHUP) ≠ 0 then NBIO_READ else 0) |||
    (if revents &&& POLLOUT ≠ 0 then NBIO_WRITE else 0) |||
    (if revents &&& POLLERR ≠ 0 then NBIO_ERROR else 0)

def PollPriv.slot (p : PollPriv) (io : LoopNbio) : Pollfd := p.pfd io.evPriv.toNat

def PollPriv.woke (p : PollPriv) (io : LoopNbio) : LoopNbio :=
  { io with flags := pollFlags (p.slot io).revents, evPriv := -1 }

/-- The slot of an nbio that nothing was reported for, copied to where the next one belongs. -/
def PollPriv.keep (p : PollPriv) (io : LoopNbio) : PollPriv :=
  let pfd := { p.pfd p.numPfd with fd := (p.slot io).fd, events := (p.slot io).events }
  { p with pfd := Function.update p.pfd p.numPfd pfd, numPfd := p.numPfd + 1 }

/-- What `poll_pump` does about an nbio of the inactive list. -/
def pollVisit (t : PollThread) (n : ℕ) : PollThread :=
  if (t.io n).evPriv < 0 then t
  else if (t.priv.slot (t.io n)).revents = 0 then { t with priv := t.priv.keep (t.io n) }
  else (t.setIo n (t.priv.woke (t.io n))).listMoveTail n .active

/-- What `poll` writes into the slots. -/
def PollPriv.reported (p : PollPriv) (r : ℕ → UInt16) : PollPriv :=
  { p with pfd := fun i => if i < p.numPfd then { p.pfd i with revents := r i } else p.pfd i }

/-- Where the loop of `poll_pump` begins. -/
def polled (t : PollThread) (r : ℕ → UInt16) : PollThread :=
  { t with priv := { t.priv.reported r with numPfd := 0 } }

/-- `poll_pump`, when `poll` fails or reports `r`. -/
def pollPump (t : PollThread) : Option (ℕ → UInt16) → PollThread
  | none => t
  | some r => (t.lists .inactive).foldl pollVisit (polled t r)

def pollLoop : Backend PollPriv (Option (ℕ → UInt16)) := ⟨pollInactive, pollActive, pollPump, fun p _ => p⟩

namespace IoThread

variable {t t' t'' : PollThread} {m n : ℕ} {l : List ℕ}

/-- Whether `poll_pump` wakes an nbio. -/
def Wakes (t : PollThread) (n : ℕ) : Prop := 0 ≤ (t.io n).evPriv ∧ (t.priv.slot (t.io n)).revents ≠ 0

/-- Whether `poll_pump` keeps the slot of an nbio. -/
def Keeps (t : PollThread) (n : ℕ) : Prop := 0 ≤ (t.io n).evPriv ∧ (t.priv.slot (t.io n)).revents = 0

instance (t : PollThread) : DecidablePred t.Wakes := fun _ => inferInstanceAs (Decidable (_ ∧ _))

instance (t : PollThread) : DecidablePred t.Keeps := fun _ => inferInstanceAs (Decidable (_ ∧ _))

theorem pollVisit_cases (t : PollThread) (n : ℕ) :
    (¬ t.Wakes n ∧ ¬ t.Keeps n ∧ pollVisit t n = t) ∨
    (¬ t.Wakes n ∧ t.Keeps n ∧ pollVisit t n = { t with priv := t.priv.keep (t.io n) }) ∨
    (t.Wakes n ∧ ¬ t.Keeps n ∧ pollVisit t n = t.put n (t.priv.woke (t.io n)) .active t.priv) := by
  unfold pollVisit Wakes Keeps
  by_cases hneg : (t.io n).evPriv < 0
  · have hnot : ¬ 0 ≤ (t.io n).evPriv := by omega
    exact Or.inl ⟨fun h => hnot h.1, fun h => hnot h.1, if_pos hneg⟩
  · have hpos : 0 ≤ (t.io n).evPriv := by omega
    rw [if_neg hneg]
    by_cases hzero : (t.priv.slot (t.io n)).revents = 0
    · exact Or.inr (Or.inl ⟨fun h => h.2 hzero, ⟨hpos, hzero⟩, if_pos hzero⟩)
    · rw [if_neg hzero]
      exact Or.inr (Or.inr ⟨⟨hpos, hzero⟩, fun h => hzero h.2, rfl⟩)

theorem keep_revents (p : PollPriv) (io : LoopNbio) (i : ℕ) : ((p.keep io).pfd i).revents = (p.pfd i).revents := by
  unfold PollPriv.keep
  by_cases hi : i = p.numPfd
  · simp [hi]
  · simp [hi]

/-- What a pass over some nbios of the inactive list does to the nbios. -/
structure Woken (t : PollThread) (l : List ℕ) (t' : PollThread) : Prop where
  revents : ∀ i, (t'.priv.pfd i).revents = (t.priv.pfd i).revents
  linked : Linked t.lists → Linked t'.lists
  woken : ∀ n ∈ l, t.Wakes n → t'.io n = t.priv.woke (t.io n) ∧ ∀ q, n ∈ t'.lists q ↔ q = .active
  same : ∀ n, ¬ (n ∈ l ∧ t.Wakes n) → Same t t' n

theorem wakes_congr (hrevents : ∀ i, (t'.priv.pfd i).revents = (t.priv.pfd i).revents) (hio : t'.io n = t.io n) :
    t'.Wakes n ↔ t.Wakes n := by
  unfold Wakes PollPriv.slot
  rw [hio, hrevents]

theorem woken_visit (t : PollThread) (n : ℕ) : Woken t [n] (pollVisit t n) := by
  rcases pollVisit_cases t n with ⟨hwakes, -, heq⟩ | ⟨hwakes, -, heq⟩ | ⟨hwakes, -, heq⟩
  · rw [heq]
    refine ⟨fun _ => rfl, id, ?_, fun _ _ => ⟨rfl, fun _ => Iff.rfl⟩⟩
    intro m hm hm'
    cases List.mem_singleton.mp hm
    exact absurd hm' hwakes
  · rw [heq]
    refine ⟨keep_revents t.priv (t.io n), id, ?_, fun _ _ => ⟨rfl, fun _ => Iff.rfl⟩⟩
    intro m hm hm'
    cases List.mem_singleton.mp hm
    exact absurd hm' hwakes
  · rw [heq]
    refine ⟨fun _ => rfl, fun h => h.moveTail n .active, ?_, ?_⟩
    · intro m hm _
      cases List.mem_singleton.mp hm
      exact ⟨put_io_self, fun _ => mem_put_self⟩
    · intro m hm
      have hmn : m ≠ n := by
        rintro rfl
        exact hm ⟨List.mem_singleton.mpr rfl, hwakes⟩
      exact same_put hmn

theorem Woken.trans (h : Woken t [n] t') (h' : Woken t' l t'') (hn : n ∉ l) : Woken t (n :: l) t'' := by
  have hrest : ∀ m ∈ l, Same t t' m := by
    intro m hm
    refine h.same m ?_
    rintro ⟨hmn, -⟩
    cases List.mem_singleton.mp hmn
    exact hn hm
  refine ⟨fun i => (h'.revents i).trans (h.revents i), fun hl => h'.linked (h.linked hl), ?_, ?_⟩
  · intro m hm hwakes
    rcases List.mem_cons.mp hm with rfl | hm
    · obtain ⟨hio, hlists⟩ := h.woken m (List.mem_singleton.mpr rfl) hwakes
      have hsame := h'.same m fun hm => hn hm.1
      exact ⟨hsame.io.trans hio, fun q => (hsame.lists q).trans (hlists q)⟩
    · have hsame := hrest m hm
      obtain ⟨hio, hlists⟩ := h'.woken m hm ((wakes_congr h.revents hsame.io).mpr hwakes)
      refine ⟨?_, hlists⟩
      rw [hio, hsame.io]
      unfold PollPriv.woke PollPriv.slot
      rw [h.revents]
  · intro m hm
    have hfirst := h.same m fun h => hm ⟨List.mem_cons.mpr (Or.inl (List.mem_singleton.mp h.1)), h.2⟩
    have hsecond := h'.same m fun h'' =>
      hm ⟨List.mem_cons_of_mem _ h''.1, (wakes_congr h.revents hfirst.io).mp h''.2⟩
    exact ⟨hsecond.io.trans hfirst.io, fun q => (hsecond.lists q).trans (hfirst.lists q)⟩

theorem woken_visits (t : PollThread) (hl : l.Nodup) : Woken t l (l.foldl pollVisit t) := by
  induction l generalizing t with
  | nil => exact ⟨fun _ => rfl, id, fun _ hn => (nomatch hn), fun _ _ => ⟨rfl, fun _ => Iff.rfl⟩⟩
  | cons n l ih =>
    have hn := List.nodup_cons.mp hl
    exact (woken_visit t n).trans (ih (pollVisit t n) hn.2) hn.1

/-- Whether the nbios that keep their slots have the next indices, in the order of the list. -/
def Numbered (t : PollThread) (l : List ℕ) : Prop :=
  (l.filter t.Keeps).map (fun n => (t.io n).evPriv.toNat) =
    List.range' t.priv.numPfd (l.filter t.Keeps).length

instance (t : PollThread) (l : List ℕ) : Decidable (t.Numbered l) := inferInstanceAs (Decidable (_ = _))

theorem keeps_congr (hrevents : ∀ i, (t'.priv.pfd i).revents = (t.priv.pfd i).revents) (hio : t'.io n = t.io n) :
    t'.Keeps n ↔ t.Keeps n := by
  unfold Keeps PollPriv.slot
  rw [hio, hrevents]

theorem keep_of_eq {p : PollPriv} {io : LoopNbio} (h : io.evPriv.toNat = p.numPfd) :
    p.keep io = { p with numPfd := p.numPfd + 1 } := by
  unfold PollPriv.keep PollPriv.slot
  simp only [h, Function.update_eq_self]

/-- What a pass keeps of the slots, if they are in order. -/
structure SlotsStay (t : PollThread) (l : List ℕ) (t' : PollThread) : Prop where
  pfd : t'.priv.pfd = t.priv.pfd
  numPfd : t'.priv.numPfd = t.priv.numPfd + (l.filter t.Keeps).length

theorem slotsStay_visits (t : PollThread) (hl : l.Nodup) (hnum : t.Numbered l) :
    SlotsStay t l (l.foldl pollVisit t) := by
  induction l generalizing t with
  | nil => exact ⟨rfl, rfl⟩
  | cons n l ih =>
    obtain ⟨hn, hl⟩ := List.nodup_cons.mp hl
    have hvisit := woken_visit t n
    have hfilter : l.filter (pollVisit t n).Keeps = l.filter t.Keeps := by
      apply List.filter_congr
      intro m hm
      have hsame := hvisit.same m fun h => hn (List.mem_singleton.mp h.1 ▸ hm)
      exact decide_eq_decide.mpr (keeps_congr hvisit.revents hsame.io)
    have hmap : (l.filter t.Keeps).map (fun n' => ((pollVisit t n).io n').evPriv.toNat) =
        (l.filter t.Keeps).map (fun n' => (t.io n').evPriv.toNat) := by
      apply List.map_congr_left
      intro m hm
      have hsame := hvisit.same m fun h => hn (List.mem_singleton.mp h.1 ▸ (List.mem_filter.mp hm).1)
      rw [hsame.io]
    have hrest : ∀ {k}, (pollVisit t n).priv.pfd = t.priv.pfd → (pollVisit t n).priv.numPfd = t.priv.numPfd + k →
        ((l.filter t.Keeps).map (fun n' => (t.io n').evPriv.toNat) =
          List.range' (t.priv.numPfd + k) (l.filter t.Keeps).length) →
        ((n :: l).filter t.Keeps).length = k + (l.filter t.Keeps).length →
        SlotsStay t (n :: l) ((n :: l).foldl pollVisit t) := by
      intro k hpfd hk hindices hlength
      have hnext := ih (pollVisit t n) hl (by
        unfold Numbered
        rw [hfilter, hmap, hk, hindices])
      refine ⟨hnext.pfd.trans hpfd, ?_⟩
      rw [List.foldl_cons, hnext.numPfd, hfilter, hk, hlength, Nat.add_assoc]
    unfold Numbered at hnum
    by_cases hkeeps : t.Keeps n
    · rw [List.filter_cons_of_pos (by simpa using hkeeps), List.map_cons, List.length_cons, List.range'_succ] at hnum
      obtain ⟨hindex, hindices⟩ := List.cons.inj hnum
      rcases pollVisit_cases t n with ⟨-, hnot, -⟩ | ⟨-, -, heq⟩ | ⟨-, hnot, -⟩
      · exact absurd hkeeps hnot
      · rw [keep_of_eq hindex] at heq
        refine hrest (k := 1) ?_ ?_ hindices ?_
        · rw [heq]
        · rw [heq]
        · rw [List.filter_cons_of_pos (by simpa using hkeeps), List.length_cons, Nat.add_comm]
      · exact absurd hkeeps hnot
    · rw [List.filter_cons_of_neg (by simpa using hkeeps)] at hnum
      refine hrest (k := 0) ?_ ?_ hnum ?_
      · rcases pollVisit_cases t n with ⟨-, -, heq⟩ | ⟨-, hk, -⟩ | ⟨-, -, heq⟩
        · rw [heq]
        · exact absurd hk hkeeps
        · rw [heq, put_priv]
      · rcases pollVisit_cases t n with ⟨-, -, heq⟩ | ⟨-, hk, -⟩ | ⟨-, -, heq⟩
        · rw [heq, Nat.add_zero]
        · exact absurd hk hkeeps
        · rw [heq, put_priv, Nat.add_zero]
      · rw [List.filter_cons_of_neg (by simpa using hkeeps), Nat.zero_add]

end IoThread
end Ashttpd
