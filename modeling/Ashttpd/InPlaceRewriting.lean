import Ashttpd.ByteMemory

/-!
# Rewriting a string in place

A pass reads a terminated string byte by byte and writes what it emits over the bytes it has
read already. As long as a step never emits more than it and the steps before it have read,
writing does not reach reading, and the pass does on memory what its steps do on lists.
-/
namespace Ashttpd

variable {σ ε : Type*}

/-- How a pass ends: at the terminator, on an error, or at the limit of the buffer. -/
inductive PassEnd (σ ε : Type*) where
  | done (m : Mem) (out : ℕ) (s : σ)
  | failed (e : ε) (m : Mem)
  | overrun

/-- A pass over the string at `inp` that emits at `out`. A step gives the next state, the byte
it leaves in the cell it reads and the bytes it emits. The fuel is the number of cells up to
the end of the buffer. -/
def rewritePass (step : σ → UInt8 → Except ε (σ × UInt8 × Bytes)) :
    ℕ → Mem → ℕ → ℕ → σ → PassEnd σ ε
  | 0, _, _, _, _ => .overrun
  | fuel + 1, m, inp, out, s =>
    if m inp = 0 then .done m out s
    else match step s (m inp) with
      | .error e => .failed e m
      | .ok (s, b, bs) =>
        rewritePass step fuel ((m.store inp [b]).store out bs) (inp + 1) (out + bs.length) s

/-- The steps on a list: the last state and all that was emitted. -/
def runSteps (step : σ → UInt8 → Except ε (σ × UInt8 × Bytes)) : σ → Bytes → Except ε (σ × Bytes)
  | s, [] => .ok (s, [])
  | s, c :: cs =>
    match step s c with
    | .error e => .error e
    | .ok (s, _, bs) => (runSteps step s cs).map fun r => (r.1, bs ++ r.2)

/-- `pending s` bytes have been read in state `s` for which nothing was emitted yet. -/
def Lagging (step : σ → UInt8 → Except ε (σ × UInt8 × Bytes)) (pending : σ → ℕ) : Prop :=
  ∀ s c s' b bs, step s c = .ok (s', b, bs) → bs.length + pending s' ≤ pending s + 1

variable {step : σ → UInt8 → Except ε (σ × UInt8 × Bytes)} {pending : σ → ℕ}

theorem runSteps_cons_ok {s s' : σ} {c b : UInt8} {bs : Bytes}
    (h : step s c = .ok (s', b, bs)) (cs : Bytes) :
    runSteps step s (c :: cs) = (runSteps step s' cs).map fun r => (r.1, bs ++ r.2) := by
  rw [runSteps, h]

/-- The steps on a text that comes behind another. -/
theorem runSteps_append {s s' : σ} {x out : Bytes} (h : runSteps step s x = .ok (s', out)) (y : Bytes) :
    runSteps step s (x ++ y) = (runSteps step s' y).map fun r => (r.1, out ++ r.2) := by
  induction x generalizing s out with
  | nil =>
    cases h
    rw [List.nil_append]
    generalize runSteps step _ y = z
    cases z with
    | error e => rfl
    | ok r => rfl
  | cons c x ih =>
    cases hstep : step s c with
    | error e =>
      rw [runSteps, hstep] at h
      cases h
    | ok r =>
      obtain ⟨s₁, b, bs⟩ := r
      rw [runSteps_cons_ok hstep] at h
      cases hrun : runSteps step s₁ x with
      | error e =>
        rw [hrun] at h
        cases h
      | ok r =>
        rw [hrun] at h
        cases h
        rw [List.cons_append, runSteps_cons_ok hstep, ih hrun]
        generalize runSteps step _ y = z
        cases z with
        | error e => rfl
        | ok r => simp [Except.map, List.append_assoc]

theorem runSteps_error {s : σ} {text : Bytes} {e : ε} (h : runSteps step s text = .error e) :
    ∃ s' c, step s' c = .error e := by
  induction text generalizing s with
  | nil => cases h
  | cons c text ih =>
    cases hstep : step s c with
    | error e' =>
      rw [runSteps, hstep] at h
      cases h
      exact ⟨s, c, hstep⟩
    | ok r =>
      obtain ⟨s', b, bs⟩ := r
      rw [runSteps_cons_ok hstep] at h
      cases hrun : runSteps step s' text with
      | error e' =>
        rw [hrun] at h
        cases h
        exact ih hrun
      | ok r =>
        rw [hrun] at h
        cases h

/-- A pass emits on memory what its steps emit on the list, writes nothing before its output
and nothing from the terminator on, and fails where the steps fail. -/
theorem rewritePass_spec (hlag : Lagging step pending) {text : Bytes} {fuel : ℕ} {m : Mem}
    {inp out : ℕ} {s : σ} (hm : m.HoldsStr inp text) (hfuel : text.length < fuel)
    (hout : out + pending s ≤ inp) :
    match runSteps step s text with
    | .error e => ∃ m', rewritePass step fuel m inp out s = .failed e m'
    | .ok (s', bs) => ∃ m', rewritePass step fuel m inp out s = .done m' (out + bs.length) s' ∧
        m'.slice out bs.length = bs ∧ out + bs.length + pending s' ≤ inp + text.length ∧
        (∀ i < out, m' i = m i) ∧ ∀ i, inp + text.length ≤ i → m' i = m i := by
  induction text generalizing fuel m inp out s with
  | nil =>
    obtain ⟨fuel, rfl⟩ : ∃ n, fuel = n + 1 := ⟨fuel - 1, by omega⟩
    refine ⟨m, ?_, rfl, by simpa using hout, fun _ _ => rfl, fun _ _ => rfl⟩
    rw [rewritePass, if_pos (Mem.holdsStr_nil_iff.mp hm)]
    rfl
  | cons c text ih =>
    obtain ⟨hc, hc0, htext⟩ := Mem.holdsStr_cons.mp hm
    obtain ⟨fuel, rfl⟩ : ∃ n, fuel = n + 1 := ⟨fuel - 1, by omega⟩
    rw [List.length_cons] at hfuel
    have hread : ¬ m inp = 0 := by rwa [hc]
    cases hstep : step s c with
    | error e =>
      rw [runSteps, hstep]
      exact ⟨m, by rw [rewritePass, if_neg hread, hc, hstep]⟩
    | ok r =>
      obtain ⟨s', b, bs⟩ := r
      have hb := hlag s c s' b bs hstep
      have hpass : rewritePass step (fuel + 1) m inp out s = rewritePass step fuel
          ((m.store inp [b]).store out bs) (inp + 1) (out + bs.length) s' := by
        rw [rewritePass, if_neg hread, hc, hstep]
      have hlater : ∀ i, inp + 1 ≤ i → (m.store inp [b]).store out bs i = m i := by
        intro i hi
        rw [Mem.store_after _ _ _ (by omega), Mem.store_after _ _ _ (by simpa using hi)]
      have hm' : ((m.store inp [b]).store out bs).HoldsStr (inp + 1) text :=
        htext.congr fun i hi _ => (hlater i hi).symm
      have hfuel' : text.length < fuel := by omega
      have hout' : out + bs.length + pending s' ≤ inp + 1 := by omega
      have hrec := ih hm' hfuel' hout'
      rw [runSteps_cons_ok hstep, hpass]
      cases hrun : runSteps step s' text with
      | error e =>
        rw [hrun] at hrec
        exact hrec
      | ok r =>
        obtain ⟨s'', bs'⟩ := r
        rw [hrun] at hrec
        obtain ⟨m', hdone, hslice, hlen, hbefore, hafter⟩ := hrec
        refine ⟨m', ?_, ?_, ?_, ?_, ?_⟩
        · rw [hdone]
          simp [Nat.add_assoc]
        · have hfirst : m'.slice out bs.length = bs :=
            (Mem.slice_congr fun i _ hi => hbefore i hi).trans
              (Mem.slice_store_same (m.store inp [b]) out bs)
          rw [List.length_append, Mem.slice_add, hfirst, hslice]
        · have hlen' : (bs ++ bs').length = bs.length + bs'.length := List.length_append
          have htext' : (c :: text).length = text.length + 1 := rfl
          show out + (bs ++ bs').length + pending s'' ≤ inp + (c :: text).length
          omega
        · intro i hi
          rw [hbefore i (by omega), Mem.store_before _ _ _ hi, Mem.store_before _ _ _ (by omega)]
        · intro i hi
          rw [List.length_cons] at hi
          rw [hafter i (by omega), hlater i (by omega)]

/-- The states in which the steps find the bytes, the last one if it fails. -/
def stepVisits (step : σ → UInt8 → Except ε (σ × UInt8 × Bytes)) : σ → Bytes → List (σ × UInt8)
  | _, [] => []
  | s, c :: cs =>
    (s, c) :: match step s c with
      | .error _ => []
      | .ok (s, _, _) => stepVisits step s cs

/-- The states in which a pass finds the bytes of a string in memory. -/
def passVisits (step : σ → UInt8 → Except ε (σ × UInt8 × Bytes)) : ℕ → Mem → ℕ → ℕ → σ → List (σ × UInt8)
  | 0, _, _, _, _ => []
  | fuel + 1, m, inp, out, s =>
    if m inp = 0 then []
    else (s, m inp) :: match step s (m inp) with
      | .error _ => []
      | .ok (s, b, bs) =>
        passVisits step fuel ((m.store inp [b]).store out bs) (inp + 1) (out + bs.length) s

/-- A pass takes the steps that are taken on the list. -/
theorem passVisits_eq (hlag : Lagging step pending) {text : Bytes} {fuel : ℕ} {m : Mem}
    {inp out : ℕ} {s : σ} (hm : m.HoldsStr inp text) (hfuel : text.length < fuel)
    (hout : out + pending s ≤ inp) : passVisits step fuel m inp out s = stepVisits step s text := by
  induction text generalizing fuel m inp out s with
  | nil =>
    obtain ⟨fuel, rfl⟩ : ∃ n, fuel = n + 1 := ⟨fuel - 1, by omega⟩
    rw [passVisits, if_pos (Mem.holdsStr_nil_iff.mp hm)]
    rfl
  | cons c text ih =>
    obtain ⟨hc, hc0, htext⟩ := Mem.holdsStr_cons.mp hm
    obtain ⟨fuel, rfl⟩ : ∃ n, fuel = n + 1 := ⟨fuel - 1, by omega⟩
    rw [List.length_cons] at hfuel
    have hread : ¬ m inp = 0 := by rwa [hc]
    rw [passVisits, if_neg hread, hc, stepVisits]
    cases hstep : step s c with
    | error e => rfl
    | ok r =>
      obtain ⟨s', b, bs⟩ := r
      have hb := hlag s c s' b bs hstep
      have hm' : ((m.store inp [b]).store out bs).HoldsStr (inp + 1) text := by
        apply htext.congr
        intro i hi _
        rw [Mem.store_after _ _ _ (by omega), Mem.store_after _ _ _ (by simpa using hi)]
      exact congrArg _ (ih hm' (by omega) (by omega))

/-- Which ones are taken on a text that comes behind another. -/
theorem stepVisits_append {s s' : σ} {x out : Bytes} (h : runSteps step s x = .ok (s', out)) (y : Bytes) :
    stepVisits step s (x ++ y) = stepVisits step s x ++ stepVisits step s' y := by
  induction x generalizing s out with
  | nil =>
    cases h
    rfl
  | cons c x ih =>
    rw [List.cons_append, stepVisits, stepVisits]
    cases hstep : step s c with
    | error e =>
      rw [runSteps, hstep] at h
      cases h
    | ok r =>
      obtain ⟨s₁, b, bs⟩ := r
      rw [runSteps_cons_ok hstep] at h
      cases hrun : runSteps step s₁ x with
      | error e =>
        rw [hrun] at h
        cases h
      | ok r =>
        rw [hrun] at h
        cases h
        exact congrArg _ (ih hrun)

end Ashttpd
