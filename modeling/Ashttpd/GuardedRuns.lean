import Mathlib.Data.List.Basic

/-!
# Runs of a system whose steps meet a condition

A step takes a state and an input to a state, if it is possible at all. What holds at first
and is kept by every step that meets the condition holds wherever such steps lead.
-/
namespace Ashttpd

variable {σ ι : Type*}

/-- The states that the inputs lead to, every one of which meets the condition when it comes. -/
inductive GuardedRun (step : σ → ι → σ → Prop) (guard : σ → ι → Prop) : σ → List ι → σ → Prop
  | start (s : σ) : GuardedRun step guard s [] s
  | step {s s' s'' : σ} {inputs : List ι} {i : ι} (hrun : GuardedRun step guard s inputs s')
      (hguard : guard s' i) (hstep : step s' i s'') : GuardedRun step guard s (inputs ++ [i]) s''

abbrev Run (step : σ → ι → σ → Prop) : σ → List ι → σ → Prop := GuardedRun step fun _ _ => True

variable {step : σ → ι → σ → Prop} {guard : σ → ι → Prop}

theorem GuardedRun.invariant {I : List ι → σ → Prop}
    (hstep : ∀ inputs s i s', I inputs s → guard s i → step s i s' → I (inputs ++ [i]) s')
    {s s' : σ} {inputs : List ι} (hrun : GuardedRun step guard s inputs s') (hs : I [] s) :
    I inputs s' := by
  induction hrun with
  | start => exact hs
  | step _ hguard hlast ih => exact hstep _ _ _ _ ih hguard hlast

theorem GuardedRun.cons {s s' s'' : σ} {inputs : List ι} {i : ι} (hguard : guard s i)
    (hstep : step s i s') (hrun : GuardedRun step guard s' inputs s'') :
    GuardedRun step guard s (i :: inputs) s'' := by
  induction hrun with
  | start => exact .step (.start s) hguard hstep
  | step _ hguard' hstep' ih => exact .step ih hguard' hstep'

theorem GuardedRun.append {s s' s'' : σ} {inputs inputs' : List ι} (hrun : GuardedRun step guard s inputs s')
    (hrun' : GuardedRun step guard s' inputs' s'') : GuardedRun step guard s (inputs ++ inputs') s'' := by
  induction hrun' with
  | start => rwa [List.append_nil]
  | step _ hguard hstep ih =>
    rw [← List.append_assoc]
    exact .step ih hguard hstep

theorem GuardedRun.mono {guard' : σ → ι → Prop} (hguard : ∀ s i, guard s i → guard' s i) {s s' : σ}
    {inputs : List ι} (hrun : GuardedRun step guard s inputs s') : GuardedRun step guard' s inputs s' := by
  induction hrun with
  | start => exact .start _
  | step _ hg hstep ih => exact .step ih (hguard _ _ hg) hstep

/-- Taking steps by a function, as long as they are possible and meet the condition. -/
def play (next : σ → ι → Option σ) (guard : σ → ι → Prop) [∀ s i, Decidable (guard s i)] :
    σ → List ι → Option σ
  | s, [] => some s
  | s, i :: inputs =>
    if guard s i then
      match next s i with
      | none => none
      | some s' => play next guard s' inputs
    else none

theorem guardedRun_of_play {next : σ → ι → Option σ} [∀ s i, Decidable (guard s i)]
    (hnext : ∀ s i s', next s i = some s' → step s i s') {s s' : σ} {inputs : List ι}
    (h : play next guard s inputs = some s') : GuardedRun step guard s inputs s' := by
  induction inputs generalizing s with
  | nil =>
    cases h
    exact .start _
  | cons i inputs ih =>
    unfold play at h
    split at h
    · next hguard =>
      cases hs : next s i with
      | none =>
        rw [hs] at h
        cases h
      | some s₁ =>
        rw [hs] at h
        exact .cons hguard (hnext s i s₁ hs) (ih h)
    · cases h

end Ashttpd
