import Mathlib.Data.Fintype.Card
import Mathlib.Data.Fintype.EquivFin
import Mathlib.Logic.Relation

/-!
# Functions whose calls end in one more call

A call fails, returns, or comes to what another call of the same function comes to. Where there
are finitely many calls, a call that is led back to by none of those it leads to returns.
-/
namespace Ashttpd

open Relation

variable {ε ρ σ : Type*}

def TailCalls (call : σ → Except ε (ρ ⊕ σ)) (s s' : σ) : Prop := call s = .ok (.inr s')

/-- The call comes to the result, without a failure on the way. -/
inductive Returns (call : σ → Except ε (ρ ⊕ σ)) (o : ρ) : σ → Prop
  | here {s : σ} (h : call s = .ok (.inl o)) : Returns call o s
  | through {s s' : σ} (h : TailCalls call s s') (hs' : Returns call o s') : Returns call o s

variable {call : σ → Except ε (ρ ⊕ σ)} {o : ρ} {s s' s'' : σ}

theorem TailCalls.unique (h : TailCalls call s s') (h' : TailCalls call s s'') : s' = s'' := by
  have heq := h.symm.trans h'
  simpa using heq

theorem Returns.unique {o' : ρ} (h : Returns call o s) (h' : Returns call o' s) : o = o' := by
  induction h with
  | here h =>
    cases h' with
    | here h' => simpa using h.symm.trans h'
    | through h' => exact nomatch h.symm.trans h'
  | through h _ ih =>
    cases h' with
    | here h' => exact nomatch h.symm.trans h'
    | through h' hs' =>
      obtain rfl := h.unique h'
      exact ih hs'

theorem Returns.follow (h : Returns call o s) (hlead : ReflTransGen (TailCalls call) s s') :
    Returns call o s' := by
  induction hlead with
  | refl => exact h
  | tail _ hlast ih =>
    cases ih with
    | here hend => exact nomatch hend.symm.trans hlast
    | through hnext hs' => exact hlast.unique hnext ▸ hs'

theorem Returns.last (h : Returns call o s) :
    ∃ s', ReflTransGen (TailCalls call) s s' ∧ call s' = .ok (.inl o) := by
  induction h with
  | here h => exact ⟨_, .refl, h⟩
  | through h _ ih =>
    obtain ⟨s', hway, hend⟩ := ih
    exact ⟨s', hway.head h, hend⟩

theorem Returns.call_ok (h : Returns call o s) : ∃ x, call s = .ok x := by
  cases h with
  | here h => exact ⟨_, h⟩
  | through h => exact ⟨_, h⟩

theorem Returns.not_back (h : Returns call o s) : ¬ TransGen (TailCalls call) s s := by
  induction h with
  | here h =>
    intro hback
    obtain ⟨_, hnext, -⟩ := TransGen.head'_iff.mp hback
    exact nomatch h.symm.trans hnext
  | through h _ ih =>
    intro hback
    obtain ⟨_, hnext, hrest⟩ := TransGen.head'_iff.mp hback
    obtain rfl := h.unique hnext
    exact ih (TransGen.tail' hrest h)

/-- Every call that one call leads to goes well, and none of them is led back to. -/
structure Straight (call : σ → Except ε (ρ ⊕ σ)) (s : σ) : Prop where
  ok : ∀ s', ReflTransGen (TailCalls call) s s' → ∃ x, call s' = .ok x
  acyclic : ∀ s', ReflTransGen (TailCalls call) s s' → ¬ TransGen (TailCalls call) s' s'

theorem Straight.next (h : Straight call s) (hlead : TailCalls call s s') : Straight call s' :=
  ⟨fun s'' hs'' => h.ok s'' (hs''.head hlead), fun s'' hs'' => h.acyclic s'' (hs''.head hlead)⟩

theorem straight_of_returns (h : Returns call o s) : Straight call s :=
  ⟨fun _ hlead => (h.follow hlead).call_ok, fun _ hlead => (h.follow hlead).not_back⟩

/-- Among finitely many calls a straight one returns: what it leads to has no infinite descent. -/
theorem Straight.returns [Finite σ] (h : Straight call s) : ∃ o, Returns call o s := by
  let later (a b : {s' // Straight call s'}) : Prop := TransGen (TailCalls call) b.1 a.1
  have : IsTrans _ later := ⟨fun _ _ _ hab hbc => hbc.trans hab⟩
  have : Std.Irrefl later := ⟨fun a ha => a.2.acyclic a.1 .refl ha⟩
  have : Finite {s' // Straight call s'} := Subtype.finite
  have hwf : WellFounded later := Finite.wellFounded_of_trans_of_irrefl later
  suffices hall : ∀ a : {s' // Straight call s'}, ∃ o, Returns call o a.1 from hall ⟨s, h⟩
  intro a
  induction a using hwf.induction with
  | _ a ih =>
    obtain ⟨x, hx⟩ := a.2.ok a.1 .refl
    cases x with
    | inl o => exact ⟨o, .here hx⟩
    | inr s' =>
      have hlead : TailCalls call a.1 s' := hx
      obtain ⟨o, ho⟩ := ih ⟨s', a.2.next hlead⟩ (.single hlead)
      exact ⟨o, .through hlead ho⟩

end Ashttpd
