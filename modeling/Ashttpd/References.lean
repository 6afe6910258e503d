import Mathlib.Data.List.Basic
import Mathlib.Data.Nat.Notation
import Mathlib.Logic.Function.Basic

/-!
# References that are held in one place each

An object is known by its place in the list of reference counts. As long as whoever lets go of a
reference gives it back, the count of an object is one if a place holds it, and zero else.
-/
namespace Ashttpd

variable {ι : Type*} [DecidableEq ι] {holds : ι → Option ℕ} {counts : List ℕ} {i j : ι} {w : ℕ}

/-- Every reference is held in one place. -/
structure Owned (holds : ι → Option ℕ) (counts : List ℕ) : Prop where
  opened : ∀ i w, holds i = some w → w < counts.length
  once : ∀ i j w, holds i = some w → holds j = some w → i = j
  held : ∀ i w n, holds i = some w → counts[w]? = some n → n = 1
  freed : ∀ w n, (∀ i, holds i ≠ some w) → counts[w]? = some n → n = 0

/-- A new object comes with a reference to it. -/
theorem Owned.open (h : Owned holds counts) (hi : holds i = none) :
    Owned (Function.update holds i (some counts.length)) (counts ++ [1]) := by
  have hother : ∀ j w, Function.update holds i (some counts.length) j = some w →
      j = i ∧ w = counts.length ∨ j ≠ i ∧ holds j = some w ∧ w < counts.length := by
    intro j w hj
    by_cases hji : j = i
    · subst hji
      rw [Function.update_self] at hj
      exact Or.inl ⟨rfl, (Option.some.inj hj).symm⟩
    · rw [Function.update_of_ne hji] at hj
      exact Or.inr ⟨hji, hj, h.opened j w hj⟩
  refine ⟨?_, ?_, ?_, ?_⟩
  · intro j w hj
    rw [List.length_append, List.length_singleton]
    rcases hother j w hj with ⟨-, rfl⟩ | ⟨-, -, hlt⟩
    · exact Nat.lt_succ_self _
    · exact Nat.lt_succ_of_lt hlt
  · intro j k w hj hk
    rcases hother j w hj with ⟨rfl, rfl⟩ | ⟨-, hj, hlt⟩
    · rcases hother k _ hk with ⟨rfl, -⟩ | ⟨-, -, hlt⟩
      · rfl
      · exact absurd hlt (Nat.lt_irrefl _)
    · rcases hother k w hk with ⟨-, rfl⟩ | ⟨-, hk, -⟩
      · exact absurd hlt (Nat.lt_irrefl _)
      · exact h.once j k w hj hk
  · intro j w r hj hr
    rcases hother j w hj with ⟨-, rfl⟩ | ⟨-, hj, hlt⟩
    · rw [List.getElem?_concat_length] at hr
      cases hr
      rfl
    · rw [List.getElem?_append_left hlt] at hr
      exact h.held j w r hj hr
  · intro w r hw hr
    have hne : w ≠ counts.length := by
      rintro rfl
      exact hw i (Function.update_self i _ _)
    rcases Nat.lt_or_ge w counts.length with hlt | hge
    · rw [List.getElem?_append_left hlt] at hr
      refine h.freed w r (fun j hj => hw j ?_) hr
      rw [Function.update_of_ne (fun hji => by rw [hji, hi] at hj; cases hj)]
      exact hj
    · rw [List.getElem?_eq_none (by simp; omega)] at hr
      cases hr

/-- The counts when a place gives back what it holds. -/
def release (w : Option ℕ) (counts : List ℕ) : List ℕ :=
  match w with
  | none => counts
  | some w => counts.set w 0

omit [DecidableEq ι] in
theorem Owned.count_eq (h : Owned holds counts) (hi : holds i = some w) : counts[w]? = some 1 := by
  have hlt := h.opened i w hi
  have hr : counts[w]? = some counts[w] := List.getElem?_eq_getElem hlt
  rwa [h.held i w _ hi hr] at hr

private theorem Owned.release_some (h : Owned holds counts) (hi : holds i = some w) :
    Owned (Function.update holds i none) (counts.set w 0) := by
  have hlt := h.opened i w hi
  have hother : ∀ j w', Function.update holds i none j = some w' → holds j = some w' ∧ w' ≠ w := by
    intro j w' hj
    by_cases hji : j = i
    · subst hji
      rw [Function.update_self] at hj
      cases hj
    · rw [Function.update_of_ne hji] at hj
      refine ⟨hj, ?_⟩
      rintro rfl
      exact hji (h.once j i _ hj hi)
  refine ⟨?_, ?_, ?_, ?_⟩
  · intro j w' hj
    rw [List.length_set]
    exact h.opened j w' (hother j w' hj).1
  · intro j k w' hj hk
    exact h.once j k w' (hother j w' hj).1 (hother k w' hk).1
  · intro j w' r hj hr'
    obtain ⟨hj, hne⟩ := hother j w' hj
    rw [List.getElem?_set_ne hne.symm] at hr'
    exact h.held j w' r hj hr'
  · intro w' r hw hr'
    by_cases heq : w = w'
    · subst heq
      rw [List.getElem?_set_self hlt] at hr'
      cases hr'
      rfl
    · rw [List.getElem?_set_ne heq] at hr'
      refine h.freed w' r (fun j hj => hw j ?_) hr'
      rw [Function.update_of_ne (fun hji => heq (by rw [hji, hi] at hj; exact Option.some.inj hj))]
      exact hj

theorem Owned.release (h : Owned holds counts) (i : ι) :
    Owned (Function.update holds i none) (release (holds i) counts) := by
  cases hi : holds i with
  | none =>
    rw [← hi, Function.update_eq_self, hi]
    exact h
  | some w => exact h.release_some hi

/-- A place can take a new object and give back what it held. -/
theorem Owned.replace (h : Owned holds counts) (i : ι) :
    Owned (Function.update holds i (some counts.length)) (Ashttpd.release (holds i) (counts ++ [1])) := by
  have hnew := (h.release i).open (Function.update_self i _ _)
  rw [Function.update_idem] at hnew
  cases hi : holds i with
  | none =>
    rw [hi] at hnew
    exact hnew
  | some w =>
    rw [hi] at hnew
    unfold Ashttpd.release at hnew ⊢
    simp only [List.length_set] at hnew
    simp only
    rwa [List.set_append_left _ _ (h.opened i w hi)]

end Ashttpd
