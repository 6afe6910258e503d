import Mathlib.Data.List.Nodup
import Mathlib.Data.Nat.Notation

/-!
# Items that are linked on lists

An item has one link, so that putting it at the end of a list takes it from where it is.
-/
namespace Ashttpd

variable {α κ : Type*} [DecidableEq α] [DecidableEq κ] {lists : κ → List α} {a b : α} {q r : κ}

def moveTail (lists : κ → List α) (a : α) (q : κ) : κ → List α := fun r =>
  if r = q then (lists r).filter (· ≠ a) ++ [a] else (lists r).filter (· ≠ a)

/-- No list has an item twice, and no two lists have the same item. -/
structure Linked (lists : κ → List α) : Prop where
  nodup : ∀ q, (lists q).Nodup
  apart : ∀ q r a, a ∈ lists q → a ∈ lists r → q = r

theorem mem_moveTail : b ∈ moveTail lists a q r ↔ b = a ∧ r = q ∨ b ≠ a ∧ b ∈ lists r := by
  unfold moveTail
  by_cases hr : r = q
  · rw [if_pos hr, List.mem_append, List.mem_singleton, List.mem_filter, decide_eq_true_iff]
    by_cases hb : b = a
    · simp [hb, hr]
    · simp [hb]
  · rw [if_neg hr, List.mem_filter, decide_eq_true_iff]
    simp [hr, and_comm]

theorem mem_moveTail_self : a ∈ moveTail lists a q r ↔ r = q := by simp [mem_moveTail]

theorem mem_moveTail_of_ne (h : b ≠ a) : b ∈ moveTail lists a q r ↔ b ∈ lists r := by simp [mem_moveTail, h]

omit [DecidableEq α] [DecidableEq κ] in
theorem linked_nil : Linked fun _ : κ => ([] : List α) where
  nodup _ := List.nodup_nil
  apart _ _ _ h := nomatch h

theorem Linked.moveTail (h : Linked lists) (a : α) (q : κ) : Linked (moveTail lists a q) := by
  constructor
  · intro r
    unfold Ashttpd.moveTail
    have hfilter := (h.nodup r).filter (· ≠ a)
    split
    · apply hfilter.append (List.nodup_singleton a)
      intro b hb hba
      cases List.mem_singleton.mp hba
      simp at hb
    · exact hfilter
  · intro r s b hr hs
    rcases mem_moveTail.mp hr with ⟨rfl, rfl⟩ | ⟨hne, hr⟩
    · exact (mem_moveTail_self.mp hs).symm
    · rcases mem_moveTail.mp hs with ⟨rfl, -⟩ | ⟨-, hs⟩
      · exact absurd rfl hne
      · exact h.apart r s b hr hs

end Ashttpd
