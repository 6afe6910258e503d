import Mathlib.Data.List.Infix

/-!
# Cutting a stream into pieces

A stream is cut wherever a piece is ended. The pieces and what is left over are found one element
after the other, so that they are the same in whatever portions the stream comes in.
-/
namespace Ashttpd

variable {α : Type*} (ends : List α → Prop)

/-- No part of `y` that is read after `x` ends a piece. -/
def Unended (x y : List α) : Prop := ∀ z, z <+: y → z ≠ [] → ¬ ends (x ++ z)

/-- A piece, which is ended by its last element. -/
structure Piece (b : List α) : Prop where
  ended : ends b
  nonEmpty : b ≠ []
  first : ∀ z, z <+: b → z ≠ [] → ends z → z = b

def cutStep [DecidablePred ends] (s : List (List α) × List α) (a : α) : List (List α) × List α :=
  if ends (s.2 ++ [a]) then (s.1 ++ [s.2 ++ [a]], []) else (s.1, s.2 ++ [a])

/-- The pieces of a stream that goes on behind some pieces and a rest. -/
def cutFrom [DecidablePred ends] (s : List (List α) × List α) (stream : List α) :
    List (List α) × List α :=
  stream.foldl (cutStep ends) s

def cutAll [DecidablePred ends] (stream : List α) : List (List α) × List α :=
  cutFrom ends ([], []) stream

variable {ends} {x y : List α}

theorem unended_cons {a : α} : Unended ends x (a :: y) ↔ ¬ ends (x ++ [a]) ∧ Unended ends (x ++ [a]) y := by
  constructor
  · intro h
    refine ⟨h [a] (by simp) (by simp), ?_⟩
    intro z hz hne
    rw [List.append_assoc]
    exact h (a :: z) (List.cons_prefix_cons.mpr ⟨rfl, hz⟩) (by simp)
  · intro h z hz hne
    cases z with
    | nil => exact absurd rfl hne
    | cons b z =>
      obtain ⟨rfl, hz'⟩ := List.cons_prefix_cons.mp hz
      by_cases hnil : z = []
      · subst hnil
        exact h.1
      · have hrest := h.2 z hz' hnil
        rwa [List.append_assoc] at hrest

theorem Unended.append (hx : Unended ends [] x) (hy : Unended ends x y) : Unended ends [] (x ++ y) := by
  intro z hz hne
  rw [List.nil_append]
  by_cases hlen : z.length ≤ x.length
  · exact hx z (List.prefix_of_prefix_length_le hz (List.prefix_append x y) hlen) hne
  · obtain ⟨t, rfl⟩ := List.prefix_of_prefix_length_le (List.prefix_append x y) hz (by omega)
    have ht : t ≠ [] := by
      intro hnil
      subst hnil
      simp at hlen
    exact hy t ((List.prefix_append_right_inj x).mp hz) ht

theorem piece_of_unended {a : α} (hx : Unended ends [] x) (ha : ends (x ++ [a])) :
    Piece ends (x ++ [a]) := by
  refine ⟨ha, by simp, ?_⟩
  intro z hz hne hends
  rcases List.prefix_concat_iff.mp hz with rfl | hz'
  · rfl
  · exact absurd hends (hx z hz' hne)

variable [DecidablePred ends]

theorem cutFrom_append (s : List (List α) × List α) (x y : List α) :
    cutFrom ends s (x ++ y) = cutFrom ends (cutFrom ends s x) y :=
  List.foldl_append

theorem cutAll_append (x y : List α) : cutAll ends (x ++ y) = cutFrom ends (cutAll ends x) y :=
  cutFrom_append _ x y

theorem cutFrom_unended {pieces : List (List α)} (h : Unended ends x y) :
    cutFrom ends (pieces, x) y = (pieces, x ++ y) := by
  induction y generalizing x with
  | nil => simp [cutFrom]
  | cons a y ih =>
    obtain ⟨ha, hy⟩ := unended_cons.mp h
    have hstep : cutStep ends (pieces, x) a = (pieces, x ++ [a]) := if_neg ha
    rw [cutFrom, List.foldl_cons, hstep]
    have hrest := ih hy
    rwa [List.append_assoc, List.singleton_append] at hrest

theorem cutFrom_piece {pieces : List (List α)} {b : List α} (h : Piece ends b) :
    cutFrom ends (pieces, []) b = (pieces ++ [b], []) := by
  obtain ⟨x, a, rfl⟩ := (List.eq_nil_or_concat b).resolve_left h.nonEmpty
  rw [List.concat_eq_append] at h ⊢
  have hx : Unended ends [] x := by
    intro z hz hne hends
    have hzb := h.first z (hz.trans (List.prefix_append x [a])) hne hends
    have hlen := hz.length_le
    rw [hzb, List.length_append, List.length_singleton] at hlen
    omega
  rw [cutFrom_append, cutFrom_unended hx]
  exact if_pos h.ended

theorem cutFrom_flatten (s : List (List α) × List α) (y : List α) :
    (cutFrom ends s y).1.flatten ++ (cutFrom ends s y).2 = s.1.flatten ++ s.2 ++ y := by
  induction y generalizing s with
  | nil => exact (List.append_nil _).symm
  | cons a y ih =>
    rw [cutFrom, List.foldl_cons, ← cutFrom, ih]
    unfold cutStep
    split <;> simp

theorem cutAll_flatten (y : List α) : (cutAll ends y).1.flatten ++ (cutAll ends y).2 = y :=
  cutFrom_flatten ([], []) y

end Ashttpd
