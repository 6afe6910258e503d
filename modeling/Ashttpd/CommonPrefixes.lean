import Mathlib.Data.List.Basic
import Mathlib.Data.Nat.Notation

/-!
# Common prefixes of lists

How long two lists agree, what cutting off a shared prefix does to that length and to
the lexicographic order, and how long the remainders of a list of lists are once every
list has given up what it shares with the list before it.
-/
namespace Ashttpd

variable {α : Type*} [DecidableEq α]

/-- The number of leading elements two lists share. -/
def prefixLen : List α → List α → ℕ
  | a :: as, b :: bs => if a = b then prefixLen as bs + 1 else 0
  | _, _ => 0

@[simp] theorem prefixLen_nil_left (s : List α) : prefixLen [] s = 0 := rfl

@[simp] theorem prefixLen_nil_right (s : List α) : prefixLen s [] = 0 := by
  cases s <;> rfl

@[simp] theorem prefixLen_cons_self (a : α) (s t : List α) :
    prefixLen (a :: s) (a :: t) = prefixLen s t + 1 := by simp [prefixLen]

theorem prefixLen_cons_ne {a b : α} (h : a ≠ b) (s t : List α) :
    prefixLen (a :: s) (b :: t) = 0 := by simp [prefixLen, h]

theorem prefixLen_cons_pos {a b : α} {s t : List α} (h : 0 < prefixLen (a :: s) (b :: t)) :
    a = b := by
  by_contra hne
  rw [prefixLen_cons_ne hne] at h
  omega

@[simp] theorem prefixLen_self (s : List α) : prefixLen s s = s.length := by
  induction s with
  | nil => rfl
  | cons a s ih => simp [ih]

theorem prefixLen_le_left (s t : List α) : prefixLen s t ≤ s.length := by
  induction s generalizing t with
  | nil => simp
  | cons a s ih =>
    cases t with
    | nil => simp
    | cons b t =>
      have := ih t
      simp only [prefixLen, List.length_cons]
      split_ifs <;> omega

theorem prefixLen_le_right (s t : List α) : prefixLen s t ≤ t.length := by
  induction s generalizing t with
  | nil => simp
  | cons a s ih =>
    cases t with
    | nil => simp
    | cons b t =>
      have := ih t
      simp only [prefixLen, List.length_cons]
      split_ifs <;> omega

@[simp] theorem prefixLen_append (w s t : List α) :
    prefixLen (w ++ s) (w ++ t) = w.length + prefixLen s t := by
  induction w with
  | nil => simp
  | cons a w ih =>
    rw [List.cons_append, List.cons_append, prefixLen_cons_self, ih, List.length_cons]
    omega

/-- Up to their common length two lists are one list. -/
theorem eq_append_of_le_prefixLen {s t : List α} {n : ℕ} (h : n ≤ prefixLen s t) :
    t = s.take n ++ t.drop n := by
  induction n generalizing s t with
  | zero => simp
  | succ n ih =>
    cases s with
    | nil => simp at h
    | cons a s =>
      cases t with
      | nil => simp at h
      | cons b t =>
        obtain rfl := prefixLen_cons_pos (Nat.lt_of_lt_of_le (Nat.succ_pos n) h)
        rw [prefixLen_cons_self] at h
        simpa using ih (Nat.le_of_succ_le_succ h)

/-- `prev` and the lists after it, each cut by what it shares with the list before it,
leave remainders shorter than `bound`. -/
def RemaindersBelow (bound : ℕ) : List α → List (List α) → Prop
  | _, [] => True
  | prev, s :: ss => s.length - prefixLen prev s < bound ∧ RemaindersBelow bound s ss

instance (bound : ℕ) : ∀ (prev : List α) (ss : List (List α)),
    Decidable (RemaindersBelow bound prev ss)
  | _, [] => inferInstanceAs (Decidable True)
  | _, s :: ss =>
    have := instDecidableRemaindersBelow bound s ss
    inferInstanceAs (Decidable (_ ∧ _))

theorem remaindersBelow_append (bound : ℕ) (p : List α) (ss ts : List (List α)) :
    RemaindersBelow bound p (ss ++ ts) ↔
      RemaindersBelow bound p ss ∧ RemaindersBelow bound (ss.getLastD p) ts := by
  induction ss generalizing p with
  | nil => simp [RemaindersBelow]
  | cons s ss ih =>
    simp only [List.cons_append, RemaindersBelow, ih, and_assoc]
    rw [List.getLastD_cons]

theorem remaindersBelow_shift (bound : ℕ) (w p : List α) (ss : List (List α)) :
    RemaindersBelow bound (w ++ p) (ss.map (w ++ ·)) ↔ RemaindersBelow bound p ss := by
  induction ss generalizing p with
  | nil => rfl
  | cons s ss ih =>
    simp only [List.map_cons, RemaindersBelow, ih, prefixLen_append, List.length_append,
      Nat.add_sub_add_left]

/-- How long the remainders are together. -/
def remaindersLength : List α → List (List α) → ℕ
  | _, [] => 0
  | prev, s :: ss => s.length - prefixLen prev s + remaindersLength s ss

theorem remaindersLength_append (p : List α) (ss ts : List (List α)) :
    remaindersLength p (ss ++ ts) = remaindersLength p ss + remaindersLength (ss.getLastD p) ts := by
  induction ss generalizing p with
  | nil => simp [remaindersLength]
  | cons s ss ih =>
    simp only [List.cons_append, remaindersLength, ih, Nat.add_assoc]
    rw [List.getLastD_cons]

theorem remaindersLength_shift (w p : List α) (ss : List (List α)) :
    remaindersLength (w ++ p) (ss.map (w ++ ·)) = remaindersLength p ss := by
  induction ss generalizing p with
  | nil => rfl
  | cons s ss ih =>
    simp only [List.map_cons, remaindersLength, ih, prefixLen_append, List.length_append, Nat.add_sub_add_left]

/-- Lists that differ have long remainders if they end alike. -/
theorem prefixLen_append_le {s t u v : List α} (hne : s ≠ t) (hlen : s.length = t.length) :
    prefixLen (s ++ u) (t ++ v) ≤ s.length := by
  induction s generalizing t with
  | nil => exact absurd (List.eq_nil_of_length_eq_zero hlen.symm).symm hne
  | cons a s ih =>
    cases t with
    | nil => cases hlen
    | cons b t =>
      by_cases hab : a = b
      · subst hab
        rw [List.cons_append, List.cons_append, prefixLen_cons_self, List.length_cons]
        refine Nat.succ_le_succ (ih (fun heq => hne (by rw [heq])) ?_)
        simpa using hlen
      · rw [List.cons_append, List.cons_append, prefixLen_cons_ne hab]
        exact Nat.zero_le _

/-- Different lists of one length, each with `u` behind it, leave at least `u` each. -/
theorem remaindersLength_ge {ss : List (List α)} {u p : List α} {d : ℕ} (hlen : ∀ s ∈ ss, s.length = d) (hnd : ss.Nodup)
    (hp : ∀ s ∈ ss.head?, prefixLen p (s ++ u) ≤ d) : ss.length * u.length ≤ remaindersLength p (ss.map (· ++ u)) := by
  induction ss generalizing p with
  | nil => simp
  | cons s ss ih =>
    rw [List.forall_mem_cons] at hlen
    obtain ⟨hs, hnd⟩ := List.nodup_cons.mp hnd
    have hnext := ih hlen.2 hnd (p := s ++ u) fun t ht => by
      have hmem := List.mem_of_head? ht
      rw [← hlen.1]
      exact prefixLen_append_le (fun heq => hs (heq ▸ hmem)) (hlen.1.trans (hlen.2 t hmem).symm)
    have hfirst := hp s rfl
    rw [List.map_cons, remaindersLength, List.length_cons, Nat.succ_mul, List.length_append, hlen.1]
    omega

/-- Lists of one length are told apart before what follows them. -/
theorem append_lt_append_of_lt {β : Type*} [LT β] {s t u v : List β} (hlen : s.length = t.length) (h : s < t) :
    s ++ u < t ++ v := by
  induction s generalizing t with
  | nil =>
    rw [List.eq_nil_of_length_eq_zero hlen.symm] at h
    exact absurd h (List.not_lt_nil _)
  | cons a s ih =>
    cases t with
    | nil => cases hlen
    | cons b t =>
      rw [List.cons_append, List.cons_append]
      rcases List.cons_lt_cons_iff.mp h with hlt | ⟨rfl, hlt⟩
      · exact List.cons_lt_cons_iff.mpr (.inl hlt)
      · exact List.cons_lt_cons_iff.mpr (.inr ⟨rfl, ih (by simpa using hlen) hlt⟩)

theorem append_lt_append_left_iff {β : Type*} [LT β] [Std.Irrefl fun a b : β => a < b]
    (w s t : List β) : w ++ s < w ++ t ↔ s < t := by
  induction w with
  | nil => rfl
  | cons a w ih =>
    rw [List.cons_append, List.cons_append, List.cons_lt_cons_iff, ih]
    have hirr : ¬ a < a := Std.Irrefl.irrefl (r := fun a b : β => a < b) a
    exact ⟨fun h => h.elim (fun h => absurd h hirr) And.right, fun h => .inr ⟨rfl, h⟩⟩

end Ashttpd
