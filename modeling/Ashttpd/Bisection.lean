import Mathlib.Data.Int.Order.Basic
import Mathlib.Data.Nat.Notation

/-!
# Searching a sorted run by halving

The loop probes the middle of a run and continues in the half the probe points to:
below on a negative answer, above on a positive one. It is stated over a fallible
probe, so that a search over storage that may be out of range is covered as well.
-/
namespace Ashttpd

variable {ε : Type*}

/-- Search the `n` positions from `lo` on. The first argument bounds the rounds. -/
def bisect (probe : ℕ → Except ε ℤ) : ℕ → ℕ → ℕ → Except ε (Option ℕ)
  | 0, _, _ => .ok none
  | rounds + 1, lo, n =>
    if n = 0 then .ok none
    else match probe (lo + n / 2) with
      | .error e => .error e
      | .ok c =>
        if c < 0 then bisect probe rounds lo (n / 2)
        else if 0 < c then bisect probe rounds (lo + n / 2 + 1) (n - (n / 2 + 1))
        else .ok (some (lo + n / 2))

/-- The search of the `n` positions from `lo` on comes to probe the position. -/
inductive Probes (probe : ℕ → Except ε ℤ) : ℕ → ℕ → ℕ → Prop
  | middle {lo n : ℕ} (hn : n ≠ 0) : Probes probe lo n (lo + n / 2)
  | lower {lo n i : ℕ} {c : ℤ} (hn : n ≠ 0) (hmid : probe (lo + n / 2) = .ok c) (hc : c < 0)
      (hi : Probes probe lo (n / 2) i) : Probes probe lo n i
  | upper {lo n i : ℕ} {c : ℤ} (hn : n ≠ 0) (hmid : probe (lo + n / 2) = .ok c) (hc : 0 < c)
      (hi : Probes probe (lo + n / 2 + 1) (n - (n / 2 + 1)) i) : Probes probe lo n i

def Falling (c : ℕ → ℤ) (lo n : ℕ) : Prop :=
  ∀ i j, lo ≤ i → i < j → j < lo + n → c i ≤ 0 → c j < 0

theorem Falling.below {c : ℕ → ℤ} {lo n k : ℕ} (h : Falling c lo n) (hk : k ≤ n) :
    Falling c lo k :=
  fun i j hi hij hj => h i j hi hij (by omega)

theorem Falling.above {c : ℕ → ℤ} {lo n k : ℕ} (h : Falling c lo n) (hk : k ≤ n) :
    Falling c (lo + k) (n - k) :=
  fun i j hi hij hj => h i j (by omega) hij (by omega)

/-- A position answering zero is found. -/
theorem bisect_found {probe : ℕ → Except ε ℤ} {c : ℕ → ℤ} {rounds lo n k : ℕ}
    (hp : ∀ i, lo ≤ i → i < lo + n → probe i = .ok (c i)) (hc : Falling c lo n)
    (hr : n ≤ rounds) (hlo : lo ≤ k) (hhi : k < lo + n) (hk : c k = 0) :
    bisect probe rounds lo n = .ok (some k) := by
  induction rounds generalizing lo n with
  | zero => omega
  | succ rounds ih =>
    have hn : n ≠ 0 := by omega
    have hmid : probe (lo + n / 2) = .ok (c (lo + n / 2)) := hp _ (by omega) (by omega)
    simp only [bisect, hn, if_false, hmid]
    rcases Nat.lt_trichotomy k (lo + n / 2) with h | h | h
    · have hneg := hc k (lo + n / 2) hlo h (by omega) (by omega)
      rw [if_pos hneg]
      exact ih (fun i h1 h2 => hp i h1 (by omega)) (hc.below (by omega)) (by omega) hlo (by omega)
    · subst h
      simp [hk]
    · have hpos : 0 < c (lo + n / 2) := by
        by_contra hle
        have := hc (lo + n / 2) k (by omega) h hhi (by omega)
        omega
      rw [if_neg (by omega), if_pos hpos]
      have habove := hc.above (k := n / 2 + 1) (by omega)
      rw [← Nat.add_assoc] at habove
      exact ih (fun i h1 h2 => hp i (by omega) (by omega)) habove (by omega) (by omega) (by omega)

/-- When no position answers zero the search comes back empty. -/
theorem bisect_missing {probe : ℕ → Except ε ℤ} {c : ℕ → ℤ} {rounds lo n : ℕ}
    (hp : ∀ i, lo ≤ i → i < lo + n → probe i = .ok (c i)) (hr : n ≤ rounds)
    (hk : ∀ k, lo ≤ k → k < lo + n → c k ≠ 0) : bisect probe rounds lo n = .ok none := by
  induction rounds generalizing lo n with
  | zero => rfl
  | succ rounds ih =>
    by_cases hn : n = 0
    · simp [bisect, hn]
    have hmid : probe (lo + n / 2) = .ok (c (lo + n / 2)) := hp _ (by omega) (by omega)
    have hne := hk (lo + n / 2) (by omega) (by omega)
    simp only [bisect, hn, if_false, hmid]
    split_ifs with hneg hpos
    · exact ih (fun i h1 h2 => hp i h1 (by omega)) (by omega) fun k h1 h2 => hk k h1 (by omega)
    · exact ih (fun i h1 h2 => hp i (by omega) (by omega)) (by omega)
        fun k h1 h2 => hk k (by omega) (by omega)
    · omega

/-- What the search finds is a position it probes, and the probe answers zero there. -/
theorem bisect_some {probe : ℕ → Except ε ℤ} {rounds lo n i : ℕ}
    (h : bisect probe rounds lo n = .ok (some i)) : Probes probe lo n i ∧ probe i = .ok 0 := by
  induction rounds generalizing lo n with
  | zero => exact nomatch h
  | succ rounds ih =>
    by_cases hn : n = 0
    · simp [bisect, hn] at h
    cases hmid : probe (lo + n / 2) with
    | error e => simp [bisect, hn, hmid] at h
    | ok c =>
      simp only [bisect, hn, if_false, hmid] at h
      split_ifs at h with hneg hpos
      · exact ⟨.lower hn hmid hneg (ih h).1, (ih h).2⟩
      · exact ⟨.upper hn hmid hpos (ih h).1, (ih h).2⟩
      · obtain rfl : lo + n / 2 = i := by simpa using h
        exact ⟨.middle hn, by rw [hmid, show c = 0 by omega]⟩

theorem Probes.inside {probe : ℕ → Except ε ℤ} {lo n i : ℕ} (h : Probes probe lo n i) :
    lo ≤ i ∧ i < lo + n := by
  induction h with
  | middle => omega
  | lower => omega
  | upper => omega

/-- A position that is probed with the answer zero is the one found. -/
theorem Probes.found {probe : ℕ → Except ε ℤ} {lo n i : ℕ} (h : Probes probe lo n i)
    (hi : probe i = .ok 0) {rounds : ℕ} (hr : n ≤ rounds) :
    bisect probe rounds lo n = .ok (some i) := by
  induction h generalizing rounds with
  | middle hn =>
    obtain ⟨rounds, rfl⟩ := Nat.exists_eq_succ_of_ne_zero (show rounds ≠ 0 by omega)
    simp [bisect, hn, hi]
  | lower hn hmid hc _ ih =>
    obtain ⟨rounds, rfl⟩ := Nat.exists_eq_succ_of_ne_zero (show rounds ≠ 0 by omega)
    simp only [bisect, hn, if_false, hmid, hc, if_true]
    exact ih hi (by omega)
  | @upper lo n i c hn hmid hc _ ih =>
    obtain ⟨rounds, rfl⟩ := Nat.exists_eq_succ_of_ne_zero (show rounds ≠ 0 by omega)
    have hneg : ¬ c < 0 := by omega
    simp only [bisect, hn, if_false, hmid, hneg, hc, if_true]
    exact ih hi (by omega)

/-- The search goes well exactly when every probe it makes does. -/
theorem bisect_ok_iff {probe : ℕ → Except ε ℤ} {rounds lo n : ℕ} (hr : n ≤ rounds) :
    (∃ x, bisect probe rounds lo n = .ok x) ↔ ∀ i, Probes probe lo n i → ∃ c, probe i = .ok c := by
  induction rounds generalizing lo n with
  | zero =>
    refine iff_of_true ⟨none, rfl⟩ fun i hi => ?_
    cases hi <;> omega
  | succ rounds ih =>
    by_cases hn : n = 0
    · refine iff_of_true ⟨none, by simp [bisect, hn]⟩ fun i hi => ?_
      cases hi <;> contradiction
    cases hmid : probe (lo + n / 2) with
    | error e =>
      refine iff_of_false (by simp [bisect, hn, hmid]) fun hall => ?_
      obtain ⟨c, hc⟩ := hall _ (.middle hn)
      exact nomatch hmid.symm.trans hc
    | ok c =>
      simp only [bisect, hn, if_false, hmid]
      split_ifs with hneg hpos
      · rw [ih (by omega)]
        refine ⟨fun hall i hi => ?_, fun hall i hi => hall i (.lower hn hmid hneg hi)⟩
        cases hi with
        | middle => exact ⟨c, hmid⟩
        | lower _ _ _ hi => exact hall i hi
        | upper _ hmid' hc' _ =>
          obtain rfl : c = _ := by simpa using hmid.symm.trans hmid'
          omega
      · rw [ih (by omega)]
        refine ⟨fun hall i hi => ?_, fun hall i hi => hall i (.upper hn hmid hpos hi)⟩
        cases hi with
        | middle => exact ⟨c, hmid⟩
        | lower _ hmid' hc' _ =>
          obtain rfl : c = _ := by simpa using hmid.symm.trans hmid'
          omega
        | upper _ _ _ hi => exact hall i hi
      · refine iff_of_true ⟨_, rfl⟩ fun i hi => ?_
        cases hi with
        | middle => exact ⟨c, hmid⟩
        | lower _ hmid' hc' _ =>
          obtain rfl : c = _ := by simpa using hmid.symm.trans hmid'
          omega
        | upper _ hmid' hc' _ =>
          obtain rfl : c = _ := by simpa using hmid.symm.trans hmid'
          omega

end Ashttpd
