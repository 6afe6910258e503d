import Ashttpd.PublishedUris

/-!
# How `n_utf8` cuts a string into sequences

A byte below `0x80` stands for itself. Any other begins a sequence, whatever it is: as many bytes as its
leading ones tell are read for it, and never fewer than two.
-/
namespace Ashttpd

/-- How many bytes a sequence has that begins with this byte, one of its own or a stray one. -/
def sequenceLen (c : UInt8) : ℕ :=
  if c < 0xE0 then 2 else if c < 0xF0 then 3 else if c < 0xF8 then 4 else if c < 0xFC then 5
  else if c < 0xFE then 6 else 7

/-- Every string is cut into bytes that stand for themselves, sequences, and perhaps one that is not whole. -/
inductive Sequenced : Bytes → Prop
  | nil : Sequenced []
  | ascii {c : UInt8} {u : Bytes} (hc : c < 0x80) (hu : Sequenced u) : Sequenced (c :: u)
  | whole {c : UInt8} {rest u : Bytes} (hc : 0x80 ≤ c) (hlen : rest.length + 1 = sequenceLen c)
      (hu : Sequenced u) : Sequenced (c :: rest ++ u)
  | cut {c : UInt8} {rest : Bytes} (hc : 0x80 ≤ c) (hlen : rest.length + 1 < sequenceLen c) : Sequenced (c :: rest)

theorem two_le_sequenceLen (c : UInt8) : 2 ≤ sequenceLen c := by
  unfold sequenceLen
  split_ifs <;> decide

theorem sequenced (text : Bytes) : Sequenced text := by
  induction hn : text.length using Nat.strong_induction_on generalizing text with
  | _ n ih =>
    subst hn
    cases text with
    | nil => exact .nil
    | cons c rest =>
      by_cases hc : c < 0x80
      · exact .ascii hc (ih rest.length (Nat.lt_succ_self _) rest rfl)
      · have hc := UInt8.not_lt.mp hc
        by_cases hlen : rest.length + 1 < sequenceLen c
        · exact .cut hc hlen
        · have htwo := two_le_sequenceLen c
          have hsplit : c :: rest = c :: rest.take (sequenceLen c - 1) ++ rest.drop (sequenceLen c - 1) := by
            rw [List.cons_append, List.take_append_drop]
          rw [hsplit]
          refine .whole hc ?_ (ih _ ?_ _ rfl)
          · rw [List.length_take]
            omega
          · rw [List.length_drop, List.length_cons]
            omega

theorem leadLen_spec {c : UInt8} (hc : 0x80 ≤ c) :
    (c < 0xC0 → leadLen c = 1) ∧ (0xC0 ≤ c → leadLen c = sequenceLen c) ∧ max 2 (leadLen c) = sequenceLen c := by
  apply forall_byte (P := fun c => 0x80 ≤ c →
    (c < 0xC0 → leadLen c = 1) ∧ (0xC0 ≤ c → leadLen c = sequenceLen c) ∧ max 2 (leadLen c) = sequenceLen c)
  · decide +kernel
  · exact hc

theorem sequenceLen_le {c : UInt8} (hc : c < 0xFE) : sequenceLen c ≤ 6 := by
  unfold sequenceLen
  rw [if_pos hc]
  split_ifs <;> decide

theorem sequenceLen_of_le {c : UInt8} (hc : 0xFE ≤ c) : sequenceLen c = 7 := by
  apply forall_byte (P := fun c => 0xFE ≤ c → sequenceLen c = 7)
  · decide +kernel
  · exact hc

variable {before c : UInt8} {rest u : Bytes}

theorem utf8Step_ascii (hc : c < 0x80) : utf8Step before .plain c = .ok (.plain, c, [c]) :=
  if_neg fun h => absurd ((high_bit_iff c).mp h) (UInt8.not_le.mpr hc)

theorem utf8Step_begin (hc : 0x80 ≤ c) : utf8Step before .plain c = .ok (.seq [c] (leadLen c), c, []) :=
  if_pos ((high_bit_iff c).mpr hc)

theorem runSteps_ascii (hc : c < 0x80) (u : Bytes) : runSteps (utf8Step before) .plain (c :: u) =
    (runSteps (utf8Step before) .plain u).map fun r => (r.1, c :: r.2) :=
  runSteps_cons_ok (utf8Step_ascii hc) u

theorem runSteps_whole (hc : 0x80 ≤ c) (hc' : c < 0xFE) (hlen : rest.length + 1 = sequenceLen c) (u : Bytes) :
    runSteps (utf8Step before) .plain (c :: rest ++ u) =
      (runSteps (utf8Step before) .plain u).map fun r => (r.1, sequenceOut before (c :: rest) (leadLen c) ++ r.2) := by
  have hsix := sequenceLen_le hc'
  have htwo := two_le_sequenceLen c
  have hmax := (leadLen_spec hc).2.2
  have hne : rest ≠ [] := by
    rintro rfl
    rw [List.length_nil] at hlen
    omega
  have hrun := @runSteps_sequence before [c] rest (leadLen c) (List.cons_ne_nil c []) hne
    (by simp only [List.length_singleton]; omega) (by simp only [List.length_singleton]; omega) u
  rw [List.cons_append, runSteps_cons_ok (utf8Step_begin hc), hrun]
  cases runSteps (utf8Step before) .plain u with
  | error e => rfl
  | ok r => rfl

/-- Bytes of a sequence that is not whole after them are kept. -/
theorem runSteps_inside {pre : Bytes} {len : ℕ} (hlen : pre.length + rest.length < max 2 len)
    (hpre : pre ≠ []) (hfit : pre.length + rest.length ≤ 6) :
    runSteps (utf8Step before) (.seq pre len) rest = .ok (.seq (pre ++ rest) len, []) := by
  have hpos := List.length_pos_iff.mpr hpre
  induction rest generalizing pre with
  | nil =>
    rw [List.append_nil]
    rfl
  | cons c rest ih =>
    rw [List.length_cons] at hlen hfit
    have hlong : (pre ++ [c]).length = pre.length + 1 := List.length_append
    have hstep : utf8Step before (.seq pre len) c = .ok (.seq (pre ++ [c]) len, c, []) := by
      simp only [utf8Step]
      rw [if_neg (by omega), if_neg (by omega)]
    have hmore : pre ++ [c] ≠ [] := by simp
    have hrec := ih (by omega) hmore (by omega) (by omega)
    rw [runSteps_cons_ok hstep, hrec, List.append_assoc]
    rfl

theorem runSteps_cut (hc : 0x80 ≤ c) (hlen : rest.length + 1 < sequenceLen c) :
    runSteps (utf8Step before) .plain (c :: rest) = .ok (.seq (c :: rest) (leadLen c), []) := by
  have hmax := (leadLen_spec hc).2.2
  have hseven : sequenceLen c ≤ 7 := by
    unfold sequenceLen
    split_ifs <;> decide
  have hrun := @runSteps_inside before rest [c] (leadLen c)
    (by simp only [List.length_singleton]; omega) (List.cons_ne_nil c []) (by simp only [List.length_singleton]; omega)
  rw [runSteps_cons_ok (utf8Step_begin hc), hrun]
  rfl

/-- The seventh byte of a sequence does not fit. -/
theorem runSteps_overlong (hc : 0xFE ≤ c) (hlen : rest.length + 1 = sequenceLen c) (u : Bytes) :
    runSteps (utf8Step before) .plain (c :: rest ++ u) = .error (.fault .outOfRange) := by
  have hseven := sequenceLen_of_le hc
  have hne : rest ≠ [] := by
    rintro rfl
    rw [List.length_nil] at hlen
    omega
  have hdrop : rest.dropLast.length + 1 = 6 := by
    rw [List.length_dropLast]
    omega
  have hsix : runSteps (utf8Step before) .plain (c :: rest.dropLast) =
      .ok (.seq (c :: rest.dropLast) (leadLen c), []) :=
    runSteps_cut (UInt8.le_trans (by decide) hc) (by omega)
  have hsplit : c :: rest ++ u = (c :: rest.dropLast) ++ (rest.getLast hne :: u) := by
    conv_lhs => rw [← List.dropLast_append_getLast hne]
    simp
  have hfault : utf8Step before (.seq (c :: rest.dropLast) (leadLen c)) (rest.getLast hne) =
      .error (.fault .outOfRange) := if_pos (Nat.le_of_eq hdrop.symm)
  rw [hsplit, runSteps_append hsix, runSteps, hfault]
  rfl

end Ashttpd
