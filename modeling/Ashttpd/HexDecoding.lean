import Ashttpd.PublishedUris

/-!
# What `n_hex` decodes

Which strings have a percent-decoding, which one it is, and what stops the decoding of the others, is told
by a grammar. The automaton of `n_hex` follows it: it decodes what can be decoded, and names the first
triple that cannot.
-/
namespace Ashttpd

def hexValue (c : UInt8) : ℕ := if c ≤ 57 then c.toNat - 48 else if c ≤ 70 then c.toNat - 55 else c.toNat - 87

/-- The second string is the percent-decoding of the first. -/
inductive Decodes : Bytes → Bytes → Prop
  | nil : Decodes [] []
  | plain {c : UInt8} {s t : Bytes} (hc : c ≠ PERCENT) (h : Decodes s t) : Decodes (c :: s) (c :: t)
  | triple {hi lo d : UInt8} {s t : Bytes} (hhi : isHex hi) (hlo : isHex lo)
      (hd : d.toNat = 16 * hexValue hi + hexValue lo) (hd0 : d ≠ 0) (h : Decodes s t) :
      Decodes (PERCENT :: hi :: lo :: s) (d :: t)

/-- A string that begins with a percent sign that cannot be decoded, and the error that this is. -/
inductive Offends : ℕ → Bytes → Prop
  | null (s : Bytes) : Offends NADS_ERR_NULL (PERCENT :: 48 :: 48 :: s)
  | badHex {s : Bytes} (hs : ∀ hi lo s', s = hi :: lo :: s' → ¬ (isHex hi ∧ isHex lo)) :
      Offends NADS_ERR_BAD_HEX (PERCENT :: s)

def FirstOffends (code : ℕ) (s : Bytes) : Prop := ∃ pre t bad, s = pre ++ bad ∧ Decodes pre t ∧ Offends code bad

/-- `n_hex` on a string in a buffer of any size. -/
def nHexIn (size : ℕ) (m : Mem) (buf : ℕ) : Except NadsFail Mem := runPassIn size hexStep .plain NADS_ERR_BAD_HEX m buf

theorem nHex_eq (m : Mem) (buf : ℕ) : nHex m buf = nHexIn NADS_MAX_URI m buf := rfl

theorem hexchar_eq {c : UInt8} (hc : isHex c) : (hexchar c).toNat = hexValue c ∧ hexValue c < 16 := by
  apply forall_byte (P := fun c => isHex c → (hexchar c).toNat = hexValue c ∧ hexValue c < 16)
  · decide +kernel
  · exact hc

theorem shift_or_eq {a b : UInt8} (ha : a.toNat < 16) (hb : b.toNat < 16) :
    (a <<< 4 ||| b).toNat = 16 * a.toNat + b.toNat := by
  have hall : ∀ n < 16, ∀ k < 16, (UInt8.ofNat n <<< 4 ||| UInt8.ofNat k).toNat = 16 * n + k := by decide +kernel
  have h := hall a.toNat ha b.toNat hb
  rwa [UInt8.ofNat_toNat, UInt8.ofNat_toNat] at h

theorem pair_eq {hi lo : UInt8} (hhi : isHex hi) (hlo : isHex lo) :
    (hexchar hi <<< 4 ||| hexchar lo).toNat = 16 * hexValue hi + hexValue lo := by
  obtain ⟨heq, hlt⟩ := hexchar_eq hhi
  obtain ⟨heq', hlt'⟩ := hexchar_eq hlo
  rw [← heq, ← heq'] at *
  exact shift_or_eq (by omega) (by omega)

theorem eq_zero_digit {c : UInt8} (hc : isHex c) (h0 : hexValue c = 0) : c = 48 := by
  apply forall_byte (P := fun c => isHex c → hexValue c = 0 → c = 48)
  · decide +kernel
  · exact hc
  · exact h0

/-- What can be decoded is decoded, whatever comes behind it. -/
theorem Decodes.runSteps {s t : Bytes} (h : Decodes s t) (rest : Bytes) :
    runSteps hexStep .plain (s ++ rest) = (runSteps hexStep .plain rest).map fun r => (r.1, t ++ r.2) := by
  induction h with
  | nil =>
    rw [List.nil_append]
    cases Ashttpd.runSteps hexStep .plain rest with
    | error e => rfl
    | ok r => rfl
  | plain hc _ ih =>
    rw [List.cons_append, runSteps_plain hc, ih]
    cases Ashttpd.runSteps hexStep .plain rest with
    | error e => rfl
    | ok r => rfl
  | triple hhi hlo hd hd0 _ ih =>
    have hval := UInt8.toNat_inj.mp ((pair_eq hhi hlo).trans hd.symm)
    rw [List.cons_append, List.cons_append, List.cons_append, runSteps_triple hhi hlo hval hd0, ih]
    cases Ashttpd.runSteps hexStep .plain rest with
    | error e => rfl
    | ok r => rfl

theorem Decodes.length_le {s t : Bytes} (h : Decodes s t) : t.length ≤ s.length := by
  induction h with
  | nil => exact Nat.le_refl 0
  | plain _ _ ih => exact Nat.succ_le_succ ih
  | triple _ _ _ _ _ ih =>
    simp only [List.length_cons]
    omega

theorem Decodes.nulFree {s t : Bytes} (h : Decodes s t) (hs : 0 ∉ s) : 0 ∉ t := by
  induction h with
  | nil => exact hs
  | plain hc _ ih =>
    rw [List.mem_cons, not_or] at hs ⊢
    exact ⟨hs.1, ih hs.2⟩
  | triple _ _ _ hd0 _ ih =>
    rw [List.mem_cons, not_or]
    refine ⟨fun h => hd0 h.symm, ih fun h => hs ?_⟩
    exact List.mem_cons_of_mem _ (List.mem_cons_of_mem _ (List.mem_cons_of_mem _ h))

/-- What ends in the middle of a triple, or goes wrong there, is refused. -/
theorem Offends.passText {code : ℕ} {bad pre t : Bytes} (h : Offends code bad) (hpre : Decodes pre t) :
    passText hexStep .plain NADS_ERR_BAD_HEX (pre ++ bad) = .error (.err code) := by
  have hfirst : hexStep .plain PERCENT = .ok (.percent, PERCENT, []) := rfl
  unfold Ashttpd.passText
  rw [hpre.runSteps]
  cases h with
  | null s =>
    have hstep : hexStep .percent 48 = .ok (.digit 48, 48, []) := rfl
    have hnull : runSteps hexStep (.digit 48) (48 :: s) = .error (.err NADS_ERR_NULL) := rfl
    rw [runSteps_cons_ok hfirst, runSteps_cons_ok hstep, hnull]
    rfl
  | @badHex s hs =>
    rw [runSteps_cons_ok hfirst]
    cases s with
    | nil => rfl
    | cons hi s =>
      cases hhi : isHex hi with
      | false =>
        have hbad : runSteps hexStep .percent (hi :: s) = .error (.err NADS_ERR_BAD_HEX) := by
          rw [runSteps, hexStep, hhi]
          rfl
        rw [hbad]
        rfl
      | true =>
        rw [runSteps_cons_ok (hexStep_percent hhi)]
        cases s with
        | nil => rfl
        | cons lo s =>
          have hlo : isHex lo = false := by
            rw [← Bool.not_eq_true]
            exact fun hlo => hs hi lo s rfl ⟨hhi, hlo⟩
          have hbad : runSteps hexStep (.digit hi) (lo :: s) = .error (.err NADS_ERR_BAD_HEX) := by
            rw [runSteps, hexStep, hlo]
            rfl
          rw [hbad]
          rfl

/-- Every string can be decoded, or something in it is the first that cannot. -/
theorem decodes_or_offends (s : Bytes) : (∃ t, Decodes s t) ∨ ∃ code, FirstOffends code s := by
  induction hn : s.length using Nat.strong_induction_on generalizing s with
  | _ n ih =>
    subst hn
    have hmore : ∀ (front s' : Bytes) (d : UInt8), (∀ t, ∀ pre, Decodes pre t → Decodes (front ++ pre) (d :: t)) →
        s'.length < s.length → s = front ++ s' → (∃ t, Decodes s t) ∨ ∃ code, FirstOffends code s := by
      rintro front s' d hfront hlt rfl
      rcases ih s'.length hlt s' rfl with ⟨t, ht⟩ | ⟨code, pre, t, bad, rfl, hpre, hbad⟩
      · exact Or.inl ⟨d :: t, hfront t s' ht⟩
      · exact Or.inr ⟨code, front ++ pre, d :: t, bad, by rw [List.append_assoc], hfront t pre hpre, hbad⟩
    cases s with
    | nil => exact Or.inl ⟨[], .nil⟩
    | cons c s =>
      by_cases hc : c = PERCENT
      · subst hc
        by_cases hpair : ∃ hi lo s', s = hi :: lo :: s' ∧ isHex hi ∧ isHex lo
        · obtain ⟨hi, lo, s', rfl, hhi, hlo⟩ := hpair
          by_cases hzero : 16 * hexValue hi + hexValue lo = 0
          · have hhi0 := eq_zero_digit hhi (by omega)
            have hlo0 := eq_zero_digit hlo (by omega)
            subst hhi0 hlo0
            exact Or.inr ⟨NADS_ERR_NULL, [], [], _, rfl, .nil, .null s'⟩
          · have hd := (pair_eq hhi hlo)
            refine hmore [PERCENT, hi, lo] s' (hexchar hi <<< 4 ||| hexchar lo) ?_ ?_ rfl
            · intro t pre hpre
              refine .triple hhi hlo hd ?_ hpre
              intro h0
              rw [h0] at hd
              exact hzero hd.symm
            · simp only [List.length_cons]
              omega
        · refine Or.inr ⟨NADS_ERR_BAD_HEX, [], [], _, rfl, .nil, .badHex ?_⟩
          rintro hi lo s' rfl ⟨hhi, hlo⟩
          exact hpair ⟨hi, lo, s', rfl, hhi, hlo⟩
      · exact hmore [c] s c (fun t pre hpre => .plain hc hpre) (by simp) rfl

theorem Decodes.hexText {s t : Bytes} (h : Decodes s t) (hs : 0 ∉ s) : hexText s = .ok t := by
  have hrun := h.runSteps []
  rw [List.append_nil] at hrun
  unfold Ashttpd.hexText Ashttpd.passText
  rw [hrun]
  show Except.ok (untilNul (t ++ [])) = _
  rw [List.append_nil, untilNul_of_nulFree (h.nulFree hs)]

theorem FirstOffends.hexText {code : ℕ} {s : Bytes} (h : FirstOffends code s) : hexText s = .error (.err code) := by
  obtain ⟨pre, t, bad, rfl, hpre, hbad⟩ := h
  exact hbad.passText hpre

theorem hexText_eq_ok_iff {s t : Bytes} (hs : 0 ∉ s) : hexText s = .ok t ↔ Decodes s t := by
  refine ⟨fun h => ?_, fun h => h.hexText hs⟩
  rcases decodes_or_offends s with ⟨t', ht'⟩ | ⟨code, hbad⟩
  · rw [ht'.hexText hs] at h
    cases h
    exact ht'
  · rw [hbad.hexText] at h
    cases h

theorem decodes_percentEncode {u : Bytes} (hu : 0 ∉ u) : Decodes (percentEncode u) u := by
  apply (hexText_eq_ok_iff (percentEncode_reserved hu).2).mp
  unfold hexText passText
  rw [runSteps_percentEncode hu]
  show Except.ok (untilNul u) = _
  rw [untilNul_of_nulFree hu]

/-- `n_hex` on any terminated string: it returns 1 with the decoding in place of the string if there is one,
and otherwise 0 with the error of the first triple that cannot be decoded; and it takes back the encoding
of any string. -/
theorem n_hex_decodes (size : ℕ) (m : Mem) (buf : ℕ) (s : Bytes) (hs : m.HoldsStr buf s)
    (hfit : buf + s.length < size) :
    (∀ t, Decodes s t ↔ ∃ m', nHexIn size m buf = .ok m' ∧ Rewritten m m' buf s t) ∧
    (∀ code, FirstOffends code s ↔ ∃ m', nHexIn size m buf = .error (.err code m')) ∧
    ((∃ t, Decodes s t) ∨ FirstOffends NADS_ERR_NULL s ∨ FirstOffends NADS_ERR_BAD_HEX s) ∧
    ∀ u, 0 ∉ u → s = percentEncode u → ∃ m', nHexIn size m buf = .ok m' ∧ m'.HoldsStr buf u := by
  have hpass : Passes m buf s (nHexIn size m buf) (hexText s) := runPassIn_spec hexStep_lagging rfl hs hfit
  have hok : ∀ t, Decodes s t → ∃ m', nHexIn size m buf = .ok m' ∧ Rewritten m m' buf s t := by
    intro t ht
    rwa [ht.hexText hs.nulFree] at hpass
  have herr : ∀ code, FirstOffends code s → ∃ m', nHexIn size m buf = .error (.err code m') := by
    intro code hbad
    rwa [hbad.hexText] at hpass
  refine ⟨fun t => ⟨hok t, ?_⟩, fun code => ⟨herr code, ?_⟩, ?_, ?_⟩
  · rintro ⟨m', hrun, hre⟩
    rcases decodes_or_offends s with ⟨t', ht'⟩ | ⟨code, hbad⟩
    · obtain ⟨m'', hrun', hre'⟩ := hok t' ht'
      cases hrun.symm.trans hrun'
      rwa [hre.holds.unique hre'.holds]
    · obtain ⟨m'', hrun'⟩ := herr code hbad
      cases hrun.symm.trans hrun'
  · rintro ⟨m', hrun⟩
    rcases decodes_or_offends s with ⟨t', ht'⟩ | ⟨code', hbad⟩
    · obtain ⟨m'', hrun', -⟩ := hok t' ht'
      cases hrun.symm.trans hrun'
    · obtain ⟨m'', hrun'⟩ := herr code' hbad
      cases hrun.symm.trans hrun'
      exact hbad
  · rcases decodes_or_offends s with hdec | ⟨code, hbad⟩
    · exact Or.inl hdec
    · have hcode := hbad
      obtain ⟨pre, t, bad, -, -, hoff⟩ := hcode
      cases hoff with
      | null => exact Or.inr (Or.inl hbad)
      | badHex => exact Or.inr (Or.inr hbad)
  · rintro u hu rfl
    obtain ⟨m', hrun, hre⟩ := hok u (decodes_percentEncode hu)
    exact ⟨m', hrun, hre.holds⟩

/-- "%2F%" ends in the middle of a triple. -/
theorem n_hex_decodes_truncated : FirstOffends NADS_ERR_BAD_HEX [37, 50, 70, 37] ↔
    ∃ m', nHexIn NADS_MAX_URI (Mem.store (fun _ => 0) 0 ([37, 50, 70, 37] ++ 0 :: [])) 0 =
      .error (.err NADS_ERR_BAD_HEX m') :=
  (n_hex_decodes NADS_MAX_URI _ 0 [37, 50, 70, 37] (Mem.holdsStr_store _ 0 [37, 50, 70, 37] [] (by decide)) (by decide)).2.1
    NADS_ERR_BAD_HEX

end Ashttpd
