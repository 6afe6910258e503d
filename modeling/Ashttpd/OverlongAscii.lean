import Ashttpd.Utf8Tables
import Mathlib.Algebra.Order.BigOperators.Group.List

/-!
# ASCII in disguise

A string is put together of ASCII, of characters in their shortest encodings and of ASCII that is encoded
in more bytes than it needs. What `n_utf8` makes of it is told by the numbers that the sequences stand for.
-/
namespace Ashttpd

/-- The bytes behind the first one, which take the lowest six bits each. -/
def contBytes : ℕ → ℕ → Bytes
  | 0, _ => []
  | j + 1, k => contBytes j (k / 64) ++ [UInt8.ofNat (0x80 + k % 64)]

/-- The encoding of a number in `n` bytes: `n` leading ones, and the highest bits of the number. -/
def utf8Sequence (n k : ℕ) : Bytes := UInt8.ofNat (256 - 2 ^ (8 - n) + k / 64 ^ (n - 1)) :: contBytes (n - 1) k

/-- What does not fit into less bytes, and does fit into `n`. -/
structure Shortest (n k : ℕ) : Prop where
  two_le : 2 ≤ n
  le_six : n ≤ 6
  wide : 0x80 ≤ k ∧ (2 < n → 2 ^ (5 * n - 4) ≤ k)
  fits : k < 2 ^ (5 * n + 1)

structure Overlong (n k : ℕ) : Prop where
  two_le : 2 ≤ n
  le_six : n ≤ 6
  pos : 0 < k
  ascii : k < 0x80

inductive Utf8Piece where
  | ascii (c : UInt8) (h : 0 < c ∧ c < 0x80)
  | character (n k : ℕ) (h : Shortest n k)
  | overlong (n k : ℕ) (h : Overlong n k)

namespace Utf8Piece

def bytes : Utf8Piece → Bytes
  | ascii c _ => [c]
  | character n k _ => utf8Sequence n k
  | overlong n k _ => utf8Sequence n k

/-- An overlong encoding is replaced by the byte that it encodes. -/
def stripped : Utf8Piece → Bytes
  | ascii c _ => [c]
  | character n k _ => utf8Sequence n k
  | overlong _ k _ => [UInt8.ofNat k]

/-- The characters that one byte would have room for. -/
def Latin1 : Utf8Piece → Prop
  | character _ k _ => k ≤ 0xFF
  | _ => False

/-- What `n_utf8` makes of a piece. -/
def written : Utf8Piece → Bytes
  | ascii c _ => [c]
  | character n k _ => if k ≤ 0xFF then [UInt8.ofNat k] else utf8Sequence n k
  | overlong _ k _ => [UInt8.ofNat k]

end Utf8Piece

theorem length_contBytes (j k : ℕ) : (contBytes j k).length = j := by
  induction j generalizing k with
  | zero => rfl
  | succ j ih => rw [contBytes, List.length_append, ih, List.length_singleton]

theorem ofDigits_contBytes (j k top : ℕ) (htop : top = k / 64 ^ j) :
    Nat.ofDigits 64 (((contBytes j k).map (·.toNat % 64)).reverse ++ [top]) = k := by
  induction j generalizing k with
  | zero => simp [contBytes, htop]
  | succ j ih =>
    have hbyte : (UInt8.ofNat (0x80 + k % 64)).toNat % 64 = k % 64 := by
      rw [UInt8.toNat_ofNat']
      omega
    have hrec := ih (k / 64) (by rw [htop, Nat.div_div_eq_div_mul, Nat.pow_succ, Nat.mul_comm])
    rw [contBytes, List.map_append, List.reverse_append, List.map_singleton, List.reverse_singleton,
      List.singleton_append, List.cons_append, Nat.ofDigits_cons, hrec, hbyte]
    exact Nat.mod_add_div k 64

theorem mem_contBytes {j k : ℕ} {c : UInt8} (h : c ∈ contBytes j k) : 0x80 ≤ c := by
  induction j generalizing k with
  | zero => cases h
  | succ j ih =>
    rw [contBytes, List.mem_append, List.mem_singleton] at h
    rcases h with h | rfl
    · exact ih h
    · rw [UInt8.le_iff_toNat_le, UInt8.toNat_ofNat']
      have h80 : (0x80 : UInt8).toNat = 128 := rfl
      omega

section Sequence

variable {n k : ℕ} (htwo : 2 ≤ n) (hsix : n ≤ 6) (hfits : k < 2 ^ (5 * n + 1))
include htwo hsix hfits

/-- The first byte has as many leading ones as there are bytes, and the rest of it is left for the number. -/
theorem leadByte_toNat : (UInt8.ofNat (256 - 2 ^ (8 - n) + k / 64 ^ (n - 1))).toNat = 256 - 2 ^ (8 - n) + k / 64 ^ (n - 1) ∧
    k / 64 ^ (n - 1) < 2 ^ (7 - n) := by
  have htop : k / 64 ^ (n - 1) < 2 ^ (7 - n) := by
    apply Nat.div_lt_of_lt_mul
    have hpow : (64 : ℕ) ^ (n - 1) * 2 ^ (7 - n) = 2 ^ (5 * n + 1) := by
      rw [show (64 : ℕ) = 2 ^ 6 from rfl, ← Nat.pow_mul, ← Nat.pow_add]
      congr 1
      omega
    rwa [hpow]
  refine ⟨?_, htop⟩
  rw [UInt8.toNat_ofNat']
  apply Nat.mod_eq_of_lt
  have hdouble : 2 ^ (8 - n) = 2 * 2 ^ (7 - n) := by
    rw [← Nat.pow_succ']
    congr 1
    omega
  have hle : 2 ^ (7 - n) ≤ 2 ^ 5 := Nat.pow_le_pow_right (by decide) (by omega)
  omega

theorem utf8Value_utf8Sequence : utf8Value (utf8Sequence n k) = k := by
  obtain ⟨hnat, htop⟩ := leadByte_toNat htwo hsix hfits
  show Nat.ofDigits 64 (((contBytes (n - 1) k).map (·.toNat % 64)).reverse ++
    [(UInt8.ofNat (256 - 2 ^ (8 - n) + k / 64 ^ (n - 1))).toNat % 2 ^ (6 - (contBytes (n - 1) k).length)]) = k
  rw [length_contBytes, hnat]
  apply ofDigits_contBytes
  have hbits : 6 - (n - 1) = 7 - n := by omega
  have hones : (256 - 2 ^ (8 - n)) % 2 ^ (7 - n) = 0 := by
    apply Nat.mod_eq_zero_of_dvd
    apply Nat.dvd_sub
    · exact Nat.pow_dvd_pow 2 (by omega : 7 - n ≤ 8)
    · exact Nat.pow_dvd_pow 2 (by omega)
  rw [hbits, Nat.add_mod, hones, Nat.zero_add, Nat.mod_mod, Nat.mod_eq_of_lt htop]

theorem sequenceLen_leadByte : 0xC0 ≤ UInt8.ofNat (256 - 2 ^ (8 - n) + k / 64 ^ (n - 1)) ∧
    UInt8.ofNat (256 - 2 ^ (8 - n) + k / 64 ^ (n - 1)) < 0xFE ∧
      sequenceLen (UInt8.ofNat (256 - 2 ^ (8 - n) + k / 64 ^ (n - 1))) = n := by
  have hall : ∀ n < 7, 2 ≤ n → ∀ top < 2 ^ (7 - n), 0xC0 ≤ UInt8.ofNat (256 - 2 ^ (8 - n) + top) ∧
      UInt8.ofNat (256 - 2 ^ (8 - n) + top) < 0xFE ∧ sequenceLen (UInt8.ofNat (256 - 2 ^ (8 - n) + top)) = n := by
    decide +kernel
  exact hall n (by omega) htwo _ (leadByte_toNat htwo hsix hfits).2

end Sequence

theorem low_bits (n : UInt32) (h : n.toNat ≤ 0xFF) : n &&& 0xffffff00 = 0 := by
  have hall : ∀ k < 256, UInt32.ofNat k &&& 0xffffff00 = 0 := by decide +kernel
  have hn := hall n.toNat (by omega)
  rwa [UInt32.ofNat_toNat] at hn

/-- A sequence of a number up to `0xff` is written as that byte, and any other as it is. -/
theorem runSteps_utf8Sequence {before : UInt8} {n k : ℕ} (htwo : 2 ≤ n) (hsix : n ≤ 6) (hfits : k < 2 ^ (5 * n + 1))
    (u : Bytes) : runSteps (utf8Step before) .plain (utf8Sequence n k ++ u) =
      (runSteps (utf8Step before) .plain u).map fun r =>
        (r.1, (if k ≤ 0xFF then [UInt8.ofNat k] else utf8Sequence n k) ++ r.2) := by
  obtain ⟨hlow, hhigh, hlen⟩ := sequenceLen_leadByte htwo hsix hfits
  have hvalue := utf8Value_utf8Sequence htwo hsix hfits
  have hcont := length_contBytes (n - 1) k
  unfold utf8Sequence at hvalue ⊢
  generalize UInt8.ofNat (256 - 2 ^ (8 - n) + k / 64 ^ (n - 1)) = c at hlow hhigh hlen hvalue ⊢
  generalize contBytes (n - 1) k = rest at hvalue hcont ⊢
  have hc : 0x80 ≤ c := UInt8.le_trans (by decide) hlow
  have hlead : leadLen c = rest.length + 1 := by
    rw [(leadLen_spec hc).2.1 hlow, hlen]
    omega
  have hne : rest ≠ [] := by
    rintro rfl
    rw [List.length_nil] at hcont
    omega
  have hucs : (nUcs4 before (c :: rest) (rest.length + 1)).toNat = k := by
    rw [nUcs4_spec before c hne (by omega), hvalue]
  have hout : sequenceOut before (c :: rest) (leadLen c) = if k ≤ 0xFF then [UInt8.ofNat k] else c :: rest := by
    unfold sequenceOut
    rw [hlead]
    by_cases hk : k ≤ 0xFF
    · rw [if_neg (not_not.mpr (low_bits _ (by rwa [hucs]))), if_pos hk]
      have hbyte : (nUcs4 before (c :: rest) (rest.length + 1)).toUInt8 = UInt8.ofNat k := by
        apply UInt8.toNat_inj.mp
        rw [UInt32.toNat_toUInt8, UInt8.toNat_ofNat', hucs]
      rw [hbyte]
    · rw [if_pos (high_bits_iff _ (by rw [hucs]; omega)), if_neg hk, List.take_of_length_le (by simp)]
  rw [runSteps_whole hc hhigh (by rw [hlen]; omega), hout]

/-- The characters that a string can have, outside of ASCII, are in their shortest encoding. -/
theorem utf8EncodeChar_eq (c : Char) (hc : 0x80 ≤ c.val.toNat) :
    Shortest c.utf8Size c.val.toNat ∧ String.utf8EncodeChar c = utf8Sequence c.utf8Size c.val.toNat := by
  have hmax : c.val.toNat < 0x110000 := by
    rcases c.valid with h | h
    · exact Nat.lt_trans h (by decide)
    · exact h.2
  have hsize : c.utf8Size = if c.val.toNat ≤ 0x7FF then 2 else if c.val.toNat ≤ 0xFFFF then 3 else 4 := by
    unfold Char.utf8Size
    simp only [UInt32.le_iff_toNat_le]
    exact if_neg (Nat.not_le.mpr hc)
  unfold String.utf8EncodeChar
  rw [hsize]
  generalize c.val.toNat = v at hc hmax
  dsimp only
  rw [if_neg (show ¬ v ≤ 0x7F by omega)]
  by_cases h2 : v ≤ 0x7FF
  · rw [if_pos h2, if_pos h2]
    refine ⟨⟨by decide, by decide, ⟨hc, fun h => absurd h (by decide)⟩, by omega⟩, ?_⟩
    have htop : v / 64 % 32 + 192 = 192 + v / 64 := by omega
    rw [htop, Nat.add_comm (v % 64)]
    rfl
  · rw [if_neg h2, if_neg h2]
    by_cases h3 : v ≤ 0xFFFF
    · rw [if_pos h3, if_pos h3]
      refine ⟨⟨by decide, by decide, ⟨hc, fun _ => by omega⟩, by omega⟩, ?_⟩
      have htop : v / 4096 % 16 + 224 = 224 + v / 4096 := by omega
      rw [htop, Nat.add_comm (v % 64), Nat.add_comm (v / 64 % 64)]
      rfl
    · rw [if_neg h3, if_neg h3]
      refine ⟨⟨by decide, by decide, ⟨hc, fun _ => by omega⟩, by omega⟩, ?_⟩
      have htop : v / 262144 % 8 + 240 = 240 + v / 262144 := by omega
      have hthird : v / 4096 = v / 64 / 64 := by omega
      rw [htop, Nat.add_comm (v % 64), Nat.add_comm (v / 64 % 64), Nat.add_comm (v / 4096 % 64), hthird]
      rfl

namespace Utf8Piece

theorem runSteps_pieces (before : UInt8) (ps : List Utf8Piece) :
    runSteps (utf8Step before) .plain (ps.flatMap bytes) = .ok (.plain, ps.flatMap written) := by
  induction ps with
  | nil => rfl
  | cons p ps ih =>
    rw [List.flatMap_cons, List.flatMap_cons]
    cases p with
    | ascii c h =>
      show runSteps (utf8Step before) .plain (c :: ps.flatMap bytes) = _
      rw [runSteps_ascii h.2, ih]
      rfl
    | character n k h =>
      show runSteps (utf8Step before) .plain (utf8Sequence n k ++ ps.flatMap bytes) = _
      rw [runSteps_utf8Sequence h.two_le h.le_six h.fits, ih]
      rfl
    | overlong n k h =>
      have hfits : k < 2 ^ (5 * n + 1) := by
        have hle : 2 ^ 11 ≤ 2 ^ (5 * n + 1) := Nat.pow_le_pow_right (by decide) (by have := h.two_le; omega)
        have hk := h.ascii
        omega
      show runSteps (utf8Step before) .plain (utf8Sequence n k ++ ps.flatMap bytes) = _
      rw [runSteps_utf8Sequence h.two_le h.le_six hfits, ih, if_pos (Nat.le_trans (Nat.le_of_lt h.ascii) (by decide))]
      rfl

/-- No piece is written as a NUL. -/
theorem written_ne_zero {p : Utf8Piece} {c : UInt8} (hc : c ∈ p.written) : c ≠ 0 := by
  have hbyte : ∀ k, 0 < k → k ≤ 0xFF → UInt8.ofNat k ≠ 0 := by
    intro k hpos hle h0
    have hnat := congrArg UInt8.toNat h0
    rw [UInt8.toNat_ofNat', Nat.mod_eq_of_lt (by omega)] at hnat
    exact absurd hnat (Nat.ne_of_gt hpos)
  have hhigh : ∀ d : UInt8, 0x80 ≤ d → d ≠ 0 := by
    rintro d hd rfl
    exact absurd hd (by decide)
  cases p with
  | ascii d h =>
    rw [List.mem_singleton.mp hc]
    rintro rfl
    exact absurd h.1 (by decide)
  | character n k h =>
    simp only [written] at hc
    split_ifs at hc with hk
    · rw [List.mem_singleton.mp hc]
      exact hbyte k (by have := h.wide.1; omega) hk
    · obtain ⟨hlow, -, -⟩ := sequenceLen_leadByte h.two_le h.le_six h.fits
      rcases List.mem_cons.mp hc with rfl | hcont
      · exact hhigh _ (UInt8.le_trans (by decide) hlow)
      · exact hhigh _ (mem_contBytes hcont)
  | overlong n k h =>
    rw [List.mem_singleton.mp hc]
    exact hbyte k h.pos (Nat.le_trans (Nat.le_of_lt h.ascii) (by decide))

theorem utf8Text_pieces (before : UInt8) (ps : List Utf8Piece) :
    utf8Text before (ps.flatMap bytes) = .ok (ps.flatMap written) := by
  have hfree : 0 ∉ ps.flatMap written := by
    intro h
    obtain ⟨p, -, hp⟩ := List.mem_flatMap.mp h
    exact written_ne_zero hp rfl
  unfold utf8Text passText
  rw [runSteps_pieces]
  show Except.ok (untilNul (ps.flatMap written)) = _
  rw [untilNul_of_nulFree hfree]

/-- A character that one byte has room for becomes shorter, and nothing else is changed. -/
theorem written_stripped (p : Utf8Piece) :
    (¬ p.Latin1 → p.written = p.stripped) ∧ p.written.length ≤ p.stripped.length ∧
      (p.Latin1 → p.written.length < p.stripped.length) := by
  cases p with
  | ascii c h => exact ⟨fun _ => rfl, Nat.le_refl _, fun h => h.elim⟩
  | overlong n k h => exact ⟨fun _ => rfl, Nat.le_refl _, fun h => h.elim⟩
  | character n k h =>
    have htwo := h.two_le
    have hlen : (utf8Sequence n k).length = n - 1 + 1 := by
      rw [utf8Sequence, List.length_cons, length_contBytes]
    simp only [Latin1, written, stripped]
    by_cases hk : k ≤ 0xFF
    · rw [if_pos hk, hlen, List.length_singleton]
      exact ⟨fun h => absurd hk h, by omega, fun _ => by omega⟩
    · rw [if_neg hk]
      exact ⟨fun _ => rfl, Nat.le_refl _, fun h => absurd h hk⟩

theorem flatMap_written_iff (ps : List Utf8Piece) :
    ps.flatMap written = ps.flatMap stripped ↔ ∀ p ∈ ps, ¬ p.Latin1 := by
  constructor
  · intro h p hp hlatin
    have hlt : (ps.flatMap written).length < (ps.flatMap stripped).length := by
      rw [List.length_flatMap, List.length_flatMap]
      apply List.sum_lt_sum
      · exact fun q _ => (written_stripped q).2.1
      · exact ⟨p, hp, (written_stripped p).2.2 hlatin⟩
    rw [h] at hlt
    exact Nat.lt_irrefl _ hlt
  · intro h
    apply List.flatMap_congr
    exact fun p hp => (written_stripped p).1 (h p hp)

end Utf8Piece

/-- On a string that is put together of ASCII, of characters and of overlong ASCII, `n_utf8` returns 1 and
strips what is overlong, and nothing else, if and only if there is no character below U+0100. -/
theorem n_utf8_strips_iff (size : ℕ) (before : UInt8) (m : Mem) (buf : ℕ) (ps : List Utf8Piece)
    (hs : m.HoldsStr buf (ps.flatMap Utf8Piece.bytes)) (hfit : buf + (ps.flatMap Utf8Piece.bytes).length < size) :
    (∃ m', nUtf8In size before m buf = .ok m' ∧
      Rewritten m m' buf (ps.flatMap Utf8Piece.bytes) (ps.flatMap Utf8Piece.stripped)) ↔ ∀ p ∈ ps, ¬ p.Latin1 := by
  have hpass : Passes m buf _ (nUtf8In size before m buf) (utf8Text before _) :=
    runPassIn_spec (utf8Step_lagging before) rfl hs hfit
  rw [Utf8Piece.utf8Text_pieces] at hpass
  obtain ⟨m', hrun, hre⟩ := hpass
  rw [← Utf8Piece.flatMap_written_iff]
  constructor
  · rintro ⟨m'', hrun', hre'⟩
    cases hrun.symm.trans hrun'
    exact hre.holds.unique hre'.holds
  · intro h
    rw [← h]
    exact ⟨m', hrun, hre⟩

/-- "/" in two bytes, and "€". -/
def euroPieces : List Utf8Piece :=
  [.overlong 2 0x2F ⟨by decide, by decide, by decide, by decide⟩,
    .character 3 0x20AC ⟨by decide, by decide, by decide, by decide⟩]

theorem n_utf8_strips_slash :
    (∃ m', nUtf8In NADS_MAX_URI 0 (Mem.store (fun _ => 0) 0 (euroPieces.flatMap Utf8Piece.bytes ++ 0 :: [])) 0 = .ok m' ∧
      Rewritten (Mem.store (fun _ => 0) 0 (euroPieces.flatMap Utf8Piece.bytes ++ 0 :: [])) m' 0
        (euroPieces.flatMap Utf8Piece.bytes) (euroPieces.flatMap Utf8Piece.stripped)) ↔ ∀ p ∈ euroPieces, ¬ p.Latin1 :=
  n_utf8_strips_iff NADS_MAX_URI 0 _ 0 euroPieces (Mem.holdsStr_store _ 0 _ [] (by decide)) (by decide)

/-- "é" becomes the one byte `0xe9`. -/
theorem n_utf8_strips_accented : ∃ (ps : List Utf8Piece) (m : Mem), ps.flatMap Utf8Piece.bytes = String.utf8EncodeChar 'é' ∧
    m.HoldsStr 0 (ps.flatMap Utf8Piece.bytes) ∧ (∃ m', nUtf8In NADS_MAX_URI 0 m 0 = .ok m' ∧ m'.HoldsStr 0 [0xE9]) ∧
      ¬ ∃ m', nUtf8In NADS_MAX_URI 0 m 0 = .ok m' ∧ m'.HoldsStr 0 (ps.flatMap Utf8Piece.stripped) := by
  have hs := Mem.holdsStr_store (fun _ => 0) 0 (String.utf8EncodeChar 'é') [] (by decide)
  have hpass : Passes _ 0 _ (nUtf8In NADS_MAX_URI 0 _ 0) (utf8Text 0 _) :=
    runPassIn_spec (utf8Step_lagging 0) rfl hs (by decide)
  rw [show utf8Text 0 (String.utf8EncodeChar 'é') = .ok [0xE9] by decide] at hpass
  obtain ⟨m', hrun, hre⟩ := hpass
  refine ⟨[.character 2 0xE9 ⟨by decide, by decide, by decide, by decide⟩], _, by decide, hs, ⟨m', hrun, hre.holds⟩, ?_⟩
  rintro ⟨m'', hrun', hholds⟩
  cases hrun.symm.trans hrun'
  exact absurd (hre.holds.unique hholds) (by decide)

end Ashttpd
