import Ashttpd.CritBit
import Mathlib.Data.Nat.Bitwise
import Mathlib.Data.UInt

/-!
# The bits of strings

The bits of a string are numbered from the highest one of its first byte on. What the arithmetic of
`critbit.c` comes to is a bit that a node looks at, and a bit that tells two strings apart, unless the
first bytes that differ have different signs.
-/
namespace Ashttpd

variable {u key : CStr}

def CStr.bit (u : CStr) (i : ℕ) : Bool := (u.charAt (i / 8)).toNat.testBit (7 - i % 8)

/-- `otherbits` of a node that looks at the bit of value `2 ^ b`. -/
def mask (b : ℕ) : UInt8 := UInt8.ofNat (255 - 2 ^ b)

def position (byte : ℕ) (otherbits : UInt8) : ℕ := 8 * byte + (7 - (255 - otherbits.toNat).log2)

theorem position_mask {b : ℕ} (hb : b < 8) (byte : ℕ) : position byte (mask b) = 8 * byte + (7 - b) := by
  have hlog : ∀ b < 8, (255 - (mask b).toNat).log2 = b := by decide
  rw [position, hlog b hb]

theorem bit_position {b : ℕ} (hb : b < 8) (byte : ℕ) :
    u.bit (position byte (mask b)) = (u.charAt byte).toNat.testBit b := by
  rw [position_mask hb]
  unfold CStr.bit
  rw [show (8 * byte + (7 - b)) / 8 = byte by omega, show 7 - (8 * byte + (7 - b)) % 8 = b by omega]

theorem masked_bytes : ∀ b < 8, ∀ n < 256,
    ((1 + (mask b ||| UInt8.ofNat n).toNat) >>> 8 = if (UInt8.ofNat n).toNat.testBit b then 1 else 0) ∧
      newDirection (mask b).toUInt32 (UInt8.ofNat n) = if (UInt8.ofNat n).toNat.testBit b then 1 else 0 := by
  decide +kernel

theorem direction_mask {b : ℕ} (hb : b < 8) (byte : ℕ) :
    direction byte (mask b) u = if u.bit (position byte (mask b)) then 1 else 0 := by
  rw [bit_position hb]
  exact forall_byte (P := fun c => (1 + (mask b ||| c).toNat) >>> 8 = if c.toNat.testBit b then 1 else 0)
    (fun n hn => (masked_bytes b hb n hn).1) (u.charAt byte)

theorem newDirection_mask {b : ℕ} (hb : b < 8) (c : UInt8) :
    newDirection (mask b).toUInt32 c = if c.toNat.testBit b then 1 else 0 := by
  exact forall_byte (P := fun c => newDirection (mask b).toUInt32 c = if c.toNat.testBit b then 1 else 0)
    (fun n hn => (masked_bytes b hb n hn).2) c

theorem mask_toUInt8 {b : ℕ} (hb : b < 8) : (mask b).toUInt32.toUInt8 = mask b := by
  have hall : ∀ b < 8, (mask b).toUInt32.toUInt8 = mask b := by decide
  exact hall b hb

theorem position_lt_iff {b b' : ℕ} (hb : b < 8) (hb' : b' < 8) (byte byte' : ℕ) :
    position byte (mask b) < position byte' (mask b') ↔
      byte < byte' ∨ byte' = byte ∧ (mask b).toUInt32 < (mask b').toUInt32 := by
  have hall : ∀ b < 8, ∀ b' < 8, (mask b).toUInt32 < (mask b').toUInt32 ↔ b' < b := by decide
  rw [position_mask hb, position_mask hb', hall b hb b' hb']
  omega

def topBit (c d : UInt8) : ℕ := (c ^^^ d).toNat.log2

theorem xor_toNat_ne_zero {c d : UInt8} (h : c ≠ d) : (c ^^^ d).toNat ≠ 0 := by
  intro hz
  have hxor : c.toNat ^^^ d.toNat = 0 := by rwa [UInt8.toNat_xor] at hz
  exact h (UInt8.toNat_inj.mp (Nat.xor_eq_zero_iff.mp hxor))

theorem topBit_lt {c d : UInt8} (h : c ≠ d) : topBit c d < 8 :=
  (Nat.log2_lt (xor_toNat_ne_zero h)).mpr (c ^^^ d).toNat_lt

theorem testBit_topBit {c d : UInt8} (h : c ≠ d) :
    c.toNat.testBit (topBit c d) ≠ d.toNat.testBit (topBit c d) := by
  have hbit := Nat.testBit_log2 (xor_toNat_ne_zero h)
  rw [UInt8.toNat_xor, Nat.testBit_xor] at hbit
  intro heq
  unfold topBit at heq
  rw [UInt8.toNat_xor] at heq
  rw [heq, Bool.xor_self] at hbit
  cases hbit

theorem testBit_of_topBit_lt {c d : UInt8} {b : ℕ} (hb : topBit c d < b) :
    c.toNat.testBit b = d.toNat.testBit b := by
  have hlt : (c ^^^ d).toNat < 2 ^ b :=
    Nat.lt_of_lt_of_le Nat.lt_log2_self (Nat.pow_le_pow_right (by decide) hb)
  have hbit := Nat.testBit_lt_two_pow hlt
  rw [UInt8.toNat_xor, Nat.testBit_xor] at hbit
  simpa using hbit

theorem topBit_lt_seven {c d : UInt8} (h : c ≠ d) :
    topBit c d < 7 ↔ c.toNat.testBit 7 = d.toNat.testBit 7 := by
  constructor
  · exact testBit_of_topBit_lt
  · intro heq
    have hne : topBit c d ≠ 7 := by
      intro hseven
      have hbit := testBit_topBit h
      rw [hseven] at hbit
      exact hbit heq
    have hlt := topBit_lt h
    omega

theorem signed_bytes : ∀ n < 256, (UInt8.ofNat n < 128 ↔ (UInt8.ofNat n).toNat.testBit 7 = false) ∧
    (n < 128 → n ≠ 0 → newOtherbits (UInt8.ofNat n).toUInt32 = (mask n.log2).toUInt32) ∧
    ((UInt8.ofNat n).toNat.testBit 7 = true → newOtherbits ((UInt8.ofNat n).toUInt32 ||| 0xffffff00) = 0x800000ff) ∧
    newDirection 0x800000ff (UInt8.ofNat n) = 0x800001 := by
  decide +kernel

/-- Two sign extensions differ in the bytes, and above them if the bytes differ in the sign. -/
theorem xor_signExtend (c d : UInt8) : signExtend c ^^^ signExtend d =
    if c.toNat.testBit 7 = d.toNat.testBit 7 then (c ^^^ d).toUInt32 else (c ^^^ d).toUInt32 ||| 0xffffff00 := by
  have hsign : ∀ c : UInt8, c < 128 ↔ c.toNat.testBit 7 = false := forall_byte fun n hn => (signed_bytes n hn).1
  have hlow : ∀ i < 8, (0xffffff00 : ℕ).testBit i = false := by decide
  have hhigh : ∀ (c : UInt8) (i : ℕ), 8 ≤ i → c.toNat.testBit i = false := by
    intro c i hi
    exact Nat.testBit_lt_two_pow (Nat.lt_of_lt_of_le c.toNat_lt (Nat.pow_le_pow_right (by decide) hi))
  apply UInt32.toNat_inj.mp
  apply Nat.eq_of_testBit_eq
  intro i
  unfold signExtend
  simp only [hsign]
  by_cases hi : i < 8
  · cases hc : c.toNat.testBit 7 <;> cases hd : d.toNat.testBit 7 <;> simp [hlow i hi]
  · have h1 := hhigh c i (by omega)
    have h2 := hhigh d i (by omega)
    cases hc : c.toNat.testBit 7 <;> cases hd : d.toNat.testBit 7 <;> simp [h1, h2]

/-- The mask that `cb_insert` finds for two bytes, if they agree in the sign. -/
theorem newOtherbits_of_sign {c d : UInt8} (h : c ≠ d) (hsign : c.toNat.testBit 7 = d.toNat.testBit 7) :
    newOtherbits (signExtend c ^^^ signExtend d) = (mask (topBit c d)).toUInt32 := by
  have hlt : (c ^^^ d).toNat < 128 := (Nat.log2_lt (xor_toNat_ne_zero h)).mp ((topBit_lt_seven h).mpr hsign)
  have hx := (signed_bytes _ (c ^^^ d).toNat_lt).2.1 hlt (xor_toNat_ne_zero h)
  rw [UInt8.ofNat_toNat] at hx
  rw [xor_signExtend, if_pos hsign]
  exact hx

theorem newDirection_of_sign {c d e : UInt8} (hsign : c.toNat.testBit 7 ≠ d.toNat.testBit 7) :
    newDirection (newOtherbits (signExtend c ^^^ signExtend d)) e = 0x800001 := by
  have hdir : ∀ e, newDirection 0x800000ff e = 0x800001 := forall_byte fun n hn => (signed_bytes n hn).2.2.2
  have hx := (signed_bytes _ (c ^^^ d).toNat_lt).2.2.1
  rw [UInt8.ofNat_toNat, UInt8.toNat_xor, Nat.testBit_xor] at hx
  rw [xor_signExtend, if_neg hsign, hx, hdir]
  cases hc : c.toNat.testBit 7 <;> cases hd : d.toNat.testBit 7 <;> simp_all

theorem CStr.charAt_ne_zero {i : ℕ} (hi : i < u.strlen) : u.charAt i ≠ 0 := by
  unfold charAt
  rw [List.getD_eq_getElem _ _ hi]
  intro hz
  have hmem := List.getElem_mem (l := u.bytes) hi
  rw [hz] at hmem
  exact u.noNul hmem

theorem CStr.charAt_of_le {i : ℕ} (hi : u.strlen ≤ i) : u.charAt i = 0 :=
  List.getD_eq_default _ _ hi

/-- Strings with the same bytes up to the terminator of one are the same. -/
theorem CStr.eq_of_charAt (h : ∀ i ≤ u.strlen, key.charAt i = u.charAt i) : key = u := by
  have hle : key.strlen ≤ u.strlen := by
    by_contra hlt
    have hz := h u.strlen (Nat.le_refl _)
    rw [charAt_of_le (Nat.le_refl u.strlen)] at hz
    exact charAt_ne_zero (Nat.lt_of_not_le hlt) hz
  have hge : u.strlen ≤ key.strlen := by
    by_contra hlt
    have hz := h key.strlen hle
    rw [charAt_of_le (Nat.le_refl key.strlen)] at hz
    exact charAt_ne_zero (Nat.lt_of_not_le hlt) hz.symm
  have hbytes : key.bytes = u.bytes := by
    apply List.ext_getElem (Nat.le_antisymm hle hge)
    intro i hi hi'
    have heq := h i (Nat.le_of_lt hi')
    unfold charAt at heq
    rwa [List.getD_eq_getElem _ _ hi, List.getD_eq_getElem _ _ hi'] at heq
  cases key
  cases u
  cases hbytes
  rfl

theorem agree_iff {n : ℕ} : Agree CStr.bit (8 * n) key u ↔ ∀ j < n, key.charAt j = u.charAt j := by
  constructor
  · intro h j hj
    apply UInt8.toNat_inj.mp
    apply Nat.eq_of_testBit_eq
    intro b
    by_cases hb : b < 8
    · have hbit := h (position j (mask b)) (by rw [position_mask hb]; omega)
      rwa [bit_position hb, bit_position hb] at hbit
    · have hpow : 2 ^ 8 ≤ 2 ^ b := Nat.pow_le_pow_right (by decide) (by omega)
      rw [Nat.testBit_lt_two_pow (Nat.lt_of_lt_of_le (key.charAt j).toNat_lt hpow),
        Nat.testBit_lt_two_pow (Nat.lt_of_lt_of_le (u.charAt j).toNat_lt hpow)]
  · intro h i hi
    unfold CStr.bit
    rw [h (i / 8) (by omega)]

theorem CStr.eq_of_bit (h : ∀ i, key.bit i = u.bit i) : key = u :=
  eq_of_charAt fun i _ => agree_iff.mp (fun j _ => h j) i (Nat.lt_succ_self i)

/-- The first byte in which two strings differ. -/
structure DifferAt (key u : CStr) (d : ℕ) : Prop where
  same : ∀ j < d, key.charAt j = u.charAt j
  differ : key.charAt d ≠ u.charAt d

theorem exists_differAt (h : key ≠ u) : ∃ d, DifferAt key u d := by
  have hex : ∃ d, key.charAt d ≠ u.charAt d := by
    by_contra hall
    push Not at hall
    exact h (CStr.eq_of_charAt fun i _ => hall i)
  exact ⟨Nat.find hex, fun j hj => not_not.mp (Nat.find_min hex hj), Nat.find_spec hex⟩

theorem DifferAt.le_strlen {d : ℕ} (h : DifferAt key u d) : d ≤ u.strlen := by
  by_contra hlt
  exact h.differ (by rw [CStr.eq_of_charAt fun i hi => h.same i (by omega)])

def DifferAt.bitAt (key u : CStr) (d : ℕ) : ℕ := position d (mask (topBit (key.charAt d) (u.charAt d)))

theorem DifferAt.agree {d : ℕ} (h : DifferAt key u d) : Agree CStr.bit (bitAt key u d) key u := by
  intro i hi
  have htop := topBit_lt h.differ
  unfold bitAt at hi
  rw [position_mask htop] at hi
  unfold CStr.bit
  rcases Nat.lt_or_ge (i / 8) d with hlt | hge
  · rw [h.same _ hlt]
  · have hd : i / 8 = d := by omega
    rw [hd]
    exact testBit_of_topBit_lt (by omega)

theorem DifferAt.bit_ne {d : ℕ} (h : DifferAt key u d) : key.bit (bitAt key u d) ≠ u.bit (bitAt key u d) := by
  unfold bitAt
  rw [bit_position (topBit_lt h.differ), bit_position (topBit_lt h.differ)]
  exact testBit_topBit h.differ

theorem differentByte_of_differ {n newbyte d : ℕ} (hle : newbyte ≤ d) (hlt : d < newbyte + n) (hd : d < 2 ^ 32)
    (hdiff : DifferAt key u d) : differentByte key u n newbyte = .ok (some d) := by
  induction n generalizing newbyte with
  | zero => omega
  | succ n ih =>
    unfold differentByte
    by_cases heq : newbyte = d
    · subst heq
      exact if_pos hdiff.differ
    · rw [if_neg (not_not_intro (hdiff.same newbyte (by omega))), if_neg (by omega)]
      exact ih (by omega) (by omega)

theorem differentByte_of_same {n newbyte : ℕ} (hlt : newbyte + n < 2 ^ 32)
    (hsame : ∀ j < newbyte + n, key.charAt j = u.charAt j) : differentByte key u n newbyte = .ok none := by
  induction n generalizing newbyte with
  | zero => rfl
  | succ n ih =>
    unfold differentByte
    rw [if_neg (not_not_intro (hsame newbyte (by omega))), if_neg (by omega)]
    exact ih (by omega) (fun j hj => hsame j (by omega))

theorem differentByte_endless {n newbyte : ℕ} (hlt : newbyte < 2 ^ 32) (hle : 2 ^ 32 ≤ newbyte + n)
    (hsame : ∀ j < 2 ^ 32, key.charAt j = u.charAt j) :
    differentByte key u n newbyte = .error .nontermination := by
  induction n generalizing newbyte with
  | zero => omega
  | succ n ih =>
    unfold differentByte
    rw [if_neg (not_not_intro (hsame newbyte hlt))]
    by_cases hlast : newbyte + 1 = 2 ^ 32
    · exact if_pos hlast
    · rw [if_neg hlast]
      exact ih (by omega) (by omega)

/-- The difference that is found. -/
theorem firstDifference_of_differ {d : ℕ} (hd : d < 2 ^ 32) (hdiff : DifferAt key u d) :
    firstDifference key u = .ok (some (d, signExtend (key.charAt d) ^^^ signExtend (u.charAt d))) := by
  unfold firstDifference
  rcases Nat.lt_or_ge d u.strlen with hlt | hge
  · rw [differentByte_of_differ (Nat.zero_le d) (by omega) hd hdiff]
    rfl
  · have heq : d = u.strlen := Nat.le_antisymm hdiff.le_strlen hge
    subst heq
    have hzero := CStr.charAt_of_le (Nat.le_refl u.strlen)
    have hne := hdiff.differ
    rw [hzero] at hne
    rw [differentByte_of_same (by omega) (by simpa using hdiff.same)]
    show (if key.charAt u.strlen ≠ 0 then _ else _) = _
    rw [if_pos hne, hzero]
    have hext : signExtend 0 = 0 := by decide
    rw [hext, UInt32.xor_zero]
    rfl

theorem firstDifference_self (hlen : u.strlen < 2 ^ 32) : firstDifference u u = .ok none := by
  unfold firstDifference
  rw [differentByte_of_same (by omega) (fun j _ => rfl)]
  show (if u.charAt u.strlen ≠ 0 then _ else _) = _
  rw [if_neg (not_not_intro (CStr.charAt_of_le (Nat.le_refl _)))]
  rfl

theorem firstDifference_endless (hlen : 2 ^ 32 ≤ u.strlen) (hsame : ∀ j < 2 ^ 32, key.charAt j = u.charAt j) :
    firstDifference key u = .error .nontermination := by
  unfold firstDifference
  rw [differentByte_endless (by decide) (by omega) hsame]
  rfl

end Ashttpd
