import Ashttpd.BlockStreams
import Mathlib.Data.Nat.Notation
import Mathlib.Data.UInt
import Mathlib.Tactic.Ring

/-!
# The secure hash algorithm SHA-1

The hash as FIPS 180 tells it: a schedule of eighty words a block, and five working variables that
are all moved on in every round.
-/
namespace Ashttpd.Fips180

abbrev Word := BitVec 32

def Ch (x y z : Word) : Word := (x &&& y) ^^^ (~~~x &&& z)
def Parity (x y z : Word) : Word := x ^^^ y ^^^ z
def Maj (x y z : Word) : Word := (x &&& y) ^^^ (x &&& z) ^^^ (y &&& z)

def f (t : ℕ) : Word → Word → Word → Word :=
  if t < 20 then Ch else if t < 40 then Parity else if t < 60 then Maj else Parity

def K (t : ℕ) : Word :=
  if t < 20 then 0x5a827999 else if t < 40 then 0x6ed9eba1 else if t < 60 then 0x8f1bbcdc else 0xca62c1d6

/-- The message schedule of a block of sixteen words. -/
def schedule (M : ℕ → Word) (t : ℕ) : Word :=
  if t < 16 then M t
  else (schedule M (t - 3) ^^^ schedule M (t - 8) ^^^ schedule M (t - 14) ^^^ schedule M (t - 16)).rotateLeft 1
termination_by t

/-- Five words: the working variables, or the hash value between two blocks. -/
structure Work where
  a : Word
  b : Word
  c : Word
  d : Word
  e : Word
  deriving DecidableEq, Repr

def round (W : Word) (t : ℕ) (v : Work) : Work where
  a := v.a.rotateLeft 5 + f t v.b v.c v.d + v.e + K t + W
  b := v.a
  c := v.b.rotateLeft 30
  d := v.c
  e := v.d

/-- The first `n` rounds of a block. -/
def rounds (M : ℕ → Word) (v : Work) : ℕ → Work
  | 0 => v
  | n + 1 => round (schedule M n) n (rounds M v n)

def Work.add (v w : Work) : Work := ⟨v.a + w.a, v.b + w.b, v.c + w.c, v.d + w.d, v.e + w.e⟩

/-- Four bytes make a word, the high one first. -/
def word (bs : List UInt8) (i : ℕ) : Word :=
  (bs.getD i 0).toBitVec ++ (bs.getD (i + 1) 0).toBitVec ++ (bs.getD (i + 2) 0).toBitVec ++
    (bs.getD (i + 3) 0).toBitVec

def compress (H : Work) (block : List UInt8) : Work := H.add (rounds (fun t => word block (t * 4)) H 80)

def H0 : Work := ⟨0x67452301, 0xefcdab89, 0x98badcfe, 0x10325476, 0xc3d2e1f0⟩

/-- The bytes of a number in `n` bytes, the high one first. -/
def bigEndian (x : ℕ) : ℕ → List UInt8
  | 0 => []
  | n + 1 => UInt8.ofNat (x / 256 ^ n) :: bigEndian x n

/-- What is put behind a message of `l` bytes: a one, zeros, and the length in bits. -/
def padding (l : ℕ) : List UInt8 :=
  0x80 :: List.replicate ((119 - l % 64) % 64) 0 ++ bigEndian (8 * l) 8

def Work.digest (v : Work) : List UInt8 := [v.a, v.b, v.c, v.d, v.e].flatMap fun w => bigEndian w.toNat 4

def sha1 (m : List UInt8) : List UInt8 :=
  (foldBlocks 64 compress H0 (m ++ padding m.length)).digest

theorem schedule_lt {M : ℕ → Word} {t : ℕ} (h : t < 16) : schedule M t = M t := by
  rw [schedule, if_pos h]

theorem schedule_ge {M : ℕ → Word} {t : ℕ} (h : 16 ≤ t) :
    schedule M t =
      (schedule M (t - 3) ^^^ schedule M (t - 8) ^^^ schedule M (t - 14) ^^^ schedule M (t - 16)).rotateLeft 1 := by
  rw [schedule, if_neg (by omega)]

theorem bigEndian_length (x n : ℕ) : (bigEndian x n).length = n := by
  induction n with
  | zero => rfl
  | succ n ih => rw [bigEndian, List.length_cons, ih]

theorem bigEndian_add (x n k : ℕ) : bigEndian x (n + k) = bigEndian (x / 256 ^ k) n ++ bigEndian x k := by
  induction n with
  | zero => rw [Nat.zero_add, bigEndian, List.nil_append]
  | succ n ih =>
    rw [Nat.succ_add, bigEndian, bigEndian, ih, Nat.div_div_eq_div_mul, ← Nat.pow_add, Nat.add_comm k n]
    rfl

theorem bigEndian_mod {x y n : ℕ} (h : x % 256 ^ n = y % 256 ^ n) : bigEndian x n = bigEndian y n := by
  induction n with
  | zero => rfl
  | succ n ih =>
    rw [bigEndian, bigEndian]
    congr 1
    · apply UInt8.toNat_inj.mp
      rw [UInt8.toNat_ofNat', UInt8.toNat_ofNat', ← Nat.mod_mul_right_div_self, ← Nat.mod_mul_right_div_self,
        show 256 ^ n * 2 ^ 8 = 256 ^ (n + 1) from (Nat.pow_succ ..).symm, h]
    · refine ih ?_
      have hx := Nat.mod_mod_of_dvd x (Dvd.intro 256 (Nat.pow_succ ..).symm : 256 ^ n ∣ 256 ^ (n + 1))
      have hy := Nat.mod_mod_of_dvd y (Dvd.intro 256 (Nat.pow_succ ..).symm : 256 ^ n ∣ 256 ^ (n + 1))
      rw [← hx, ← hy, h]

theorem sha1_length (m : List UInt8) : (sha1 m).length = 20 := by
  simp [sha1, Work.digest, bigEndian_length]

end Ashttpd.Fips180
