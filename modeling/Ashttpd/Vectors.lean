import Ashttpd.ByteMemory
import Mathlib.Data.Int.Order.Basic

/-!
# Byte vectors (`vec.c`)

`struct ro_vec` is a pointer and a length. A vector here records where it starts in the
buffer it points into (`none` for `NULL`) together with the bytes it covers; `v_len` is
their number. All lengths come from request and response buffers of at most a few
kilobytes, so that `size_t` differences are never cut by their conversion to `int`.
-/
namespace Ashttpd

/-- What can happen to a run of the program instead of its going on. `underflow` is a length
going below zero, `undefined` the use of a value that nothing has been assigned to. -/
inductive Fault where
  | assertion
  | outOfRange
  | underflow
  | undefined
  | nontermination
  | nullPointer
  | abort
  deriving DecidableEq, Repr

structure RoVec where
  vPtr : Option ℕ := none
  bytes : Bytes := []
  deriving DecidableEq, Repr

def RoVec.vLen (v : RoVec) : ℕ := v.bytes.length

/-- `tolower` in the "C" locale, which the program never changes. -/
def tolower (c : UInt8) : UInt8 := if 65 ≤ c ∧ c ≤ 90 then c + 32 else c

/-- The first non-zero difference of lower-cased bytes over the common length. -/
def caseDiff : Bytes → Bytes → ℤ
  | a :: as, b :: bs =>
    if (tolower a).toNat = (tolower b).toNat then caseDiff as bs
    else (tolower a).toNat - (tolower b).toNat
  | _, _ => 0

/-- Case-insensitive comparison that looks at the lengths first. -/
def vcasecmpFast (v1 v2 : Bytes) : ℤ :=
  let ret : ℤ := v1.length - v2.length
  if ret = 0 then caseDiff v1 v2 else ret

def vstrcmpFast (v1 str : Bytes) : ℤ := vcasecmpFast v1 str

def vcasecmp (v1 v2 : Bytes) : ℤ :=
  if caseDiff v1 v2 = 0 then v1.length - v2.length else caseDiff v1 v2

def vstrcmp (v1 str : Bytes) : ℤ := vcasecmp v1 str

/-- The loop of `vtouint`: the value so far and the digits consumed. -/
def vtouintLoop : Bytes → UInt32 → ℕ → UInt32 × ℕ
  | [], u, n => (u, n)
  | c :: cs, u, n =>
    let digit : UInt32 := c.toUInt32 - 48
    if 10 ≤ digit then (u, n) else vtouintLoop cs (u * 10 + digit) (n + 1)

def vtouint (v : Bytes) : UInt32 × ℕ := vtouintLoop v 0 0

def SameText (a b : Bytes) : Prop := a.map tolower = b.map tolower

instance (a b : Bytes) : Decidable (SameText a b) := inferInstanceAs (Decidable (_ = _))

theorem caseDiff_eq_zero_iff {a b : Bytes} (h : a.length = b.length) :
    caseDiff a b = 0 ↔ SameText a b := by
  induction a generalizing b with
  | nil =>
    cases b with
    | nil => simp [caseDiff, SameText]
    | cons b bs => simp at h
  | cons a as ih =>
    cases b with
    | nil => simp at h
    | cons b bs =>
      have hl : as.length = bs.length := by simpa using h
      simp only [caseDiff, SameText, List.map_cons, List.cons.injEq]
      split_ifs with heq
      · rw [ih hl]
        exact ⟨fun hs => ⟨UInt8.toNat_inj.mp heq, hs⟩, fun hs => hs.2⟩
      · constructor
        · intro hd; omega
        · rintro ⟨hs, -⟩; exact absurd (congrArg UInt8.toNat hs) heq

theorem SameText.length_eq {a b : Bytes} (h : SameText a b) : a.length = b.length := by
  simpa using congrArg List.length h

theorem vcasecmpFast_eq_zero_iff (a b : Bytes) : vcasecmpFast a b = 0 ↔ SameText a b := by
  by_cases h : a.length = b.length
  · simp [vcasecmpFast, h, caseDiff_eq_zero_iff h]
  · have hne : (a.length : ℤ) - b.length ≠ 0 := by omega
    simp only [vcasecmpFast, hne, if_false, false_iff]
    exact fun hs => h hs.length_eq

theorem vstrcmpFast_eq_zero_iff (a b : Bytes) : vstrcmpFast a b = 0 ↔ SameText a b :=
  vcasecmpFast_eq_zero_iff a b

theorem vstrcmp_eq_zero_iff {a b : Bytes} (h : a.length = b.length) :
    vstrcmp a b = 0 ↔ SameText a b := by
  rw [← caseDiff_eq_zero_iff h, vstrcmp, vcasecmp]
  split_ifs with hd
  · simp [hd, h]
  · simp [hd]

end Ashttpd
