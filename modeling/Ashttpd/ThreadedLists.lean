import Ashttpd.ByteMemory
import Mathlib.Data.Nat.Digits.Defs

/-!
# Lists threaded through a memory

A word is eight bytes, the least one first. The link of a list is a word at the start of each of its
members and a pointer to the first one; a zero ends it. Such a list does not change as long as the links
do not, and grows and shrinks at its head.
-/
namespace Ashttpd

/-- The lowest `n` bytes of a number, the least one first. -/
def wordBytes : ℕ → ℕ → Bytes
  | 0, _ => []
  | n + 1, v => UInt8.ofNat v :: wordBytes n (v / 256)

@[simp] theorem wordBytes_length (n v : ℕ) : (wordBytes n v).length = n := by
  induction n generalizing v with
  | zero => rfl
  | succ n ih => rw [wordBytes, List.length_cons, ih]

theorem ofDigits_wordBytes (n v : ℕ) : Nat.ofDigits 256 ((wordBytes n v).map UInt8.toNat) = v % 256 ^ n := by
  induction n generalizing v with
  | zero => rw [pow_zero, Nat.mod_one, wordBytes, List.map_nil, Nat.ofDigits_nil]
  | succ n ih =>
    rw [wordBytes, List.map_cons, Nat.ofDigits_cons, ih, pow_succ', Nat.mod_mul, UInt8.toNat_ofNat']

/-- Two objects of `n` bytes, neither of which reaches into the other. -/
def Apart (n p q : ℕ) : Prop := p + n ≤ q ∨ q + n ≤ p

instance (n p q : ℕ) : Decidable (Apart n p q) := inferInstanceAs (Decidable (_ ∨ _))

theorem Apart.symm {n p q : ℕ} (h : Apart n p q) : Apart n q p := Or.symm h

instance (n : ℕ) : Std.Symm (Apart n) := ⟨fun _ _ => Apart.symm⟩

theorem Apart.mono {k n p q : ℕ} (h : Apart n p q) (hk : k ≤ n) : Apart k p q := by
  unfold Apart at h ⊢
  omega

namespace Mem

/-- The number that the word at `p` holds. -/
def word (m : Mem) (p : ℕ) : ℕ := Nat.ofDigits 256 ((m.slice p 8).map UInt8.toNat)

def storeWord (m : Mem) (p v : ℕ) : Mem := m.store p (wordBytes 8 v)

variable {m m' : Mem} {p q v : ℕ} {qs : List ℕ}

theorem word_storeWord (hv : v < 2 ^ 64) : (m.storeWord p v).word p = v := by
  have hslice : (m.storeWord p v).slice p 8 = wordBytes 8 v := by
    have h := slice_store_same m p (wordBytes 8 v)
    rwa [wordBytes_length] at h
  rw [word, hslice, ofDigits_wordBytes]
  exact Nat.mod_eq_of_lt hv

theorem word_congr (h : ∀ i, p ≤ i → i < p + 8 → m i = m' i) : m.word p = m'.word p := by
  rw [word, word, slice_congr h]

theorem storeWord_outside {i : ℕ} (h : i < p ∨ p + 8 ≤ i) : m.storeWord p v i = m i := by
  rcases h with h | h
  · exact store_before m p _ h
  · exact store_after m p _ (by rwa [wordBytes_length])

/-- The list of the addresses reached from `p` by the links. -/
def Threaded (m : Mem) : ℕ → List ℕ → Prop
  | p, [] => p = 0
  | p, q :: qs => p = q ∧ q ≠ 0 ∧ m.Threaded (m.word q) qs

theorem Threaded.ne_nil (h : m.Threaded p qs) (hp : p ≠ 0) : ∃ rest, qs = p :: rest ∧ m.Threaded (m.word p) rest := by
  cases qs with
  | nil => exact absurd h hp
  | cons q qs =>
    obtain ⟨rfl, -, hrest⟩ := h
    exact ⟨qs, rfl, hrest⟩

theorem Threaded.head_lt {bound : ℕ} (h : m.Threaded p qs) (hqs : ∀ q ∈ qs, q < bound) (hb : 0 < bound) :
    p < bound := by
  cases qs with
  | nil => exact lt_of_eq_of_lt h hb
  | cons q qs =>
    rw [h.1]
    exact hqs q List.mem_cons_self

theorem Threaded.congr (h : m.Threaded p qs) (hlinks : ∀ q ∈ qs, m'.word q = m.word q) : m'.Threaded p qs := by
  induction qs generalizing p with
  | nil => exact h
  | cons q qs ih =>
    obtain ⟨hp, hne, hrest⟩ := h
    refine ⟨hp, hne, ?_⟩
    rw [hlinks q List.mem_cons_self]
    exact ih hrest fun q' hq' => hlinks q' (List.mem_cons_of_mem _ hq')

theorem Threaded.storeWord (h : m.Threaded p qs) (hqs : ∀ r ∈ qs, Apart 8 q r) : (m.storeWord q v).Threaded p qs := by
  refine h.congr fun r hr => word_congr fun i h1 h2 => storeWord_outside ?_
  have hapart := hqs r hr
  unfold Apart at hapart
  omega

theorem Threaded.push (h : m.Threaded p qs) (hq : q ≠ 0) (hp : p < 2 ^ 64) (hqs : ∀ r ∈ qs, Apart 8 q r) :
    (m.storeWord q p).Threaded q (q :: qs) := by
  refine ⟨rfl, hq, ?_⟩
  rw [word_storeWord hp]
  exact h.storeWord hqs

end Mem

end Ashttpd
