import Mathlib.Data.List.Basic
import Mathlib.Logic.Function.Basic
import Mathlib.Data.Nat.Notation
import Mathlib.Data.UInt

/-!
# Flat byte memories and the C strings they hold

A memory is a total function from addresses to bytes. Reading a run of cells and
copying bytes over one are the only two operations; a C string is described by what
the memory holds up to and including its terminator.
-/
namespace Ashttpd

abbrev Bytes := List UInt8
abbrev Mem := ℕ → UInt8

theorem forall_byte {P : UInt8 → Prop} (h : ∀ n < 256, P (UInt8.ofNat n)) (c : UInt8) : P c := by
  have hc := h c.toNat c.toNat_lt
  rwa [UInt8.ofNat_toNat] at hc

namespace Mem

/-- The `n` bytes found from address `p` on. -/
def slice (m : Mem) (p n : ℕ) : Bytes := (List.range' p n).map m

/-- Copy `bs` over the cells from address `p` on. -/
def store (m : Mem) (p : ℕ) (bs : Bytes) : Mem :=
  fun i => if i < p then m i else (bs[i - p]?).getD (m i)

@[simp] theorem slice_length (m : Mem) (p n : ℕ) : (m.slice p n).length = n := by
  simp [slice]

@[simp] theorem slice_zero (m : Mem) (p : ℕ) : m.slice p 0 = [] := rfl

theorem slice_succ (m : Mem) (p n : ℕ) : m.slice p (n + 1) = m p :: m.slice (p + 1) n := by
  simp [slice, List.range'_succ]

theorem slice_add (m : Mem) (p n k : ℕ) :
    m.slice p (n + k) = m.slice p n ++ m.slice (p + n) k := by
  simp [slice, ← List.map_append]

theorem slice_getElem? (m : Mem) (p n i : ℕ) (h : i < n) : (m.slice p n)[i]? = some (m (p + i)) := by
  simp [slice, h]

theorem slice_congr {m m' : Mem} {p n : ℕ} (h : ∀ i, p ≤ i → i < p + n → m i = m' i) :
    m.slice p n = m'.slice p n := by
  apply List.map_congr_left
  intro i hi
  obtain ⟨h1, h2⟩ := List.mem_range'_1.mp hi
  exact h i h1 h2

@[simp] theorem store_nil (m : Mem) (p : ℕ) : m.store p [] = m := by
  funext i
  simp [store]

theorem store_before (m : Mem) (p : ℕ) (bs : Bytes) {i : ℕ} (h : i < p) : m.store p bs i = m i := by
  simp [store, h]

theorem store_after (m : Mem) (p : ℕ) (bs : Bytes) {i : ℕ} (h : p + bs.length ≤ i) :
    m.store p bs i = m i := by
  have h1 : ¬ i < p := by omega
  have h2 : bs[i - p]? = none := List.getElem?_eq_none (by omega)
  simp [store, h1, h2]

theorem store_inside (m : Mem) (p : ℕ) (bs : Bytes) {i : ℕ} (h : i < bs.length) :
    m.store p bs (p + i) = bs[i] := by
  simp [store, h]

theorem slice_store_same (m : Mem) (p : ℕ) (bs : Bytes) : (m.store p bs).slice p bs.length = bs := by
  apply List.ext_getElem?
  intro i
  by_cases h : i < bs.length
  · rw [slice_getElem? _ _ _ _ h, store_inside m p bs h, List.getElem?_eq_getElem h]
  · rw [List.getElem?_eq_none (by simpa using h), List.getElem?_eq_none (by simpa using h)]

theorem slice_store_before (m : Mem) (p q n : ℕ) (bs : Bytes) (h : q + n ≤ p) :
    (m.store p bs).slice q n = m.slice q n :=
  slice_congr fun _ _ h2 => store_before m p bs (by omega)

theorem slice_store_after (m : Mem) (p q n : ℕ) (bs : Bytes) (h : p + bs.length ≤ q) :
    (m.store p bs).slice q n = m.slice q n :=
  slice_congr fun _ h1 _ => store_after m p bs (by omega)

theorem slice_store_extend (m : Mem) (p n : ℕ) (bs : Bytes) :
    (m.store (p + n) bs).slice p (n + bs.length) = m.slice p n ++ bs := by
  rw [slice_add, slice_store_before _ _ _ _ _ (Nat.le_refl _), slice_store_same]

/-- `m` holds the NUL-terminated string `s` at address `p`. -/
structure HoldsStr (m : Mem) (p : ℕ) (s : Bytes) : Prop where
  content : m.slice p s.length = s
  terminated : m (p + s.length) = 0
  nulFree : 0 ∉ s

/-- The string at `p`, read up to its terminator and for at most `fuel` bytes. -/
def cstr (m : Mem) : ℕ → ℕ → Bytes
  | 0, _ => []
  | fuel + 1, p => if m p = 0 then [] else m p :: m.cstr fuel (p + 1)

theorem HoldsStr.nil {m : Mem} {p : ℕ} (h : m p = 0) : m.HoldsStr p [] :=
  ⟨rfl, by simpa using h, by simp⟩

theorem holdsStr_cons {m : Mem} {p : ℕ} {c : UInt8} {s : Bytes} :
    m.HoldsStr p (c :: s) ↔ m p = c ∧ c ≠ 0 ∧ m.HoldsStr (p + 1) s := by
  constructor
  · rintro ⟨h1, h2, h3⟩
    rw [List.length_cons, slice_succ, List.cons.injEq] at h1
    have hmem : c ≠ 0 ∧ 0 ∉ s := by
      constructor
      · rintro rfl; exact h3 List.mem_cons_self
      · exact fun h => h3 (List.mem_cons_of_mem _ h)
    refine ⟨h1.1, hmem.1, h1.2, ?_, hmem.2⟩
    rw [← h2, List.length_cons]
    congr 1
    omega
  · rintro ⟨rfl, hc, h1, h2, h3⟩
    refine ⟨?_, ?_, ?_⟩
    · rw [List.length_cons, slice_succ, h1]
    · rw [← h2, List.length_cons]
      congr 1
      omega
    · rw [List.mem_cons, not_or]
      exact ⟨fun h => hc h.symm, h3⟩

theorem holdsStr_nil_iff {m : Mem} {p : ℕ} : m.HoldsStr p [] ↔ m p = 0 :=
  ⟨fun h => by simpa using h.terminated, HoldsStr.nil⟩

theorem HoldsStr.cstr_eq {m : Mem} {s : Bytes} {p : ℕ} (h : m.HoldsStr p s) {fuel : ℕ}
    (hf : s.length ≤ fuel) : m.cstr fuel p = s := by
  induction s generalizing p fuel with
  | nil =>
    cases fuel with
    | zero => rfl
    | succ n => simp [cstr, holdsStr_nil_iff.mp h]
  | cons c s ih =>
    obtain ⟨hc, hc0, hs⟩ := holdsStr_cons.mp h
    cases fuel with
    | zero => simp at hf
    | succ n =>
      have hn : s.length ≤ n := by simpa using hf
      rw [cstr, hc, if_neg hc0, ih hs hn]

theorem HoldsStr.unique {m : Mem} {s t : Bytes} {p : ℕ} (h : m.HoldsStr p s) (h' : m.HoldsStr p t) :
    s = t := by
  have hs := h.cstr_eq (Nat.le_max_left s.length t.length)
  have ht := h'.cstr_eq (Nat.le_max_right s.length t.length)
  exact hs.symm.trans ht

theorem HoldsStr.congr {m m' : Mem} {s : Bytes} {p : ℕ} (h : m.HoldsStr p s)
    (hm : ∀ i, p ≤ i → i ≤ p + s.length → m i = m' i) : m'.HoldsStr p s := by
  refine ⟨?_, ?_, h.nulFree⟩
  · rw [← slice_congr (m := m) fun i h1 h2 => hm i h1 (by omega)]
    exact h.content
  · rw [← hm _ (by omega) (Nat.le_refl _)]
    exact h.terminated

theorem HoldsStr.agree {m m' : Mem} {s : Bytes} {p : ℕ} (h : m.HoldsStr p s) (h' : m'.HoldsStr p s)
    {i : ℕ} (hp : p ≤ i) (hi : i ≤ p + s.length) : m i = m' i := by
  by_cases hlt : i < p + s.length
  · have hs := slice_getElem? m p s.length (i - p) (by omega)
    have hs' := slice_getElem? m' p s.length (i - p) (by omega)
    rw [h.content, show p + (i - p) = i by omega] at hs
    rw [h'.content, show p + (i - p) = i by omega] at hs'
    exact Option.some.inj (hs.symm.trans hs')
  · rw [show i = p + s.length by omega, h.terminated, h'.terminated]

theorem holdsStr_store (m : Mem) (p : ℕ) (s rest : Bytes) (h : 0 ∉ s) :
    (m.store p (s ++ 0 :: rest)).HoldsStr p s := by
  have hs := slice_store_same m p (s ++ 0 :: rest)
  have hlen : (s ++ 0 :: rest).length = s.length + (rest.length + 1) := by simp
  rw [hlen, slice_add, slice_succ] at hs
  obtain ⟨h1, h2⟩ := List.append_inj hs (by simp)
  exact ⟨h1, (List.cons.inj h2).1, h⟩

end Mem
end Ashttpd
