import Mathlib.Data.List.Basic
import Mathlib.Data.Nat.Notation

/-!
# Folding a stream block by block

A stream is folded in whole blocks of one size. The fold and what is left behind it depend on the
stream alone, in whatever portions it comes in.
-/
namespace Ashttpd

variable {α σ : Type*}

/-- The first `n` blocks of a stream. -/
def blocks (size : ℕ) : ℕ → List α → List (List α)
  | 0, _ => []
  | n + 1, l => l.take size :: blocks size n (l.drop size)

def foldBlocks (size : ℕ) (f : σ → List α → σ) (s : σ) (l : List α) : σ :=
  (blocks size (l.length / size) l).foldl f s

def restBlock (size : ℕ) (l : List α) : List α := l.drop (l.length / size * size)

variable {size : ℕ} {f : σ → List α → σ} {s : σ} {l m b : List α}

theorem foldBlocks_short (h : l.length < size) : foldBlocks size f s l = s := by
  rw [foldBlocks, Nat.div_eq_of_lt h]
  rfl

theorem restBlock_short (h : l.length < size) : restBlock size l = l := by
  rw [restBlock, Nat.div_eq_of_lt h, Nat.zero_mul, List.drop_zero]

theorem foldBlocks_block (hpos : 0 < size) (hb : b.length = size) :
    foldBlocks size f s (b ++ l) = foldBlocks size f (f s b) l := by
  rw [foldBlocks, List.length_append, hb, Nat.add_div_left _ hpos, blocks, List.take_left' hb,
    List.drop_left' hb]
  rfl

theorem foldBlocks_one (hpos : 0 < size) (hb : b.length = size) : foldBlocks size f s b = f s b := by
  have hblock := foldBlocks_block (f := f) (s := s) (l := []) hpos hb
  rwa [List.append_nil, foldBlocks_short (l := []) hpos] at hblock

theorem restBlock_block (hpos : 0 < size) (hb : b.length = size) :
    restBlock size (b ++ l) = restBlock size l := by
  rw [restBlock, List.length_append, hb, Nat.add_div_left _ hpos, Nat.succ_mul, Nat.add_comm,
    ← List.drop_drop, List.drop_left' hb]
  rfl

theorem restBlock_length (size : ℕ) (l : List α) : (restBlock size l).length = l.length % size := by
  rw [restBlock, List.length_drop]
  have hdiv := Nat.div_add_mod' l.length size
  omega

private theorem block_and_rest (h : ¬ l.length < size) :
    ∃ b r, l = b ++ r ∧ b.length = size :=
  ⟨l.take size, l.drop size, (List.take_append_drop size l).symm, List.length_take_of_le (by omega)⟩

theorem foldBlocks_append (hpos : 0 < size) (f : σ → List α → σ) (s : σ) (l m : List α) :
    foldBlocks size f s (l ++ m) = foldBlocks size f (foldBlocks size f s l) (restBlock size l ++ m) := by
  by_cases h : l.length < size
  · rw [foldBlocks_short h, restBlock_short h]
  · obtain ⟨b, r, rfl, hb⟩ := block_and_rest h
    have hr : r.length < (b ++ r).length := by
      rw [List.length_append]
      omega
    rw [List.append_assoc, foldBlocks_block hpos hb, foldBlocks_block hpos hb, restBlock_block hpos hb]
    exact foldBlocks_append hpos f (f s b) r m
termination_by l.length

theorem restBlock_append (hpos : 0 < size) (l m : List α) :
    restBlock size (l ++ m) = restBlock size (restBlock size l ++ m) := by
  by_cases h : l.length < size
  · rw [restBlock_short h]
  · obtain ⟨b, r, rfl, hb⟩ := block_and_rest h
    have hr : r.length < (b ++ r).length := by
      rw [List.length_append]
      omega
    rw [List.append_assoc, restBlock_block hpos hb, restBlock_block hpos hb]
    exact restBlock_append hpos r m
termination_by l.length

end Ashttpd
