import Mathlib.Data.List.Flatten
import Mathlib.Data.List.Perm.Basic
import Mathlib.Data.Nat.Notation
import Mathlib.Algebra.Order.Group.Nat

/-!
# Level by level traversal of a forest

`levelOrder` lists a forest level by level. Its one algebraic fact, `levelOrder_eq`,
says that the order is the roots followed by the children of everything in the order;
the position of a node's children in the order is read off from it.
-/
namespace Ashttpd

variable {α : Type*} (children : α → List α)

/-- List `cur`, then the level below it, and so on for at most the given number of levels. -/
def levelOrder : ℕ → List α → List α
  | 0, _ => []
  | levels + 1, cur =>
    if (cur.flatMap children).isEmpty then cur
    else cur ++ levelOrder levels (cur.flatMap children)

variable {children} {rank : α → ℕ} (hrank : ∀ a, ∀ b ∈ children a, rank b < rank a)

include hrank in
private theorem rank_next {levels : ℕ} {cur : List α} (h : ∀ a ∈ cur, rank a < levels + 1) :
    ∀ b ∈ cur.flatMap children, rank b < levels := by
  intro b hb
  obtain ⟨a, ha, hba⟩ := List.mem_flatMap.mp hb
  have h1 := hrank a b hba
  have h2 := h a ha
  omega

include hrank in
/-- The order is the roots followed by the children of everything listed. -/
theorem levelOrder_eq {levels : ℕ} {cur : List α} (h : ∀ a ∈ cur, rank a < levels) :
    levelOrder children levels cur = cur ++ (levelOrder children levels cur).flatMap children := by
  induction levels generalizing cur with
  | zero =>
    cases cur with
    | nil => rfl
    | cons a cur => exact absurd (h a List.mem_cons_self) (Nat.not_lt_zero _)
  | succ levels ih =>
    have hnext := ih (rank_next hrank h)
    by_cases he : (cur.flatMap children).isEmpty
    · have hnil : cur.flatMap children = [] := List.isEmpty_iff.mp he
      rw [levelOrder, if_pos he, hnil, List.append_nil]
    · rw [levelOrder, if_neg he, List.flatMap_append, ← hnext]

include hrank in
theorem levelOrder_front {levels : ℕ} {cur : List α} (h : ∀ a ∈ cur, rank a < levels) :
    ∃ rest, levelOrder children levels cur = cur ++ (cur.flatMap children ++ rest) := by
  have heq := levelOrder_eq hrank h
  refine ⟨((levelOrder children levels cur).flatMap children).flatMap children, ?_⟩
  rw [← List.flatMap_append, ← heq]
  exact heq

variable (children) in
/-- The `d`-th level below these nodes. -/
def levelAt : List α → ℕ → List α
  | cur, 0 => cur
  | cur, d + 1 => levelAt (cur.flatMap children) d

theorem levelAt_nil (d : ℕ) : levelAt children [] d = [] := by
  induction d with
  | zero => rfl
  | succ d ih => exact ih

include hrank in
/-- The order is one level after the other. -/
theorem levelOrder_eq_levels {levels : ℕ} {cur : List α} (h : ∀ a ∈ cur, rank a < levels) :
    levelOrder children levels cur = (List.range levels).flatMap (levelAt children cur) := by
  induction levels generalizing cur with
  | zero => rfl
  | succ levels ih =>
    have hnext := ih (rank_next hrank h)
    have hlevels : (List.range (levels + 1)).flatMap (levelAt children cur) =
        cur ++ (List.range levels).flatMap (levelAt children (cur.flatMap children)) := by
      rw [List.range_succ_eq_map, List.flatMap_cons, List.flatMap_map]
      rfl
    rw [hlevels, levelOrder, ← hnext]
    split
    · rename_i he
      rw [hnext, List.isEmpty_iff.mp he]
      simp [levelAt_nil]
    · rfl

include hrank in
theorem levelOrder_levels {levels levels' : ℕ} {cur : List α} (h : ∀ a ∈ cur, rank a < levels) (hle : levels ≤ levels') :
    levelOrder children levels' cur = levelOrder children levels cur := by
  induction levels generalizing levels' cur with
  | zero =>
    cases cur with
    | nil => cases levels' <;> rfl
    | cons a cur => exact absurd (h a List.mem_cons_self) (Nat.not_lt_zero _)
  | succ levels ih =>
    obtain ⟨levels', rfl⟩ : ∃ k, levels' = k + 1 := ⟨levels' - 1, by omega⟩
    rw [levelOrder, levelOrder, ih (rank_next hrank h) (Nat.le_of_succ_le_succ hle)]

include hrank in
/-- The order lists what a depth-first enumeration `pre` of the forest lists. -/
theorem levelOrder_perm {pre : α → List α} (hpre : ∀ a, pre a = a :: (children a).flatMap pre)
    {levels : ℕ} {cur : List α} (h : ∀ a ∈ cur, rank a < levels) :
    (levelOrder children levels cur).Perm (cur.flatMap pre) := by
  have split : ∀ cur : List α,
      (cur.flatMap pre).Perm (cur ++ (cur.flatMap children).flatMap pre) := by
    intro cur
    induction cur with
    | nil => exact List.Perm.refl _
    | cons a cur ih =>
      simp only [List.flatMap_cons, List.flatMap_append, hpre a, List.cons_append]
      apply List.Perm.cons
      calc (children a).flatMap pre ++ cur.flatMap pre
          _ |>.Perm ((children a).flatMap pre ++ (cur ++ (cur.flatMap children).flatMap pre)) :=
            ih.append_left _
          _ |>.Perm (cur ++ ((children a).flatMap pre ++ (cur.flatMap children).flatMap pre)) := by
            rw [← List.append_assoc, ← List.append_assoc]
            exact List.perm_append_comm.append_right _
  induction levels generalizing cur with
  | zero =>
    cases cur with
    | nil => exact List.Perm.refl _
    | cons a cur => exact absurd (h a List.mem_cons_self) (Nat.not_lt_zero _)
  | succ levels ih =>
    have hnext := ih (rank_next hrank h)
    refine List.Perm.trans ?_ (split cur).symm
    by_cases he : (cur.flatMap children).isEmpty
    · have hnil : cur.flatMap children = [] := List.isEmpty_iff.mp he
      rw [levelOrder, if_pos he, hnil]
      simp
    · rw [levelOrder, if_neg he]
      exact hnext.append_left cur

/-- Where the images of the `k`-th element start in a flattened list. -/
def blockStart {β : Type*} (f : α → List β) (l : List α) (k : ℕ) : ℕ :=
  ((l.take k).flatMap f).length

theorem flatMap_getElem? {β : Type*} (f : α → List β) (l : List α) {k i : ℕ} {a : α}
    (hk : l[k]? = some a) (hi : i < (f a).length) :
    (l.flatMap f)[blockStart f l k + i]? = (f a)[i]? := by
  obtain ⟨hlt, rfl⟩ := List.getElem?_eq_some_iff.mp hk
  have hsplit : l.flatMap f =
      (l.take k).flatMap f ++ (f l[k] ++ (l.drop (k + 1)).flatMap f) := by
    rw [← List.flatMap_cons, ← List.flatMap_append, ← List.drop_eq_getElem_cons hlt,
      List.take_append_drop]
  rw [hsplit, blockStart, List.getElem?_append_right (Nat.le_add_right _ _),
    Nat.add_sub_cancel_left, List.getElem?_append_left hi]

/-- The last images that are not empty end the flattened list. -/
theorem exists_last_block {β : Type*} {f : α → List β} {l : List α} (h : l.flatMap f ≠ []) :
    ∃ (k : ℕ) (a : α), l[k]? = some a ∧ f a ≠ [] ∧ (l.flatMap f).length = blockStart f l k + (f a).length := by
  induction l with
  | nil => exact absurd rfl h
  | cons a l ih =>
    rw [List.flatMap_cons] at h ⊢
    by_cases hl : l.flatMap f = []
    · rw [hl, List.append_nil] at h ⊢
      exact ⟨0, a, rfl, h, (Nat.zero_add _).symm⟩
    · obtain ⟨k, b, hk, hb, hlen⟩ := ih hl
      refine ⟨k + 1, b, hk, hb, ?_⟩
      rw [List.length_append, hlen, blockStart, blockStart, List.take_succ_cons, List.flatMap_cons, List.length_append,
        Nat.add_assoc]

include hrank in
/-- The children of the `k`-th node of the order stand together, in their own order,
right behind the roots and the children of the nodes before it. -/
theorem levelOrder_children {levels : ℕ} {cur : List α} (h : ∀ a ∈ cur, rank a < levels)
    {k i : ℕ} {a : α} (hk : (levelOrder children levels cur)[k]? = some a)
    (hi : i < (children a).length) :
    (levelOrder children levels cur)[cur.length +
      blockStart children (levelOrder children levels cur) k + i]? = (children a)[i]? := by
  have hget := flatMap_getElem? children _ hk hi
  generalize hb : blockStart children (levelOrder children levels cur) k = b at hget ⊢
  rw [levelOrder_eq hrank h, Nat.add_assoc, List.getElem?_append_right (Nat.le_add_right _ _),
    Nat.add_sub_cancel_left]
  exact hget

include hrank in
/-- The last node with children is at most as far from the end as it has children. -/
theorem levelOrder_last {levels : ℕ} {cur : List α} (h : ∀ a ∈ cur, rank a < levels)
    (hlen : cur.length < (levelOrder children levels cur).length) :
    ∃ (a : α) (k : ℕ), a ∈ levelOrder children levels cur ∧ children a ≠ [] ∧
      (levelOrder children levels cur)[k]? = (children a)[0]? ∧
      (levelOrder children levels cur).length = k + (children a).length := by
  have heq := congrArg List.length (levelOrder_eq hrank h)
  rw [List.length_append] at heq
  have hne : (levelOrder children levels cur).flatMap children ≠ [] := by
    intro hnil
    rw [hnil, List.length_nil] at heq
    omega
  obtain ⟨j, a, hj, ha, hlast⟩ := exists_last_block hne
  refine ⟨a, cur.length + blockStart children (levelOrder children levels cur) j, List.mem_of_getElem? hj, ha, ?_, by omega⟩
  exact levelOrder_children hrank h hj (List.length_pos_iff.mpr ha)

variable {P : α → Prop}

variable (children P) in
/-- Every way down from a node branches in two `d` times, and comes to a node with the property. -/
def CompleteBelow : ℕ → α → Prop
  | 0, a => P a
  | d + 1, a => ∃ b c, children a = [b, c] ∧ CompleteBelow d b ∧ CompleteBelow d c

theorem CompleteBelow.mono {Q : α → Prop} (hPQ : ∀ a, P a → Q a) {d : ℕ} {a : α} (h : CompleteBelow children P d a) :
    CompleteBelow children Q d a := by
  induction d generalizing a with
  | zero => exact hPQ a h
  | succ d ih =>
    obtain ⟨b, c, hbc, hb, hc⟩ := h
    exact ⟨b, c, hbc, ih hb, ih hc⟩

theorem CompleteBelow.length_next {d : ℕ} {cur : List α} (h : ∀ a ∈ cur, CompleteBelow children P (d + 1) a) :
    (cur.flatMap children).length = 2 * cur.length ∧ ∀ b ∈ cur.flatMap children, CompleteBelow children P d b := by
  induction cur with
  | nil => simp
  | cons a cur ih =>
    rw [List.forall_mem_cons] at h
    obtain ⟨⟨b, c, hbc, hb, hc⟩, hcur⟩ := h
    obtain ⟨hlen, hnext⟩ := ih hcur
    rw [List.flatMap_cons, hbc, List.forall_mem_append, List.length_append, hlen]
    refine ⟨by simp only [List.length_cons, List.length_nil]; omega, ?_, hnext⟩
    simp [hb, hc]

include hrank in
/-- In the order of complete trees the nodes that branch come first, and the level behind them has the property. -/
theorem levelOrder_complete {d levels : ℕ} {cur : List α} (h : ∀ a ∈ cur, rank a < levels)
    (hc : ∀ a ∈ cur, CompleteBelow children P d a) : ∃ inner level rest,
      levelOrder children levels cur = inner ++ (level ++ rest) ∧ inner.length + cur.length = cur.length * 2 ^ d ∧
      level.length = cur.length * 2 ^ d ∧ (∀ a ∈ inner, children a ≠ []) ∧ ∀ a ∈ level, P a := by
  induction d generalizing levels cur with
  | zero =>
    cases levels with
    | zero =>
      cases cur with
      | nil => exact ⟨[], [], [], rfl, by simp, by simp, by simp, by simp⟩
      | cons a cur => exact absurd (h a List.mem_cons_self) (Nat.not_lt_zero _)
    | succ levels =>
      obtain ⟨rest, hrest⟩ : ∃ rest, levelOrder children (levels + 1) cur = cur ++ rest := by
        rw [levelOrder]
        split
        · exact ⟨[], (List.append_nil cur).symm⟩
        · exact ⟨_, rfl⟩
      exact ⟨[], cur, rest, hrest, by simp, by simp, by simp, hc⟩
  | succ d ih =>
    cases levels with
    | zero =>
      cases cur with
      | nil => exact ⟨[], [], [], rfl, by simp, by simp, by simp, by simp⟩
      | cons a cur => exact absurd (h a List.mem_cons_self) (Nat.not_lt_zero _)
    | succ levels =>
      obtain ⟨hlen, hbelow⟩ := CompleteBelow.length_next hc
      rw [levelOrder]
      split
      · rename_i hnil
        rw [List.isEmpty_iff.mp hnil, List.length_nil] at hlen
        obtain rfl : cur = [] := List.eq_nil_of_length_eq_zero (by omega)
        exact ⟨[], [], [], rfl, by simp, by simp, by simp, by simp⟩
      · obtain ⟨inner, level, rest, heq, hcount, hlevel, hinner, hall⟩ := ih (rank_next hrank h) hbelow
        have hpow : 2 * cur.length * 2 ^ d = cur.length * 2 ^ (d + 1) := by
          rw [Nat.pow_succ', ← Nat.mul_assoc, Nat.mul_comm cur.length 2]
        rw [hlen, hpow] at hcount hlevel
        refine ⟨cur ++ inner, level, rest, by rw [heq, List.append_assoc], ?_, hlevel, ?_, hall⟩
        · rw [List.length_append]
          omega
        · rw [List.forall_mem_append]
          refine ⟨fun a ha => ?_, hinner⟩
          obtain ⟨b, c, hbc, -, -⟩ := hc a ha
          simp [hbc]

end Ashttpd
