import Ashttpd.StringBits

/-!
# Nodes as a tree over bits

Where every node looks at one bit, the loops of `critbit.c` are the operations of a tree that tells
strings apart by their bits.
-/
namespace Ashttpd

variable {V : Type} {u : CStr} {v : Option V} {n : CbNode V}

namespace CbNode

/-- The tree over bits that a node is. -/
def toBits : CbNode V → BitTree CStr (Option V)
  | leaf key val => .leaf key val
  | internal byte otherbits child0 child1 =>
    .branch (position byte otherbits) child0.toBits child1.toBits

/-- Every node looks at one bit. -/
def Masked : CbNode V → Prop
  | leaf _ _ => True
  | internal _ otherbits child0 child1 => (∃ b < 8, otherbits = mask b) ∧ child0.Masked ∧ child1.Masked

theorem keys_eq (n : CbNode V) : n.keys = n.toBits.entries.map Prod.fst := by
  induction n with
  | leaf key val => rfl
  | internal byte otherbits child0 child1 ih0 ih1 =>
    unfold keys toBits BitTree.entries
    rw [ih0, ih1, List.map_append]

theorem leafAt_eq (hn : n.Masked) : n.leafAt u = n.toBits.walk CStr.bit u := by
  induction n with
  | leaf key val => rfl
  | internal byte otherbits child0 child1 ih0 ih1 =>
    obtain ⟨⟨b, hb, rfl⟩, h0, h1⟩ := hn
    unfold leafAt toBits BitTree.walk
    rw [direction_mask hb, ih0 h0, ih1 h1]
    cases u.bit (position byte (mask b)) <;> rfl

theorem value_way (n : CbNode V) : n.value (n.way u) = some (n.leafAt u).2 := by
  induction n with
  | leaf key val => rfl
  | internal byte otherbits child0 child1 ih0 ih1 =>
    unfold way leafAt
    split
    · exact ih0
    · exact ih1

theorem store_way (hn : n.Masked) :
    (n.store v (n.way u)).Masked ∧ (n.store v (n.way u)).toBits = n.toBits.assign CStr.bit u v := by
  induction n with
  | leaf key val => exact ⟨trivial, rfl⟩
  | internal byte otherbits child0 child1 ih0 ih1 =>
    obtain ⟨⟨b, hb, rfl⟩, h0, h1⟩ := hn
    unfold way
    rw [direction_mask hb]
    cases hbit : u.bit (position byte (mask b)) with
    | true =>
      refine ⟨⟨⟨b, hb, rfl⟩, h0, (ih1 h1).1⟩, ?_⟩
      show BitTree.branch _ _ (child1.store v (child1.way u)).toBits = _
      rw [(ih1 h1).2]
      exact (if_pos hbit).symm
    | false =>
      refine ⟨⟨⟨b, hb, rfl⟩, (ih0 h0).1, h1⟩, ?_⟩
      show BitTree.branch _ (child0.store v (child0.way u)).toBits _ = _
      rw [(ih0 h0).2]
      exact (if_neg (Bool.eq_false_iff.mp hbit)).symm

theorem removeLeaf_eq (hn : n.Masked) :
    (∀ n' ∈ n.removeLeaf u, n'.Masked) ∧ (n.removeLeaf u).map toBits = n.toBits.removeLeaf CStr.bit u := by
  induction n with
  | leaf key val => exact ⟨nofun, rfl⟩
  | internal byte otherbits child0 child1 ih0 ih1 =>
    obtain ⟨⟨b, hb, rfl⟩, h0, h1⟩ := hn
    unfold removeLeaf toBits BitTree.removeLeaf
    rw [direction_mask hb]
    cases hbit : u.bit (position byte (mask b)) with
    | true =>
      rw [if_pos rfl, if_neg Nat.one_ne_zero, if_pos rfl, ← (ih1 h1).2]
      cases hrem : child1.removeLeaf u with
      | none => exact ⟨fun n' hn' => Option.some.inj hn' ▸ h0, rfl⟩
      | some m =>
        refine ⟨?_, rfl⟩
        rintro n' hn'
        cases hn'
        exact ⟨⟨b, hb, rfl⟩, h0, (ih1 h1).1 m hrem⟩
    | false =>
      rw [if_neg Bool.false_ne_true, if_pos rfl, if_neg Bool.false_ne_true, ← (ih0 h0).2]
      cases hrem : child0.removeLeaf u with
      | none => exact ⟨fun n' hn' => Option.some.inj hn' ▸ h1, rfl⟩
      | some m =>
        refine ⟨?_, rfl⟩
        rintro n' hn'
        cases hn'
        exact ⟨⟨b, hb, rfl⟩, (ih0 h0).1 m hrem, h1⟩

/-- What the insertion of a leaf gives: the leaf is at the address, and whatever is stored there. -/
structure Inserted (p : ℕ) (u : CStr) (n n' : CbNode V) (slot : CbSlot) : Prop where
  empty : n'.value slot = some none
  masked : ∀ v, (n'.store v slot).Masked
  bits : ∀ v, (n'.store v slot).toBits = n.toBits.insertAt CStr.bit p u v

theorem newNode_eq {b : ℕ} (hb : b < 8) (byte : ℕ) (hn : n.Masked)
    (hplace : ∀ v, n.toBits.insertAt CStr.bit (position byte (mask b)) u v =
      n.toBits.place CStr.bit (position byte (mask b)) u v) :
    ∃ n' slot, newNode byte (mask b).toUInt32 (if u.bit (position byte (mask b)) then 0 else 1) (leaf u none) n =
      .ok (n', slot) ∧ Inserted (position byte (mask b)) u n n' slot := by
  unfold newNode
  rw [mask_toUInt8 hb]
  unfold BitTree.place at hplace
  cases hbit : u.bit (position byte (mask b)) with
  | true =>
    rw [hbit] at hplace
    refine ⟨_, _, rfl, rfl, fun v => ⟨⟨b, hb, rfl⟩, hn, trivial⟩, fun v => (hplace v).symm⟩
  | false =>
    rw [hbit] at hplace
    refine ⟨_, _, rfl, rfl, fun v => ⟨⟨b, hb, rfl⟩, trivial, hn⟩, fun v => (hplace v).symm⟩

/-- The loop over `wherep` finds the place of the new leaf. -/
theorem insertNode_eq {b : ℕ} (hb : b < 8) (byte : ℕ) (hn : n.Masked) :
    ∃ n' slot, insertNode byte (mask b).toUInt32 (if u.bit (position byte (mask b)) then 0 else 1) u n =
      .ok (n', slot) ∧ Inserted (position byte (mask b)) u n n' slot := by
  induction n with
  | leaf key val => exact newNode_eq hb byte hn fun v => rfl
  | internal byte' otherbits child0 child1 ih0 ih1 =>
    have hwhole := hn
    obtain ⟨⟨b', hb', rfl⟩, h0, h1⟩ := hn
    have hlt := position_lt_iff hb hb' byte byte'
    unfold insertNode
    by_cases hbefore : position byte (mask b) < position byte' (mask b')
    · rw [if_pos (hlt.mp hbefore)]
      exact newNode_eq hb byte hwhole fun v => if_pos hbefore
    · rw [if_neg fun h => hbefore (hlt.mpr h), direction_mask hb']
      cases hbit : u.bit (position byte' (mask b')) with
      | true =>
        obtain ⟨n', slot, hins, hempty, hmasked, hbits⟩ := ih1 h1
        rw [if_pos rfl, if_neg Nat.one_ne_zero, hins]
        refine ⟨_, _, rfl, hempty, fun v => ⟨⟨b', hb', rfl⟩, h0, hmasked v⟩, fun v => ?_⟩
        show BitTree.branch _ _ (n'.store v slot).toBits = _
        rw [hbits v]
        exact ((if_neg hbefore).trans (if_pos hbit)).symm
      | false =>
        obtain ⟨n', slot, hins, hempty, hmasked, hbits⟩ := ih0 h0
        rw [if_neg Bool.false_ne_true, if_pos rfl, hins]
        refine ⟨_, _, rfl, hempty, fun v => ⟨⟨b', hb', rfl⟩, hmasked v, h1⟩, fun v => ?_⟩
        show BitTree.branch _ (n'.store v slot).toBits _ = _
        rw [hbits v]
        exact ((if_neg hbefore).trans (if_neg (Bool.eq_false_iff.mp hbit))).symm

end CbNode

end Ashttpd
