import Ashttpd.CritBitDelete

/-!
# Where a new key goes (`cb_insert`)

The first walk may go wrong anywhere, but the leaf that it ends at shares as many bits with the new key
as any key of the tree. The second walk stops before the first node that looks at a later bit than the
one in which these two differ, and all keys below that place share the bits before it.
-/
namespace Ashttpd

variable {V : Type} {n : CbNode V} {u : CStr}

/-- The first byte in which two keys differ, and the highest bit in which they differ there. -/
structure HighestDifference (key u : CStr) (newbyte b : ℕ) : Prop where
  lt : b < 8
  same : Agree CStr.bit (8 * newbyte + (7 - b)) key u
  differ : (key.charAt newbyte).toNat.testBit b ≠ (u.charAt newbyte).toNat.testBit b

/-- What storing the new node makes of a tree. -/
structure InsertedAt (n : CbNode V) (u : CStr) (n' : CbNode V) (slot : CbSlot) : Prop where
  wellFormed : n'.WellFormed
  keys : ∀ k, k ∈ n'.keys ↔ k = u ∨ k ∈ n.keys
  slot : n'.value slot = some none
  new : cbContains (some n') u = some none
  others : ∀ k, k ≠ u → cbContains (some n') k = cbContains (some n) k

/-- Storing what is there already changes nothing. -/
theorem CbNode.store_value {v : Option V} {slot : CbSlot} (h : n.value slot = some v) : n.store v slot = n := by
  induction n generalizing slot with
  | leaf key val =>
    cases slot with
    | nil =>
      cases h
      rfl
    | cons i slot => cases h
  | internal byte otherbits child0 child1 ih0 ih1 =>
    cases slot with
    | nil => cases h
    | cons i slot =>
      unfold value at h
      unfold store
      by_cases hi : i = 0
      · rw [if_pos hi] at h ⊢
        rw [ih0 h]
      · rw [if_neg hi] at h ⊢
        rw [ih1 h]

/-- A leaf put in at the first bit that tells a key from the one it leads to. -/
theorem placed_of_inserted {p : ℕ} {n' : CbNode V} {slot : CbSlot} (hn : n.WellFormed) (hu : u ∉ n.keys)
    (hagree : Agree CStr.bit p (n.leafAt u).1 u) (hdiff : (n.leafAt u).1.bit p ≠ u.bit p)
    (hins : CbNode.Inserted p u n n' slot) : InsertedAt n u n' slot := by
  obtain ⟨hempty, hmasked, hbits⟩ := hins
  have hmasked := hmasked none
  have hbits := hbits none
  rw [CbNode.store_value hempty] at hmasked hbits
  obtain ⟨hnmasked, hord⟩ := n.wellFormed_iff.mp hn
  rw [CbNode.leafAt_eq hnmasked] at hagree hdiff
  have hord' : n'.toBits.Ordered CStr.bit := by
    rw [hbits]
    exact hord.insertAt hagree hdiff
  have hentries : ∀ e, e ∈ n'.toBits.entries ↔ e = (u, none) ∨ e ∈ n.toBits.entries := by
    intro e
    rw [hbits]
    exact BitTree.mem_insertAt
  have hkeys : ∀ k, k ∈ n'.keys ↔ k = u ∨ k ∈ n.keys := by
    intro k
    rw [n'.keys_eq, n.keys_eq, List.mem_map, List.mem_map]
    constructor
    · rintro ⟨e, he, rfl⟩
      rcases (hentries e).mp he with rfl | he
      · exact Or.inl rfl
      · exact Or.inr ⟨e, he, rfl⟩
    · rintro (rfl | ⟨e, he, rfl⟩)
      · exact ⟨_, (hentries _).mpr (Or.inl rfl), rfl⟩
      · exact ⟨e, (hentries e).mpr (Or.inr he), rfl⟩
  have hsound : CbTree.Sound (some n) := ⟨hnmasked, hord⟩
  have hsound' : CbTree.Sound (some n') := ⟨hmasked, hord'⟩
  have hlookup : cbContains (some n') = Function.update (cbContains (some n)) u (some none) := by
    apply cbContains_update hsound hsound'
    intro e
    refine (hentries e).trans (or_congr Iff.rfl ⟨fun he => ⟨he, ?_⟩, fun he => he.1⟩)
    rintro rfl
    rw [n.keys_eq] at hu
    exact hu (List.mem_map_of_mem he)
  refine ⟨n'.wellFormed_iff.mpr ⟨hmasked, hord'⟩, hkeys, hempty, ?_, ?_⟩
  · rw [hlookup, Function.update_self]
  · intro k hk
    rw [hlookup, Function.update_of_ne hk]

/-- The walk of `cb_insert` ends at a leaf that shares as many bits with a key as any; and the new node,
told the right bit, gets to a place where the tree stays well-formed. -/
theorem cb_insert_places (n : CbNode V) (hn : n.WellFormed) (u : CStr) (hu : u ∉ n.keys) :
    (∀ k ∈ n.keys, ∀ p, Agree CStr.bit p k u → Agree CStr.bit p (n.leafAt u).1 u) ∧
    ∀ newbyte b, HighestDifference (n.leafAt u).1 u newbyte b →
      ∀ newdirection, newdirection = (((n.leafAt u).1.charAt newbyte).toNat.testBit b).toNat →
        ∃ n' slot, insertNode newbyte (mask b).toUInt32 newdirection u n = .ok (n', slot) ∧
          InsertedAt n u n' slot := by
  obtain ⟨hmasked, hord⟩ := n.wellFormed_iff.mp hn
  constructor
  · intro k hk p hagree
    rw [CbNode.leafAt_eq hmasked]
    exact reached_same hord hk hagree
  · rintro newbyte b ⟨hb, hsame, hdiffer⟩ newdirection rfl
    rw [← position_mask hb] at hsame
    rw [← bit_position hb, ← bit_position hb] at hdiffer
    have hside : ((n.leafAt u).1.bit (position newbyte (mask b))).toNat =
        if u.bit (position newbyte (mask b)) then 0 else 1 := by
      cases hbit : u.bit (position newbyte (mask b)) with
      | true =>
        rw [hbit] at hdiffer
        rw [Bool.eq_false_iff.mpr hdiffer]
        rfl
      | false =>
        rw [hbit] at hdiffer
        rw [(Bool.not_eq_false _).mp hdiffer]
        rfl
    obtain ⟨n', slot, hins, hinserted⟩ := CbNode.insertNode_eq (u := u) hb newbyte hmasked
    rw [← bit_position hb, hside]
    exact ⟨n', slot, hins, placed_of_inserted hn hu hsame hdiffer hinserted⟩

/-- A key that is a prefix of the one it leads to goes before it. -/
theorem cb_insert_places_prefix : ∃ n' slot,
    insertNode 1 (mask 6).toUInt32 1 ⟨[97], by decide⟩ (.leaf ⟨[97, 98], by decide⟩ (some 1)) = .ok (n', slot) ∧
      InsertedAt (.leaf ⟨[97, 98], by decide⟩ (some 1)) ⟨[97], by decide⟩ n' slot := by
  have hbits : ∀ i < 9, CStr.bit ⟨[97, 98], by decide⟩ i = CStr.bit ⟨[97], by decide⟩ i := by decide
  exact (cb_insert_places (.leaf ⟨[97, 98], by decide⟩ (some 1)) trivial ⟨[97], by decide⟩ (by decide)).2 1 6
    ⟨by decide, hbits, by decide⟩ 1 (by decide)

end Ashttpd
