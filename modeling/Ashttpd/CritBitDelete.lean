import Ashttpd.CritBitMap

/-!
# Deleting from a crit-bit tree (`cb_delete`)

A tree is well-formed when every node looks at one bit, which tells its children apart, the keys below
it are alike before that bit, and the bits come later and later on the way down. This holds of a
tree however it came about, and `cb_delete` keeps it.
-/
namespace Ashttpd

variable {V : Type} {n : CbNode V} {t : CbTree V} {u : CStr}

namespace CbNode

/-- The bits that the nodes of a tree look at. -/
def positions : CbNode V → List ℕ
  | leaf _ _ => []
  | internal byte otherbits child0 child1 => position byte otherbits :: (child0.positions ++ child1.positions)

/-- The invariant of crit-bit trees. -/
def WellFormed : CbNode V → Prop
  | leaf _ _ => True
  | internal byte otherbits child0 child1 =>
    (∃ b < 8, otherbits = mask b) ∧ child0.WellFormed ∧ child1.WellFormed ∧
      (∀ k ∈ child0.keys, k.bit (position byte otherbits) = false) ∧
      (∀ k ∈ child1.keys, k.bit (position byte otherbits) = true) ∧
      (∀ k ∈ child0.keys ++ child1.keys, ∀ k' ∈ child0.keys ++ child1.keys,
        Agree CStr.bit (position byte otherbits) k k') ∧
      ∀ p ∈ child0.positions ++ child1.positions, position byte otherbits < p

theorem keys_ne_nil (n : CbNode V) : n.keys ≠ [] := by
  induction n with
  | leaf key val => exact List.cons_ne_nil _ _
  | internal byte otherbits child0 child1 ih0 ih1 => exact List.append_ne_nil_of_left_ne_nil ih0 _

theorem forall_keys_iff {P : CStr → Prop} (n : CbNode V) :
    (∀ k ∈ n.keys, P k) ↔ ∀ e ∈ n.toBits.entries, P e.1 := by
  rw [n.keys_eq]
  exact List.forall_mem_map

theorem forall_bit_iff (n : CbNode V) (p : ℕ) (b : Bool) :
    (∀ k ∈ n.keys, k.bit p = b) ↔ ∀ e ∈ n.toBits.entries, e.1.bit p = b :=
  n.forall_keys_iff (P := fun k => k.bit p = b)

/-- Two keys below a node part at the bit that it looks at. -/
theorem exists_parted {p : ℕ} (hord : n.toBits.Ordered CStr.bit) (hp : p ∈ n.positions) :
    ∃ k ∈ n.keys, ∃ k' ∈ n.keys, k.bit p ≠ k'.bit p := by
  induction n with
  | leaf key val => cases hp
  | internal byte otherbits child0 child1 ih0 ih1 =>
    obtain ⟨hord0, hord1, hbits0, hbits1, -⟩ := hord
    unfold keys
    obtain rfl | hp := List.mem_cons.mp hp
    · obtain ⟨k, hk⟩ := List.exists_mem_of_ne_nil _ child0.keys_ne_nil
      obtain ⟨k', hk'⟩ := List.exists_mem_of_ne_nil _ child1.keys_ne_nil
      refine ⟨k, List.mem_append_left _ hk, k', List.mem_append_right _ hk', ?_⟩
      rw [(child0.forall_bit_iff _ _).mpr hbits0 k hk, (child1.forall_bit_iff _ _).mpr hbits1 k' hk']
      exact Bool.false_ne_true
    · obtain hp | hp := List.mem_append.mp hp
      · obtain ⟨k, hk, k', hk', hne⟩ := ih0 hord0 hp
        exact ⟨k, List.mem_append_left _ hk, k', List.mem_append_left _ hk', hne⟩
      · obtain ⟨k, hk, k', hk', hne⟩ := ih1 hord1 hp
        exact ⟨k, List.mem_append_right _ hk, k', List.mem_append_right _ hk', hne⟩

theorem lt_of_parted {p q : ℕ} {k k' : CStr} (hagree : Agree CStr.bit p k k') (heq : k.bit p = k'.bit p)
    (hne : k.bit q ≠ k'.bit q) : p < q := by
  by_contra hle
  obtain hlt | rfl := Nat.lt_or_eq_of_le (Nat.le_of_not_lt hle)
  · exact hne (hagree q hlt)
  · exact hne heq

/-- That the bits come later and later follows from the rest. -/
theorem wellFormed_iff (n : CbNode V) : n.WellFormed ↔ n.Masked ∧ n.toBits.Ordered CStr.bit := by
  induction n with
  | leaf key val => exact ⟨fun _ => ⟨trivial, trivial⟩, fun _ => trivial⟩
  | internal byte otherbits child0 child1 ih0 ih1 =>
    have hentries : (∀ k ∈ child0.keys ++ child1.keys, ∀ k' ∈ child0.keys ++ child1.keys,
        Agree CStr.bit (position byte otherbits) k k') ↔
        ∀ e ∈ (internal byte otherbits child0 child1).toBits.entries,
          ∀ e' ∈ (internal byte otherbits child0 child1).toBits.entries,
            Agree CStr.bit (position byte otherbits) e.1 e'.1 := by
      refine ((internal byte otherbits child0 child1).forall_keys_iff).trans ?_
      exact forall₂_congr fun e _ => (internal byte otherbits child0 child1).forall_keys_iff
    constructor
    · rintro ⟨hmask, h0, h1, hbits0, hbits1, hagree, -⟩
      obtain ⟨hmasked0, hord0⟩ := ih0.mp h0
      obtain ⟨hmasked1, hord1⟩ := ih1.mp h1
      exact ⟨⟨hmask, hmasked0, hmasked1⟩, hord0, hord1, (child0.forall_bit_iff _ _).mp hbits0,
        (child1.forall_bit_iff _ _).mp hbits1, hentries.mp hagree⟩
    · rintro ⟨⟨hmask, hmasked0, hmasked1⟩, hord0, hord1, hbits0, hbits1, hagree⟩
      have hkeys0 := (child0.forall_bit_iff _ _).mpr hbits0
      have hkeys1 := (child1.forall_bit_iff _ _).mpr hbits1
      have hkeys := hentries.mpr hagree
      refine ⟨hmask, ih0.mpr ⟨hmasked0, hord0⟩, ih1.mpr ⟨hmasked1, hord1⟩, hkeys0, hkeys1, hkeys, fun p hp => ?_⟩
      obtain hp | hp := List.mem_append.mp hp
      · obtain ⟨k, hk, k', hk', hne⟩ := exists_parted hord0 hp
        refine lt_of_parted (hkeys k ?_ k' ?_) ((hkeys0 k hk).trans (hkeys0 k' hk').symm) hne
        · exact List.mem_append_left _ hk
        · exact List.mem_append_left _ hk'
      · obtain ⟨k, hk, k', hk', hne⟩ := exists_parted hord1 hp
        refine lt_of_parted (hkeys k ?_ k' ?_) ((hkeys1 k hk).trans (hkeys1 k' hk').symm) hne
        · exact List.mem_append_right _ hk
        · exact List.mem_append_right _ hk'

end CbNode

/-- The empty tree is well-formed. -/
def CbTree.WellFormed : CbTree V → Prop
  | none => True
  | some n => n.WellFormed

theorem CbTree.wellFormed_iff (t : CbTree V) : t.WellFormed ↔ t.Sound := by
  cases t with
  | none => exact Iff.rfl
  | some n => exact n.wellFormed_iff

/-- What is told of a deletion: a key is gone with its value, the others stay, and nothing changes where there
was no key. -/
structure Deleted (t : CbTree V) (u : CStr) (d : CbDeleted V) : Prop where
  found : u ∈ t.keys → d.ret = 1 ∧ ∃ v, cbContains t u = some v ∧ d.val = some v
  missing : u ∉ t.keys → d = ⟨0, t, none⟩
  wellFormed : d.tree.WellFormed
  gone : cbContains d.tree u = none
  kept : ∀ k, k ≠ u → cbContains d.tree k = cbContains t k

/-- On every well-formed tree `cb_delete` takes the key out, if it is there, and nothing else. -/
theorem cb_delete_wellFormed (t : CbTree V) (ht : t.WellFormed) (u : CStr) : Deleted t u (cbDelete t u) := by
  have hsound := (CbTree.wellFormed_iff t).mp ht
  have hnone : cbContains t u = none ↔ u ∉ t.keys := by
    rw [keys_eq_entries]
    exact cbContains_eq_none_iff hsound
  obtain ⟨t', r, hcall, hdone⟩ := delete_done hsound u
  generalize hd : cbDelete t u = d
  have hd' : d = ⟨r.ret, t', r.val⟩ := by
    have hrun : Except.ok (d.tree, ⟨d.ret, d.val⟩) = (Except.ok (t', r) : Except Fault (CbTree V × CbResult V)) := by
      rw [← hcall, ← hd]
      rfl
    cases hrun
    rfl
  have hwell : d.tree.WellFormed := by
    rw [hd', CbTree.wellFormed_iff]
    exact hdone.sound
  have hstep := hdone.step
  generalize hm : cbContains t' = m at hstep
  have hlookup : cbContains d.tree = m := by
    rw [hd', hm]
  cases hstep with
  | @gone _ w hsome =>
    have hmem : u ∈ t.keys := by
      by_contra hmem
      rw [hnone.mpr hmem] at hsome
      cases hsome
    refine ⟨fun _ => ?_, fun hmiss => absurd hmem hmiss, hwell, ?_, fun k hk => ?_⟩
    · rw [hd']
      exact ⟨rfl, w, hsome, rfl⟩
    · rw [hlookup, Function.update_self]
    · rw [hlookup, Function.update_of_ne hk]
  | missing hmiss =>
    refine ⟨fun hmem => absurd hmem (hnone.mp hmiss), fun _ => ?_, hwell, ?_, fun k _ => ?_⟩
    · rw [hd', hdone.kept rfl]
    · rw [hlookup]
      exact hmiss
    · rw [hlookup]

/-- A leaf beside its parent, and one that is the root. -/
theorem cb_delete_wellFormed_two :
    Deleted (some (CbNode.internal 1 (mask 6) (.leaf plainName (some 1)) (.leaf otherName (some 2)))) otherName
      ⟨1, some (.leaf plainName (some 1)), some (some 2)⟩ ∧
    Deleted (some (CbNode.leaf plainName (some 1))) plainName ⟨1, none, some (some 1)⟩ := by
  have htwo : CbTree.WellFormed (some (CbNode.internal 1 (mask 6) (.leaf plainName (some 1))
      (.leaf otherName (some 2)))) := by
    refine (CbTree.wellFormed_iff _).mpr ?_
    have hfirst : CbTree.Sound (some (CbNode.leaf plainName (some 1))) := ⟨trivial, trivial⟩
    have hsecond : CbTree.Called (some (.leaf plainName (some 1)))
      (CbCall.insert otherName enoughAllocs (some 2), ⟨2, some none⟩)
      (some (.internal 1 (mask 6) (.leaf plainName (some 1)) (.leaf otherName (some 2)))) := rfl
    obtain ⟨t', r, hcall, hdone⟩ := (call_done_iff hfirst _).1 (hsecond.tame hfirst)
    cases hcall.symm.trans hsecond
    exact hdone.sound
  have hone : CbTree.WellFormed (some (CbNode.leaf plainName (some 1))) := trivial
  exact ⟨cb_delete_wellFormed _ htwo otherName, cb_delete_wellFormed _ hone plainName⟩

end Ashttpd
