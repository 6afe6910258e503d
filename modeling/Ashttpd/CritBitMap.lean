import Ashttpd.CritBitNodes
import Ashttpd.GuardedRuns
import Mathlib.Logic.Function.Basic

/-!
# The crit-bit tree is a map

As long as no key is put in whose first difference from the keys that are nearest to it is in the sign
of a byte, the nodes are those of an ordered tree over the bits of the keys, and every call does
to the entries what it does to the entries of a map.
-/
namespace Ashttpd

variable {V : Type} {u k : CStr} {v w : Option V} {n : CbNode V} {t t' : CbTree V}

/-- The keys of a tree with their values. -/
def CbTree.entries : CbTree V → List (CStr × Option V)
  | none => []
  | some n => n.toBits.entries

def CbTree.Sound : CbTree V → Prop
  | none => True
  | some n => n.Masked ∧ n.toBits.Ordered CStr.bit

/-- Looking a key up finds its entry. -/
theorem cbContains_iff (ht : t.Sound) : cbContains t u = some v ↔ (u, v) ∈ t.entries := by
  cases t with
  | none => exact ⟨nofun, nofun⟩
  | some n =>
    obtain ⟨hn, hord⟩ := ht
    show (if u = (n.leafAt u).1 then some (n.leafAt u).2 else none) = some v ↔ (u, v) ∈ n.toBits.entries
    rw [CbNode.leafAt_eq hn]
    constructor
    · intro h
      split at h
      · next heq =>
        cases h
        have hmem : n.toBits.walk CStr.bit u ∈ n.toBits.entries := BitTree.walk_mem n.toBits
        rwa [show n.toBits.walk CStr.bit u = (u, (n.toBits.walk CStr.bit u).2) from Prod.ext heq.symm rfl]
          at hmem
      · cases h
    · intro hmem
      rw [hord.walk_eq (fun _ _ => CStr.eq_of_bit) hmem]
      exact if_pos rfl

theorem cbContains_eq_none_iff (ht : t.Sound) : cbContains t u = none ↔ u ∉ t.entries.map Prod.fst := by
  constructor
  · intro h hmem
    obtain ⟨⟨_, v⟩, he, rfl⟩ := List.mem_map.mp hmem
    rw [(cbContains_iff ht).mpr he] at h
    cases h
  · intro h
    cases hc : cbContains t u with
    | none => rfl
    | some v => exact absurd (List.mem_map.mpr ⟨_, (cbContains_iff ht).mp hc, rfl⟩) h

theorem keys_eq_entries (t : CbTree V) : t.keys = t.entries.map Prod.fst := by
  cases t with
  | none => rfl
  | some n => exact n.keys_eq

theorem cbContains_update (ht : t.Sound) (ht' : t'.Sound)
    (hmem : ∀ e, e ∈ t'.entries ↔ e = (u, v) ∨ e ∈ t.entries ∧ e.1 ≠ u) :
    cbContains t' = Function.update (cbContains t) u (some v) := by
  funext k
  apply Option.ext
  intro w
  rw [cbContains_iff ht', hmem]
  by_cases hk : k = u
  · subst hk
    simp [eq_comm]
  · rw [Function.update_of_ne hk, cbContains_iff ht]
    simp [hk]

theorem cbContains_erase (ht : t.Sound) (ht' : t'.Sound)
    (hmem : ∀ e, e ∈ t'.entries ↔ e ∈ t.entries ∧ e.1 ≠ u) :
    cbContains t' = Function.update (cbContains t) u none := by
  funext k
  apply Option.ext
  intro w
  rw [cbContains_iff ht', hmem]
  by_cases hk : k = u
  · subst hk
    simp
  · rw [Function.update_of_ne hk, cbContains_iff ht]
    simp [hk]

/-- What a new key of a map takes. The first one takes no `newnode`. -/
def Allocs.Enough (a : Allocs) (m : CStr → Option (Option V)) : Prop :=
  a.leaf ∧ a.key ∧ (a.node ∨ m = fun _ => none)

/-- What calls do to a map, and what they return. -/
inductive MapStep (m : CStr → Option (Option V)) : CbCall V → CbResult V → (CStr → Option (Option V)) → Prop
  | again {u : CStr} {a : Allocs} {v w : Option V} (h : m u = some w) :
    MapStep m (.insert u a v) ⟨1, some w⟩ (Function.update m u (some v))
  | new {u : CStr} {a : Allocs} {v : Option V} (h : m u = none) (ha : a.Enough m) :
    MapStep m (.insert u a v) ⟨2, some none⟩ (Function.update m u (some v))
  | failed {u : CStr} {a : Allocs} {v : Option V} (h : m u = none) (ha : ¬ a.Enough m) :
    MapStep m (.insert u a v) ⟨0, none⟩ m
  | gone {u : CStr} {w : Option V} (h : m u = some w) :
    MapStep m (.delete u) ⟨1, some w⟩ (Function.update m u none)
  | missing {u : CStr} (h : m u = none) : MapStep m (.delete u) ⟨0, none⟩ m

/-- The keys that share the most bytes with a new one have one among them whose next byte has the
sign that it has in the new one. -/
def SignShared (keys : List CStr) (u : CStr) : Prop :=
  ∀ i, (∃ k ∈ keys, ∀ j < i, k.charAt j = u.charAt j) →
    ∃ k ∈ keys, (∀ j < i, k.charAt j = u.charAt j) ∧ (128 ≤ k.charAt i ↔ 128 ≤ u.charAt i)

def Scannable (keys : List CStr) (u : CStr) : Prop :=
  u.strlen < 2 ^ 32 ∨ ∀ k ∈ keys, ∃ i < 2 ^ 32, k.charAt i ≠ u.charAt i

/-- The condition under which a call does what it does to a map. -/
def Tame (t : CbTree V) : CbCall V → Prop
  | .insert u a _ => Scannable t.keys u ∧ (a.node ∧ a.leaf ∧ a.key → SignShared t.keys u)
  | .delete _ => True

section Reached

variable (hn : n.Masked) (hord : n.toBits.Ordered CStr.bit)

include hord in
theorem reached_same {p : ℕ} (hk : k ∈ n.keys) (hagree : Agree CStr.bit p k u) :
    Agree CStr.bit p (n.toBits.walk CStr.bit u).1 u := by
  rw [n.keys_eq] at hk
  obtain ⟨e, he, rfl⟩ := List.mem_map.mp hk
  exact hord.walk_agree he hagree

theorem reached_mem (n : CbNode V) (u : CStr) : (n.toBits.walk CStr.bit u).1 ∈ n.keys := by
  rw [n.keys_eq]
  exact List.mem_map_of_mem (BitTree.walk_mem n.toBits)

include hord in
theorem scannable_iff {d : ℕ} (hd : DifferAt (n.toBits.walk CStr.bit u).1 u d) :
    Scannable n.keys u ↔ d < 2 ^ 32 := by
  constructor
  · rintro (hlen | hall)
    · exact Nat.lt_of_le_of_lt hd.le_strlen hlen
    · obtain ⟨i, hi, hne⟩ := hall _ (reached_mem n u)
      by_contra hge
      exact hne (hd.same i (by omega))
  · intro hlt
    right
    intro k hk
    by_contra hsame
    push Not at hsame
    exact hd.differ (agree_iff.mp (reached_same hord hk (agree_iff.mpr hsame)) d hlt)

theorem sign_iff (c : UInt8) : 128 ≤ c ↔ c.toNat.testBit 7 = true := by
  have hall : ∀ m < 256, 128 ≤ UInt8.ofNat m ↔ (UInt8.ofNat m).toNat.testBit 7 = true := by decide +kernel
  have hc := hall c.toNat c.toNat_lt
  rwa [UInt8.ofNat_toNat] at hc

include hord in
theorem signShared_iff {d : ℕ} (hd : DifferAt (n.toBits.walk CStr.bit u).1 u d) :
    SignShared n.keys u ↔
      ((n.toBits.walk CStr.bit u).1.charAt d).toNat.testBit 7 = (u.charAt d).toNat.testBit 7 := by
  have hsign : ∀ k : CStr, (128 ≤ k.charAt d ↔ 128 ≤ u.charAt d) ↔
      (k.charAt d).toNat.testBit 7 = (u.charAt d).toNat.testBit 7 := by
    intro k
    rw [sign_iff, sign_iff]
    exact Bool.eq_iff_iff.symm
  constructor
  · intro h
    obtain ⟨k, hk, hsame, hshared⟩ := h d ⟨_, reached_mem n u, hd.same⟩
    have hbit : Agree CStr.bit (8 * d + 1) k u := by
      intro i hi
      rcases Nat.lt_succ_iff_lt_or_eq.mp hi with hlt | rfl
      · exact agree_iff.mpr hsame i hlt
      · have heq := (hsign k).mp hshared
        unfold CStr.bit
        rwa [show 8 * d / 8 = d by omega, show 7 - 8 * d % 8 = 7 by omega]
    have hreached := reached_same hord hk hbit (8 * d) (Nat.lt_succ_self _)
    unfold CStr.bit at hreached
    rwa [show 8 * d / 8 = d by omega, show 7 - 8 * d % 8 = 7 by omega] at hreached
  · intro h i hi
    obtain ⟨k, hk, hsame⟩ := hi
    have hreached := agree_iff.mp (reached_same hord hk (agree_iff.mpr hsame))
    refine ⟨_, reached_mem n u, hreached, ?_⟩
    have hle : i ≤ d := by
      by_contra hlt
      exact hd.differ (hreached d (by omega))
    rcases Nat.lt_or_eq_of_le hle with hlt | rfl
    · rw [hd.same i hlt]
    · exact (hsign _).mpr h

theorem signShared_of_mem (hu : u ∈ n.keys) : SignShared n.keys u :=
  fun _ _ => ⟨u, hu, fun _ _ => rfl, Iff.rfl⟩

theorem scannable_of_mem (hu : u ∈ n.keys) : Scannable n.keys u ↔ u.strlen < 2 ^ 32 := by
  constructor
  · rintro (hlen | hall)
    · exact hlen
    · obtain ⟨i, -, hne⟩ := hall u hu
      exact absurd rfl hne
  · exact Or.inl

end Reached

/-- What a call comes to: it does what it does to a map and leaves a tree in order. -/
structure DoneAs (t : CbTree V) (c : CbCall V) (r : CbResult V) (t' : CbTree V) : Prop where
  sound : t'.Sound
  step : MapStep (cbContains t) c r (cbContains t')
  kept : r.ret = 0 → t' = t

theorem entries_store_way (hn : n.Masked) (hord : n.toBits.Ordered CStr.bit) {e : CStr × Option V}
    (hu : (u, w) ∈ n.toBits.entries) :
    e ∈ (CbTree.entries (some (n.store v (n.way u)))) ↔ e = (u, v) ∨ e ∈ n.toBits.entries ∧ e.1 ≠ u := by
  have hwalk := hord.walk_eq (fun _ _ => CStr.eq_of_bit) hu
  show e ∈ (n.store v (n.way u)).toBits.entries ↔ _
  rw [(CbNode.store_way hn).2, hord.mem_assign, hwalk]
  refine or_congr Iff.rfl (and_congr_right fun he => not_congr ?_)
  exact ⟨fun h => congrArg Prod.fst h, fun h => hord.eq_of_key_eq he hu h⟩

/-- Inserting a key that is there gives its slot. -/
theorem insert_again {a : Allocs} (hn : n.Masked) (hord : n.toBits.Ordered CStr.bit)
    (hu : (u, w) ∈ n.toBits.entries) (hlen : u.strlen < 2 ^ 32) :
    ∃ t' r, CbTree.call (some n) (.insert u a v) = .ok (t', r) ∧ DoneAs (some n) (.insert u a v) r t' := by
  have hsound : CbTree.Sound (some n) := ⟨hn, hord⟩
  have hleaf : n.leafAt u = (u, w) := (CbNode.leafAt_eq hn).trans (hord.walk_eq (fun _ _ => CStr.eq_of_bit) hu)
  have hcall : CbTree.call (some n) (.insert u a v) =
      .ok (some (n.store v (n.way u)), ⟨1, n.value (n.way u)⟩) := by
    unfold CbTree.call cbInsert
    simp only
    rw [hleaf, firstDifference_self hlen]
    rfl
  have hsound' : CbTree.Sound (some (n.store v (n.way u))) := by
    refine ⟨(CbNode.store_way hn).1, ?_⟩
    rw [(CbNode.store_way hn).2]
    exact hord.assign
  refine ⟨_, _, hcall, hsound', ?_, nofun⟩
  rw [n.value_way, hleaf, cbContains_update hsound hsound' fun e => entries_store_way hn hord hu]
  exact .again ((cbContains_iff hsound).mpr hu)

/-- Inserting a key that is not there, and that can be told apart from the one that it leads to. -/
theorem insert_new {a : Allocs} {d : ℕ} (hn : n.Masked) (hord : n.toBits.Ordered CStr.bit)
    (hd : DifferAt (n.toBits.walk CStr.bit u).1 u d) (hlt : d < 2 ^ 32)
    (hsign : a.node ∧ a.leaf ∧ a.key →
      ((n.toBits.walk CStr.bit u).1.charAt d).toNat.testBit 7 = (u.charAt d).toNat.testBit 7) :
    ∃ t' r, CbTree.call (some n) (.insert u a v) = .ok (t', r) ∧ DoneAs (some n) (.insert u a v) r t' := by
  obtain ⟨key, hkey⟩ : ∃ key, key = (n.toBits.walk CStr.bit u).1 := ⟨_, rfl⟩
  rw [← hkey] at hd hsign
  have hsound : CbTree.Sound (some n) := ⟨hn, hord⟩
  have hfresh : ∀ e ∈ n.toBits.entries, e.1 ≠ u := by
    rintro ⟨k, w⟩ he rfl
    rw [hord.walk_eq (fun _ _ => CStr.eq_of_bit) he] at hkey
    exact hd.differ (by rw [hkey])
  have hnone : cbContains (some n) u = none := by
    apply (cbContains_eq_none_iff hsound).mpr
    intro hmem
    obtain ⟨e, he, heq⟩ := List.mem_map.mp hmem
    exact hfresh e he heq
  have hdiff := firstDifference_of_differ hlt hd
  by_cases ha : a.node ∧ a.leaf ∧ a.key
  · have htop := topBit_lt hd.differ
    obtain ⟨n', slot, hins, hempty, hmasked, hbits⟩ := CbNode.insertNode_eq (u := u) htop d hn
    have hside : newDirection (mask (topBit (key.charAt d) (u.charAt d))).toUInt32 (key.charAt d) =
        if u.bit (position d (mask (topBit (key.charAt d) (u.charAt d)))) then 0 else 1 := by
      have hne := hd.bit_ne
      unfold DifferAt.bitAt at hne
      rw [newDirection_mask htop, ← bit_position htop]
      cases hk : key.bit (position d (mask (topBit (key.charAt d) (u.charAt d)))) with
      | true => rw [Bool.eq_false_iff.mpr fun h => hne (hk.trans h.symm)]; rfl
      | false => rw [(Bool.not_eq_false _).mp fun h => hne (hk.trans h.symm)]; rfl
    have hcall : CbTree.call (some n) (.insert u a v) =
        .ok (some (n'.store v slot), ⟨2, n'.value slot⟩) := by
      unfold CbTree.call cbInsert
      simp only
      rw [CbNode.leafAt_eq hn, ← hkey, hdiff]
      show (do
        let r ← (if a.node ∧ a.leaf ∧ a.key then _ else _ : Except Fault (CbInserted V))
        _) = _
      rw [if_pos ha, newOtherbits_of_sign hd.differ (hsign ha), hside, hins]
      rfl
    have hsound' : CbTree.Sound (some (n'.store v slot)) := by
      refine ⟨hmasked v, ?_⟩
      rw [hbits v]
      apply hord.insertAt
      · rw [← hkey]
        exact hd.agree
      · rw [← hkey]
        exact hd.bit_ne
    refine ⟨_, _, hcall, hsound', ?_, nofun⟩
    have hmem : ∀ e, e ∈ CbTree.entries (some (n'.store v slot)) ↔
        e = (u, v) ∨ e ∈ CbTree.entries (some n) ∧ e.1 ≠ u := by
      intro e
      show e ∈ (n'.store v slot).toBits.entries ↔ _
      rw [hbits v, BitTree.mem_insertAt]
      exact or_congr Iff.rfl (and_iff_left_of_imp (hfresh e)).symm
    rw [hempty, cbContains_update hsound hsound' hmem]
    exact .new hnone ⟨ha.2.1, ha.2.2, Or.inl ha.1⟩
  · have hcall : CbTree.call (some n) (.insert u a v) = .ok (some n, ⟨0, none⟩) := by
      unfold CbTree.call cbInsert
      simp only
      rw [CbNode.leafAt_eq hn, ← hkey, hdiff]
      show (do
        let r ← (if a.node ∧ a.leaf ∧ a.key then _ else _ : Except Fault (CbInserted V))
        _) = _
      rw [if_neg ha]
      rfl
    have hfew : ¬ a.Enough (cbContains (some n)) := by
      rintro ⟨hleaf, hkey, hnode | hempty⟩
      · exact ha ⟨hnode, hleaf, hkey⟩
      · have hmem : n.toBits.walk CStr.bit u ∈ n.toBits.entries := BitTree.walk_mem n.toBits
        have hsome := (cbContains_iff hsound).mpr hmem
        rw [hempty] at hsome
        cases hsome
    exact ⟨_, _, hcall, hsound, .failed hnone hfew, fun _ => rfl⟩

/-- Inserting a key whose difference is in the sign of a byte stores a child out of range. -/
theorem insert_wild {a : Allocs} {d : ℕ} (hn : n.Masked) (hd : DifferAt (n.toBits.walk CStr.bit u).1 u d)
    (hlt : d < 2 ^ 32) (ha : a.node ∧ a.leaf ∧ a.key)
    (hsign : ((n.toBits.walk CStr.bit u).1.charAt d).toNat.testBit 7 ≠ (u.charAt d).toNat.testBit 7) :
    CbTree.call (some n) (.insert u a v) = .error .outOfRange := by
  have hwild : ∀ (n : CbNode V) (bits : UInt32), insertNode d bits 0x800001 u n = .error .outOfRange := by
    intro n bits
    induction n with
    | leaf key val => rfl
    | internal byte otherbits child0 child1 ih0 ih1 =>
      unfold insertNode
      rw [ih0, ih1]
      split
      · rfl
      · split
        · rfl
        · rfl
  unfold CbTree.call cbInsert
  simp only
  rw [CbNode.leafAt_eq hn, firstDifference_of_differ hlt hd]
  show (do
    let r ← (if a.node ∧ a.leaf ∧ a.key then _ else _ : Except Fault (CbInserted V))
    _) = _
  rw [if_pos ha, newDirection_of_sign hsign, hwild]
  rfl

theorem insert_endless {a : Allocs} (hn : n.Masked) (hlen : 2 ^ 32 ≤ u.strlen)
    (hsame : ∀ j < 2 ^ 32, (n.toBits.walk CStr.bit u).1.charAt j = u.charAt j) :
    CbTree.call (some n) (.insert u a v) = .error .nontermination := by
  unfold CbTree.call cbInsert
  simp only
  rw [CbNode.leafAt_eq hn, firstDifference_endless hlen hsame]
  rfl

/-- The first key is put in whatever it is. -/
theorem insert_empty (u : CStr) (a : Allocs) (v : Option V) :
    ∃ t' r, CbTree.call none (.insert u a v) = .ok (t', r) ∧ DoneAs none (.insert u a v) r t' := by
  have hsound : CbTree.Sound (none : CbTree V) := trivial
  by_cases ha : a.leaf ∧ a.key
  · have hcall : CbTree.call none (.insert u a v) = .ok (some (.leaf u v), ⟨2, some none⟩) := by
      unfold CbTree.call cbInsert
      simp only
      rw [if_pos ha]
      rfl
    have hsound' : CbTree.Sound (some (CbNode.leaf u v)) := ⟨trivial, trivial⟩
    have hmem : ∀ e, e ∈ CbTree.entries (some (CbNode.leaf u v)) ↔
        e = (u, v) ∨ e ∈ CbTree.entries (none : CbTree V) ∧ e.1 ≠ u := by
      intro e
      simp [CbTree.entries, CbNode.toBits, BitTree.entries]
    refine ⟨_, _, hcall, hsound', ?_, fun hfailed => ?_⟩
    · rw [cbContains_update hsound hsound' hmem]
      exact .new rfl ⟨ha.1, ha.2, Or.inr rfl⟩
    · cases hfailed
  · have hcall : CbTree.call none (.insert u a v) = .ok ((none : CbTree V), ⟨0, none⟩) := by
      unfold CbTree.call cbInsert
      simp only
      rw [if_neg ha]
      rfl
    exact ⟨_, _, hcall, hsound, .failed rfl fun h => ha ⟨h.1, h.2.1⟩, fun _ => rfl⟩

/-- Deleting a key. -/
theorem delete_done (ht : t.Sound) (u : CStr) :
    ∃ t' r, t.call (.delete u) = .ok (t', r) ∧ DoneAs t (.delete u) r t' := by
  cases t with
  | none => exact ⟨none, ⟨0, none⟩, rfl, ht, .missing rfl, fun _ => rfl⟩
  | some n =>
    obtain ⟨hn, hord⟩ := ht
    have hsound : CbTree.Sound (some n) := ⟨hn, hord⟩
    by_cases hu : u = (n.leafAt u).1
    · have hcall : CbTree.call (some n) (.delete u) = .ok (n.removeLeaf u, ⟨1, some (n.leafAt u).2⟩) := by
        unfold CbTree.call cbDelete
        simp only
        rw [if_pos hu]
      have hentry : (u, (n.leafAt u).2) ∈ n.toBits.entries := by
        rw [show (u, (n.leafAt u).2) = n.leafAt u from Prod.ext hu rfl, CbNode.leafAt_eq hn]
        exact BitTree.walk_mem n.toBits
      have hwalk := hord.walk_eq (fun _ _ => CStr.eq_of_bit) hentry
      obtain ⟨hmasked, hbits⟩ := CbNode.removeLeaf_eq (u := u) hn
      have hother : ∀ e ∈ n.toBits.entries, e ≠ n.toBits.walk CStr.bit u ↔ e.1 ≠ u := by
        intro e he
        rw [hwalk]
        exact not_congr ⟨fun h => congrArg Prod.fst h, fun h => hord.eq_of_key_eq he hentry h⟩
      have hdone : (n.removeLeaf u).Sound ∧
          ∀ e, e ∈ (n.removeLeaf u).entries ↔ e ∈ CbTree.entries (some n) ∧ e.1 ≠ u := by
        cases hrem : n.removeLeaf u with
        | none =>
          rw [hrem] at hbits
          have hone := BitTree.removeLeaf_eq_none hbits.symm
          refine ⟨trivial, fun e => ⟨nofun, ?_⟩⟩
          rintro ⟨he, hne⟩
          have he' : e ∈ n.toBits.entries := he
          rw [hone] at he'
          exact absurd (List.mem_singleton.mp he') ((hother e he).mpr hne)
        | some n' =>
          rw [hrem] at hbits hmasked
          refine ⟨⟨hmasked n' rfl, hord.removeLeaf hbits.symm⟩, fun e => ?_⟩
          exact (hord.mem_removeLeaf hbits.symm).trans (and_congr_right (hother e))
      refine ⟨_, _, hcall, hdone.1, ?_, nofun⟩
      rw [cbContains_erase hsound hdone.1 hdone.2]
      exact .gone ((cbContains_iff hsound).mpr hentry)
    · have hcall : CbTree.call (some n) (.delete u) = .ok (some n, ⟨0, none⟩) := by
        unfold CbTree.call cbDelete
        simp only
        rw [if_neg hu]
      have hnone : cbContains (some n) u = none := if_neg hu
      exact ⟨_, _, hcall, hsound, .missing hnone, fun _ => rfl⟩

/-- A call on a tree in order is done as on a map if the condition is met, and not at all else. -/
theorem call_done_iff (ht : t.Sound) (c : CbCall V) :
    (Tame t c → ∃ t' r, t.call c = .ok (t', r) ∧ DoneAs t c r t') ∧
    (¬ Tame t c → ∃ f, t.call c = .error f) := by
  cases c with
  | delete u => exact ⟨fun _ => delete_done ht u, fun h => absurd trivial h⟩
  | insert u a v =>
    cases t with
    | none => exact ⟨fun _ => insert_empty u a v, fun h => absurd ⟨Or.inr nofun, fun _ _ h => nomatch h⟩ h⟩
    | some n =>
      obtain ⟨hn, hord⟩ := ht
      by_cases hu : u ∈ n.keys
      · have hmem := hu
        rw [n.keys_eq] at hmem
        obtain ⟨⟨k, w⟩, he, hk⟩ := List.mem_map.mp hmem
        obtain rfl : u = k := hk.symm
        constructor
        · intro htame
          exact insert_again hn hord he ((scannable_of_mem hu).mp htame.1)
        · intro htame
          have hlen : ¬ u.strlen < 2 ^ 32 := fun h =>
            htame ⟨(scannable_of_mem hu).mpr h, fun _ => signShared_of_mem hu⟩
          have hwalk := hord.walk_eq (fun _ _ => CStr.eq_of_bit) he
          exact ⟨_, insert_endless hn (Nat.le_of_not_lt hlen) (by rw [hwalk]; exact fun _ _ => rfl)⟩
      · have hne : (n.toBits.walk CStr.bit u).1 ≠ u := fun h => hu (h ▸ reached_mem n u)
        obtain ⟨d, hd⟩ := exists_differAt hne
        have hscan := scannable_iff hord hd
        have hsign := signShared_iff hord hd
        constructor
        · intro htame
          exact insert_new hn hord hd (hscan.mp htame.1) fun ha => hsign.mp (htame.2 ha)
        · intro htame
          by_cases hlt : d < 2 ^ 32
          · have hwild : ¬ (a.node ∧ a.leaf ∧ a.key → SignShared n.keys u) := fun h => htame ⟨hscan.mpr hlt, h⟩
            obtain ⟨ha, hwild⟩ := Classical.not_imp.mp hwild
            exact ⟨_, insert_wild hn hd hlt ha fun h => hwild (hsign.mpr h)⟩
          · have hle := Nat.le_of_not_lt hlt
            exact ⟨_, insert_endless hn (Nat.le_trans hle hd.le_strlen) fun j hj => hd.same j (by omega)⟩

theorem CbTree.Called.tame {c : CbCall V × CbResult V} (h : t.Called c t') (ht : t.Sound) : Tame t c.1 := by
  by_contra htame
  obtain ⟨f, hf⟩ := (call_done_iff ht c.1).2 htame
  unfold Called at h
  rw [hf] at h
  cases h

/-- What is stored for the keys, as the calls that returned tell. -/
def recordCall (m : CStr → Option (Option V)) (c : CbCall V × CbResult V) : CStr → Option (Option V) :=
  if c.2.ret = 0 then m
  else match c.1 with
    | .insert u _ v => Function.update m u (some v)
    | .delete u => Function.update m u none

def lastStored (calls : List (CbCall V × CbResult V)) : CStr → Option (Option V) :=
  calls.foldl recordCall fun _ => none

theorem MapStep.recorded {m m' : CStr → Option (Option V)} {c : CbCall V} {r : CbResult V}
    (h : MapStep m c r m') : m' = recordCall m (c, r) := by
  cases h <;> rfl

/-- In a run without keys that the arithmetic of bytes fails for, the tree is a map: looking up finds
what was stored last, and a call does what it does to a map and leaves the tree alone if it returns
zero. The next call is done without a child out of range, and at all, exactly if its key is no
such key. -/
theorem crit_bit_map {calls : List (CbCall V × CbResult V)}
    (hrun : GuardedRun CbTree.Called (fun t c => Tame t c.1) none calls t) :
    (∀ u, cbContains t u = lastStored calls u) ∧
    (∀ c, (∃ t' r, t.call c = .ok (t', r)) ↔ Tame t c) ∧
    ∀ c t' r, t.call c = .ok (t', r) →
      MapStep (cbContains t) c r (cbContains t') ∧ (r.ret = 0 → t' = t) := by
  have hinv : t.Sound ∧ cbContains t = lastStored calls := by
    apply hrun.invariant (I := fun calls t => t.Sound ∧ cbContains t = lastStored calls)
    · rintro calls t ⟨c, r⟩ t' ⟨ht, hlast⟩ htame hcalled
      obtain ⟨t'', r', hcall, hdone⟩ := (call_done_iff ht c).1 htame
      have hcalled : t.call c = .ok (t', r) := hcalled
      cases hcall.symm.trans hcalled
      refine ⟨hdone.sound, ?_⟩
      rw [hdone.step.recorded, hlast]
      unfold lastStored
      rw [List.foldl_append]
      rfl
    · exact ⟨trivial, rfl⟩
  obtain ⟨ht, hlast⟩ := hinv
  have hiff : ∀ c, (∃ t' r, t.call c = .ok (t', r)) ↔ Tame t c := by
    intro c
    constructor
    · rintro ⟨t', r, hcall⟩
      have hcalled : t.Called (c, r) t' := hcall
      exact hcalled.tame ht
    · intro htame
      obtain ⟨t', r, hcall, -⟩ := (call_done_iff ht c).1 htame
      exact ⟨t', r, hcall⟩
  refine ⟨fun u => congrFun hlast u, hiff, ?_⟩
  intro c t' r hcall
  obtain ⟨t'', r', hcall', hdone⟩ := (call_done_iff ht c).1 ((hiff c).mp ⟨t', r, hcall⟩)
  cases hcall'.symm.trans hcall
  exact ⟨hdone.step, hdone.kept⟩

def enoughAllocs : Allocs := ⟨true, true, true⟩
def plainName : CStr := ⟨[97], by decide⟩
def otherName : CStr := ⟨[97, 98], by decide⟩
def signedName : CStr := ⟨[0xe9], by decide⟩

/-- Two keys, one of which begins with the other. -/
theorem crit_bit_map_two : cbContains (some (CbNode.internal 1 (mask 6) (.leaf plainName (some 1))
      (.leaf otherName (some 2)))) plainName = some (some 1) := by
  have hfirst : CbTree.Called none (CbCall.insert plainName enoughAllocs (some 1), ⟨2, some none⟩)
      (some (.leaf plainName (some 1))) := rfl
  have hsecond : CbTree.Called (some (.leaf plainName (some 1)))
      (CbCall.insert otherName enoughAllocs (some 2), ⟨2, some none⟩)
      (some (.internal 1 (mask 6) (.leaf plainName (some 1)) (.leaf otherName (some 2)))) := rfl
  have hsound : CbTree.Sound (some (CbNode.leaf plainName (some 1))) := ⟨trivial, trivial⟩
  have hrun : GuardedRun CbTree.Called (fun t c => Tame t c.1) none _ _ :=
    .cons (hfirst.tame trivial) hfirst (.cons (hsecond.tame hsound) hsecond (.start _))
  exact (crit_bit_map hrun).1 plainName

/-- A file name whose first byte is not ASCII, behind one that is. -/
theorem crit_bit_wild : CbTree.Called none (CbCall.insert plainName enoughAllocs (some 1), ⟨2, some none⟩)
      (some (CbNode.leaf plainName (some 1))) ∧
    CbTree.call (some (CbNode.leaf plainName (some 1))) (.insert signedName enoughAllocs (some 2)) =
      .error .outOfRange := by
  exact ⟨rfl, rfl⟩

end Ashttpd
