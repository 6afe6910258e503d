import Mathlib.Data.List.Basic
import Mathlib.Data.Nat.Notation

/-!
# Trees that tell keys apart by single bits

Every branch looks at one bit. A tree is ordered if its branches part the keys by the bits they look
at and all keys below a branch agree on the bits before. The way that a key takes then leads to a key
which agrees with it for as long as any does.
-/
namespace Ashttpd

variable {κ β : Type*}

inductive BitTree (κ β : Type*) where
  | leaf (key : κ) (val : β)
  | branch (pos : ℕ) (left right : BitTree κ β)

def Agree (bit : κ → ℕ → Bool) (p : ℕ) (k k' : κ) : Prop := ∀ i < p, bit k i = bit k' i

variable {bit : κ → ℕ → Bool} {p q : ℕ} {k k' u : κ} {v : β}

theorem Agree.symm (h : Agree bit p k k') : Agree bit p k' k := fun i hi => (h i hi).symm

theorem Agree.trans (h : Agree bit p k k') (h' : Agree bit p k' u) : Agree bit p k u :=
  fun i hi => (h i hi).trans (h' i hi)

theorem Agree.mono (h : Agree bit p k k') (hq : q ≤ p) : Agree bit q k k' :=
  fun i hi => h i (Nat.lt_of_lt_of_le hi hq)

namespace BitTree

/-- The keys with their values. -/
def entries : BitTree κ β → List (κ × β)
  | leaf key val => [(key, val)]
  | branch _ left right => left.entries ++ right.entries

variable (bit) in
def Ordered : BitTree κ β → Prop
  | leaf _ _ => True
  | branch pos left right =>
    left.Ordered ∧ right.Ordered ∧ (∀ e ∈ left.entries, bit e.1 pos = false) ∧
      (∀ e ∈ right.entries, bit e.1 pos = true) ∧
      ∀ e ∈ (branch pos left right).entries, ∀ e' ∈ (branch pos left right).entries,
        Agree bit pos e.1 e'.1

variable (bit) in
/-- The entry that the bits of a key lead to. -/
def walk (u : κ) : BitTree κ β → κ × β
  | leaf key val => (key, val)
  | branch pos left right => if bit u pos then right.walk u else left.walk u

variable (bit) in
def place (p : ℕ) (u : κ) (v : β) (t : BitTree κ β) : BitTree κ β :=
  if bit u p then branch p t (leaf u v) else branch p (leaf u v) t

variable (bit) in
/-- A new leaf, before the first branch on its way that looks at a later bit. -/
def insertAt (p : ℕ) (u : κ) (v : β) : BitTree κ β → BitTree κ β
  | leaf key val => (leaf key val).place bit p u v
  | branch pos left right =>
    if p < pos then (branch pos left right).place bit p u v
    else if bit u pos then branch pos left (right.insertAt p u v)
    else branch pos (left.insertAt p u v) right

variable (bit) in
/-- The tree without the leaf at the end of the way, if there is any other. -/
def removeLeaf (u : κ) : BitTree κ β → Option (BitTree κ β)
  | leaf _ _ => none
  | branch pos left right =>
    if bit u pos then
      match right.removeLeaf u with
      | none => some left
      | some right' => some (branch pos left right')
    else
      match left.removeLeaf u with
      | none => some right
      | some left' => some (branch pos left' right)

variable (bit) in
/-- The tree with another value in the leaf at the end of the way. -/
def assign (u : κ) (v : β) : BitTree κ β → BitTree κ β
  | leaf key _ => leaf key v
  | branch pos left right =>
    if bit u pos then branch pos left (right.assign u v) else branch pos (left.assign u v) right

variable {t : BitTree κ β}

theorem walk_mem (t : BitTree κ β) : t.walk bit u ∈ t.entries := by
  induction t with
  | leaf key val => exact List.mem_singleton_self _
  | branch pos left right ihl ihr =>
    unfold walk entries
    split
    · exact List.mem_append_right _ ihr
    · exact List.mem_append_left _ ihl

/-- If any key agrees with this one for so long, the one that it leads to does. -/
theorem Ordered.walk_agree (ht : t.Ordered bit) {e : κ × β} (he : e ∈ t.entries)
    (hagree : Agree bit p e.1 u) : Agree bit p (t.walk bit u).1 u := by
  induction t with
  | leaf key val =>
    cases List.mem_singleton.mp he
    exact hagree
  | branch pos left right ihl ihr =>
    obtain ⟨hl, hr, hleft, hright, hall⟩ := ht
    by_cases hpos : p ≤ pos
    · exact (((hall _ he _ (walk_mem _)).mono hpos).symm).trans hagree
    · have hbit := hagree pos (Nat.lt_of_not_le hpos)
      unfold walk
      rcases List.mem_append.mp he with hel | her
      · rw [hleft e hel] at hbit
        rw [← hbit, if_neg Bool.false_ne_true]
        exact ihl hl hel
      · rw [hright e her] at hbit
        rw [← hbit, if_pos rfl]
        exact ihr hr her

/-- No key occurs twice. -/
theorem Ordered.eq_of_key_eq (ht : t.Ordered bit) {e e' : κ × β} (he : e ∈ t.entries)
    (he' : e' ∈ t.entries) (hkey : e.1 = e'.1) : e = e' := by
  induction t with
  | leaf key val => exact (List.mem_singleton.mp he).trans (List.mem_singleton.mp he').symm
  | branch pos left right ihl ihr =>
    obtain ⟨hl, hr, hleft, hright, -⟩ := ht
    rcases List.mem_append.mp he with he | he
    · rcases List.mem_append.mp he' with he' | he'
      · exact ihl hl he he'
      · have hbit := hleft e he
        rw [hkey, hright e' he'] at hbit
        cases hbit
    · rcases List.mem_append.mp he' with he' | he'
      · have hbit := hright e he
        rw [hkey, hleft e' he'] at hbit
        cases hbit
      · exact ihr hr he he'

theorem Ordered.walk_eq (hinj : ∀ k k', (∀ i, bit k i = bit k' i) → k = k') (ht : t.Ordered bit)
    (hu : (u, v) ∈ t.entries) : t.walk bit u = (u, v) := by
  have hsame : (t.walk bit u).1 = u := by
    apply hinj
    intro i
    exact ht.walk_agree (p := i + 1) hu (fun _ _ => rfl) i (Nat.lt_succ_self i)
  exact ht.eq_of_key_eq (walk_mem t) hu hsame

theorem mem_place {e : κ × β} : e ∈ (t.place bit p u v).entries ↔ e = (u, v) ∨ e ∈ t.entries := by
  unfold place
  split
  · simp [entries, or_comm]
  · simp [entries]

theorem mem_insertAt {e : κ × β} :
    e ∈ (t.insertAt bit p u v).entries ↔ e = (u, v) ∨ e ∈ t.entries := by
  induction t with
  | leaf key val => exact mem_place
  | branch pos left right ihl ihr =>
    unfold insertAt
    split
    · exact mem_place
    · split
      · simp only [entries, List.mem_append, ihr]
        exact or_left_comm
      · simp only [entries, List.mem_append, ihl]
        exact or_assoc

/-- A branch between a tree and a key that differ first at its bit. -/
theorem Ordered.place (ht : t.Ordered bit) (hagree : ∀ e ∈ t.entries, Agree bit p e.1 u)
    (hdiff : ∀ e ∈ t.entries, bit e.1 p ≠ bit u p) : (t.place bit p u v).Ordered bit := by
  have hall : ∀ e ∈ (t.place bit p u v).entries, Agree bit p e.1 u := by
    intro e he
    rcases mem_place.mp he with rfl | he
    · exact fun _ _ => rfl
    · exact hagree e he
  have hpair : ∀ e ∈ (t.place bit p u v).entries, ∀ e' ∈ (t.place bit p u v).entries,
      Agree bit p e.1 e'.1 := fun e he e' he' => (hall e he).trans (hall e' he').symm
  unfold BitTree.place at hpair ⊢
  cases hbit : bit u p with
  | true =>
    rw [if_pos hbit] at hpair
    refine ⟨ht, trivial, ?_, ?_, hpair⟩
    · intro e he
      exact Bool.eq_false_iff.mpr fun h => hdiff e he (h.trans hbit.symm)
    · intro e he
      cases List.mem_singleton.mp he
      exact hbit
  | false =>
    have hbit' : ¬ bit u p = true := by
      rw [hbit]
      exact Bool.false_ne_true
    rw [if_neg hbit'] at hpair
    refine ⟨trivial, ht, ?_, ?_, hpair⟩
    · intro e he
      cases List.mem_singleton.mp he
      exact hbit
    · intro e he
      exact (Bool.not_eq_false _).mp (fun h => hdiff e he (h.trans hbit.symm))

/-- A key that differs first at some bit from the one that it leads to is put in order there. -/
theorem Ordered.insertAt (ht : t.Ordered bit) (hagree : Agree bit p (t.walk bit u).1 u)
    (hdiff : bit (t.walk bit u).1 p ≠ bit u p) : (t.insertAt bit p u v).Ordered bit := by
  induction t with
  | leaf key val =>
    have hleaf : (leaf key val).Ordered bit := trivial
    apply hleaf.place
    · intro e he
      cases List.mem_singleton.mp he
      exact hagree
    · intro e he
      cases List.mem_singleton.mp he
      exact hdiff
  | branch pos left right ihl ihr =>
    have hwhole := ht
    obtain ⟨hl, hr, hleft, hright, hall⟩ := ht
    have hmem : (branch pos left right).walk bit u ∈ (branch pos left right).entries := walk_mem _
    unfold BitTree.insertAt
    by_cases hlt : p < pos
    · rw [if_pos hlt]
      apply hwhole.place
      · exact fun e he => ((hall e he _ hmem).mono (Nat.le_of_lt hlt)).trans hagree
      · intro e he
        rw [hall e he _ hmem p hlt]
        exact hdiff
    · rw [if_neg hlt]
      have hle := Nat.le_of_not_lt hlt
      have hkeys : ∀ e ∈ (branch pos left right).entries, Agree bit pos e.1 u :=
        fun e he => (hall e he _ hmem).trans (hagree.mono hle)
      unfold walk at hagree hdiff hmem
      cases hbit : bit u pos with
      | true =>
        rw [hbit, if_pos rfl] at hagree hdiff
        rw [if_pos rfl]
        have hall' : ∀ e ∈ left.entries ++ (right.insertAt bit p u v).entries, Agree bit pos e.1 u := by
          intro e he
          rcases List.mem_append.mp he with he | he
          · exact hkeys e (List.mem_append_left _ he)
          · rcases mem_insertAt.mp he with rfl | he
            · exact fun _ _ => rfl
            · exact hkeys e (List.mem_append_right _ he)
        refine ⟨hl, ihr hr hagree hdiff, hleft, ?_, fun e he e' he' => (hall' e he).trans (hall' e' he').symm⟩
        intro e he
        rcases mem_insertAt.mp he with rfl | he
        · exact hbit
        · exact hright e he
      | false =>
        rw [hbit, if_neg Bool.false_ne_true] at hagree hdiff
        rw [if_neg Bool.false_ne_true]
        have hall' : ∀ e ∈ (left.insertAt bit p u v).entries ++ right.entries, Agree bit pos e.1 u := by
          intro e he
          rcases List.mem_append.mp he with he | he
          · rcases mem_insertAt.mp he with rfl | he
            · exact fun _ _ => rfl
            · exact hkeys e (List.mem_append_left _ he)
          · exact hkeys e (List.mem_append_right _ he)
        refine ⟨ihl hl hagree hdiff, hr, ?_, hright, fun e he e' he' => (hall' e he).trans (hall' e' he').symm⟩
        intro e he
        rcases mem_insertAt.mp he with rfl | he
        · exact hbit
        · exact hleft e he

/-- Fewer entries of an ordered tree are below each of its branches. -/
theorem Ordered.shrink {left right left' right' : BitTree κ β} (ht : (branch p left right).Ordered bit)
    (hl : left'.Ordered bit) (hr : right'.Ordered bit) (hleft : ∀ e ∈ left'.entries, ∃ v, (e.1, v) ∈ left.entries)
    (hright : ∀ e ∈ right'.entries, ∃ v, (e.1, v) ∈ right.entries) : (branch p left' right').Ordered bit := by
  obtain ⟨-, -, hfalse, htrue, hall⟩ := ht
  have hsub : ∀ e ∈ (branch p left' right').entries, ∃ v, (e.1, v) ∈ (branch p left right).entries := by
    intro e he
    rcases List.mem_append.mp he with he | he
    · obtain ⟨v, hv⟩ := hleft e he
      exact ⟨v, List.mem_append_left _ hv⟩
    · obtain ⟨v, hv⟩ := hright e he
      exact ⟨v, List.mem_append_right _ hv⟩
  refine ⟨hl, hr, ?_, ?_, ?_⟩
  · intro e he
    obtain ⟨v, hv⟩ := hleft e he
    exact hfalse (e.1, v) hv
  · intro e he
    obtain ⟨v, hv⟩ := hright e he
    exact htrue (e.1, v) hv
  · intro e he e' he'
    obtain ⟨v, hv⟩ := hsub e he
    obtain ⟨v', hv'⟩ := hsub e' he'
    exact hall (e.1, v) hv (e'.1, v') hv'

theorem removeLeaf_eq_none (h : t.removeLeaf bit u = none) : t.entries = [t.walk bit u] := by
  cases t with
  | leaf key val => rfl
  | branch pos left right =>
    unfold removeLeaf at h
    split at h
    · split at h <;> cases h
    · split at h <;> cases h

theorem Ordered.apart {pos : ℕ} {left right : BitTree κ β} (ht : (branch pos left right).Ordered bit) {e : κ × β}
    (he : e ∈ left.entries) : e ∉ right.entries := by
  obtain ⟨-, -, hleft, hright, -⟩ := ht
  intro he'
  have hbit := hleft e he
  rw [hright e he'] at hbit
  cases hbit

theorem Ordered.ne_walk_right {pos : ℕ} {left right : BitTree κ β} (ht : (branch pos left right).Ordered bit) {e : κ × β}
    (he : e ∈ left.entries) : e ≠ right.walk bit u := by
  rintro rfl
  exact ht.apart he (walk_mem right)

theorem Ordered.ne_walk_left {pos : ℕ} {left right : BitTree κ β} (ht : (branch pos left right).Ordered bit) {e : κ × β}
    (he : e ∈ right.entries) : e ≠ left.walk bit u := by
  rintro rfl
  exact ht.apart (walk_mem left) he

/-- What is left are the other entries. -/
theorem Ordered.mem_removeLeaf (ht : t.Ordered bit) {t' : BitTree κ β} (h : t.removeLeaf bit u = some t')
    {e : κ × β} : e ∈ t'.entries ↔ e ∈ t.entries ∧ e ≠ t.walk bit u := by
  induction t generalizing t' with
  | leaf key val => cases h
  | branch pos left right ihl ihr =>
    have hwhole := ht
    obtain ⟨hl, hr, -⟩ := ht
    unfold removeLeaf at h
    unfold walk
    simp only [entries, List.mem_append]
    cases hbit : bit u pos with
    | true =>
      rw [hbit, if_pos rfl] at h
      rw [if_pos rfl]
      have hother : e ∈ left.entries → e ≠ right.walk bit u := hwhole.ne_walk_right
      cases hrem : right.removeLeaf bit u with
      | none =>
        rw [hrem] at h
        cases h
        rw [removeLeaf_eq_none hrem, List.mem_singleton]
        grind
      | some right' =>
        rw [hrem] at h
        cases h
        simp only [entries, List.mem_append, ihr hr hrem]
        grind
    | false =>
      rw [hbit, if_neg Bool.false_ne_true] at h
      rw [if_neg Bool.false_ne_true]
      have hother : e ∈ right.entries → e ≠ left.walk bit u := hwhole.ne_walk_left
      cases hrem : left.removeLeaf bit u with
      | none =>
        rw [hrem] at h
        cases h
        rw [removeLeaf_eq_none hrem, List.mem_singleton]
        grind
      | some left' =>
        rw [hrem] at h
        cases h
        simp only [entries, List.mem_append, ihl hl hrem]
        grind

theorem Ordered.removeLeaf (ht : t.Ordered bit) {t' : BitTree κ β} (h : t.removeLeaf bit u = some t') :
    t'.Ordered bit := by
  induction t generalizing t' with
  | leaf key val => cases h
  | branch pos left right ihl ihr =>
    have hwhole := ht
    obtain ⟨hl, hr, -⟩ := ht
    unfold BitTree.removeLeaf at h
    split at h
    · cases hrem : right.removeLeaf bit u with
      | none =>
        rw [hrem] at h
        cases h
        exact hl
      | some right' =>
        rw [hrem] at h
        cases h
        exact hwhole.shrink hl (ihr hr hrem) (fun e he => ⟨_, he⟩)
          (fun e he => ⟨_, ((hr.mem_removeLeaf hrem).mp he).1⟩)
    · cases hrem : left.removeLeaf bit u with
      | none =>
        rw [hrem] at h
        cases h
        exact hr
      | some left' =>
        rw [hrem] at h
        cases h
        exact hwhole.shrink (ihl hl hrem) hr (fun e he => ⟨_, ((hl.mem_removeLeaf hrem).mp he).1⟩)
          (fun e he => ⟨_, he⟩)

theorem Ordered.mem_assign (ht : t.Ordered bit) {e : κ × β} :
    e ∈ (t.assign bit u v).entries ↔
      e = ((t.walk bit u).1, v) ∨ e ∈ t.entries ∧ e ≠ t.walk bit u := by
  induction t with
  | leaf key val => simp [assign, entries, walk]
  | branch pos left right ihl ihr =>
    have hwhole := ht
    obtain ⟨hl, hr, -⟩ := ht
    unfold assign walk
    split
    · have hother : e ∈ left.entries → e ≠ right.walk bit u := hwhole.ne_walk_right
      simp only [entries, List.mem_append, ihr hr]
      grind
    · have hother : e ∈ right.entries → e ≠ left.walk bit u := hwhole.ne_walk_left
      simp only [entries, List.mem_append, ihl hl]
      grind

theorem Ordered.key_of_mem_assign (ht : t.Ordered bit) {e : κ × β} (he : e ∈ (t.assign bit u v).entries) :
    ∃ w, (e.1, w) ∈ t.entries := by
  rcases ht.mem_assign.mp he with rfl | ⟨he, -⟩
  · exact ⟨_, walk_mem t⟩
  · exact ⟨_, he⟩

theorem Ordered.assign (ht : t.Ordered bit) : (t.assign bit u v).Ordered bit := by
  induction t with
  | leaf key val => trivial
  | branch pos left right ihl ihr =>
    have hwhole := ht
    obtain ⟨hl, hr, -⟩ := ht
    unfold BitTree.assign
    split
    · exact hwhole.shrink hl (ihr hr) (fun e he => ⟨_, he⟩) (fun e he => hr.key_of_mem_assign he)
    · exact hwhole.shrink (ihl hl) hr (fun e he => hl.key_of_mem_assign he) (fun e he => ⟨_, he⟩)

end BitTree
end Ashttpd
