import Mathlib.Data.List.Basic
import Mathlib.Data.List.Perm.Basic
import Mathlib.Data.Nat.Notation

/-!
# Red-black trees taken apart

A tree is written from either side, so that what is done on the left and what is done on the right is one
thing. A place in a tree is the list of the nodes above it, the nearest first, each with its other
subtree; it tells which trees may stand there. Rotations keep the order, and what a place admits decides
whether the whole is a red-black tree.
-/
namespace Ashttpd

inductive RbColor where
  | red
  | black
  deriving DecidableEq, Repr

/-- What a node of this colour adds to the number of black ones. -/
def RbColor.weight : RbColor → ℕ
  | .red => 0
  | .black => 1

theorem RbColor.eq_red {c : RbColor} (h : c ≠ .black) : c = .red := by
  cases c with
  | red => rfl
  | black => exact absurd rfl h

inductive ColorTree (α : Type*) where
  | nil
  | node (c : RbColor) (l : ColorTree α) (a : α) (r : ColorTree α)
  deriving DecidableEq, Repr

namespace ColorTree

variable {α : Type*}

def color : ColorTree α → RbColor
  | nil => .black
  | node c _ _ _ => c

def root : ColorTree α → Option α
  | nil => none
  | node _ _ a _ => some a

def toList : ColorTree α → List α
  | nil => []
  | node _ l a r => l.toList ++ a :: r.toList

/-- The subtree on a side, which is the right one for `true`. -/
def child (side : Bool) : ColorTree α → ColorTree α
  | nil => nil
  | node _ l _ r => if side then r else l

/-- The tree that has `t` on `side` and `u` on the other one. -/
def join (side : Bool) (c : RbColor) (t : ColorTree α) (a : α) (u : ColorTree α) : ColorTree α :=
  if side then node c u a t else node c t a u

def blacken : ColorTree α → ColorTree α
  | nil => nil
  | node _ l a r => node .black l a r

/-- The numbers of black nodes on the ways down. -/
def blackCounts : ColorTree α → List ℕ
  | nil => [0]
  | node c l _ r => (l.blackCounts ++ r.blackCounts).map (· + c.weight)

/-- No red node has a red child. -/
def NoRedRed : ColorTree α → Prop
  | nil => True
  | node c l _ r => (c = .red → l.color = .black ∧ r.color = .black) ∧ l.NoRedRed ∧ r.NoRedRed

/-- The invariants of red-black trees. -/
structure RedBlack (t : ColorTree α) : Prop where
  root : t.color = .black
  noRedRed : t.NoRedRed
  level : ∀ i ∈ t.blackCounts, ∀ j ∈ t.blackCounts, i = j

instance decidableNoRedRed : (t : ColorTree α) → Decidable t.NoRedRed
  | nil => inferInstanceAs (Decidable True)
  | node c l _ r =>
    have := decidableNoRedRed l
    have := decidableNoRedRed r
    inferInstanceAs (Decidable ((c = .red → l.color = .black ∧ r.color = .black) ∧ l.NoRedRed ∧ r.NoRedRed))

instance (t : ColorTree α) : Decidable t.RedBlack :=
  decidable_of_iff (t.color = .black ∧ t.NoRedRed ∧ ∀ i ∈ t.blackCounts, ∀ j ∈ t.blackCounts, i = j)
    ⟨fun h => ⟨h.1, h.2.1, h.2.2⟩, fun h => ⟨h.root, h.noRedRed, h.level⟩⟩

variable {side : Bool} {c : RbColor} {t u v : ColorTree α} {a b : α} {k : ℕ}

@[simp] theorem color_join : (join side c t a u).color = c := by
  cases side <;> rfl

@[simp] theorem root_join : (join side c t a u).root = some a := by
  cases side <;> rfl

@[simp] theorem child_join : (join side c t a u).child side = t := by
  cases side <;> rfl

@[simp] theorem child_join_other : (join side c t a u).child (!side) = u := by
  cases side <;> rfl

@[simp] theorem blacken_join : (join side c t a u).blacken = join side .black t a u := by
  cases side <;> rfl

@[simp] theorem toList_blacken : t.blacken.toList = t.toList := by
  cases t <;> rfl

theorem color_blacken : t.blacken.color = .black := by
  cases t <;> rfl

theorem blacken_of_black (ht : t.color = .black) : t.blacken = t := by
  cases t with
  | nil => rfl
  | node c l a r =>
    cases (show c = .black from ht)
    rfl

theorem join_not : join (!side) c t a u = join side c u a t := by
  cases side <;> rfl

theorem toList_join : (join side c t a u).toList = if side then u.toList ++ a :: t.toList else t.toList ++ a :: u.toList := by
  cases side <;> rfl

theorem exists_join (side : Bool) (ht : t.root = some a) : ∃ c x y, t = join side c x a y := by
  cases t with
  | nil => cases ht
  | node c l b r =>
    cases ht
    cases side with
    | false => exact ⟨c, l, r, rfl⟩
    | true => exact ⟨c, r, l, rfl⟩

theorem exists_join_of_red (side : Bool) (ht : t.color = .red) : ∃ x a y, t = join side .red x a y := by
  cases t with
  | nil => cases ht
  | node c l b r =>
    obtain ⟨c', x, y, h⟩ := exists_join (t := node c l b r) side rfl
    rw [h, color_join] at ht
    exact ⟨x, b, y, ht ▸ h⟩

/-- A rotation towards `side` keeps the order. -/
theorem toList_rotate {c' d d' : RbColor} :
    (join side d (join side d' t a u) b v).toList = (join side c t a (join side c' u b v)).toList := by
  cases side with
  | false => simp [join, toList]
  | true => simp [join, toList]

/-- A tree without red nodes in a row whose ways down have `k` black nodes each. -/
def Balanced : ColorTree α → ℕ → Prop
  | nil, k => k = 0
  | node c l _ r, k =>
    ∃ j, k = j + c.weight ∧ l.Balanced j ∧ r.Balanced j ∧ (c = .red → l.color = .black ∧ r.color = .black)

theorem balanced_join : (join side c t a u).Balanced k ↔
    ∃ j, k = j + c.weight ∧ t.Balanced j ∧ u.Balanced j ∧ (c = .red → t.color = .black ∧ u.color = .black) := by
  cases side with
  | false => exact Iff.rfl
  | true =>
    constructor
    · rintro ⟨j, hk, hu, ht, hc⟩
      exact ⟨j, hk, ht, hu, fun h => (hc h).symm⟩
    · rintro ⟨j, hk, ht, hu, hc⟩
      exact ⟨j, hk, hu, ht, fun h => (hc h).symm⟩

@[simp] theorem balanced_join_red : (join side .red t a u).Balanced k ↔
    t.Balanced k ∧ u.Balanced k ∧ t.color = .black ∧ u.color = .black := by
  rw [balanced_join]
  constructor
  · rintro ⟨j, rfl, ht, hu, hc⟩
    exact ⟨ht, hu, hc rfl⟩
  · rintro ⟨ht, hu, hc⟩
    exact ⟨k, rfl, ht, hu, fun _ => hc⟩

@[simp] theorem balanced_join_black : (join side .black t a u).Balanced (k + 1) ↔ t.Balanced k ∧ u.Balanced k := by
  rw [balanced_join]
  constructor
  · rintro ⟨j, hk, ht, hu, -⟩
    cases Nat.succ.inj hk
    exact ⟨ht, hu⟩
  · rintro ⟨ht, hu⟩
    exact ⟨k, rfl, ht, hu, nofun⟩

theorem Balanced.unique {j : ℕ} (hj : t.Balanced j) (hk : t.Balanced k) : j = k := by
  induction t generalizing j k with
  | nil => exact hj.trans hk.symm
  | node c l a r ihl _ =>
    obtain ⟨j', rfl, hl, -⟩ := hj
    obtain ⟨k', rfl, hl', -⟩ := hk
    rw [ihl hl hl']

theorem Balanced.blacken (ht : t.Balanced k) : ∃ k', t.blacken.Balanced k' := by
  cases t with
  | nil => exact ⟨k, ht⟩
  | node c l a r =>
    obtain ⟨j, -, hl, hr, -⟩ := ht
    exact ⟨j + 1, j, rfl, hl, hr, nofun⟩

theorem Balanced.blacken_red (ht : t.Balanced k) (hred : t.color = .red) : t.blacken.Balanced (k + 1) := by
  obtain ⟨x, a, y, rfl⟩ := exists_join_of_red false hred
  obtain ⟨hx, hy, -⟩ := balanced_join_red.mp ht
  rw [blacken_join]
  exact balanced_join_black.mpr ⟨hx, hy⟩

theorem Balanced.exists_root (ht : t.Balanced (k + 1)) : ∃ a, t.root = some a := by
  cases t with
  | nil => cases ht
  | node c l a r => exact ⟨a, rfl⟩

theorem blackCounts_ne_nil : t.blackCounts ≠ [] := by
  induction t with
  | nil => exact List.cons_ne_nil _ _
  | node c l a r ihl _ =>
    unfold blackCounts
    simp [ihl]

theorem balanced_iff : t.Balanced k ↔ t.NoRedRed ∧ ∀ i ∈ t.blackCounts, i = k := by
  induction t generalizing k with
  | nil =>
    constructor
    · rintro rfl
      exact ⟨trivial, fun i hi => List.mem_singleton.mp hi⟩
    · exact fun h => (h.2 0 List.mem_cons_self).symm
  | node c l a r ihl ihr =>
    constructor
    · rintro ⟨j, rfl, hl, hr, hc⟩
      refine ⟨⟨hc, (ihl.mp hl).1, (ihr.mp hr).1⟩, fun i hi => ?_⟩
      obtain ⟨i', hi', rfl⟩ := List.mem_map.mp hi
      rcases List.mem_append.mp hi' with h | h
      · rw [(ihl.mp hl).2 i' h]
      · rw [(ihr.mp hr).2 i' h]
    · rintro ⟨⟨hc, hl, hr⟩, hall⟩
      have hmem : ∀ i ∈ l.blackCounts ++ r.blackCounts, i + c.weight = k := fun i hi => hall _ (List.mem_map_of_mem hi)
      obtain ⟨j, hj⟩ := List.exists_mem_of_ne_nil _ (blackCounts_ne_nil (t := l))
      have hjk := hmem j (List.mem_append_left _ hj)
      refine ⟨j, hjk.symm, ihl.mpr ⟨hl, fun i hi => ?_⟩, ihr.mpr ⟨hr, fun i hi => ?_⟩, hc⟩
      · exact Nat.add_right_cancel ((hmem i (List.mem_append_left _ hi)).trans hjk.symm)
      · exact Nat.add_right_cancel ((hmem i (List.mem_append_right _ hi)).trans hjk.symm)

theorem redBlack_iff : t.RedBlack ↔ t.color = .black ∧ ∃ k, t.Balanced k := by
  constructor
  · rintro ⟨hroot, hred, hlevel⟩
    obtain ⟨k, hk⟩ := List.exists_mem_of_ne_nil _ (blackCounts_ne_nil (t := t))
    exact ⟨hroot, k, balanced_iff.mpr ⟨hred, fun i hi => hlevel i hi k hk⟩⟩
  · rintro ⟨hroot, k, hk⟩
    obtain ⟨hred, hall⟩ := balanced_iff.mp hk
    exact ⟨hroot, hred, fun i hi j hj => (hall i hi).trans (hall j hj).symm⟩

/-- A node above a place, which is on its `side`; `sib` is on the other one. -/
structure Frame (α : Type*) where
  side : Bool
  color : RbColor
  key : α
  sib : ColorTree α

def Frame.fill (f : Frame α) (t : ColorTree α) : ColorTree α := join f.side f.color t f.key f.sib

/-- The whole tree, if `t` stands at the place. -/
def plug : List (Frame α) → ColorTree α → ColorTree α
  | [], t => t
  | f :: fs, t => plug fs (f.fill t)

/-- The place admits a tree of this colour and height in a red-black tree. -/
def Fits : List (Frame α) → RbColor → ℕ → Prop
  | [], c, _ => c = .black
  | f :: fs, c, k =>
    f.sib.Balanced k ∧ (f.color = .red → c = .black ∧ f.sib.color = .black) ∧ Fits fs f.color (k + f.color.weight)

variable {fs fs' : List (Frame α)} {f : Frame α}

theorem plug_append : plug (fs ++ fs') t = plug fs' (plug fs t) := by
  induction fs generalizing t with
  | nil => rfl
  | cons f fs ih => exact ih

/-- The keys beside a place, before and after it. -/
theorem exists_toList_plug (fs : List (Frame α)) :
    ∃ pre post, ∀ t : ColorTree α, (plug fs t).toList = pre ++ t.toList ++ post := by
  induction fs with
  | nil => exact ⟨[], [], fun t => (List.append_nil _).symm⟩
  | cons f fs ih =>
    obtain ⟨pre, post, h⟩ := ih
    cases hside : f.side with
    | false =>
      refine ⟨pre, f.key :: f.sib.toList ++ post, fun t => ?_⟩
      rw [plug, h, Frame.fill, toList_join, hside]
      simp
    | true =>
      refine ⟨pre ++ f.sib.toList ++ [f.key], post, fun t => ?_⟩
      rw [plug, h, Frame.fill, toList_join, hside]
      simp

theorem toList_plug (h : t.toList = u.toList) : (plug fs t).toList = (plug fs u).toList := by
  obtain ⟨pre, post, hall⟩ := exists_toList_plug fs
  rw [hall, hall, h]

/-- A red-black tree is one at each of its places. -/
theorem redBlack_plug : (plug fs t).RedBlack ↔ ∃ k, t.Balanced k ∧ Fits fs t.color k := by
  induction fs generalizing t with
  | nil =>
    rw [plug, redBlack_iff]
    constructor
    · rintro ⟨hroot, k, hk⟩
      exact ⟨k, hk, hroot⟩
    · rintro ⟨k, hk, hroot⟩
      exact ⟨hroot, k, hk⟩
  | cons f fs ih =>
    rw [plug, ih, Frame.fill, color_join]
    constructor
    · rintro ⟨k, hbal, hfits⟩
      obtain ⟨j, rfl, ht, hsib, hc⟩ := balanced_join.mp hbal
      exact ⟨j, ht, hsib, hc, hfits⟩
    · rintro ⟨j, ht, hsib, hc, hfits⟩
      exact ⟨j + f.color.weight, balanced_join.mpr ⟨j, rfl, ht, hsib, hc⟩, hfits⟩

theorem Fits.redBlack (h : Fits fs c k) (ht : t.Balanced k) (hc : t.color = c) : (plug fs t).RedBlack := by
  subst hc
  exact redBlack_plug.mpr ⟨k, ht, h⟩

theorem Fits.color_plug (h : Fits fs c k) (ht : t.color = c) : (plug fs t).color = .black := by
  induction fs generalizing t c k with
  | nil => exact ht.trans h
  | cons f fs ih => exact ih h.2.2 color_join

theorem Fits.toBlack (h : Fits fs c k) : Fits fs .black k := by
  cases fs with
  | nil => rfl
  | cons f fs => exact ⟨h.1, fun hred => ⟨rfl, (h.2.1 hred).2⟩, h.2.2⟩

end ColorTree

end Ashttpd
