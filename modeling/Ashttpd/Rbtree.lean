import Ashttpd.RedBlackTrees
import Ashttpd.Vectors

/-!
# Red-black trees in memory (`rbtree.c`)

Nodes are told by their addresses. `rb_child[0]` is `rbChild false`, so that `0 ^ side` is `side` and
`1 ^ side` is `!side`.
-/
namespace Ashttpd

/-- `struct rb_node`. -/
structure RbNode where
  rbParent : Option ℕ
  rbChild : Bool → Option ℕ
  rbColor : RbColor

/-- `struct rbtree`, with the nodes in memory. -/
structure Rbtree where
  rbtRoot : Option ℕ
  nodes : ℕ → RbNode

/-- The two children of a node, the first one being on `side`. -/
def children (side : Bool) (p q : Option ℕ) : Bool → Option ℕ := fun b => if b = side then p else q

namespace Rbtree

def setNode (s : Rbtree) (n : ℕ) (r : RbNode) : Rbtree := { s with nodes := Function.update s.nodes n r }

def setParent (s : Rbtree) (n : ℕ) (p : Option ℕ) : Rbtree := s.setNode n { s.nodes n with rbParent := p }

def setChild (s : Rbtree) (n : ℕ) (side : Bool) (p : Option ℕ) : Rbtree :=
  s.setNode n { s.nodes n with rbChild := Function.update (s.nodes n).rbChild side p }

def setColor (s : Rbtree) (n : ℕ) (c : RbColor) : Rbtree := s.setNode n { s.nodes n with rbColor := c }

/-- `if ( p ) p->rb_parent = q`. -/
def adopt (s : Rbtree) (p q : Option ℕ) : Rbtree :=
  match p with
  | none => s
  | some a => s.setParent a q

/-- `if ( p ) p->rb_color = c`. -/
def paint (s : Rbtree) (p : Option ℕ) (c : RbColor) : Rbtree :=
  match p with
  | none => s
  | some a => s.setColor a c

/-- Put `p` where `n` was below `parent`, or at the root; the parent is asked for the child on `side`. -/
def relink (s : Rbtree) (parent : Option ℕ) (side : Bool) (n : ℕ) (p : Option ℕ) : Rbtree :=
  match parent with
  | some a => if (s.nodes a).rbChild side = some n then s.setChild a side p else s.setChild a (!side) p
  | none => { s with rbtRoot := p }

/-- A red node, not `NULL`. -/
def isRed (s : Rbtree) : Option ℕ → Bool
  | none => false
  | some a => (s.nodes a).rbColor = .red

end Rbtree

/-- Following a pointer. -/
def derefNode : Option ℕ → Except Fault ℕ
  | none => .error .nullPointer
  | some a => .ok a

def doRotate (s : Rbtree) (n : ℕ) (side : Bool) : Except Fault Rbtree := do
  let opp ← derefNode ((s.nodes n).rbChild (!side))
  let inner := (s.nodes opp).rbChild side
  let s := (s.setChild n (!side) inner).adopt inner (some n)
  let s := s.setChild opp side (some n)
  let parent := (s.nodes n).rbParent
  let s := (s.setParent opp parent).relink parent side n (some opp)
  pure (s.setParent n (some opp))

namespace Rbtree

open ColorTree

/-- The nodes of a tree that hangs below `parent`. -/
def Holds (nodes : ℕ → RbNode) : Option ℕ → ColorTree ℕ → Prop
  | _, nil => True
  | parent, node c l a r =>
    nodes a = ⟨parent, children false l.root r.root, c⟩ ∧ Holds nodes (some a) l ∧ Holds nodes (some a) r

def above (fs : List (Frame ℕ)) : Option ℕ := fs.head?.map Frame.key

/-- The nodes above and beside a place where `p` is. -/
def HoldsPlace (nodes : ℕ → RbNode) : Option ℕ → List (Frame ℕ) → Prop
  | _, [] => True
  | p, f :: fs =>
    nodes f.key = ⟨above fs, children f.side p f.sib.root, f.color⟩ ∧ Holds nodes (some f.key) f.sib ∧
      HoldsPlace nodes (some f.key) fs

/-- The keys above and beside a place. -/
def placeKeys : List (Frame ℕ) → List ℕ
  | [] => []
  | f :: fs => f.key :: f.sib.toList ++ placeKeys fs

/-- The tree is in memory, with its root and all its links. -/
structure Represents (s : Rbtree) (t : ColorTree ℕ) : Prop where
  root : s.rbtRoot = t.root
  holds : Holds s.nodes none t
  nodup : t.toList.Nodup

variable {nodes nodes' : ℕ → RbNode} {s : Rbtree} {t u v : ColorTree ℕ} {a b n : ℕ} {p q parent : Option ℕ} {side : Bool}
  {c c' : RbColor} {f : Frame ℕ} {fs fs' : List (Frame ℕ)}

theorem holds_join : Holds nodes parent (join side c t a u) ↔
    nodes a = ⟨parent, children side t.root u.root, c⟩ ∧ Holds nodes (some a) t ∧ Holds nodes (some a) u := by
  cases side with
  | false => exact Iff.rfl
  | true =>
    have hflip : children true t.root u.root = children false u.root t.root := by
      funext b
      cases b <;> rfl
    rw [hflip]
    exact and_congr_right fun _ => and_comm

theorem holds_plug : Holds nodes none (plug fs t) ↔ Holds nodes (above fs) t ∧ HoldsPlace nodes t.root fs := by
  induction fs generalizing t with
  | nil => exact (iff_of_eq (and_true _)).symm
  | cons f fs ih =>
    rw [plug, ih, Frame.fill, holds_join, root_join]
    constructor
    · rintro ⟨⟨hf, ht, hsib⟩, hfs⟩
      exact ⟨ht, hf, hsib, hfs⟩
    · rintro ⟨ht, hf, hsib, hfs⟩
      exact ⟨⟨hf, ht, hsib⟩, hfs⟩

theorem toList_join_perm : (join side c t a u).toList.Perm (a :: (t.toList ++ u.toList)) := by
  cases side with
  | false => exact List.perm_middle
  | true => exact List.perm_middle.trans (List.perm_append_comm.cons a)

theorem toList_plug_perm : (plug fs t).toList.Perm (t.toList ++ placeKeys fs) := by
  induction fs generalizing t with
  | nil => rw [placeKeys, List.append_nil, plug]
  | cons f fs ih =>
    refine (ih.trans (toList_join_perm.append_right _)).trans ?_
    rw [placeKeys, List.cons_append, List.append_assoc]
    exact List.perm_middle.symm

theorem length_le_plug : fs.length ≤ (plug fs t).toList.length := by
  rw [toList_plug_perm.length_eq, List.length_append]
  refine Nat.le_trans ?_ (Nat.le_add_left _ _)
  induction fs with
  | nil => exact Nat.le_refl 0
  | cons f fs ih =>
    rw [placeKeys, List.cons_append, List.length_cons, List.length_cons, List.length_append]
    omega

/-- What the root pointer is when `p` is at the place. -/
def placeRoot : Option ℕ → List (Frame ℕ) → Option ℕ
  | p, [] => p
  | _, f :: fs => placeRoot (some f.key) fs

theorem root_plug : (plug fs t).root = placeRoot t.root fs := by
  induction fs generalizing t with
  | nil => rfl
  | cons f fs ih => rw [plug, ih, Frame.fill, root_join, placeRoot]

/-- The tree around a place, with `p` in it. -/
structure Place (s : Rbtree) (p : Option ℕ) (fs : List (Frame ℕ)) : Prop where
  root : s.rbtRoot = placeRoot p fs
  holds : HoldsPlace s.nodes p fs

theorem represents_plug : s.Represents (plug fs t) ↔
    Holds s.nodes (above fs) t ∧ s.Place t.root fs ∧ (t.toList ++ placeKeys fs).Nodup := by
  constructor
  · rintro ⟨hroot, hholds, hnodup⟩
    obtain ⟨ht, hfs⟩ := holds_plug.mp hholds
    exact ⟨ht, ⟨hroot.trans root_plug, hfs⟩, toList_plug_perm.nodup_iff.mp hnodup⟩
  · rintro ⟨ht, ⟨hroot, hfs⟩, hnodup⟩
    exact ⟨hroot.trans root_plug.symm, holds_plug.mpr ⟨ht, hfs⟩, toList_plug_perm.nodup_iff.mpr hnodup⟩

theorem Holds.congr (h : Holds nodes parent t) (hsame : ∀ a ∈ t.toList, nodes' a = nodes a) : Holds nodes' parent t := by
  induction t generalizing parent with
  | nil => trivial
  | node c l a r ihl ihr =>
    obtain ⟨ha, hl, hr⟩ := h
    refine ⟨(hsame a (by simp [toList])).trans ha, ihl hl fun b hb => ?_, ihr hr fun b hb => ?_⟩
    · exact hsame b (by simp [toList, hb])
    · exact hsame b (by simp [toList, hb])

theorem HoldsPlace.congr (h : HoldsPlace nodes p fs) (hsame : ∀ a ∈ placeKeys fs, nodes' a = nodes a) :
    HoldsPlace nodes' p fs := by
  induction fs generalizing p with
  | nil => trivial
  | cons f fs ih =>
    obtain ⟨hf, hsib, hfs⟩ := h
    refine ⟨(hsame _ (by simp [placeKeys])).trans hf, hsib.congr fun b hb => ?_, ih hfs fun b hb => ?_⟩
    · exact hsame b (by simp [placeKeys, hb])
    · exact hsame b (by simp [placeKeys, hb])

theorem Place.congr {s' : Rbtree} (h : s.Place p fs) (hroot : s'.rbtRoot = s.rbtRoot)
    (hsame : ∀ a ∈ placeKeys fs, s'.nodes a = s.nodes a) : s'.Place p fs :=
  ⟨hroot.trans h.root, h.holds.congr hsame⟩

@[simp] theorem setNode_rbtRoot {r : RbNode} : (s.setNode a r).rbtRoot = s.rbtRoot := rfl
@[simp] theorem setParent_rbtRoot : (s.setParent a p).rbtRoot = s.rbtRoot := rfl
@[simp] theorem setChild_rbtRoot : (s.setChild a side p).rbtRoot = s.rbtRoot := rfl
@[simp] theorem setColor_rbtRoot : (s.setColor a c).rbtRoot = s.rbtRoot := rfl

@[simp] theorem setNode_self {r : RbNode} : (s.setNode a r).nodes a = r := Function.update_self ..
@[simp] theorem setParent_self : (s.setParent a p).nodes a = { s.nodes a with rbParent := p } := Function.update_self ..
@[simp] theorem setColor_self : (s.setColor a c).nodes a = { s.nodes a with rbColor := c } := Function.update_self ..
@[simp] theorem setChild_self :
    (s.setChild a side p).nodes a = { s.nodes a with rbChild := Function.update (s.nodes a).rbChild side p } :=
  Function.update_self ..

theorem setNode_of_ne {r : RbNode} (h : b ≠ a) : (s.setNode a r).nodes b = s.nodes b := Function.update_of_ne h ..
theorem setParent_of_ne (h : b ≠ a) : (s.setParent a p).nodes b = s.nodes b := Function.update_of_ne h ..
theorem setColor_of_ne (h : b ≠ a) : (s.setColor a c).nodes b = s.nodes b := Function.update_of_ne h ..
theorem setChild_of_ne (h : b ≠ a) : (s.setChild a side p).nodes b = s.nodes b := Function.update_of_ne h ..

@[simp] theorem children_self : children side p q side = p := if_pos rfl

@[simp] theorem children_other : children side p q (!side) = q := if_neg (by cases side <;> decide)

@[simp] theorem update_children : Function.update (children side p q) side parent = children side parent q := by
  funext b
  cases side <;> cases b <;> rfl

@[simp] theorem update_children_other : Function.update (children side p q) (!side) parent = children side p parent := by
  funext b
  cases side <;> cases b <;> rfl

@[simp] theorem adopt_rbtRoot : (s.adopt p q).rbtRoot = s.rbtRoot := by
  cases p <;> rfl

theorem root_mem (h : t.root = some a) : a ∈ t.toList := by
  obtain ⟨c, x, y, rfl⟩ := exists_join false h
  simp [toList_join]

theorem adopt_of_not_mem (h : b ∉ t.toList) : (s.adopt t.root q).nodes b = s.nodes b := by
  cases hroot : t.root with
  | none => rfl
  | some a => exact setParent_of_ne fun hab => h (hab ▸ root_mem hroot)

theorem Holds.adopt (h : Holds s.nodes parent t) (hnodup : t.toList.Nodup) : Holds (s.adopt t.root q).nodes q t := by
  cases t with
  | nil => trivial
  | node c l a r =>
    obtain ⟨ha, hl, hr⟩ := h
    have hnot := List.nodup_middle.mp hnodup
    rw [List.nodup_cons, List.mem_append, not_or] at hnot
    refine ⟨?_, hl.congr fun b hb => ?_, hr.congr fun b hb => ?_⟩
    · show (s.setParent a q).nodes a = _
      rw [setParent_self, ha]
    · exact setParent_of_ne fun hab => hnot.1.1 (hab ▸ hb)
    · exact setParent_of_ne fun hab => hnot.1.2 (hab ▸ hb)

theorem relink_of_not_mem (h : b ∉ placeKeys fs) : (s.relink (above fs) side n p).nodes b = s.nodes b := by
  cases fs with
  | nil => rfl
  | cons f fs =>
    have hne : b ≠ f.key := fun hb => h (hb ▸ by simp [placeKeys])
    show (if _ then _ else _ : Rbtree).nodes b = _
    split
    · exact setChild_of_ne hne
    · exact setChild_of_ne hne

theorem Place.setChild (h : s.Place p (f :: fs)) (hnodup : (placeKeys (f :: fs)).Nodup) :
    (s.setChild f.key f.side q).Place q (f :: fs) := by
  obtain ⟨hroot, hf, hsib, hfs⟩ := h
  have hnot : f.key ∉ f.sib.toList ++ placeKeys fs := (List.nodup_cons.mp hnodup).1
  refine ⟨hroot, ?_, hsib.congr fun b hb => setChild_of_ne ?_, hfs.congr fun b hb => setChild_of_ne ?_⟩
  · rw [setChild_self, hf, update_children]
  · exact fun hb' => hnot (hb' ▸ List.mem_append_left _ hb)
  · exact fun hb' => hnot (hb' ▸ List.mem_append_right _ hb)

/-- Whichever child the parent is asked for, the new one gets where `n` was. -/
theorem Place.relink (h : s.Place (some n) fs) (hn : n ∉ placeKeys fs) (hnodup : (placeKeys fs).Nodup) :
    (s.relink (above fs) side n q).Place q fs := by
  cases fs with
  | nil => exact ⟨rfl, trivial⟩
  | cons f fs =>
    have hchild : ∀ b, (s.nodes f.key).rbChild b = children f.side (some n) f.sib.root b := fun b => by rw [h.holds.1]
    have hset : s.relink (above (f :: fs)) side n q = s.setChild f.key f.side q := by
      show (if (s.nodes f.key).rbChild side = some n then _ else _) = _
      rcases Bool.eq_or_eq_not side f.side with rfl | rfl
      · rw [if_pos ((hchild _).trans children_self)]
      · rw [if_neg, Bool.not_not]
        rw [hchild, children_other]
        exact fun hsame => hn (by simp [placeKeys, root_mem hsame])
    rw [hset]
    exact h.setChild hnodup

/-- A tree below `parent`, written to memory. -/
def layOutNodes : Option ℕ → ColorTree ℕ → ℕ → RbNode
  | _, nil, _ => ⟨none, fun _ => none, .red⟩
  | parent, node c l a r, x =>
    if x = a then ⟨parent, children false l.root r.root, c⟩
    else if x ∈ l.toList then layOutNodes (some a) l x
    else layOutNodes (some a) r x

def layOut (t : ColorTree ℕ) : Rbtree := ⟨t.root, layOutNodes none t⟩

theorem holds_layOutNodes (hnodup : t.toList.Nodup) : Holds (layOutNodes parent t) parent t := by
  induction t generalizing parent with
  | nil => trivial
  | node c l a r ihl ihr =>
    obtain ⟨hl, hr, hdis⟩ := List.nodup_append.mp hnodup
    obtain ⟨har, hr⟩ := List.nodup_cons.mp hr
    refine ⟨if_pos rfl, (ihl hl).congr fun b hb => ?_, (ihr hr).congr fun b hb => ?_⟩
    · show (if b = a then _ else _) = _
      rw [if_neg (hdis b hb a List.mem_cons_self), if_pos hb]
    · have hba : b ≠ a := fun h => har (h ▸ hb)
      have hbl : b ∉ l.toList := fun h => hdis b h b (List.mem_cons_of_mem _ hb) rfl
      show (if b = a then _ else _) = _
      rw [if_neg hba, if_neg hbl]

theorem represents_layOut (hnodup : t.toList.Nodup) : (layOut t).Represents t :=
  ⟨rfl, holds_layOutNodes hnodup, hnodup⟩

/-- The node on the other side comes up, and `n` goes down to `side`. -/
theorem Represents.rotate {opp : ℕ} (h : s.Represents (plug fs (join side c t n (join side c' u opp v)))) :
    ∃ s', doRotate s n side = .ok s' ∧ s'.Represents (plug fs (join side c' (join side c t n u) opp v)) := by
  obtain ⟨hholds, hplace, hnodup⟩ := represents_plug.mp h
  obtain ⟨hn, ht, hrest⟩ := holds_join.mp hholds
  obtain ⟨hopp, hu, hv⟩ := holds_join.mp hrest
  rw [root_join] at hn hplace
  have hkeys : (n :: opp :: (t.toList ++ (u.toList ++ (v.toList ++ placeKeys fs)))).Nodup := by
    refine (List.perm_iff_count.mpr fun a => ?_ : List.Perm _ _).nodup_iff.mp hnodup
    rw [List.count_append, toList_join_perm.count_eq, List.count_cons, List.count_append, toList_join_perm.count_eq]
    simp only [List.count_cons, List.count_append]
    omega
  have hne : opp ≠ n := by grind
  have hfs : ∀ a ∈ placeKeys fs, a ≠ n ∧ a ≠ opp ∧ a ∉ u.toList := by grind
  have hfsNodup : (placeKeys fs).Nodup := by grind
  have hun : u.toList.Nodup := by grind
  have hu' : ∀ a ∈ u.toList, a ≠ n ∧ a ≠ opp ∧ a ∉ placeKeys fs := by grind
  have htv : ∀ a ∈ t.toList ++ v.toList, a ≠ n ∧ a ≠ opp ∧ a ∉ u.toList ∧ a ∉ placeKeys fs := by grind
  let s₁ := (s.setChild n (!side) u.root).adopt u.root (some n)
  let s₂ := s₁.setChild opp side (some n)
  let s₃ := s₂.setParent opp (above fs)
  let s₄ := s₃.relink (above fs) side n (some opp)
  let s₅ := s₄.setParent n (some opp)
  have h₁ : ∀ a ∉ u.toList, a ≠ n → s₁.nodes a = s.nodes a := fun a ha han =>
    (adopt_of_not_mem ha).trans (setChild_of_ne han)
  have h₁n : s₁.nodes n = ⟨above fs, children side t.root u.root, c⟩ := by
    rw [show s₁.nodes n = _ from adopt_of_not_mem (fun hmem => (hu' n hmem).1 rfl), setChild_self, hn, update_children_other]
  have h₁u : Holds s₁.nodes (some n) u := Holds.adopt (hu.congr fun a ha => setChild_of_ne (hu' a ha).1) hun
  have h₂n : s₂.nodes n = s₁.nodes n := setChild_of_ne hne.symm
  have h₃n : s₃.nodes n = s₂.nodes n := setParent_of_ne hne.symm
  have h₃opp : s₃.nodes opp = ⟨above fs, children side (some n) v.root, c'⟩ := by
    rw [show s₃.nodes opp = _ from setParent_self, show s₂.nodes opp = _ from setChild_self,
      h₁ opp (fun hmem => (hu' opp hmem).2.1 rfl) hne, hopp, update_children]
  have h₃ : ∀ a, a ≠ opp → s₃.nodes a = s₁.nodes a := fun a ha => (setParent_of_ne ha).trans (setChild_of_ne ha)
  have h₄ : ∀ a ∉ placeKeys fs, s₄.nodes a = s₃.nodes a := fun a ha => relink_of_not_mem ha
  have h₅ : ∀ a, a ≠ n → a ≠ opp → a ∉ placeKeys fs → s₅.nodes a = s₁.nodes a := fun a han hao ha =>
    (setParent_of_ne han).trans ((h₄ a ha).trans (h₃ a hao))
  have hrun : doRotate s n side = .ok s₅ := by
    have hchild : (s.nodes n).rbChild (!side) = some opp := by
      rw [hn]
      exact children_other
    have hinner : (s.nodes opp).rbChild side = u.root := by
      rw [hopp]
      exact children_self
    have hparent : (s₂.nodes n).rbParent = above fs := by rw [h₂n, h₁n]
    unfold doRotate
    rw [hchild]
    show Except.ok _ = _
    rw [hinner]
    show Except.ok (((s₂.setParent opp (s₂.nodes n).rbParent).relink (s₂.nodes n).rbParent side n (some opp)).setParent n _) = _
    rw [hparent]
  have hplace₃ : s₃.Place (some n) fs := hplace.congr adopt_rbtRoot fun a ha =>
    (h₃ a (hfs a ha).2.1).trans (h₁ a (hfs a ha).2.2 (hfs a ha).1)
  have hplace₅ : s₅.Place (some opp) fs :=
    (hplace₃.relink (fun hmem => (hfs n hmem).1 rfl) hfsNodup).congr rfl fun a ha => setParent_of_ne (hfs a ha).1
  have hother : ∀ a ∈ t.toList ++ v.toList, s₅.nodes a = s.nodes a := fun a ha =>
    (h₅ a (htv a ha).1 (htv a ha).2.1 (htv a ha).2.2.2).trans (h₁ a (htv a ha).2.2.1 (htv a ha).1)
  refine ⟨s₅, hrun, represents_plug.mpr ⟨holds_join.mpr ⟨?_, holds_join.mpr ⟨?_, ?_, ?_⟩, ?_⟩, ?_, ?_⟩⟩
  · rw [root_join, show s₅.nodes opp = _ from setParent_of_ne hne, h₄ opp (fun hmem => (hfs opp hmem).2.1 rfl), h₃opp]
  · rw [show s₅.nodes n = _ from setParent_self, h₄ n (fun hmem => (hfs n hmem).1 rfl), h₃n, h₂n, h₁n]
  · exact ht.congr fun a ha => hother a (List.mem_append_left _ ha)
  · exact h₁u.congr fun a ha => h₅ a (hu' a ha).1 (hu' a ha).2.1 (hu' a ha).2.2
  · exact hv.congr fun a ha => hother a (List.mem_append_right _ ha)
  · rw [root_join]
    exact hplace₅
  · refine (toList_plug_perm.symm.trans ?_).nodup_iff.mpr h.nodup
    rw [toList_plug toList_rotate]

theorem Represents.up (h : s.Represents (plug (f :: fs) t)) : s.Represents (plug fs (join f.side f.color t f.key f.sib)) := h

theorem Represents.down (h : s.Represents (plug fs (join side c t n u))) : s.Represents (plug (⟨side, c, n, u⟩ :: fs) t) := h

theorem Holds.node (h : Holds nodes parent t) (ht : t.root = some n) :
    nodes n = ⟨parent, fun b => (t.child b).root, t.color⟩ := by
  cases t with
  | nil => cases ht
  | node c l a r =>
    cases ht
    rw [h.1]
    congr 1
    funext b
    cases b <;> rfl

theorem Holds.isRed (h : Holds s.nodes parent t) : s.isRed t.root = decide (t.color = .red) := by
  cases t with
  | nil => rfl
  | node c l a r =>
    show decide ((s.nodes a).rbColor = .red) = _
    rw [h.1]
    rfl

theorem Represents.node (h : s.Represents (plug fs t)) (ht : t.root = some n) :
    s.nodes n = ⟨above fs, fun b => (t.child b).root, t.color⟩ := (represents_plug.mp h).1.node ht

theorem Represents.frame (h : s.Represents (plug (f :: fs) t)) :
    s.nodes f.key = ⟨above fs, children f.side t.root f.sib.root, f.color⟩ := (represents_plug.mp h).2.1.holds.1

theorem Represents.frame_child (h : s.Represents (plug (f :: fs) t)) : (s.nodes f.key).rbChild f.side = t.root := by
  rw [h.frame]
  exact children_self

theorem Represents.frame_sib (h : s.Represents (plug (f :: fs) t)) : (s.nodes f.key).rbChild (!f.side) = f.sib.root := by
  rw [h.frame]
  exact children_other

theorem Represents.sib_isRed (h : s.Represents (plug (f :: fs) t)) : s.isRed f.sib.root = decide (f.sib.color = .red) :=
  (represents_plug.mp h).2.1.holds.2.1.isRed

theorem Represents.root_ne (h : s.Represents (plug (f :: fs) t)) (ht : t.root = some n) : f.sib.root ≠ t.root := by
  intro hsib
  rw [ht] at hsib
  have hnodup := (represents_plug.mp h).2.2
  exact (List.nodup_append.mp hnodup).2.2 n (root_mem ht) n (by simp [placeKeys, root_mem hsib]) rfl

theorem Represents.frame_asked (h : s.Represents (plug (f :: fs) t)) (hne : f.sib.root ≠ t.root) :
    (s.nodes f.key).rbChild side = t.root ↔ f.side = side := by
  rcases Bool.eq_or_eq_not side f.side with rfl | rfl
  · exact iff_of_true h.frame_child rfl
  · rw [h.frame_sib]
    exact iff_of_false hne (by cases f.side <;> decide)

theorem Represents.frame_side (h : s.Represents (plug (f :: fs) t)) (hne : f.sib.root ≠ t.root) :
    decide ((s.nodes f.key).rbChild true = t.root) = f.side := by
  rw [Bool.eq_iff_iff, decide_eq_true_iff]
  exact h.frame_asked hne

/-- Another colour for a node. -/
theorem Represents.recolor (h : s.Represents (plug fs (join side c t n u))) (c' : RbColor) :
    (s.setColor n c').Represents (plug fs (join side c' t n u)) := by
  obtain ⟨hholds, hplace, hnodup⟩ := represents_plug.mp h
  obtain ⟨hn, ht, hu⟩ := holds_join.mp hholds
  have hkeys := (toList_join_perm.append_right _).nodup_iff.mp hnodup
  rw [List.cons_append, List.nodup_cons, List.mem_append, List.mem_append, not_or, not_or] at hkeys
  obtain ⟨⟨⟨hnt, hnu⟩, hnfs⟩, -⟩ := hkeys
  have hsame : ∀ a, a ≠ n → (s.setColor n c').nodes a = s.nodes a := fun a ha => setColor_of_ne ha
  refine represents_plug.mpr ⟨holds_join.mpr ⟨?_, ?_, ?_⟩, ?_, ?_⟩
  · rw [setColor_self, hn]
  · exact ht.congr fun a ha => hsame a fun han => hnt (han ▸ ha)
  · exact hu.congr fun a ha => hsame a fun han => hnu (han ▸ ha)
  · rw [root_join] at hplace ⊢
    exact hplace.congr rfl fun a ha => hsame a fun han => hnfs (han ▸ ha)
  · exact ((toList_join_perm.trans toList_join_perm.symm).append_right _).nodup_iff.mpr hnodup

end Rbtree

end Ashttpd
