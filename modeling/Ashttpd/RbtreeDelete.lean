import Ashttpd.RbtreeRebalance

/-!
# Deleting a node (`rbtree_delete_node`)

A node with one child at most is taken out. For another one its successor is taken out and put in its
place. What is left may lack a black node where a node was taken out.
-/
namespace Ashttpd

/-- Down the left children. -/
def leftmost : ℕ → Rbtree → ℕ → Except Fault ℕ
  | 0, _, _ => .error .nontermination
  | fuel + 1, s, n =>
    match (s.nodes n).rbChild false with
    | none => .ok n
    | some lm => leftmost fuel s lm

/-- Put `child` where `n` is below `parent`. -/
def takeOut (s : Rbtree) (n : ℕ) (child parent : Option ℕ) : Rbtree :=
  (s.adopt child parent).relink parent false n child

/-- Put `n` where `old` is, with its links and its colour. -/
def putIn (s : Rbtree) (old n : ℕ) : Except Fault Rbtree := do
  let s := s.setNode n (s.nodes old)
  let s := s.relink (s.nodes old).rbParent false old (some n)
  let left ← derefNode ((s.nodes old).rbChild false)
  let s := s.setParent left (some n)
  pure (s.adopt ((s.nodes old).rbChild true) (some n))

def rbtreeDeleteNode (fuel : ℕ) (s : Rbtree) (n : ℕ) : Except Fault Rbtree :=
  match (s.nodes n).rbChild false, (s.nodes n).rbChild true with
  | some _, some right => do
    let old := n
    let n ← leftmost fuel s right
    let child := (s.nodes n).rbChild true
    let parent := (s.nodes n).rbParent
    let color := (s.nodes n).rbColor
    let s := takeOut s n child parent
    let parent := if (s.nodes n).rbParent = some old then some n else parent
    let s ← putIn s old n
    if color = .black then deleteRebalance fuel s child parent else pure s
  | left, right =>
    let child := if left = none then right else left
    let parent := (s.nodes n).rbParent
    let color := (s.nodes n).rbColor
    let s := takeOut s n child parent
    if color = .black then deleteRebalance fuel s child parent else .ok s

namespace ColorTree

variable {α : Type*}

/-- The first node of a tree with the root `a`: the nodes above it, its colour, itself and its right child. -/
def first : RbColor → ColorTree α → α → ColorTree α → List (Frame α) → List (Frame α) × RbColor × α × ColorTree α
  | c, nil, a, r, fs => (fs, c, a, r)
  | c, node c' l' a' r', a, r, fs => first c' l' a' r' (⟨false, c, a, r⟩ :: fs)

/-- Taking out a node of colour `c` with the only child `t` leaves a gap that is closed the wrong way. -/
def LeavesGap (fs : List (Frame α)) (c : RbColor) (t : ColorTree α) : Prop :=
  c = .black ∧ t.color = .black ∧ Misrotates fs

/-- What is true of a node, of its subtrees and of what is around it if it is deleted the wrong way. -/
def Misdeletes (fs : List (Frame α)) (c : RbColor) (a : α) : ColorTree α → ColorTree α → Prop
  | nil, r => LeavesGap fs c r
  | l, nil => LeavesGap fs c l
  | l, node c' l' a' r' =>
    let m := first c' l' a' r' (⟨true, c, a, l⟩ :: fs)
    LeavesGap m.1 m.2.1 m.2.2.2

variable {c : RbColor} {l r t : ColorTree α} {a b : α} {f : Frame α} {fs gs : List (Frame α)} {k : ℕ}

/-- The way down to the first node does not depend on what is around the tree. -/
theorem exists_first (c : RbColor) (l : ColorTree α) (a : α) (r : ColorTree α) :
    ∃ gs c' m t, (∀ fs, first c l a r fs = (gs ++ fs, c', m, t)) ∧ plug gs (node c' nil m t) = node c l a r ∧
      (node c l a r).toList = m :: (plug gs t).toList := by
  induction l generalizing c a r with
  | nil => exact ⟨[], c, a, r, fun _ => rfl, rfl, rfl⟩
  | node c₁ l₁ a₁ r₁ ih _ =>
    obtain ⟨gs, c', m, t, hfirst, hplug, hlist⟩ := ih c₁ a₁ r₁
    refine ⟨gs ++ [⟨false, c, a, r⟩], c', m, t, fun fs => ?_, ?_, ?_⟩
    · rw [first, hfirst, List.append_assoc]
      rfl
    · rw [plug_append, hplug]
      rfl
    · rw [toList, hlist, plug_append]
      rfl

theorem misrotates_key : Misrotates (gs ++ ⟨true, c, a, l⟩ :: fs) ↔ Misrotates (gs ++ ⟨true, c, b, l⟩ :: fs) := by
  induction gs with
  | nil => exact Iff.rfl
  | cons g gs ih =>
    rw [List.cons_append, List.cons_append, Misrotates, Misrotates, ih]

theorem fits_key {c' : RbColor} : Fits (gs ++ ⟨true, c, a, l⟩ :: fs) c' k ↔ Fits (gs ++ ⟨true, c, b, l⟩ :: fs) c' k := by
  induction gs generalizing c' k with
  | nil => exact Iff.rfl
  | cons g gs ih => exact and_congr_right fun _ => and_congr_right fun _ => ih

theorem misdeletes_two {c₂ c' : RbColor} {l₂ r₂ : ColorTree α} {a₂ m : α} (hl : l ≠ nil)
    (hfirst : ∀ fs, first c₂ l₂ a₂ r₂ fs = (gs ++ fs, c', m, t)) :
    Misdeletes fs c a l (node c₂ l₂ a₂ r₂) ↔ LeavesGap (gs ++ ⟨true, c, m, l⟩ :: fs) c' t := by
  have hsame : Misdeletes fs c a l (node c₂ l₂ a₂ r₂) = LeavesGap (gs ++ ⟨true, c, a, l⟩ :: fs) c' t := by
    cases l with
    | nil => exact absurd rfl hl
    | node c₁ l₁ b r₁ =>
      show LeavesGap (first c₂ l₂ a₂ r₂ _).1 _ _ = _
      rw [hfirst]
  rw [hsame]
  exact and_congr_right fun _ => and_congr_right fun _ => misrotates_key

theorem erase_plug [DecidableEq α] {u : ColorTree α} (hnodup : (plug fs (node c l a r)).toList.Nodup)
    (hu : u.toList = l.toList ++ r.toList) : (plug fs u).toList = (plug fs (node c l a r)).toList.erase a := by
  obtain ⟨pre, post, hall⟩ := exists_toList_plug fs
  rw [hall] at hnodup ⊢
  rw [hall, hu, toList]
  have hnot : a ∉ pre ++ l.toList := by
    intro hmem
    have hmid : (pre ++ l.toList ++ a :: (r.toList ++ post)).Nodup := by simpa [toList] using hnodup
    exact (List.nodup_append.mp hmid).2.2 a hmem a List.mem_cons_self rfl
  have hsplit : pre ++ (l.toList ++ a :: r.toList) ++ post = (pre ++ l.toList) ++ a :: (r.toList ++ post) := by simp
  rw [hsplit, List.erase_append_right _ hnot, List.erase_cons_head]
  simp

end ColorTree

namespace Rbtree

open ColorTree

variable {s : Rbtree} {t l r : ColorTree ℕ} {n m : ℕ} {f : Frame ℕ} {fs gs : List (Frame ℕ)} {k fuel : ℕ} {side : Bool}
  {c : RbColor}

/-- Taking out a node with one child at most. -/
theorem Represents.takeOut (h : s.Represents (plug fs (join side c nil m t))) :
    (takeOut s m t.root (above fs)).Represents (plug fs t) ∧ (takeOut s m t.root (above fs)).nodes m = s.nodes m := by
  obtain ⟨hholds, hplace, hnodup⟩ := represents_plug.mp h
  obtain ⟨hm, -, ht⟩ := holds_join.mp hholds
  rw [root_join] at hplace
  have hkeys : (m :: (t.toList ++ placeKeys fs)).Nodup := (toList_join_perm.append_right _).nodup_iff.mp hnodup
  obtain ⟨hnot, hkeys⟩ := List.nodup_cons.mp hkeys
  rw [List.mem_append, not_or] at hnot
  obtain ⟨htn, hfsn, hdis⟩ := List.nodup_append.mp hkeys
  have hfs : (s.adopt t.root (above fs)).Place (some m) fs :=
    hplace.congr adopt_rbtRoot fun a ha => adopt_of_not_mem fun hat => hdis a hat a ha rfl
  have ht' : Holds (s.adopt t.root (above fs)).nodes (above fs) t := ht.adopt htn
  refine ⟨represents_plug.mpr ⟨?_, hfs.relink hnot.2 hfsn, hkeys⟩, ?_⟩
  · exact ht'.congr fun a ha => relink_of_not_mem fun hafs => hdis a ha a hafs rfl
  · exact (relink_of_not_mem hnot.2).trans (adopt_of_not_mem hnot.1)

/-- Putting a new node in the place of an old one. -/
theorem Represents.putIn {old : ℕ} (h : s.Represents (plug fs (join false c l old r)))
    (hm : m ∉ (plug fs (join false c l old r)).toList) (hl : l.root = some n) :
    ∃ s', putIn s old m = .ok s' ∧ s'.Represents (plug fs (join false c l m r)) := by
  obtain ⟨hholds, hplace, hnodup⟩ := represents_plug.mp h
  obtain ⟨hold, hlh, hrh⟩ := holds_join.mp hholds
  rw [root_join] at hplace
  have hkeys : (old :: (l.toList ++ r.toList) ++ placeKeys fs).Nodup := (toList_join_perm.append_right _).nodup_iff.mp hnodup
  have hmk : m ∉ old :: (l.toList ++ r.toList) ++ placeKeys fs := fun hmem =>
    hm (toList_plug_perm.mem_iff.mpr ((toList_join_perm.append_right _).mem_iff.mpr hmem))
  have hmold : m ≠ old := by grind
  have holdfs : old ∉ placeKeys fs := by grind
  have hml : ∀ a ∈ l.toList, a ≠ m ∧ a ∉ r.toList ∧ a ∉ placeKeys fs := by grind
  have hmr : ∀ a ∈ r.toList, a ≠ m ∧ a ∉ l.toList ∧ a ∉ placeKeys fs := by grind
  have hmfs : ∀ a ∈ placeKeys fs, a ≠ m ∧ a ∉ l.toList ∧ a ∉ r.toList := by grind
  have hnew : (m :: (l.toList ++ r.toList) ++ placeKeys fs).Nodup := by grind
  let s₀ := s.setNode m (s.nodes old)
  let s₁ := s₀.relink (above fs) false old (some m)
  let s₂ := s₁.adopt l.root (some m)
  let s₃ := s₂.adopt r.root (some m)
  have h₀ : s₀.nodes old = s.nodes old := setNode_of_ne hmold.symm
  have h₁ : ∀ a ∉ placeKeys fs, s₁.nodes a = s₀.nodes a := fun a ha => relink_of_not_mem ha
  have h₂ : ∀ a ∉ l.toList, s₂.nodes a = s₁.nodes a := fun a ha => adopt_of_not_mem ha
  have h₃ : ∀ a ∉ r.toList, s₃.nodes a = s₂.nodes a := fun a ha => adopt_of_not_mem ha
  have hrun : Ashttpd.putIn s old m = .ok s₃ := by
    have hparent : (s₀.nodes old).rbParent = above fs := by rw [h₀, hold]
    have hleft : (s₁.nodes old).rbChild false = some n := by
      rw [h₁ old holdfs, h₀, hold]
      exact hl
    have hright : (s₂.nodes old).rbChild true = r.root := by
      rw [h₂ old (by grind), h₁ old holdfs, h₀, hold]
      rfl
    unfold Ashttpd.putIn
    show (derefNode (((s₀.relink (s₀.nodes old).rbParent false old (some m)).nodes old).rbChild false) >>= _) = _
    rw [hparent, hleft]
    show Except.ok ((s₁.setParent n (some m)).adopt (((s₁.setParent n (some m)).nodes old).rbChild true) (some m)) = _
    have hset : s₁.setParent n (some m) = s₂ := by
      show _ = s₁.adopt l.root (some m)
      rw [hl]
      rfl
    rw [hset, hright]
  have hplace₁ : s₁.Place (some m) fs :=
    (hplace.congr rfl fun a ha => setNode_of_ne (hmfs a ha).1 : s₀.Place (some old) fs).relink holdfs (by grind)
  refine ⟨s₃, hrun, represents_plug.mpr ⟨holds_join.mpr ⟨?_, ?_, ?_⟩, ?_, ?_⟩⟩
  · rw [h₃ m (by grind), h₂ m (by grind), h₁ m (by grind), show s₀.nodes m = _ from setNode_self, hold]
  · have hl₁ : Holds s₁.nodes (some old) l := hlh.congr fun a ha =>
      (h₁ a (hml a ha).2.2).trans (setNode_of_ne (hml a ha).1)
    exact (hl₁.adopt (by grind)).congr fun a ha => h₃ a (hml a ha).2.1
  · have hr₂ : Holds s₂.nodes (some old) r := hrh.congr fun a ha =>
      (h₂ a (hmr a ha).2.1).trans ((h₁ a (hmr a ha).2.2).trans (setNode_of_ne (hmr a ha).1))
    exact hr₂.adopt (by grind)
  · rw [root_join]
    exact hplace₁.congr (adopt_rbtRoot.trans adopt_rbtRoot) fun a ha =>
      (h₃ a (hmfs a ha).2.2).trans (h₂ a (hmfs a ha).2.1)
  · exact (toList_join_perm.append_right _).nodup_iff.mpr hnew

theorem Closed.rebalanced {p n : Option ℕ} (h : Closed t (deleteLoop fuel s n p)) :
    Rebalanced t (deleteRebalance fuel s n p) := by
  obtain ⟨s', n', t', hrun, hrep, hrb, hlist⟩ := h
  refine ⟨s'.paint n' .black, t', ?_, hrep, hrb, hlist⟩
  unfold deleteRebalance
  rw [hrun]
  rfl

theorem Broken.not_rebalanced {p n : Option ℕ} (h : Broken (deleteLoop fuel s n p)) :
    ¬Rebalanced t (deleteRebalance fuel s n p) := by
  rintro ⟨s', t', hrun, hrep, hrb, -⟩
  unfold deleteRebalance at hrun
  rcases h with herr | ⟨s₁, n₁, t₁, hok, hrep₁, hnot⟩
  · rw [herr] at hrun
    cases hrun
  · rw [hok] at hrun
    cases Except.ok.inj hrun
    exact hnot (hrep₁.unique hrep ▸ hrb)

/-- After a node with one child at most has been taken out, the tree is red-black, or it is made so unless
it is turned the wrong way. -/
theorem Represents.rebalanced_iff (h : s.Represents (plug fs t)) (hfits : Fits fs c k)
    (hbal : (join side c nil m t).Balanced k) (hfuel : fs.length < fuel) :
    Rebalanced (plug fs t) (if c = .black then deleteRebalance fuel s t.root (above fs) else .ok s) ↔ ¬LeavesGap fs c t := by
  cases c with
  | red =>
    obtain ⟨hnil, ht, -, htc⟩ := balanced_join_red.mp hbal
    rw [if_neg nofun]
    exact iff_of_true ⟨s, _, rfl, h, hfits.toBlack.redBlack ht htc, rfl⟩ fun hgap => nomatch hgap.1
  | black =>
    rw [if_pos rfl]
    obtain ⟨j, rfl, hnil, ht, -⟩ := balanced_join.mp hbal
    cases htc : t.color with
    | red =>
      have hgood : ¬LeavesGap fs .black t := fun hgap => nomatch htc.symm.trans hgap.2.1
      exact iff_of_true (h.deleteLoop_closed htc (ht.blacken_red htc) hfits (Nat.zero_lt_of_lt hfuel)).rebalanced hgood
    | black =>
      have hgo := h.deleteLoop htc ht hfits hfuel
      constructor
      · exact fun hreb hgap => (hgo.2 hgap.2.2).not_rebalanced hreb
      · exact fun hgood => (hgo.1 fun hbad => hgood ⟨rfl, htc, hbad⟩).rebalanced

/-- Deleting a node with one child at most. -/
theorem Represents.delete_one (h : s.Represents (plug fs (join side c nil n t))) (hrb : (plug fs (join side c nil n t)).RedBlack)
    (hfuel : fs.length < fuel) :
    Rebalanced (plug fs t) (rbtreeDeleteNode fuel s n) ↔ ¬LeavesGap fs c t := by
  obtain ⟨k, hbal, hfits⟩ := redBlack_plug.mp hrb
  rw [color_join] at hfits
  obtain ⟨hout, -⟩ := h.takeOut
  have hnode := h.node root_join
  have hdelete : rbtreeDeleteNode fuel s n =
      if c = .black then deleteRebalance fuel (Ashttpd.takeOut s n t.root (above fs)) t.root (above fs)
      else .ok (Ashttpd.takeOut s n t.root (above fs)) := by
    unfold rbtreeDeleteNode
    rw [hnode, color_join]
    cases side with
    | false => rfl
    | true =>
      cases t with
      | nil => rfl
      | node c' l' a' r' => rfl
  rw [hdelete]
  exact hout.rebalanced_iff hfits hbal hfuel

/-- The successor of a node with two children. -/
theorem Represents.leftmost_first (h : s.Represents (plug fs (ColorTree.node c l n r))) (hfuel : l.toList.length < fuel) :
    leftmost fuel s n = .ok (first c l n r fs).2.2.1 := by
  induction fuel generalizing c l n r fs with
  | zero => cases hfuel
  | succ fuel ih =>
    have hchild : (s.nodes n).rbChild false = l.root := by
      rw [h.node rfl]
      rfl
    rw [leftmost, hchild]
    cases l with
    | nil => rfl
    | node c₁ l₁ a₁ r₁ =>
      have hdown : s.Represents (plug (⟨false, c, n, r⟩ :: fs) (ColorTree.node c₁ l₁ a₁ r₁)) := h
      refine ih hdown ?_
      rw [toList, List.length_append, List.length_cons] at hfuel
      omega

theorem key_mem {f : Frame ℕ} : f.key ∈ placeKeys (gs ++ f :: fs) := by
  induction gs with
  | nil => exact List.mem_cons_self
  | cons g gs ih =>
    rw [List.cons_append, placeKeys]
    exact List.mem_append_right _ ih

theorem above_swap (hnodup : (placeKeys (gs ++ ⟨true, c, n, l⟩ :: fs)).Nodup) :
    (if above (gs ++ ⟨true, c, n, l⟩ :: fs) = some n then some m else above (gs ++ ⟨true, c, n, l⟩ :: fs)) =
      above (gs ++ ⟨true, c, m, l⟩ :: fs) := by
  cases gs with
  | nil => exact if_pos rfl
  | cons g gs =>
    have hne : g.key ≠ n := by
      rintro rfl
      exact (List.nodup_cons.mp hnodup).1 (List.mem_append_right _ (key_mem (f := ⟨true, c, g.key, l⟩)))
    exact if_neg fun h => hne (Option.some.inj h)

/-- Deleting a node with two children: its successor takes its place. -/
theorem rbtreeDeleteNode_two {s₂ : Rbtree} {a₁ a₂ : ℕ} (hleft : (s.nodes n).rbChild false = some a₁)
    (hright : (s.nodes n).rbChild true = some a₂) (hfirst : leftmost fuel s a₂ = .ok m)
    (hkeep : (takeOut s m ((s.nodes m).rbChild true) (s.nodes m).rbParent).nodes m = s.nodes m)
    (hput : putIn (takeOut s m ((s.nodes m).rbChild true) (s.nodes m).rbParent) n m = .ok s₂) :
    rbtreeDeleteNode fuel s n = if (s.nodes m).rbColor = .black then
      deleteRebalance fuel s₂ ((s.nodes m).rbChild true) (if (s.nodes m).rbParent = some n then some m else (s.nodes m).rbParent)
    else .ok s₂ := by
  unfold rbtreeDeleteNode
  rw [hleft, hright]
  show (leftmost fuel s a₂ >>= _) = _
  rw [hfirst]
  show (putIn (takeOut s m ((s.nodes m).rbChild true) (s.nodes m).rbParent) n m >>= _) = _
  rw [hput, hkeep]
  rfl

theorem Represents.delete_two {c₂ : RbColor} {l₂ r₂ : ColorTree ℕ} {a₁ a₂ : ℕ}
    (h : s.Represents (plug fs (ColorTree.node c l n (ColorTree.node c₂ l₂ a₂ r₂)))) (hl : l.root = some a₁)
    (hrb : (plug fs (ColorTree.node c l n (ColorTree.node c₂ l₂ a₂ r₂))).RedBlack)
    (hfuel : (plug fs (ColorTree.node c l n (ColorTree.node c₂ l₂ a₂ r₂))).toList.length < fuel) :
    ∃ u, u.toList = l.toList ++ (ColorTree.node c₂ l₂ a₂ r₂).toList ∧
      (Rebalanced (plug fs u) (rbtreeDeleteNode fuel s n) ↔ ¬Misdeletes fs c n l (ColorTree.node c₂ l₂ a₂ r₂)) := by
  obtain ⟨gs, c', m, t, hfirst, hplug, hlist⟩ := ColorTree.exists_first c₂ l₂ a₂ r₂
  have hwhole : plug fs (ColorTree.node c l n (ColorTree.node c₂ l₂ a₂ r₂)) =
      plug (gs ++ ⟨true, c, n, l⟩ :: fs) (join false c' nil m t) := by
    rw [plug_append]
    show _ = plug _ (plug gs (ColorTree.node c' nil m t))
    rw [hplug]
    rfl
  have hnode := h.node rfl
  have hleft : leftmost fuel s a₂ = .ok m := by
    have hright : s.Represents (plug (⟨true, c, n, l⟩ :: fs) (ColorTree.node c₂ l₂ a₂ r₂)) := h
    rw [hright.leftmost_first, hfirst]
    refine Nat.lt_of_le_of_lt ?_ hfuel
    rw [toList_plug_perm.length_eq]
    simp [toList]
    omega
  rw [hwhole] at h hrb hfuel
  obtain ⟨k, hbal, hfits⟩ := redBlack_plug.mp hrb
  rw [color_join, fits_key (b := m)] at hfits
  have hlen := Nat.lt_of_le_of_lt length_le_plug hfuel
  have hm := h.node root_join
  obtain ⟨hout, hkeep⟩ := h.takeOut
  have hnodup : (m :: (t.toList ++ placeKeys (gs ++ ⟨true, c, n, l⟩ :: fs))).Nodup :=
    (toList_join_perm.append_right _).nodup_iff.mp (represents_plug.mp h).2.2
  rw [List.nodup_cons] at hnodup
  have hnot : m ∉ (plug (gs ++ ⟨true, c, n, l⟩ :: fs) t).toList := fun hmem => hnodup.1 (toList_plug_perm.mem_iff.mp hmem)
  have houter : ∀ a, plug (gs ++ ⟨true, c, a, l⟩ :: fs) t = plug fs (join false c l a (plug gs t)) := fun a => by
    rw [plug_append]
    rfl
  rw [houter] at hout hnot
  obtain ⟨s₂, hput, hin⟩ := hout.putIn hnot hl
  refine ⟨join false c l m (plug gs t), ?_, ?_⟩
  · rw [hlist]
    rfl
  have hdelete : rbtreeDeleteNode fuel s n =
      if c' = .black then deleteRebalance fuel s₂ t.root (above (gs ++ ⟨true, c, m, l⟩ :: fs)) else .ok s₂ := by
    have hchild : (s.nodes m).rbChild true = t.root := by
      rw [hm]
      rfl
    have hparent : (s.nodes m).rbParent = above (gs ++ ⟨true, c, n, l⟩ :: fs) := by rw [hm]
    have hcolor : (s.nodes m).rbColor = c' := by rw [hm, color_join]
    have hchildren : (s.nodes n).rbChild false = some a₁ ∧ (s.nodes n).rbChild true = some a₂ := by
      rw [hnode]
      exact ⟨hl, rfl⟩
    rw [← hchild, ← hparent] at hkeep hput
    rw [rbtreeDeleteNode_two hchildren.1 hchildren.2 hleft hkeep hput, hchild, hparent, hcolor,
      above_swap (List.nodup_append.mp hnodup.2).2.1]
  have hne : l ≠ nil := by
    rintro rfl
    cases hl
  have hgap : Misdeletes fs c n l (ColorTree.node c₂ l₂ a₂ r₂) ↔ _ := misdeletes_two hne hfirst
  rw [hdelete, hgap, ← houter]
  rw [← houter] at hin
  refine hin.rebalanced_iff hfits hbal ?_
  rw [List.length_append, List.length_cons] at hlen ⊢
  exact hlen

/-- Deleting a node leaves a red-black tree without it, exactly if no sibling is turned the wrong way. -/
theorem rbtree_delete_node_iff {c : RbColor} {l r : ColorTree ℕ} {n fuel : ℕ} {fs : List (Frame ℕ)} {s : Rbtree}
    (h : s.Represents (plug fs (node c l n r))) (hrb : (plug fs (node c l n r)).RedBlack)
    (hfuel : (plug fs (node c l n r)).toList.length < fuel) :
    (∃ s' t', rbtreeDeleteNode fuel s n = .ok s' ∧ s'.Represents t' ∧ t'.RedBlack ∧
      t'.toList = (plug fs (node c l n r)).toList.erase n) ↔ ¬Misdeletes fs c n l r := by
  have hlen : fs.length < fuel := Nat.lt_of_le_of_lt length_le_plug hfuel
  have hnodup := h.nodup
  obtain ⟨u, hu, hgo⟩ : ∃ u, u.toList = l.toList ++ r.toList ∧
      (Rebalanced (plug fs u) (rbtreeDeleteNode fuel s n) ↔ ¬Misdeletes fs c n l r) := by
    cases l with
    | nil =>
      have hone : s.Represents (plug fs (join false c nil n r)) := h
      exact ⟨r, rfl, hone.delete_one hrb hlen⟩
    | node c₁ l₁ a₁ r₁ =>
      cases r with
      | nil =>
        have hone : s.Represents (plug fs (join true c nil n (node c₁ l₁ a₁ r₁))) := h
        exact ⟨node c₁ l₁ a₁ r₁, (List.append_nil _).symm, hone.delete_one hrb hlen⟩
      | node c₂ l₂ a₂ r₂ => exact h.delete_two rfl hrb hfuel
  rw [← hgo, ← erase_plug hnodup hu]
  rfl

/-- The outer child of the sibling is red: one rotation. -/
theorem rbtree_delete_node_iff_outer : ∃ s' t',
    rbtreeDeleteNode 5 (layOut (.node .black (.node .black nil 1 nil) 2 (.node .black nil 3 (.node .red nil 4 nil)))) 1 = .ok s' ∧
      s'.Represents t' ∧ t'.RedBlack ∧ t'.toList = [2, 3, 4] :=
  (rbtree_delete_node_iff (l := nil) (r := nil) (n := 1)
    (represents_layOut (by decide) : Represents _
      (plug [⟨false, .black, 2, .node .black nil 3 (.node .red nil 4 nil)⟩] (.node .black nil 1 nil)))
    (by decide) (by decide)).mpr (by simp [Misdeletes, LeavesGap, Misrotates, WrongWay, child, color])

/-- The sibling has only an inner child, which is red. -/
theorem rbtree_delete_node_turns_sibling :
    let t : ColorTree ℕ := .node .black (.node .black nil 1 nil) 2 (.node .black (.node .red nil 3 nil) 4 nil)
    t.RedBlack ∧ (layOut t).Represents t ∧ ∀ fuel, rbtreeDeleteNode (fuel + 1) (layOut t) 1 = .error .nullPointer :=
  ⟨by decide, represents_layOut (by decide), fun _ => rfl⟩

end Rbtree

end Ashttpd
