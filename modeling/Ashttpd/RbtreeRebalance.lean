import Ashttpd.Rbtree

/-!
# Rebalancing after a deletion (`delete_rebalance`)

One black node is missing below a place. The loop moves the gap up, or closes it by rotations. Where the
sibling's only red child is the one next to the gap, it turns the sibling the wrong way, and what comes of
it is no red-black tree.
-/
namespace Ashttpd

/-- A red sibling comes up over the parent; its child is the new sibling. -/
def turnParent (s : Rbtree) (parent other : ℕ) (side : Bool) : Except Fault (Rbtree × ℕ) :=
  if (s.nodes other).rbColor = .red then do
    let s ← doRotate ((s.setColor other .black).setColor parent .red) parent side
    let other ← derefNode ((s.nodes parent).rbChild (!side))
    pure (s, other)
  else .ok (s, other)

/-- A sibling whose outer child is black is turned, towards `side`. -/
def turnSibling (s : Rbtree) (parent other : ℕ) (side : Bool) : Except Fault (Rbtree × ℕ) :=
  if s.isRed ((s.nodes other).rbChild (!side)) then .ok (s, other)
  else do
    let s ← doRotate ((s.paint ((s.nodes other).rbChild side) .black).setColor other .red) other side
    let other ← derefNode ((s.nodes parent).rbChild (!side))
    pure (s, other)

/-- The last rotation. -/
def closeGap (s : Rbtree) (parent other : ℕ) (side : Bool) : Except Fault Rbtree :=
  let s := (s.setColor other (s.nodes parent).rbColor).setColor parent .black
  doRotate (s.paint ((s.nodes other).rbChild (!side)) .black) parent side

/-- What is done about a black sibling; `again` goes on from the parent. -/
def atSibling (again : Rbtree → Option ℕ → Option ℕ → Except Fault (Rbtree × Option ℕ)) (s : Rbtree)
    (parent other : ℕ) (side : Bool) : Except Fault (Rbtree × Option ℕ) :=
  if s.isRed ((s.nodes other).rbChild side) = false ∧ s.isRed ((s.nodes other).rbChild (!side)) = false then
    let s := s.setColor other .red
    again s (some parent) (s.nodes parent).rbParent
  else do
    let (s, other) ← turnSibling s parent other side
    let s ← closeGap s parent other side
    pure (s, s.rbtRoot)

/-- The loop of `delete_rebalance`, with the `n` it leaves. -/
def deleteLoop : ℕ → Rbtree → Option ℕ → Option ℕ → Except Fault (Rbtree × Option ℕ)
  | 0, _, _, _ => .error .nontermination
  | fuel + 1, s, n, parent =>
    if s.isRed n then .ok (s, n)
    else if n = s.rbtRoot then .ok (s, n)
    else do
      let parent ← derefNode parent
      let side := decide ((s.nodes parent).rbChild true = n)
      let other ← derefNode ((s.nodes parent).rbChild (!side))
      let (s, other) ← turnParent s parent other side
      atSibling (deleteLoop fuel) s parent other side

def deleteRebalance (fuel : ℕ) (s : Rbtree) (n parent : Option ℕ) : Except Fault Rbtree := do
  let (s, n) ← deleteLoop fuel s n parent
  pure (s.paint n .black)

namespace ColorTree

variable {α : Type*}

def WrongWay (side : Bool) (sib : ColorTree α) : Prop :=
  (sib.child side).color = .red ∧ (sib.child (!side)).color = .black

/-- The place that the loop comes to from this one, with the sibling that decides, is turned the wrong way. -/
def Misrotates : List (Frame α) → Prop
  | [] => False
  | f :: fs =>
    if f.sib.color = .red then WrongWay f.side (f.sib.child f.side)
    else if (f.sib.child f.side).color = .black ∧ (f.sib.child (!f.side)).color = .black then
      f.color = .black ∧ Misrotates fs
    else WrongWay f.side f.sib

theorem wrongWay_join {side : Bool} {c : RbColor} {w v : ColorTree α} {o : α} :
    WrongWay side (join side c w o v) ↔ w.color = .red ∧ v.color = .black := by
  rw [WrongWay, child_join, child_join_other]

end ColorTree

namespace Rbtree

open ColorTree

variable {s : Rbtree} {t u v : ColorTree ℕ} {n : ℕ} {f : Frame ℕ} {fs : List (Frame ℕ)} {k fuel : ℕ} {side : Bool}
  {c : RbColor}

def Rebalanced (t : ColorTree ℕ) (x : Except Fault Rbtree) : Prop :=
  ∃ s' t', x = .ok s' ∧ s'.Represents t' ∧ t'.RedBlack ∧ t'.toList = t.toList

/-- A tree is represented by one heap only as itself. -/
theorem Holds.unique {nodes : ℕ → RbNode} {parent : Option ℕ} {t' : ColorTree ℕ} (h : Holds nodes parent t)
    (h' : Holds nodes parent t') (hroot : t.root = t'.root) : t = t' := by
  induction t generalizing parent t' with
  | nil =>
    cases t' with
    | nil => rfl
    | node c' l' a' r' => cases hroot
  | node c l a r ihl ihr =>
    cases t' with
    | nil => cases hroot
    | node c' l' a' r' =>
      cases hroot
      obtain ⟨ha, hl, hr⟩ := h
      obtain ⟨ha', hl', hr'⟩ := h'
      rw [ha, RbNode.mk.injEq] at ha'
      obtain ⟨-, hchildren, rfl⟩ := ha'
      rw [ihl hl hl' (congrFun hchildren false), ihr hr hr' (congrFun hchildren true)]

theorem Represents.unique {t' : ColorTree ℕ} (h : s.Represents t) (h' : s.Represents t') : t = t' :=
  h.holds.unique h'.holds (h.root.symm.trans h'.root)

theorem Represents.sib (h : s.Represents (plug (f :: fs) t)) :
    s.Represents (plug (⟨!f.side, f.color, f.key, t⟩ :: fs) f.sib) := by
  have hup := h.up
  rw [← join_not] at hup
  exact hup.down

theorem Represents.paint (h : s.Represents (plug fs t)) : (s.paint t.root .black).Represents (plug fs t.blacken) := by
  cases t with
  | nil => exact h
  | node c l a r => exact Represents.recolor (show s.Represents (plug fs (join false c l a r)) from h) .black

theorem doRotate_null (h : (s.nodes n).rbChild (!side) = none) : doRotate s n side = .error .nullPointer := by
  unfold doRotate
  rw [h]
  rfl

theorem Represents.isRed (h : s.Represents (plug fs t)) : s.isRed t.root = decide (t.color = .red) :=
  (represents_plug.mp h).1.isRed

theorem Represents.sib_child {w : ColorTree ℕ} {o : ℕ} (h : s.Represents (plug (f :: fs) t)) (hsib : f.sib = join f.side c w o v) :
    (s.nodes o).rbColor = c ∧ (s.nodes o).rbChild f.side = w.root ∧ (s.nodes o).rbChild (!f.side) = v.root := by
  have hsees := h.sib
  rw [hsib] at hsees
  rw [hsees.node root_join]
  refine ⟨color_join, ?_, ?_⟩
  · show (child f.side _).root = _
    rw [child_join]
  · show (child (!f.side) _).root = _
    rw [child_join_other]

theorem turnParent_black {w : ColorTree ℕ} {o : ℕ} (h : s.Represents (plug (f :: fs) t)) (hsib : f.sib = join f.side .black w o v) :
    turnParent s f.key o f.side = .ok (s, o) := by
  unfold turnParent
  rw [if_neg]
  rw [(h.sib_child hsib).1]
  exact nofun

theorem turnParent_red {w : ColorTree ℕ} {o q : ℕ} (h : s.Represents (plug (f :: fs) t)) (hsib : f.sib = join f.side .red w o v)
    (hw : w.root = some q) :
    ∃ s', turnParent s f.key o f.side = .ok (s', q) ∧
      s'.Represents (plug (⟨f.side, .red, f.key, w⟩ :: ⟨f.side, .black, o, v⟩ :: fs) t) := by
  have hsees := h.sib
  rw [hsib] at hsees
  have hcolors := ((hsees.recolor .black).up.recolor .red)
  rw [join_not] at hcolors
  obtain ⟨s', hrun, hrep⟩ := hcolors.rotate
  have hrep' : s'.Represents (plug (⟨f.side, .red, f.key, w⟩ :: ⟨f.side, .black, o, v⟩ :: fs) t) := hrep.down.down
  refine ⟨s', ?_, hrep'⟩
  unfold turnParent
  rw [if_pos (h.sib_child hsib).1, hrun]
  show (derefNode ((s'.nodes f.key).rbChild (!f.side)) >>= _) = _
  rw [hrep'.frame_sib, hw]
  rfl

/-- The sibling comes up over the parent, with the parent's colour. -/
theorem closeGap_represents {w : ColorTree ℕ} {o : ℕ} (h : s.Represents (plug (f :: fs) t)) (hsib : f.sib = join f.side c w o v) :
    ∃ s', closeGap s f.key o f.side = .ok s' ∧
      s'.Represents (plug fs (join f.side f.color (join f.side .black t f.key w) o v.blacken)) := by
  have hsees := h.sib
  rw [hsib] at hsees
  have hcolors := ((hsees.recolor f.color).up.recolor .black)
  rw [join_not] at hcolors
  have houter := (hcolors.down.sib_child rfl).2.2
  have hplace := hcolors.down.sib
  rw [← @join_not _ f.side] at hplace
  have hrot := hplace.down.paint.up.up
  dsimp only at hrot
  rw [join_not, join_not] at hrot
  obtain ⟨s', hrun, hrep⟩ := hrot.rotate
  refine ⟨s', ?_, hrep⟩
  unfold closeGap
  dsimp only
  rw [h.frame]
  dsimp only at houter ⊢
  rw [houter]
  exact hrun

theorem turnSibling_red {w : ColorTree ℕ} {o : ℕ} (h : s.Represents (plug (f :: fs) t)) (hsib : f.sib = join f.side c w o v)
    (hv : v.color = .red) : turnSibling s f.key o f.side = .ok (s, o) := by
  have hsees := h.sib
  rw [hsib, ← join_not] at hsees
  unfold turnSibling
  rw [(h.sib_child hsib).2.2, if_pos]
  rw [hsees.down.isRed]
  exact decide_eq_true hv

/-- Turning a sibling without an outer child. -/
theorem turnSibling_nil {w : ColorTree ℕ} {o : ℕ} (h : s.Represents (plug (f :: fs) t)) (hsib : f.sib = join f.side c w o nil) :
    turnSibling s f.key o f.side = .error .nullPointer := by
  have hsees := h.sib
  rw [hsib] at hsees
  obtain ⟨-, hw, hnil⟩ := h.sib_child hsib
  have hcolors := hsees.down.paint.up.recolor .red
  unfold turnSibling
  rw [hnil, hw]
  show (doRotate _ o f.side >>= _) = _
  rw [doRotate_null]
  · rfl
  · rw [hcolors.node root_join]
    show (child (!f.side) _).root = _
    rw [child_join_other]
    rfl

/-- Turning a sibling whose outer child is black. -/
theorem turnSibling_black {w x y : ColorTree ℕ} {o q : ℕ} (h : s.Represents (plug (f :: fs) t))
    (hsib : f.sib = join f.side c w o (join f.side .black x q y)) :
    ∃ s', turnSibling s f.key o f.side = .ok (s', q) ∧
      s'.Represents (plug (⟨f.side, f.color, f.key, join f.side .black (join f.side .red w.blacken o x) q y⟩ :: fs) t) := by
  have hsees := h.sib
  rw [hsib] at hsees
  obtain ⟨-, hw, hv⟩ := h.sib_child hsib
  have hcolors := hsees.down.paint.up.recolor .red
  obtain ⟨s', hrun, hrep⟩ := hcolors.rotate
  have hrep' := hrep.up
  rw [join_not] at hrep'
  refine ⟨s', ?_, hrep'.down⟩
  rw [← @join_not _ f.side] at hsees
  have hblack := hsees.down.isRed
  unfold turnSibling
  rw [hv, hblack, color_join, hw, if_neg nofun, hrun]
  show (derefNode ((s'.nodes f.key).rbChild (!f.side)) >>= _) = _
  rw [hrep'.down.frame_sib, root_join]
  rfl

/-- The loop ends, with a red-black tree in the same order once its `n` is black. -/
def Closed (t : ColorTree ℕ) (x : Except Fault (Rbtree × Option ℕ)) : Prop :=
  ∃ s' n' t', x = .ok (s', n') ∧ (s'.paint n' .black).Represents t' ∧ t'.RedBlack ∧ t'.toList = t.toList

def Broken (x : Except Fault (Rbtree × Option ℕ)) : Prop :=
  x = .error .nullPointer ∨ ∃ s' n' t', x = .ok (s', n') ∧ (s'.paint n' .black).Represents t' ∧ ¬t'.RedBlack

theorem Represents.paint_root (h : s.Represents t) (ht : t.color = .black) : (s.paint s.rbtRoot .black).Represents t := by
  have hpaint := Represents.paint (show s.Represents (plug [] t) from h)
  rw [blacken_of_black ht, ← h.root] at hpaint
  exact hpaint

section BlackSibling

variable {w : ColorTree ℕ} {o : ℕ} {again : Rbtree → Option ℕ → Option ℕ → Except Fault (Rbtree × Option ℕ)}

theorem Represents.sib_isRed_child (h : s.Represents (plug (f :: fs) t)) (hsib : f.sib = join f.side c w o v) :
    s.isRed ((s.nodes o).rbChild f.side) = decide (w.color = .red) ∧
      s.isRed ((s.nodes o).rbChild (!f.side)) = decide (v.color = .red) := by
  have hsees := h.sib
  rw [hsib] at hsees
  rw [(h.sib_child hsib).2.1, (h.sib_child hsib).2.2]
  refine ⟨hsees.down.isRed, ?_⟩
  rw [← join_not] at hsees
  exact hsees.down.isRed

/-- A sibling with black children becomes red. -/
theorem atSibling_climb (h : s.Represents (plug (f :: fs) t)) (hsib : f.sib = join f.side .black w o v)
    (hw : w.color = .black) (hv : v.color = .black) :
    atSibling again s f.key o f.side = again (s.setColor o .red) (some f.key) (above fs) ∧
      (s.setColor o .red).Represents (plug fs (join f.side f.color t f.key (join f.side .red w o v))) := by
  obtain ⟨hwr, hvr⟩ := h.sib_isRed_child hsib
  have hsees := h.sib
  rw [hsib] at hsees
  have hred := (hsees.recolor .red).up
  rw [join_not] at hred
  refine ⟨?_, hred⟩
  unfold atSibling
  rw [hwr, hvr, hw, hv, if_pos ⟨rfl, rfl⟩]
  dsimp only
  rw [hred.node root_join]

theorem atSibling_rotate (h : s.Represents (plug (f :: fs) t)) (hsib : f.sib = join f.side .black w o v)
    (hnot : ¬(w.color = .black ∧ v.color = .black)) :
    atSibling again s f.key o f.side = (turnSibling s f.key o f.side >>= fun x =>
      closeGap x.1 f.key x.2 f.side >>= fun s => pure (s, s.rbtRoot)) := by
  obtain ⟨hwr, hvr⟩ := h.sib_isRed_child hsib
  unfold atSibling
  rw [hwr, hvr, if_neg]
  intro hboth
  refine hnot ⟨?_, ?_⟩
  · exact not_not.mp fun hne => of_decide_eq_false hboth.1 (RbColor.eq_red hne)
  · exact not_not.mp fun hne => of_decide_eq_false hboth.2 (RbColor.eq_red hne)

/-- An outer red child closes the gap. -/
theorem atSibling_outer (h : s.Represents (plug (f :: fs) t)) (hsib : f.sib = join f.side .black w o v)
    (hbal : t.Balanced k) (hw : w.Balanced k) (hv : v.Balanced k) (hred : v.color = .red)
    (hfits : Fits fs f.color (k + 1 + f.color.weight)) : Closed (plug (f :: fs) t) (atSibling again s f.key o f.side) := by
  obtain ⟨s', hrun, hrep⟩ := closeGap_represents h hsib
  have hfit : (join f.side f.color (join f.side .black t f.key w) o v.blacken).Balanced (k + 1 + f.color.weight) :=
    balanced_join.mpr ⟨k + 1, rfl, balanced_join_black.mpr ⟨hbal, hw⟩, hv.blacken_red hred,
      fun _ => ⟨color_join, color_blacken⟩⟩
  have hrb := hfits.redBlack hfit color_join
  refine ⟨s', _, _, ?_, hrep.paint_root hrb.root, hrb, ?_⟩
  · rw [atSibling_rotate h hsib (fun hboth => nomatch hboth.2.symm.trans hred), turnSibling_red h hsib hred]
    show (closeGap s f.key o f.side >>= _) = _
    rw [hrun]
    rfl
  · rw [plug]
    refine toList_plug ?_
    rw [Frame.fill, hsib]
    cases f.side with
    | false => simp [join, toList]
    | true => simp [join, toList]

/-- Turning the sibling the wrong way: there is no outer child, or what comes up is too low on one side. -/
theorem atSibling_inner (h : s.Represents (plug (f :: fs) t)) (hsib : f.sib = join f.side .black w o v)
    (hw : w.Balanced k) (hv : v.Balanced k) (hred : w.color = .red) (hblack : v.color = .black)
    (hfits : Fits fs f.color (k + 1 + f.color.weight)) : Broken (atSibling again s f.key o f.side) := by
  rw [atSibling_rotate h hsib fun hboth => nomatch hboth.1.symm.trans hred]
  cases hroot : v.root with
  | none =>
    have hnil : v = nil := by
      cases v with
      | nil => rfl
      | node c l a r => cases hroot
    rw [hnil] at hsib
    rw [turnSibling_nil h hsib]
    exact Or.inl rfl
  | some q =>
    obtain ⟨c, x, y, rfl⟩ := exists_join f.side hroot
    cases color_join.symm.trans hblack
    obtain ⟨s₁, hturn, h₁⟩ := turnSibling_black h hsib
    obtain ⟨s', hrun, hrep⟩ := closeGap_represents h₁ rfl
    have hbad : ∀ i, ¬(join f.side .red w.blacken o x).Balanced i := by
      intro i hi
      obtain ⟨hwi, hxi, -⟩ := balanced_join_red.mp hi
      obtain ⟨j, rfl, hx, -⟩ := balanced_join.mp hv
      have h₂ := hwi.unique (hw.blacken_red hred)
      have h₃ := hxi.unique hx
      unfold RbColor.weight at h₂
      omega
    have hnot : ¬(plug fs (join f.side f.color (join f.side .black t f.key (join f.side .red w.blacken o x)) q y.blacken)).RedBlack := by
      intro hrb
      obtain ⟨i, hi, -⟩ := redBlack_plug.mp hrb
      obtain ⟨j, -, hj, -⟩ := balanced_join.mp hi
      obtain ⟨m, -, -, hm, -⟩ := balanced_join.mp hj
      exact hbad m hm
    refine Or.inr ⟨s', s'.rbtRoot, _, ?_, hrep.paint_root (hfits.color_plug color_join), hnot⟩
    rw [hturn]
    show (closeGap s₁ f.key q f.side >>= _) = _
    rw [hrun]
    rfl

def Settles (bad : Prop) (t : ColorTree ℕ) (x : Except Fault (Rbtree × Option ℕ)) : Prop :=
  (¬bad → Closed t x) ∧ (bad → Broken x)

theorem atSibling_settles {bad : Prop} (h : s.Represents (plug (f :: fs) t)) (hsib : f.sib = join f.side .black w o v)
    (hbal : t.Balanced k) (hw : w.Balanced k) (hv : v.Balanced k) (hfits : Fits fs f.color (k + 1 + f.color.weight))
    (hbad : ¬(w.color = .black ∧ v.color = .black) → (bad ↔ WrongWay f.side f.sib))
    (hclimb : w.color = .black → v.color = .black →
      (s.setColor o .red).Represents (plug fs (join f.side f.color t f.key (join f.side .red w o v))) →
      Settles bad (plug (f :: fs) t) (again (s.setColor o .red) (some f.key) (above fs))) :
    Settles bad (plug (f :: fs) t) (atSibling again s f.key o f.side) := by
  rw [hsib, wrongWay_join] at hbad
  cases hvc : v.color with
  | red =>
    have hgood : ¬bad := fun hb => nomatch hvc.symm.trans ((hbad fun hboth => nomatch hvc.symm.trans hboth.2).mp hb).2
    exact ⟨fun _ => atSibling_outer h hsib hbal hw hv hvc hfits, fun hb => absurd hb hgood⟩
  | black =>
    cases hwc : w.color with
    | red =>
      have hb : bad := (hbad fun hboth => nomatch hwc.symm.trans hboth.1).mpr ⟨hwc, hvc⟩
      exact ⟨fun hnot => absurd hb hnot, fun _ => atSibling_inner h hsib hw hv hwc hvc hfits⟩
    | black =>
      obtain ⟨hrun, hrep⟩ : atSibling again s f.key o f.side = _ ∧ _ := atSibling_climb h hsib hwc hvc
      rw [hrun]
      exact hclimb hwc hvc hrep

end BlackSibling

theorem placeRoot_mem (p : Option ℕ) (f : Frame ℕ) (fs : List (Frame ℕ)) : ∃ a ∈ placeKeys (f :: fs), placeRoot p (f :: fs) = some a := by
  induction fs generalizing p f with
  | nil => exact ⟨f.key, List.mem_cons_self, rfl⟩
  | cons g fs ih =>
    obtain ⟨a, ha, hroot⟩ := ih (some f.key) g
    exact ⟨a, by simp [placeKeys] at ha ⊢; tauto, hroot⟩

/-- A turn of the loop below a parent. -/
theorem Represents.deleteLoop_succ {o : ℕ} (h : s.Represents (plug (f :: fs) t)) (ht : t.color = .black)
    (ho : f.sib.root = some o) : deleteLoop (fuel + 1) s t.root (some f.key) =
      (turnParent s f.key o f.side >>= fun x => atSibling (deleteLoop fuel) x.1 f.key x.2 f.side) := by
  have hne : f.sib.root ≠ t.root := by
    cases hroot : t.root with
    | none =>
      rw [ho]
      exact nofun
    | some n => exact hroot ▸ h.root_ne hroot
  have hnot : t.root ≠ s.rbtRoot := by
    intro heq
    obtain ⟨a, ha, hroot⟩ := placeRoot_mem t.root f fs
    rw [(represents_plug.mp h).2.1.root, hroot] at heq
    exact (List.nodup_append.mp (represents_plug.mp h).2.2).2.2 a (root_mem heq) a ha rfl
  have hblack : ¬s.isRed t.root = true := by
    rw [h.isRed, ht]
    exact nofun
  rw [deleteLoop, if_neg hblack, if_neg hnot]
  show (derefNode ((s.nodes f.key).rbChild !decide ((s.nodes f.key).rbChild true = t.root)) >>= _) = _
  rw [h.frame_side hne, h.frame_sib, ho]
  rfl

theorem deleteLoop_red {p : Option ℕ} (h : s.Represents (plug fs t)) (ht : t.color = .red) :
    deleteLoop (fuel + 1) s t.root p = .ok (s, t.root) := by
  rw [deleteLoop, h.isRed, ht, if_pos (decide_eq_true rfl)]

theorem Closed.congr {x : Except Fault (Rbtree × Option ℕ)} (h : Closed t x) (hlist : t.toList = u.toList) : Closed u x := by
  obtain ⟨s', n', t', hx, hrep, hrb, ht'⟩ := h
  exact ⟨s', n', t', hx, hrep, hrb, ht'.trans hlist⟩

theorem Represents.deleteLoop_closed {p : Option ℕ} (h : s.Represents (plug fs t)) (hred : t.color = .red)
    (hbal : t.blacken.Balanced (k + 1)) (hfits : Fits fs .black (k + 1)) (hfuel : 0 < fuel) :
    Closed (plug fs t) (deleteLoop fuel s t.root p) := by
  cases fuel with
  | zero => cases hfuel
  | succ fuel =>
    refine ⟨s, t.root, plug fs t.blacken, deleteLoop_red h hred, h.paint, ?_, toList_plug toList_blacken⟩
    exact hfits.redBlack hbal color_blacken

theorem Represents.deleteLoop_parent {w x : ColorTree ℕ} {o a : ℕ} {p : Option ℕ}
    (h : s.Represents (plug fs (join side .red t a (join side .red w o x)))) (hbal : t.Balanced k) (hw : w.Balanced k)
    (hx : x.Balanced k) (hwc : w.color = .black) (hxc : x.color = .black) (hfits : Fits fs .black (k + 1)) (hfuel : 0 < fuel) :
    Closed (plug fs (join side .red t a (join side .red w o x))) (deleteLoop fuel s (some a) p) := by
  have hblack : (join side .red t a (join side .red w o x)).blacken.Balanced (k + 1) := by
    rw [blacken_join]
    exact balanced_join_black.mpr ⟨hbal, balanced_join_red.mpr ⟨hw, hx, hwc, hxc⟩⟩
  have hclosed := h.deleteLoop_closed (p := p) color_join hblack hfits hfuel
  rwa [root_join] at hclosed

/-- A red sibling below a black parent: the gap is closed, unless what comes next is turned the wrong way. -/
theorem Represents.deleteLoop_redSibling {o : ℕ} {w : ColorTree ℕ} (h : s.Represents (plug (f :: fs) t))
    (hsib : f.sib = join f.side .red w o v) (hbal : t.Balanced k) (hw : w.Balanced (k + 1))
    (hwc : w.color = .black) (hv : v.Balanced (k + 1)) (hfits : Fits fs .black (k + 2)) (hfuel : 0 < fuel) :
    Settles (Misrotates (f :: fs)) (plug (f :: fs) t)
      (turnParent s f.key o f.side >>= fun x => atSibling (deleteLoop fuel) x.1 f.key x.2 f.side) := by
  obtain ⟨q, hq⟩ := hw.exists_root
  obtain ⟨c, x, y, rfl⟩ := exists_join f.side hq
  cases color_join.symm.trans hwc
  obtain ⟨hx, hy⟩ := balanced_join_black.mp hw
  obtain ⟨s₁, hrun, h₁⟩ := turnParent_red h hsib root_join
  have hbad : Misrotates (f :: fs) ↔ WrongWay f.side (join f.side .black x q y) := by
    rw [Misrotates, hsib, color_join, if_pos rfl, child_join]
  have hlist : (plug (⟨f.side, .red, f.key, join f.side .black x q y⟩ :: ⟨f.side, .black, o, v⟩ :: fs) t).toList =
      (plug (f :: fs) t).toList := by
    rw [plug, plug, plug]
    refine toList_plug ?_
    rw [Frame.fill, Frame.fill, Frame.fill, hsib]
    exact toList_rotate
  have hfits₁ : Fits (⟨f.side, .black, o, v⟩ :: fs) .red (k + 1) := by
    refine ⟨hv, fun hred => ?_, hfits⟩
    cases hred
  have hgo : Settles (Misrotates (f :: fs))
      (plug (⟨f.side, .red, f.key, join f.side .black x q y⟩ :: ⟨f.side, .black, o, v⟩ :: fs) t)
      (atSibling (deleteLoop fuel) s₁ f.key q f.side) := by
    refine atSibling_settles h₁ rfl hbal hx hy hfits₁ (fun _ => hbad) fun hxc hyc hrep => ?_
    have hgood : ¬Misrotates (f :: fs) := by
      intro hb
      cases hxc.symm.trans (wrongWay_join.mp (hbad.mp hb)).1
    refine ⟨fun _ => ?_, fun hb => absurd hb hgood⟩
    refine (hrep.deleteLoop_parent hbal hx hy hxc hyc hfits₁.toBlack hfuel).congr (toList_plug ?_)
    rw [Frame.fill, toList_join, toList_join]
    simp only [toList_join]
  rw [hrun]
  exact ⟨fun hnot => (hgo.1 hnot).congr hlist, hgo.2⟩

/-- The loop, from a place where one black node is missing. -/
theorem Represents.deleteLoop (h : s.Represents (plug fs t)) (ht : t.color = .black) (hbal : t.Balanced k)
    (hfits : Fits fs .black (k + 1)) (hfuel : fs.length < fuel) :
    Settles (Misrotates fs) (plug fs t) (deleteLoop fuel s t.root (above fs)) := by
  induction fuel generalizing s fs t k with
  | zero => cases hfuel
  | succ fuel ih =>
    cases fs with
    | nil =>
      have hroot : Ashttpd.deleteLoop (fuel + 1) s t.root (above []) = .ok (s, t.root) := by
        have hsame : t.root = s.rbtRoot := h.root.symm
        rw [Ashttpd.deleteLoop, if_pos hsame, ite_self]
      have hrb : t.RedBlack := redBlack_iff.mpr ⟨ht, k, hbal⟩
      refine ⟨fun _ => ⟨s, t.root, t, hroot, ?_, hrb, rfl⟩, fun hbad => hbad.elim⟩
      have hpaint := Represents.paint_root h ht
      rwa [h.root] at hpaint
    | cons f fs =>
      obtain ⟨hsib, hfc, hup⟩ := hfits
      obtain ⟨o, ho⟩ := hsib.exists_root
      obtain ⟨c, w, v, hwv⟩ := exists_join f.side ho
      show Settles _ _ (Ashttpd.deleteLoop (fuel + 1) s t.root (some f.key))
      rw [h.deleteLoop_succ ht ho]
      rw [List.length_cons] at hfuel
      have hfuel' : 0 < fuel := by omega
      cases c with
      | red =>
        rw [hwv] at hsib hfc
        obtain ⟨hw, hv, hwc, -⟩ := balanced_join_red.mp hsib
        have hf : f.color = .black := by
          by_contra hf
          exact nomatch color_join.symm.trans (hfc (RbColor.eq_red hf)).2
        rw [hf] at hup
        exact h.deleteLoop_redSibling hwv hbal hw hwc hv hup hfuel'
      | black =>
        rw [hwv] at hsib
        obtain ⟨hw, hv⟩ := balanced_join_black.mp hsib
        rw [turnParent_black h hwv]
        have hred : ¬f.sib.color = .red := by
          rw [hwv, color_join]
          exact nofun
        refine atSibling_settles h hwv hbal hw hv hup (fun hnot => ?_) fun hwc hvc hrep => ?_
        · rw [Misrotates, if_neg hred, if_neg]
          rw [hwv, child_join, child_join_other]
          exact hnot
        · have hlist : (plug fs (join f.side f.color t f.key (join f.side .red w o v))).toList = (plug (f :: fs) t).toList := by
            refine toList_plug ?_
            rw [Frame.fill, hwv]
            simp only [toList_join]
          have hbad : Misrotates (f :: fs) ↔ f.color = .black ∧ Misrotates fs := by
            rw [Misrotates, if_neg hred, if_pos]
            rw [hwv, child_join, child_join_other]
            exact ⟨hwc, hvc⟩
          rw [hbad]
          cases hf : f.color with
          | red =>
            rw [hf] at hrep hup hlist
            refine ⟨fun _ => ?_, fun hb => nomatch hb.1⟩
            exact (hrep.deleteLoop_parent hbal hw hv hwc hvc hup.toBlack hfuel').congr hlist
          | black =>
            rw [hf] at hrep hup hlist
            have hgo := ih hrep color_join (balanced_join_black.mpr ⟨hbal, balanced_join_red.mpr ⟨hw, hv, hwc, hvc⟩⟩)
              hup (by omega)
            rw [root_join] at hgo
            exact ⟨fun hnot => (hgo.1 fun hb => hnot ⟨rfl, hb⟩).congr hlist, fun hb => hgo.2 hb.2⟩

end Rbtree

end Ashttpd
