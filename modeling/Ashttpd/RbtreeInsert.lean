import Ashttpd.Rbtree

/-!
# Rebalancing after an insertion (`rbtree_insert_rebalance`)

There is at most one red node with a red child, the new node's parent at first. Recolouring moves it two
levels up; a rotation or two remove it.
-/
namespace Ashttpd

/-- The loop of `rbtree_insert_rebalance`. -/
def insertLoop : ℕ → Rbtree → ℕ → Except Fault Rbtree
  | 0, _, _ => .error .nontermination
  | fuel + 1, s, n =>
    match (s.nodes n).rbParent with
    | none => .ok s
    | some parent =>
      if (s.nodes parent).rbColor = .black then .ok s
      else do
        let gparent ← derefNode (s.nodes parent).rbParent
        let side := decide ((s.nodes gparent).rbChild true = some parent)
        let uncle := (s.nodes gparent).rbChild (!side)
        if s.isRed uncle then
          let s := (s.setColor gparent .red).setColor parent .black
          insertLoop fuel (s.paint uncle .black) gparent
        else if (s.nodes parent).rbChild (!side) = some n then
          -- `n` and `parent` change places
          let s ← doRotate s parent side
          let s ← doRotate ((s.setColor n .black).setColor gparent .red) gparent (!side)
          insertLoop fuel s parent
        else
          let s ← doRotate ((s.setColor parent .black).setColor gparent .red) gparent (!side)
          insertLoop fuel s n

def rbtreeInsertRebalance (fuel : ℕ) (s : Rbtree) (n : ℕ) : Except Fault Rbtree := do
  let s ← insertLoop fuel s n
  let root ← derefNode s.rbtRoot
  pure (s.setColor root .black)

/-- What the caller has done before: a new red node is linked in, at the root or below a parent. -/
def linkNode (s : Rbtree) (place : Option (ℕ × Bool)) (n : ℕ) : Rbtree :=
  let s := s.setNode n ⟨place.map Prod.fst, fun _ => none, .red⟩
  match place with
  | none => { s with rbtRoot := some n }
  | some (parent, side) => s.setChild parent side (some n)

namespace Rbtree

open ColorTree

variable {s : Rbtree} {t u v : ColorTree ℕ} {n p : ℕ} {f g : Frame ℕ} {fs : List (Frame ℕ)} {k fuel : ℕ}

def Restored (t : ColorTree ℕ) (s' : Rbtree) : Prop :=
  ∃ t', s'.Represents t' ∧ t'.toList = t.toList ∧ t'.blacken.RedBlack

theorem Restored.congr (h : Restored t s) (hlist : t.toList = u.toList) : Restored u s := by
  obtain ⟨t', hrep, ht', hrb⟩ := h
  exact ⟨t', hrep, ht'.trans hlist, hrb⟩

theorem insertLoop_root (h : s.Represents t) (ht : t.root = some n) : insertLoop (fuel + 1) s n = .ok s := by
  have hnode : s.nodes n = ⟨above [], _, _⟩ := Represents.node h ht
  unfold insertLoop
  rw [hnode]
  rfl

theorem insertLoop_black (h : s.Represents (plug (f :: fs) t)) (ht : t.root = some n) (hf : f.color = .black) :
    insertLoop (fuel + 1) s n = .ok s := by
  have hnode := h.node ht
  have hcolor : (s.nodes f.key).rbColor = .black := by
    rw [h.up.node root_join]
    exact color_join.trans hf
  unfold insertLoop
  rw [hnode]
  exact if_pos hcolor

theorem Represents.turn (h : s.Represents (plug (g :: fs) (join g.side .red t p u))) :
    ∃ s', doRotate ((s.setColor p .black).setColor g.key .red) g.key (!g.side) = .ok s' ∧
      s'.Represents (plug (⟨g.side, .black, p, join (!g.side) .red g.sib g.key u⟩ :: fs) t) := by
  have hred := (h.recolor .black).up.recolor .red
  rw [← join_not, ← @join_not _ g.side .black] at hred
  obtain ⟨s', hrun, hrep⟩ := hred.rotate
  rw [join_not] at hrep
  exact ⟨s', hrun, hrep⟩

/-- The loop ends with the node that came up. -/
theorem insertLoop_turn {m : ℕ} (fuel : ℕ) (h : s.Represents (plug (g :: fs) (join g.side .red t p u))) (ht : t.root = some m)
    (htk : t.Balanced k) (huk : u.Balanced k) (hu : u.color = .black) (hsib : g.sib.Balanced k)
    (hblack : g.sib.color = .black) (hfits : Fits fs .black (k + 1)) :
    ∃ s₁ s', doRotate ((s.setColor p .black).setColor g.key .red) g.key (!g.side) = .ok s₁ ∧
      insertLoop (fuel + 1) s₁ m = .ok s' ∧ Restored (plug (g :: fs) (join g.side .red t p u)) s' := by
  obtain ⟨s₁, hrun, hrep⟩ := h.turn
  have hrb : (plug (⟨g.side, .black, p, join (!g.side) .red g.sib g.key u⟩ :: fs) t).RedBlack :=
    redBlack_plug.mpr ⟨k, htk, balanced_join_red.mpr ⟨hsib, huk, hblack, hu⟩, nofun, hfits⟩
  refine ⟨s₁, s₁, hrun, insertLoop_black hrep ht rfl, _, hrep, ?_, ?_⟩
  · rw [plug, plug]
    refine toList_plug ?_
    unfold Frame.fill
    cases g.side with
    | false => simp [join, toList]
    | true => simp [join, toList]
  · rw [blacken_of_black hrb.root]
    exact hrb

theorem Represents.lift {x y : ColorTree ℕ} {a : ℕ} (h : s.Represents (plug (f :: g :: fs) t))
    (hsib : g.sib = join false .red x a y) :
    ((((s.setColor g.key .red).setColor f.key .black).paint g.sib.root .black)).Represents
      (plug fs (join g.side .red (join f.side .black t f.key f.sib) g.key (join false .black x a y))) := by
  have h₁ := (h.up.up.recolor .red).down.recolor .black
  have h₂ := h₁.up
  dsimp only at h₂
  rw [hsib, ← join_not] at h₂
  rw [hsib, root_join, ← join_not]
  exact h₂.down.recolor .black

/-- A turn of the loop below a red parent. -/
theorem Represents.insertLoop_succ (h : s.Represents (plug (f :: g :: fs) t)) (ht : t.root = some n) (hf : f.color = .red) :
    insertLoop (fuel + 1) s n =
      (if g.sib.color = .red then
        insertLoop fuel (((s.setColor g.key .red).setColor f.key .black).paint g.sib.root .black) g.key
      else if f.side = (!g.side) then do
        let s ← doRotate s f.key g.side
        let s ← doRotate ((s.setColor n .black).setColor g.key .red) g.key (!g.side)
        insertLoop fuel s f.key
      else do
        let s ← doRotate ((s.setColor f.key .black).setColor g.key .red) g.key (!g.side)
        insertLoop fuel s n) := by
  have hn : (s.nodes n).rbParent = some f.key := by
    rw [h.node ht]
    rfl
  have hparent : (s.nodes f.key).rbParent = some g.key := by
    rw [h.frame]
    rfl
  have hcolor : ¬(s.nodes f.key).rbColor = .black := by
    rw [h.frame, hf]
    exact nofun
  rw [insertLoop, hn]
  dsimp only
  rw [if_neg hcolor, hparent]
  show (if s.isRed ((s.nodes g.key).rbChild !decide ((s.nodes g.key).rbChild true = some f.key)) then _ else _) = _
  have hside : decide ((s.nodes g.key).rbChild true = some f.key) = g.side := by
    rw [← h.up.frame_side (h.up.root_ne root_join), root_join]
  have hasked : (s.nodes f.key).rbChild (!g.side) = some n ↔ f.side = (!g.side) := by
    rw [← ht]
    exact h.frame_asked (h.root_ne ht)
  simp only [hside, hasked, h.up.frame_sib, h.up.sib_isRed, decide_eq_true_eq]

/-- The loop below a red parent and a black grandparent whose other child is black: the rotations. -/
theorem Represents.insertLoop_rotate (h : s.Represents (plug (f :: g :: fs) t)) (ht : t.root = some n)
    (hred : t.color = .red) (hbal : t.Balanced k) (hf : f.color = .red) (hsib : f.sib.Balanced k)
    (hsibBlack : f.sib.color = .black) (huncle : g.sib.color = .black) (hgsib : g.sib.Balanced k)
    (hfits : Fits fs .black (k + 1)) :
    ∃ s', insertLoop (fuel + 2) s n = .ok s' ∧ Restored (plug (f :: g :: fs) t) s' := by
  rw [h.insertLoop_succ ht hf, if_neg (by rw [huncle]; nofun)]
  have hup := h.up
  rw [hf] at hup
  have hup₁ : (plug (g :: fs) (join f.side .red t f.key f.sib)).toList = (plug (f :: g :: fs) t).toList := by
    rw [← hf]
    rfl
  by_cases hside : f.side = (!g.side)
  · -- `n` comes up over its parent first
    rw [if_pos hside]
    obtain ⟨x, a, y, rfl⟩ := exists_join_of_red g.side hred
    cases root_join.symm.trans ht
    obtain ⟨hx, hy, hxc, hyc⟩ := balanced_join_red.mp hbal
    rw [hside, join_not] at hup
    obtain ⟨s₁, hrun₁, h₁⟩ := hup.rotate
    obtain ⟨s₂, s', hrun₂, hrun', hres⟩ := insertLoop_turn fuel h₁ root_join
      (balanced_join_red.mpr ⟨hsib, hx, hsibBlack, hxc⟩) hy hyc hgsib huncle hfits
    refine ⟨s', ?_, hres.congr ?_⟩
    · rw [hrun₁]
      show (doRotate _ g.key (!g.side) >>= fun s => insertLoop (fuel + 1) s f.key) = _
      rw [hrun₂]
      exact hrun'
    · rw [← hup₁, hside, join_not]
      exact toList_plug toList_rotate
  · have hside' : f.side = g.side := by
      rw [Bool.eq_not] at hside
      exact not_not.mp hside
    rw [if_neg hside]
    rw [hside'] at hup
    obtain ⟨s₂, s', hrun₂, hrun', hres⟩ := insertLoop_turn fuel hup ht hbal hsib hsibBlack hgsib huncle hfits
    refine ⟨s', ?_, hres.congr ?_⟩
    · rw [hrun₂]
      exact hrun'
    · rw [← hup₁, hside']

/-- The loop, from a red node on whose parent may be red as well. -/
theorem Represents.insertLoop (h : s.Represents (plug fs t)) (ht : t.root = some n) (hred : t.color = .red)
    (hbal : t.Balanced k) (hfits : Fits fs .black k) (hfuel : fs.length < fuel) :
    ∃ s', insertLoop fuel s n = .ok s' ∧ Restored (plug fs t) s' := by
  induction fuel generalizing s fs t n k with
  | zero => cases hfuel
  | succ fuel ih =>
    cases fs with
    | nil =>
      obtain ⟨j, hj⟩ := hbal.blacken
      exact ⟨s, insertLoop_root h ht, t, h, rfl, redBlack_iff.mpr ⟨color_blacken, j, hj⟩⟩
    | cons f fs =>
      obtain ⟨hsib, hfc, hup⟩ := hfits
      by_cases hf : f.color = .black
      · have hrb : (plug (f :: fs) t).RedBlack :=
          redBlack_plug.mpr ⟨k, hbal, hsib, fun h' => absurd (h'.symm.trans hf) nofun, hup⟩
        refine ⟨s, insertLoop_black h ht hf, _, h, rfl, ?_⟩
        rw [blacken_of_black hrb.root]
        exact hrb
      · replace hf := RbColor.eq_red hf
        have hsibBlack := (hfc hf).2
        rw [hf] at hup
        cases fs with
        | nil => exact nomatch hup
        | cons g fs =>
          obtain ⟨hgsib, hgc, hgup⟩ := hup
          have hg : g.color = .black := by
            by_contra hg
            exact nomatch (hgc (RbColor.eq_red hg)).1
          rw [hg] at hgup
          rw [List.length_cons, List.length_cons] at hfuel
          by_cases huncle : g.sib.color = .red
          · obtain ⟨x, a, y, hxy⟩ := exists_join_of_red false huncle
            have hgsib' := hgsib
            rw [hxy] at hgsib'
            obtain ⟨hx, hy, -⟩ := balanced_join_red.mp hgsib'
            have hlift : (join g.side .red (join f.side .black t f.key f.sib) g.key (join false .black x a y)).Balanced (k + 1) :=
              balanced_join_red.mpr ⟨balanced_join_black.mpr ⟨hbal, hsib⟩, balanced_join_black.mpr ⟨hx, hy⟩, color_join, color_join⟩
            obtain ⟨s', hrun, hres⟩ := ih (h.lift hxy) root_join color_join hlift hgup (by omega)
            rw [h.insertLoop_succ ht hf, if_pos huncle]
            refine ⟨s', hrun, hres.congr (toList_plug ?_)⟩
            rw [Frame.fill, Frame.fill, hxy]
            simp only [toList_join]
          · cases hblack : g.sib.color with
            | red => exact absurd hblack huncle
            | black =>
              obtain ⟨fuel, rfl⟩ := Nat.exists_eq_add_of_lt (show 0 < fuel by omega)
              rw [Nat.zero_add]
              exact h.insertLoop_rotate ht hred hbal hf hsib hsibBlack hblack hgsib hgup

def slot (fs : List (Frame ℕ)) : Option (ℕ × Bool) := fs.head?.map fun f => (f.key, f.side)

/-- Linking in a new node puts it where nothing was. -/
theorem Represents.link (h : s.Represents (plug fs nil)) (hn : n ∉ (plug fs nil).toList) :
    (linkNode s (slot fs) n).Represents (plug fs (ColorTree.node .red nil n nil)) := by
  obtain ⟨-, hplace, hnodup⟩ := represents_plug.mp h
  have hnot : n ∉ placeKeys fs := fun hmem => hn (toList_plug_perm.mem_iff.mpr (List.mem_append_right _ hmem))
  have hleaf : (fun _ => none : Bool → Option ℕ) = children false none none := by
    funext b
    cases b <;> rfl
  unfold linkNode
  rw [hleaf]
  refine represents_plug.mpr ⟨⟨?_, trivial, trivial⟩, ?_, List.nodup_cons.mpr ⟨hnot, hnodup⟩⟩
  · cases fs with
    | nil => exact setNode_self
    | cons f fs =>
      have hne : n ≠ f.key := fun hnf => hnot (hnf ▸ List.mem_cons_self)
      exact (setChild_of_ne hne).trans setNode_self
  · cases fs with
    | nil => exact ⟨rfl, trivial⟩
    | cons f fs =>
      have hset : (s.setNode n ⟨above (f :: fs), children false none none, .red⟩).Place none (f :: fs) :=
        hplace.congr rfl fun a ha => setNode_of_ne fun han => hnot (han ▸ ha)
      exact hset.setChild hnodup

theorem Represents.blacken_root (h : s.Represents t) (ht : t.root = some n) :
    derefNode s.rbtRoot = .ok n ∧ (s.setColor n .black).Represents t.blacken := by
  obtain ⟨c, x, y, rfl⟩ := exists_join false ht
  have hplug : s.Represents (plug [] (join false c x n y)) := h
  constructor
  · rw [h.root, ht]
    rfl
  · rw [blacken_join]
    exact hplug.recolor .black

/-- Rebalancing after a new node has been linked in: the tree is red-black again, and in the same order. -/
theorem rbtree_insert_rebalance_restores (h : s.Represents (plug fs nil)) (hrb : (plug fs nil : ColorTree ℕ).RedBlack)
    (hn : n ∉ (plug fs nil).toList) (hfuel : (plug fs nil : ColorTree ℕ).toList.length < fuel) :
    ∃ s' t', rbtreeInsertRebalance fuel (linkNode s (slot fs) n) n = .ok s' ∧ s'.Represents t' ∧ t'.RedBlack ∧
      t'.toList = (plug fs (node .red nil n nil)).toList := by
  obtain ⟨k, hk, hfits⟩ := redBlack_plug.mp hrb
  cases hk
  have hlen : fs.length < fuel := Nat.lt_of_le_of_lt length_le_plug hfuel
  have hleaf : (node .red nil n nil : ColorTree ℕ).Balanced 0 := ⟨0, rfl, rfl, rfl, fun _ => ⟨rfl, rfl⟩⟩
  obtain ⟨s', hrun, t', hrep, hlist, hblack⟩ := (h.link hn).insertLoop rfl rfl hleaf hfits hlen
  have hmem : n ∈ t'.toList := by
    rw [hlist, toList_plug_perm.mem_iff]
    exact List.mem_append_left _ (root_mem rfl)
  obtain ⟨r, hr⟩ : ∃ r, t'.root = some r := by
    cases t' with
    | nil => cases hmem
    | node c l a r => exact ⟨a, rfl⟩
  obtain ⟨hderef, hrep'⟩ := hrep.blacken_root hr
  refine ⟨s'.setColor r .black, t'.blacken, ?_, hrep', hblack, toList_blacken.trans hlist⟩
  unfold rbtreeInsertRebalance
  rw [hrun]
  show (derefNode s'.rbtRoot >>= _) = _
  rw [hderef]
  rfl

/-- A node between a red one and its black parent, which takes two rotations. -/
theorem rbtree_insert_rebalance_restores_inner :
    ∃ s' t', rbtreeInsertRebalance 4 (linkNode (layOut (.node .black (.node .red nil 1 nil) 3 nil)) (some (1, true)) 2) 2 =
      .ok s' ∧ s'.Represents t' ∧ t'.RedBlack ∧ t'.toList = [1, 2, 3] :=
  rbtree_insert_rebalance_restores (s := layOut (.node .black (.node .red nil 1 nil) 3 nil)) (n := 2)
    (represents_layOut (by decide) :
      Represents _ (plug [⟨true, .red, 1, nil⟩, ⟨false, .black, 3, nil⟩] nil)) (by decide) (by decide) (by decide)

end Rbtree

end Ashttpd
