import Ashttpd.RadixLinks
import Ashttpd.TrieRecords

/-!
# What `do_layout_bfs` links

The edges of a level stand on `cur` while their children are put on `next`; then the level is spliced behind those
above it. The links of `e_list` and `e_edges` stay as they are, so that the tree stays in memory.
-/
namespace Ashttpd

def TrieEdge.bfs (e : TrieEdge) : TrieHead := .eBfs e.ptr

theorem nodup_bfs {es : List TrieEdge} (h : (es.map TrieEdge.ptr).Nodup) : (es.map TrieEdge.bfs).Nodup := by
  have hmap : es.map TrieEdge.bfs = (es.map TrieEdge.ptr).map TrieHead.eBfs := by
    rw [List.map_map]
    rfl
  rw [hmap]
  exact h.map fun _ _ => TrieHead.eBfs.inj

namespace TrieHeap

open Links

variable {h h' : TrieHeap} {e root : TrieEdge} {lvl done ys : List TrieEdge} {l l' : Links TrieHead} {q : TrieHead}
  {fuel levels : ℕ}

/-- The links by which edges stand among their siblings. -/
def Tree : TrieHead → Prop
  | .eList _ => True
  | .eEdges _ => True
  | _ => False

theorem Tree.ne {a : TrieHead} (hq : Tree q) (ha : ¬ Tree a) : q ≠ a := by
  rintro rfl
  exact ha hq

theorem HoldsEdge.setLinks (hd : h.HoldsEdge e) (hl : ∀ q, Tree q → SameAt h.links l q) : (h.setLinks l).HoldsEdge e := by
  refine hd.congr rfl fun q hq => hl q ?_
  rcases List.mem_cons.mp hq with rfl | hq
  · trivial
  · obtain ⟨c, -, rfl⟩ := List.mem_map.mp hq
    trivial

/-- The list heads that stand for the lists of the layout. -/
def Anchor : TrieHead → Prop
  | .rBfsOrder => True
  | .cur => True
  | .next => True
  | _ => False

/-- Two lists of the layout with different heads have nothing in common if no edge is on both. -/
theorem disjoint_rings {a b : TrieHead} {xs ys : List TrieEdge} (hab : a ≠ b) (ha : Anchor a) (hb : Anchor b)
    (h : List.Disjoint (xs.map TrieEdge.bfs) (ys.map TrieEdge.bfs)) :
    List.Disjoint (a :: xs.map TrieEdge.bfs) (b :: ys.map TrieEdge.bfs) := by
  intro q hq hq'
  rcases List.mem_cons.mp hq with rfl | hq
  · rcases List.mem_cons.mp hq' with heq | hq'
    · exact hab heq
    · obtain ⟨e, -, rfl⟩ := List.mem_map.mp hq'
      exact ha
  · rcases List.mem_cons.mp hq' with rfl | hq'
    · obtain ⟨e, -, rfl⟩ := List.mem_map.mp hq
      exact hb
    · exact h hq hq'

theorem ring_initOther {a b : TrieHead} {es : List TrieEdge} (hab : a ≠ b) (hb : Anchor b)
    (h : l.Ring a (es.map TrieEdge.bfs)) : (l.initListHead b).Ring a (es.map TrieEdge.bfs) := by
  refine h.congr fun q hq => sameAt_initListHead ?_
  rintro rfl
  rcases List.mem_cons.mp hq with heq | hq
  · exact hab heq.symm
  · obtain ⟨e, -, rfl⟩ := List.mem_map.mp hq
    exact hb

theorem not_mem_ring {a : TrieHead} (hq : Tree q) (ha : ¬ Tree a) (es : List TrieEdge) : q ∉ a :: es.map TrieEdge.bfs := by
  refine List.not_mem_cons_of_ne_of_not_mem (hq.ne ha) fun hm => ?_
  obtain ⟨c, -, rfl⟩ := List.mem_map.mp hm
  exact hq

/-- What the loops of `do_layout_bfs` have done when the edges `es` are on `next`. -/
def Queued (h : TrieHeap) (es : List TrieEdge) (s : TrieHeap) : Prop :=
  ∃ l, s = h.setLinks l ∧ l.Ring .next (es.map TrieEdge.bfs) ∧
    ∀ q ∉ TrieHead.next :: es.map TrieEdge.bfs, SameAt h.links l q

theorem Queued.holdsEdge {s : TrieHeap} (hs : Queued h ys s) (hd : h.HoldsEdge e) : s.HoldsEdge e := by
  obtain ⟨l, rfl, -, hsame⟩ := hs
  exact hd.setLinks fun q hq => hsame q (not_mem_ring hq id ys)

/-- One more edge is put on `next`. -/
theorem Queued.add {s : TrieHeap} (hs : Queued h ys s) (hnew : e.bfs ∉ ys.map TrieEdge.bfs) :
    Queued h (ys ++ [e]) (s.setLinks (s.links.listAddTail e.bfs .next)) := by
  obtain ⟨l, rfl, hring, hsame⟩ := hs
  have hnot : e.bfs ∉ TrieHead.next :: ys.map TrieEdge.bfs :=
    List.not_mem_cons_of_ne_of_not_mem (fun heq => nomatch heq) hnew
  refine ⟨_, rfl, ?_, fun q hq => ?_⟩
  · rw [List.map_append]
    exact hring.listAddTail hnot
  · rw [List.map_append, ← List.cons_append, List.mem_append, not_or] at hq
    have hqe : q ≠ e.bfs := fun heq => hq.2 (heq ▸ List.mem_cons_self)
    exact (hsame q hq.1).trans (hring.sameAt_listAddTail hq.1 hqe)

/-- The children of an edge are put at the end of `next`. -/
theorem Queued.queueChildren {s : TrieHeap} (hs : Queued h ys s) (hd : h.HoldsEdge e)
    (hnodup : ((ys ++ e.children).map TrieEdge.bfs).Nodup) (hfuel : e.children.length < fuel) :
    ∃ s', s.queueChildren fuel e.ptr = .ok s' ∧ Queued h (ys ++ e.children) s' := by
  have hring : ∀ cs s, Queued h (ys ++ cs) s → s.links.Ring (.eEdges e.ptr) (e.children.map TrieEdge.link) :=
    fun cs s hcs => (hcs.holdsEdge hd).ring
  refine listForEach_spec (fun cs s => Queued h (ys ++ cs) s) hring ?_ (by rwa [List.append_nil]) hfuel
  · intro cs c rest s hsplit hcs
    refine ⟨_, rfl, ?_⟩
    rw [← List.append_assoc]
    apply hcs.add
    rw [hsplit, ← List.append_assoc, List.map_append, List.map_cons] at hnodup
    exact fun hm => (List.nodup_append.mp hnodup).2.2 _ hm _ List.mem_cons_self rfl

/-- The outer loop puts the children of all edges of the level on `next`. -/
theorem queueLevel_spec (hlvl : ∀ e ∈ lvl, h.HoldsEdge e) (hcur : h.links.Ring .cur (lvl.map TrieEdge.bfs))
    (hnext : h.links.Ring .next []) (hnodup : ((lvl ++ lvl.flatMap TrieEdge.children).map TrieEdge.bfs).Nodup)
    (hfuel : (lvl ++ lvl.flatMap TrieEdge.children).length < fuel) :
    ∃ s, h.queueLevel fuel = .ok s ∧ Queued h (lvl.flatMap TrieEdge.children) s := by
  rw [List.map_append] at hnodup
  obtain ⟨-, hkids, hapart⟩ := List.nodup_append'.mp hnodup
  have hring : ∀ es s, (es <+: lvl ∧ Queued h (es.flatMap TrieEdge.children) s) →
      s.links.Ring .cur (lvl.map TrieEdge.bfs) := by
    rintro es s ⟨⟨rest, rfl⟩, l, rfl, -, hsame⟩
    have hkids : List.Disjoint ((es ++ rest).map TrieEdge.bfs) ((es.flatMap TrieEdge.children).map TrieEdge.bfs) := by
      intro q hq hm
      refine hapart hq ?_
      rw [List.flatMap_append, List.map_append]
      exact List.mem_append_left _ hm
    have hapart' := disjoint_rings (a := .cur) (b := .next) (by simp) trivial trivial hkids
    exact hcur.congr fun q hq => hsame q fun hm => hapart' hq hm
  have hstart : ([] : List TrieEdge) <+: lvl ∧ Queued h (([] : List TrieEdge).flatMap TrieEdge.children) h :=
    ⟨List.nil_prefix, h.links, rfl, hnext, fun _ _ => ⟨rfl, rfl⟩⟩
  have hlen : lvl.length < fuel := by
    rw [List.length_append] at hfuel
    omega
  have hloop : ∃ s, h.queueLevel fuel = .ok s ∧ lvl <+: lvl ∧ Queued h (lvl.flatMap TrieEdge.children) s := by
    refine listForEach_spec (fun es s => es <+: lvl ∧ Queued h (es.flatMap TrieEdge.children) s) hring ?_ hstart hlen
    rintro es e rest s hsplit ⟨-, hs⟩
    have he : e ∈ lvl := by
      rw [hsplit]
      exact List.mem_append_right _ List.mem_cons_self
    rw [hsplit, List.flatMap_append, List.flatMap_cons, ← List.append_assoc] at hkids
    rw [List.map_append] at hkids
    have hlt : e.children.length < fuel := by
      rw [hsplit, List.flatMap_append, List.flatMap_cons] at hfuel
      simp only [List.length_append] at hfuel
      omega
    obtain ⟨s', hpass, hs'⟩ := hs.queueChildren (hlvl e he) (List.nodup_append.mp hkids).1 hlt
    refine ⟨s', hpass, ⟨rest, ?_⟩, ?_⟩
    · rw [hsplit, List.append_assoc, List.singleton_append]
    · rwa [List.flatMap_append, List.flatMap_singleton]
  obtain ⟨s, hrun, -, hs⟩ := hloop
  exact ⟨s, hrun, hs⟩

/-- What `do_layout_bfs` has linked when the edges `done` are in the order, the level is `lvl`, and the edges `kids` of
the level below it are waiting. -/
structure Laid (h : TrieHeap) (done lvl kids : List TrieEdge) (l : Links TrieHead) : Prop where
  order : l.Ring .rBfsOrder (done.map TrieEdge.bfs)
  cur : l.Ring .cur (lvl.map TrieEdge.bfs)
  next : l.Ring .next (kids.map TrieEdge.bfs)
  tree : ∀ q, Tree q → SameAt h.links l q

section levels

variable {kids : List TrieEdge}

/-- A level is queued. -/
theorem Laid.queueLevel (hl : Laid h done lvl [] l) (hlvl : ∀ e ∈ lvl, h.HoldsEdge e)
    (hnodup : ((done ++ (lvl ++ lvl.flatMap TrieEdge.children)).map TrieEdge.bfs).Nodup)
    (hfuel : (lvl ++ lvl.flatMap TrieEdge.children).length < fuel) :
    ∃ l', (h.setLinks l).queueLevel fuel = .ok (h.setLinks l') ∧ Laid h done lvl (lvl.flatMap TrieEdge.children) l' := by
  rw [List.map_append] at hnodup
  obtain ⟨-, hlater, hdone⟩ := List.nodup_append'.mp hnodup
  have hheld : ∀ e ∈ lvl, (h.setLinks l).HoldsEdge e := fun e he => (hlvl e he).setLinks hl.tree
  obtain ⟨s, hrun, l', rfl, hnext, hsame⟩ := queueLevel_spec hheld hl.cur hl.next hlater hfuel
  rw [List.map_append] at hdone hlater
  have horder := disjoint_rings (a := .rBfsOrder) (b := .next) (by simp) trivial trivial
    (List.disjoint_append_right.mp hdone).2
  have hcur := disjoint_rings (a := .cur) (b := .next) (by simp) trivial trivial (List.nodup_append'.mp hlater).2.2
  refine ⟨l', hrun, ?_, ?_, hnext, fun q hq => ?_⟩
  · exact hl.order.congr fun q hq => hsame q fun hm => horder hq hm
  · exact hl.cur.congr fun q hq => hsame q fun hm => hcur hq hm
  · exact (hl.tree q hq).trans (hsame q (not_mem_ring hq id _))

/-- A level is put behind those above it. -/
theorem Laid.splice (hl : Laid h done lvl kids l) (hdone : List.Disjoint (done.map TrieEdge.bfs) (lvl.map TrieEdge.bfs))
    (hkids : List.Disjoint ((done ++ lvl).map TrieEdge.bfs) (kids.map TrieEdge.bfs)) :
    Laid h (done ++ lvl) [] kids ((l.listSplice .cur (l.prev .rBfsOrder)).initListHead .cur) := by
  rw [List.map_append, List.disjoint_append_left] at hkids
  have hcur := disjoint_rings (a := .cur) (b := .rBfsOrder) (by simp) trivial trivial hdone.symm
  have hwait := disjoint_rings (a := .cur) (b := .next) (by simp) trivial trivial hkids.2
  have hwait' := disjoint_rings (a := .rBfsOrder) (b := .next) (by simp) trivial trivial hkids.1
  have hsame : ∀ q, q ∉ TrieHead.cur :: lvl.map TrieEdge.bfs → q ∉ TrieHead.rBfsOrder :: done.map TrieEdge.bfs →
      SameAt l (l.listSplice .cur (l.prev .rBfsOrder)) q := fun q => hl.cur.sameAt_listSplice_tail hl.order
  refine ⟨ring_initOther (by simp) trivial ?_, ring_initListHead, ring_initOther (by simp) trivial ?_, fun q hq => ?_⟩
  · rw [List.map_append]
    exact hl.cur.listSplice_tail hl.order hcur
  · exact hl.next.congr fun q hq => hsame q (fun hm => hwait hm hq) fun hm => hwait' hm hq
  · exact ((hl.tree q hq).trans (hsame q (not_mem_ring hq id lvl) (not_mem_ring hq id done))).trans
      (sameAt_initListHead (hq.ne id))

/-- The edges that are waiting are the next level. -/
theorem Laid.renew (hl : Laid h done [] kids l) (hkids : List.Disjoint (done.map TrieEdge.bfs) (kids.map TrieEdge.bfs)) :
    Laid h done kids [] ((l.listSplice .next .cur).initListHead .next) := by
  have hwait := disjoint_rings (a := .next) (b := .rBfsOrder) (by simp) trivial trivial hkids.symm
  have hcur := @disjoint_rings .next .cur kids [] (by simp) trivial trivial (List.disjoint_nil_right _)
  have hsame : ∀ q, q ∉ TrieHead.next :: kids.map TrieEdge.bfs → q ≠ .cur → SameAt l (l.listSplice .next .cur) q :=
    fun q hq hne => hl.next.sameAt_listSplice hl.cur hq (List.not_mem_cons_of_ne_of_not_mem hne List.not_mem_nil)
  refine ⟨ring_initOther (by simp) trivial ?_, ring_initOther (by simp) trivial ?_, ring_initListHead, fun q hq => ?_⟩
  · refine hl.order.congr fun q hq => hsame q (fun hm => hwait hm hq) ?_
    rintro rfl
    simp [TrieEdge.bfs] at hq
  · have hspliced := hl.next.listSplice hl.cur hcur
    rwa [List.map_nil, List.append_nil] at hspliced
  · exact ((hl.tree q hq).trans (hsame q (not_mem_ring hq id kids) (hq.ne id))).trans (sameAt_initListHead (hq.ne id))

end levels

/-- From the label `again` on, all levels that are left are put into the order. -/
theorem Laid.layoutLevels (hl : Laid h done lvl [] l) (hne : lvl ≠ []) (hrank : ∀ e ∈ lvl, e.eEdges.size < levels)
    (hholds : ∀ e ∈ levelOrder TrieEdge.children levels lvl, h.HoldsEdge e)
    (hnodup : ((done ++ levelOrder TrieEdge.children levels lvl).map TrieEdge.bfs).Nodup)
    (hfuel : (levelOrder TrieEdge.children levels lvl).length < fuel) :
    ∃ l', (h.setLinks l).layoutLevels fuel levels = .ok (h.setLinks l') ∧
      Laid h (done ++ levelOrder TrieEdge.children levels lvl) [] [] l' := by
  induction levels generalizing done lvl l with
  | zero =>
    obtain ⟨e, lvl, rfl⟩ := List.exists_cons_of_ne_nil hne
    exact absurd (hrank e List.mem_cons_self) (Nat.not_lt_zero _)
  | succ levels ih =>
    obtain ⟨rest, hfront⟩ := levelOrder_front TrieEdge.size_children hrank
    have hparts := hnodup
    rw [hfront, ← List.append_assoc, ← List.append_assoc, List.map_append] at hparts
    obtain ⟨hnow, -, -⟩ := List.nodup_append'.mp hparts
    have hheld : ∀ e ∈ lvl, h.HoldsEdge e := by
      intro e he
      apply hholds e
      rw [hfront]
      exact List.mem_append_left _ he
    have hlen : (lvl ++ lvl.flatMap TrieEdge.children).length < fuel := by
      rw [hfront, ← List.append_assoc, List.length_append] at hfuel
      omega
    obtain ⟨l₁, hrun, hl₁⟩ := hl.queueLevel hheld (by rwa [← List.append_assoc]) hlen
    rw [List.map_append] at hnow
    obtain ⟨hbefore, -, hkids⟩ := List.nodup_append'.mp hnow
    rw [List.map_append] at hbefore
    have hl₂ := hl₁.splice (List.nodup_append'.mp hbefore).2.2 hkids
    have hstep : (h.setLinks l).layoutLevels fuel (levels + 1) =
        if ((l₁.listSplice .cur (l₁.prev .rBfsOrder)).initListHead .cur).listEmpty .next then
          .ok (h.setLinks ((l₁.listSplice .cur (l₁.prev .rBfsOrder)).initListHead .cur))
        else (h.setLinks ((((l₁.listSplice .cur (l₁.prev .rBfsOrder)).initListHead .cur).listSplice .next .cur).initListHead
          .next)).layoutLevels fuel levels := by
      rw [TrieHeap.layoutLevels, hrun]
      rfl
    rw [hstep]
    generalize (l₁.listSplice .cur (l₁.prev .rBfsOrder)).initListHead .cur = l₂ at hl₂ ⊢
    by_cases hlast : lvl.flatMap TrieEdge.children = []
    · have hempty : l₂.listEmpty .next = true := hl₂.next.listEmpty_iff.mpr (by rw [hlast, List.map_nil])
      rw [if_pos hempty]
      refine ⟨l₂, rfl, ?_⟩
      rw [hlast] at hl₂
      rw [levelOrder, if_pos (List.isEmpty_iff.mpr hlast)]
      exact hl₂
    · have hempty : ¬ l₂.listEmpty .next = true := fun he => hlast (List.map_eq_nil_iff.mp (hl₂.next.listEmpty_iff.mp he))
      have horder : levelOrder TrieEdge.children (levels + 1) lvl =
          lvl ++ levelOrder TrieEdge.children levels (lvl.flatMap TrieEdge.children) := by
        rw [levelOrder, if_neg (by simpa using hlast)]
      rw [horder] at hholds hnodup hfuel ⊢
      rw [if_neg hempty, ← List.append_assoc]
      have hrank' : ∀ c ∈ lvl.flatMap TrieEdge.children, c.eEdges.size < levels := by
        intro c hc
        obtain ⟨e, he, hce⟩ := List.mem_flatMap.mp hc
        have hlt := e.size_children c hce
        have hlt' := hrank e he
        omega
      refine ih (hl₂.renew hkids) hlast hrank' (fun e he => hholds e (List.mem_append_right _ he)) ?_ ?_
      · rwa [List.append_assoc]
      · rw [List.length_append] at hfuel
        omega

/-- The root edge alone is the first level. -/
theorem Holds.laid (hh : h.Holds root) :
    Laid h [] [root] [] (((h.links.initListHead .cur).initListHead .next).listAdd .cur (.eBfs root.ptr)) := by
  have hinit : ∀ {a : TrieHead} {ys : List TrieHead}, h.links.Ring a ys → TrieHead.cur ∉ a :: ys → TrieHead.next ∉ a :: ys →
      ((h.links.initListHead .cur).initListHead .next).Ring a ys := by
    intro a ys hr hcur hnext
    refine hr.congr fun q hq => (sameAt_initListHead ?_).trans (sameAt_initListHead ?_)
    · rintro rfl
      exact hcur hq
    · rintro rfl
      exact hnext hq
  have hroot := hinit hh.unlinked (by simp) (by simp)
  have hsame : ∀ q, q ≠ .cur → q ≠ .eBfs root.ptr → SameAt ((h.links.initListHead .cur).initListHead .next)
      (((h.links.initListHead .cur).initListHead .next).listAdd .cur (.eBfs root.ptr)) q := by
    intro q hcur hq
    refine sameAt_listAddBetween hcur hq ?_
    rw [hroot.next_head]
    exact hq
  refine ⟨?_, ?_, ?_, fun q hq => ?_⟩
  · refine (hinit hh.order (by simp) (by simp)).congr fun q hq => hsame q ?_ ?_
    all_goals rintro rfl; simp at hq
  · exact @Ring.rotate TrieHead _ .cur (.eBfs root.ptr) [] [] (hroot.listAdd (by simp))
  · have hnext : ((h.links.initListHead .cur).initListHead .next).Ring .next [] := ring_initListHead
    refine hnext.congr fun q hq => hsame q ?_ ?_
    all_goals rintro rfl; simp at hq
  · exact ((sameAt_initListHead (hq.ne id)).trans (sameAt_initListHead (hq.ne id))).trans (hsame q (hq.ne id) (hq.ne id))

/-- `do_layout_bfs` ends, and has put the edges into the order in which the tree has them level by level. -/
theorem Holds.doLayoutBfs (hh : h.Holds root) (hfuel : root.edges.length < fuel) :
    ∃ l, h.doLayoutBfs fuel = .ok (h.setLinks l) ∧ Laid h (Ashttpd.doLayoutBfs root) [] [] l := by
  rw [TrieEdge.length_edges] at hfuel
  have hrank : ∀ e ∈ [root], e.eEdges.size < root.eEdges.size + 1 := by simp
  have horder : levelOrder TrieEdge.children fuel [root] = Ashttpd.doLayoutBfs root :=
    levelOrder_levels TrieEdge.size_children hrank (by omega)
  have hperm := doLayoutBfs_perm root
  have hlevels : ∀ e ∈ [root], e.eEdges.size < fuel := by
    intro e he
    rw [List.mem_singleton.mp he]
    omega
  have hlaid : ∃ l, (h.setLinks _).layoutLevels fuel fuel = .ok (h.setLinks l) ∧
      Laid h ([] ++ levelOrder TrieEdge.children fuel [root]) [] [] l :=
    hh.laid.layoutLevels (by simp) hlevels ?_ ?_ ?_
  · rw [horder, List.nil_append] at hlaid
    obtain ⟨l, hrun, hl⟩ := hlaid
    refine ⟨l, ?_, hl⟩
    rw [TrieHeap.doLayoutBfs, hh.rootEdge]
    exact hrun
  · rw [horder]
    exact fun e he => hh.edges e (hperm.mem_iff.mp he)
  · rw [horder, List.nil_append]
    exact nodup_bfs ((hperm.map _).nodup_iff.mpr hh.nodup)
  · rw [horder, doLayoutBfs_length]
    omega

/-- `do_layout_inorder` ends. -/
theorem doLayoutInorder_spec (hheld : ∀ d ∈ e.edges, h.HoldsEdge d) (hfuel : e.eEdges.size < fuel) :
    h.doLayoutInorder fuel e.ptr = .ok () := by
  induction fuel generalizing e with
  | zero => exact absurd hfuel (Nat.not_lt_zero _)
  | succ fuel ih =>
    have hring := (hheld e List.mem_cons_self).ring
    have hlen : e.children.length < fuel + 1 := lt_of_le_of_lt e.eEdges.length_toList_le hfuel
    have hchild : ∀ c ∈ e.children, h.doLayoutInorder fuel c.ptr = .ok () := by
      intro c hc
      have hlt := e.size_children c hc
      refine ih (fun d hd => hheld d ?_) (by omega)
      rw [TrieEdge.edges_eq]
      exact List.mem_cons_of_mem _ (List.mem_flatMap.mpr ⟨c, hc, hd⟩)
    have hloop : ∃ u : Unit, h.doLayoutInorder (fuel + 1) e.ptr = .ok u ∧ True := by
      refine listForEach_spec (fun _ _ => True) (fun _ _ _ => hring) ?_ trivial hlen
      intro done c rest s hsplit _
      have hc : c ∈ e.children := by
        rw [hsplit]
        exact List.mem_append_right _ List.mem_cons_self
      exact ⟨(), hchild c hc, trivial⟩
    obtain ⟨u, hrun, -⟩ := hloop
    exact hrun

/-- The edges `es` have been given their positions. -/
structure Numbered (h h' : TrieHeap) (es : List TrieEdge) : Prop where
  links : h'.links = h.links
  idx : ∀ k e, es[k]? = some e → h'.edge e.ptr = { h.edge e.ptr with eBfsIdx := UInt32.ofNat k }
  others : ∀ m ∉ es.map TrieEdge.ptr, h'.edge m = h.edge m

theorem Numbered.add {s : TrieHeap} (hs : Numbered h s ys) (hnew : e.ptr ∉ ys.map TrieEdge.ptr) :
    Numbered h (s.setEdge e.ptr { s.edge e.ptr with eBfsIdx := UInt32.ofNat ys.length }) (ys ++ [e]) := by
  refine ⟨hs.links, fun k d hk => ?_, fun m hm => ?_⟩
  · rcases Nat.lt_or_ge k ys.length with hlt | hge
    · rw [List.getElem?_append_left hlt] at hk
      have hne : d.ptr ≠ e.ptr := fun heq => hnew (heq ▸ List.mem_map_of_mem (List.mem_of_getElem? hk))
      exact (Function.update_of_ne hne _ _).trans (hs.idx k d hk)
    · rw [List.getElem?_append_right hge] at hk
      obtain ⟨hlt, hd⟩ := List.getElem?_eq_some_iff.mp hk
      obtain rfl : k = ys.length := by
        rw [List.length_singleton] at hlt
        omega
      simp only [Nat.sub_self, List.getElem_singleton] at hd
      subst hd
      refine (Function.update_self _ _ _).trans ?_
      rw [hs.others _ hnew]
  · rw [List.map_append, List.mem_append, not_or] at hm
    have hne : m ≠ e.ptr := fun heq => hm.2 (heq ▸ List.mem_cons_self)
    exact (Function.update_of_ne hne _ _).trans (hs.others m hm.1)

/-- The loop of `layout_radix` numbers the edges of the order. -/
theorem numberEdges_spec (horder : h.links.Ring .rBfsOrder (ys.map TrieEdge.bfs)) (hnodup : (ys.map TrieEdge.ptr).Nodup)
    (hfuel : ys.length < fuel) : ∃ h', h.numberEdges fuel = .ok h' ∧ Numbered h h' ys := by
  have hloop : ∃ s : TrieHeap × UInt32, Links.listForEach (fun s : TrieHeap × UInt32 => s.1.links) Fault.nontermination
      .rBfsOrder (fun pos (s : TrieHeap × UInt32) => pos.entryOfEBfs.map fun e =>
        (s.1.setEdge e { s.1.edge e with eBfsIdx := s.2 }, s.2 + 1)) fuel (h.links.next .rBfsOrder) (h, 0) = .ok s ∧
        Numbered h s.1 ys ∧ s.2 = UInt32.ofNat ys.length := by
    refine listForEach_spec (s := (h, (0 : UInt32))) (fun es (s : TrieHeap × UInt32) =>
      Numbered h s.1 es ∧ s.2 = UInt32.ofNat es.length) (fun es s hs => hs.1.links ▸ horder) ?_ ?_ hfuel
    · rintro es e rest ⟨s, i⟩ hsplit ⟨hs, rfl⟩
      rw [hsplit, List.map_append, List.map_cons] at hnodup
      have hnew : e.ptr ∉ es.map TrieEdge.ptr :=
        fun hm => (List.nodup_append.mp hnodup).2.2 _ hm _ List.mem_cons_self rfl
      refine ⟨_, rfl, hs.add hnew, ?_⟩
      rw [List.length_append, UInt32.ofNat_add]
      rfl
    · exact ⟨⟨rfl, by simp, fun _ _ => rfl⟩, rfl⟩
  obtain ⟨s, hrun, hs, -⟩ := hloop
  refine ⟨s.1, ?_, hs⟩
  rw [numberEdges, hrun]
  rfl

/-- The tree is in memory with its order, and every edge has its position in it. -/
structure LaidOut (h : TrieHeap) (root : TrieEdge) : Prop where
  edges : ∀ e ∈ root.edges, h.HoldsEdge e
  order : h.links.Ring .rBfsOrder ((Ashttpd.doLayoutBfs root).map TrieEdge.bfs)
  idx : ∀ k e, (Ashttpd.doLayoutBfs root)[k]? = some e → (h.edge e.ptr).eBfsIdx = UInt32.ofNat k
  nodup : ((Ashttpd.doLayoutBfs root).map TrieEdge.ptr).Nodup

theorem Holds.layoutRadix (hh : h.Holds root) (hfuel : root.edges.length < fuel) :
    ∃ h', h.layoutRadix fuel = .ok h' ∧ h'.LaidOut root := by
  have hperm := doLayoutBfs_perm root
  have hnodup : ((Ashttpd.doLayoutBfs root).map TrieEdge.ptr).Nodup := (hperm.map _).nodup_iff.mpr hh.nodup
  obtain ⟨l, hbfs, hlaid⟩ := hh.doLayoutBfs hfuel
  have hinorder : h.doLayoutInorder fuel root.ptr = .ok () := by
    rw [TrieEdge.length_edges] at hfuel
    exact doLayoutInorder_spec hh.edges (by omega)
  have horder : (h.setLinks l).links.Ring .rBfsOrder ((Ashttpd.doLayoutBfs root).map TrieEdge.bfs) := hlaid.order
  obtain ⟨h', hnumber, hidx⟩ := numberEdges_spec horder hnodup (by rwa [hperm.length_eq])
  refine ⟨h', ?_, ?_, hidx.links ▸ horder, fun k e hk => by rw [hidx.idx k e hk], hnodup⟩
  · rw [TrieHeap.layoutRadix, hh.rootEdge]
    show (h.doLayoutInorder fuel root.ptr >>= fun _ => h.doLayoutBfs fuel >>= numberEdges fuel) = _
    rw [hinorder, hbfs]
    exact hnumber
  · intro e he
    have hd := (hh.edges e he).setLinks hlaid.tree
    obtain ⟨k, hk⟩ := List.mem_iff_getElem?.mp (hperm.mem_iff.mpr he)
    have hfields := hidx.idx k e hk
    exact ⟨hfields ▸ hd.cmp, hfields ▸ hd.terminal, hfields ▸ hd.numEdges, hidx.links ▸ hd.ring⟩

theorem LaidOut.childIdx (hl : h.LaidOut root) (he : e ∈ root.edges) :
    h.childIdx e.ptr = .ok (firstChildIdx (Ashttpd.doLayoutBfs root) e) := by
  have hring := (hl.edges e he).ring
  rw [TrieHeap.childIdx, firstChildIdx]
  cases hc : e.children with
  | nil =>
    have hempty : h.links.listEmpty (.eEdges e.ptr) = true := hring.listEmpty_iff.mpr (by rw [hc, List.map_nil])
    rw [if_pos hempty]
  | cons c cs =>
    have hempty : ¬ h.links.listEmpty (.eEdges e.ptr) = true := by
      intro hempty
      rw [hring.listEmpty_iff, hc] at hempty
      cases hempty
    have hnext : h.links.next (.eEdges e.ptr) = .eList c.ptr := by
      rw [hring.next_head, hc]
      rfl
    have hmem : c ∈ root.edges := TrieEdge.children_mem_edges he (hc ▸ List.mem_cons_self)
    obtain ⟨k, hk⟩ := List.mem_iff_getElem?.mp ((doLayoutBfs_perm root).mem_iff.mpr hmem)
    rw [if_neg hempty, hnext]
    show Except.ok (h.edge c.ptr).eBfsIdx = .ok (eBfsIdx (Ashttpd.doLayoutBfs root) c)
    rw [eBfsIdx_eq hl.nodup hk, hl.idx k c hk]

theorem LaidOut.nodeToDisk (hl : h.LaidOut root) (he : e ∈ root.edges) (hcount : e.eNumEdges < 2 ^ 32) (idx : UInt32) :
    h.nodeToDisk e.ptr idx = Ashttpd.nodeToDisk e idx := by
  have hd := hl.edges e he
  have hlt : UInt32.ofNat e.eNumEdges < 0x100 ↔ e.eNumEdges < 0x100 := by
    rw [UInt32.lt_iff_toNat_lt, UInt32.toNat_ofNat', Nat.mod_eq_of_lt hcount]
    rfl
  have hbyte : (UInt32.ofNat e.eNumEdges).toUInt8 = UInt8.ofNat e.eNumEdges := UInt32.toUInt8_ofNat' _
  rw [TrieHeap.nodeToDisk, Ashttpd.nodeToDisk]
  cases ht : e.eTerminal with
  | none => simp only [hd.cmp, hd.terminal, hd.numEdges, hlt, hbyte, ht]
  | some t => simp only [hd.cmp, hd.terminal, hd.numEdges, hlt, hbyte, ht]

/-- The records are those that are written without memory. -/
theorem LaidOut.trieWriteTrie (hl : h.LaidOut root) (hcount : ∀ e ∈ root.edges, e.eNumEdges < 2 ^ 32)
    (hfuel : root.edges.length < fuel) (write : ℕ → Bool) :
    h.trieWriteTrie fuel write = writeEdges write (Ashttpd.doLayoutBfs root) (Ashttpd.doLayoutBfs root) 0 [] := by
  have key : ∀ rest done fuel i out, Ashttpd.doLayoutBfs root = done ++ rest → rest.length < fuel →
      h.writeFrom write fuel ((rest.map TrieEdge.bfs).headD .rBfsOrder) i out =
        writeEdges write (Ashttpd.doLayoutBfs root) rest i out := by
    intro rest
    induction rest with
    | nil =>
      intro done fuel i out _ hfuel
      obtain ⟨fuel, rfl⟩ : ∃ k, fuel = k + 1 := ⟨fuel - 1, by simp at hfuel; omega⟩
      rw [TrieHeap.writeFrom, List.map_nil, List.headD_nil, if_pos rfl, writeEdges]
    | cons e rest ih =>
      intro done fuel i out hsplit hfuel
      obtain ⟨fuel, rfl⟩ : ∃ k, fuel = k + 1 := ⟨fuel - 1, by simp at hfuel; omega⟩
      have he : e ∈ root.edges := by
        apply (doLayoutBfs_perm root).mem_iff.mp
        rw [hsplit]
        exact List.mem_append_right _ List.mem_cons_self
      have hring := hl.order
      rw [hsplit, List.map_append, List.map_cons] at hring
      have hne : e.bfs ≠ .rBfsOrder := by
        intro heq
        cases heq
      have hdisk := hl.nodeToDisk he (hcount e he) (firstChildIdx (Ashttpd.doLayoutBfs root) e)
      rw [List.map_cons, List.headD_cons, TrieHeap.writeFrom, if_neg hne, writeEdges]
      show (h.childIdx e.ptr >>= _) = _
      rw [hl.childIdx he]
      show (h.nodeToDisk e.ptr _ >>= _) = _
      rw [hdisk]
      cases Ashttpd.nodeToDisk e (firstChildIdx (Ashttpd.doLayoutBfs root) e) with
      | error f => rfl
      | ok d =>
        have hrest := ih (done ++ [e]) fuel (i + 1) (out ++ [d])
          (by rw [hsplit, List.append_assoc, List.singleton_append]) (by simpa using hfuel)
        rw [← hring.next_entry] at hrest
        show (if write i then _ else _) = _
        dsimp only
        rw [← hrest]
  rw [TrieHeap.trieWriteTrie, hl.order.next_head]
  exact key _ [] fuel 0 [] rfl (by rwa [(doLayoutBfs_perm root).length_eq])

end TrieHeap

end Ashttpd
