import Ashttpd.LayoutLinks
import Ashttpd.PartialTries

/-!
# The breadth-first layout

Of any tree that `do_radix` builds, `do_layout_bfs` leaves the order level by level. A record tells the place of
the children of its edge by their first index and their number, and the index has 32 bits.
-/
namespace Ashttpd

/-- The edges of a tree level by level, each once, with the children of each in a row. -/
structure BreadthFirst (root : TrieEdge) (order : List TrieEdge) : Prop where
  once : order.Perm root.edges
  levels : order = (List.range root.edges.length).flatMap (levelAt TrieEdge.children [root])
  first : order[0]? = some root
  children : ∀ e ∈ order, ∃ first, ∀ i < e.children.length, order[first + i]? = e.children[i]?

theorem doLayoutBfs_breadthFirst (root : TrieEdge) : BreadthFirst root (doLayoutBfs root) where
  once := doLayoutBfs_perm root
  levels := by
    rw [TrieEdge.length_edges]
    exact levelOrder_eq_levels TrieEdge.size_children (by simp)
  first := doLayoutBfs_root root
  children e he := by
    obtain ⟨k, hk⟩ := List.mem_iff_getElem?.mp he
    exact doLayoutBfs_children root hk

/-- A record tells where the children of its edge are in the order, and how many there are. -/
def TellsChildren (order : List TrieEdge) (e : TrieEdge) (d : TrieDedge) : Prop :=
  d.reNumEdges.toNat = e.children.length ∧
    ∀ i < e.children.length, order[d.reEdgesIdx.toNat + i]? = e.children[i]?

/-- The first child of the edge, if there is one, has a position that `e_bfs_idx` can hold. -/
def FirstChildBelow (order : List TrieEdge) (e : TrieEdge) : Prop :=
  ∀ k, ∀ c ∈ e.children.head?, order[k]? = some c → k < 2 ^ 32

variable {order : List TrieEdge} {e c : TrieEdge}

theorem FirstChildBelow.row {cs : List TrieEdge} (hc : e.children = c :: cs) (hbelow : FirstChildBelow order e) {first : ℕ}
    (hrow : ∀ i < e.children.length, order[first + i]? = e.children[i]?) : order[first]? = some c ∧ first < 2 ^ 32 := by
  have hfirst := hrow 0 (by simp [hc])
  rw [Nat.add_zero, hc, List.getElem?_cons_zero] at hfirst
  exact ⟨hfirst, hbelow first c (by simp [hc]) hfirst⟩

theorem tellsChildren_dedgeOf (hnd : (order.map TrieEdge.ptr).Nodup) (hf : Fits e)
    (hrow : ∃ first, ∀ i < e.children.length, order[first + i]? = e.children[i]?) (hbelow : FirstChildBelow order e) :
    TellsChildren order e (dedgeOf order e) := by
  refine ⟨dedgeOf_numEdges hf order, ?_⟩
  obtain ⟨first, hrow⟩ := hrow
  cases hc : e.children with
  | nil => simp
  | cons c cs =>
    obtain ⟨hfirst, hlt⟩ := hbelow.row hc hrow
    rw [← hc, show (dedgeOf order e).reEdgesIdx = firstChildIdx order e from rfl, firstChildIdx_eq hnd hc hfirst hlt]
    exact hrow

/-- No edge gets more children than there are entries. -/
theorem doRadix_fanout {alloc : ℕ → Bool} {fuel ofs : ℕ} {ents : List TrieEntry} {st st' : RadixState} {l : EdgeList}
    {ret : Bool} (h : doRadix alloc fuel ents ofs st = .ok (l, ret, st')) :
    l.toList.length ≤ ents.length ∧ ∀ e ∈ l.edges, e.eNumEdges ≤ ents.length := by
  induction fuel generalizing ents ofs st st' l ret with
  | zero => cases h
  | succ fuel ih =>
    cases ents with
    | nil =>
      cases h
      exact ⟨Nat.le_refl 0, by simp [EdgeList.edges]⟩
    | cons v rest =>
      rw [doRadix] at h
      generalize radixGroup v ofs (v.tStr.length - ofs) 0 0 (v :: rest) = group at h
      obtain ⟨len, last⟩ := group
      dsimp only at h
      split at h
      · cases h
        exact ⟨Nat.zero_le _, by simp [EdgeList.edges]⟩
      · split at h
        · cases h
        · split at h
          · cases h
          · rename_i kids _ _ hkids
            split at h
            · cases h
            · rename_i next _ _ hnext
              cases h
              obtain ⟨hkids, hbelow⟩ := ih hkids
              obtain ⟨hnext, hbehind⟩ := ih hnext
              have hsub : (if ofs + len = v.tStr.length then rest.take last else v :: rest.take last).length ≤
                  (v :: rest).length := by
                split
                · exact (List.length_take_le' _ _).trans (Nat.le_succ _)
                · exact Nat.succ_le_succ (List.length_take_le' _ _)
              have hdrop : (rest.drop last).length + 1 ≤ (v :: rest).length := by
                rw [List.length_drop, List.length_cons]
                omega
              refine ⟨?_, fun e he => ?_⟩
              · rw [EdgeList.toList, List.length_cons]
                omega
              · rw [EdgeList.edges, List.mem_cons, List.mem_append] at he
                rcases he with rfl | he | he
                · exact hkids.trans hsub
                · exact (hbelow e he).trans hsub
                · have hle := hbehind e he
                  omega

namespace TrieHeap

variable {h : TrieHeap} {root : TrieEdge}

/-- The children of an edge stand in a row from `e_bfs_idx` of the first one on. -/
def ChildrenAtIdx (h : TrieHeap) (order : List TrieEdge) (e : TrieEdge) : Prop :=
  ∀ c ∈ e.children.head?, ∀ i < e.children.length, order[(h.edge c.ptr).eBfsIdx.toNat + i]? = e.children[i]?

/-- `do_layout_bfs` and `layout_radix` end with the edges of the tree in breadth-first order, and the children of the
edges that meet `P` are where the first child and the record say. -/
def LaidOutRight (P : List TrieEdge → TrieEdge → Prop) (h : TrieHeap) (root : TrieEdge) : Prop :=
  ∀ fuel, root.edges.length < fuel → ∃ order h₁ h₂, BreadthFirst root order ∧
    h.doLayoutBfs fuel = .ok h₁ ∧ h₁.links.Ring .rBfsOrder (order.map TrieEdge.bfs) ∧
    h.layoutRadix fuel = .ok h₂ ∧ h₂.links.Ring .rBfsOrder (order.map TrieEdge.bfs) ∧
    ∀ (k : ℕ) (e : TrieEdge), order[k]? = some e → P order e → h₂.ChildrenAtIdx order e ∧
      ∀ (write : ℕ → Bool) (ret : Bool) (out : List TrieDedge) (d : TrieDedge),
        h₂.trieWriteTrie fuel write = .ok (ret, out) → out[k]? = some d → TellsChildren order e d

/-- Where the first child of an edge stands, `e_bfs_idx` leads to it. -/
theorem LaidOut.childrenAtIdx (hl : h.LaidOut root) (he : e ∈ Ashttpd.doLayoutBfs root)
    (hbelow : FirstChildBelow (Ashttpd.doLayoutBfs root) e) : h.ChildrenAtIdx (Ashttpd.doLayoutBfs root) e := by
  intro c hc
  obtain ⟨first, hrow⟩ := (doLayoutBfs_breadthFirst root).children e he
  obtain ⟨cs, hcs⟩ : ∃ cs, e.children = c :: cs := List.head?_eq_some_iff.mp hc
  obtain ⟨hfirst, hlt⟩ := hbelow.row hcs hrow
  rw [hl.idx first c hfirst, UInt32.toNat_ofNat', Nat.mod_eq_of_lt hlt]
  exact hrow

/-- What is written for an edge tells its children. -/
theorem LaidOut.tellsChildren (hl : h.LaidOut root) (hcount : ∀ e ∈ root.edges, e.eNumEdges < 2 ^ 32) {fuel k : ℕ}
    (hfuel : root.edges.length < fuel) {write : ℕ → Bool} {ret : Bool} {out : List TrieDedge} {d : TrieDedge}
    (he : (Ashttpd.doLayoutBfs root)[k]? = some e) (hbelow : FirstChildBelow (Ashttpd.doLayoutBfs root) e)
    (hwrite : h.trieWriteTrie fuel write = .ok (ret, out)) (hd : out[k]? = some d) :
    TellsChildren (Ashttpd.doLayoutBfs root) e d := by
  rw [hl.trieWriteTrie hcount hfuel] at hwrite
  obtain ⟨ds, ⟨rest, hsplit⟩, hfits, rfl⟩ := writeEdges_front hwrite
  rw [List.nil_append, List.getElem?_map, Option.map_eq_some_iff] at hd
  obtain ⟨e', he', rfl⟩ := hd
  have hk : (Ashttpd.doLayoutBfs root)[k]? = some e' := by
    rw [← hsplit, List.getElem?_append_left (List.getElem?_eq_some_iff.mp he').1, he']
  obtain rfl : e' = e := Option.some.inj (hk.symm.trans he)
  exact tellsChildren_dedgeOf hl.nodup (hfits e' (List.mem_of_getElem? he'))
    ((doLayoutBfs_breadthFirst root).children e' (List.mem_of_getElem? he)) hbelow

theorem Holds.laidOutRight (hh : h.Holds root) (hcount : ∀ e ∈ root.edges, e.eNumEdges < 2 ^ 32) :
    LaidOutRight FirstChildBelow h root := by
  intro fuel hfuel
  obtain ⟨l, hbfs, hlaid⟩ := hh.doLayoutBfs hfuel
  obtain ⟨h₂, hlayout, hl⟩ := hh.layoutRadix hfuel
  refine ⟨Ashttpd.doLayoutBfs root, h.setLinks l, h₂, doLayoutBfs_breadthFirst root, hbfs, hlaid.order, hlayout, hl.order,
    fun k e he hbelow => ⟨hl.childrenAtIdx (List.mem_of_getElem? he) hbelow, ?_⟩⟩
  intro write ret out d hwrite hd
  exact hl.tellsChildren hcount hfuel he hbelow hwrite hd

/-- An edge in memory has one set of fields and one list of children. -/
theorem HoldsEdge.unique {e' : TrieEdge} (hd : h.HoldsEdge e) (hd' : h.HoldsEdge e') (hptr : e.ptr = e'.ptr)
    (hkids : ∀ c ∈ e.children, ∀ c' ∈ e'.children, c.ptr = c'.ptr → c = c') : e = e' := by
  have hlinks : e.children.map TrieEdge.link = e'.children.map TrieEdge.link :=
    hd.ring.unique (hptr ▸ hd'.ring)
  have hchildren : e.children = e'.children := by
    have hlen : e.children.length = e'.children.length := by simpa using congrArg List.length hlinks
    refine List.ext_getElem hlen fun i hi hi' => ?_
    have hlink : e.children[i].link = e'.children[i].link := by
      have hget := congrArg (·[i]?) hlinks
      simpa [hi, hi'] using hget
    exact hkids _ (List.getElem_mem hi) _ (List.getElem_mem hi') (TrieHead.eList.inj hlink)
  have hcmp : e.eCmp = e'.eCmp := by rw [← hd.cmp, hptr, hd'.cmp]
  have hterm : e.eTerminal = e'.eTerminal := by rw [← hd.terminal, hptr, hd'.terminal]
  have hedges : e.eEdges = e'.eEdges := EdgeList.toList_inj hchildren
  cases e
  cases e'
  congr

theorem Holds.unique {root' : TrieEdge} (hh : h.Holds root) (hh' : h.Holds root') : root = root' := by
  have key : ∀ n, ∀ e ∈ root.edges, ∀ e' ∈ root'.edges, e.ptr = e'.ptr → e.eEdges.size < n → e = e' := by
    intro n
    induction n with
    | zero => exact fun e _ e' _ _ hlt => absurd hlt (Nat.not_lt_zero _)
    | succ n ih =>
      intro e he e' he' hptr hlt
      refine (hh.edges e he).unique (hh'.edges e' he') hptr fun c hc c' hc' hptr' => ?_
      have hsize := e.size_children c hc
      exact ih c (TrieEdge.children_mem_edges he hc) c' (TrieEdge.children_mem_edges he' hc') hptr' (by omega)
  have hptr : root.ptr = root'.ptr := Option.some.inj (hh.rootEdge.symm.trans hh'.rootEdge)
  exact key _ root List.mem_cons_self root' List.mem_cons_self hptr (Nat.lt_succ_self _)

theorem constructRadix_built {ents : List TrieEntry} (hu : UriList ents) (hne : ents ≠ []) (links : Links TrieHead) :
    ∃ h edges, (fresh links).constructRadix allocOk (radixFuel ents 0 + 1) (some ents) = .ok (true, h) ∧
      Built ents 0 1 edges ∧ h.Holds ⟨0, [], none, edges⟩ := by
  obtain ⟨edges, hradix, hb⟩ := doRadix_built ⟨1, 1⟩ hu.radixable (Nat.lt_succ_self _)
  have hrefines := @constructRadix_refines allocOk links (radixFuel ents 0 + 1) ents rfl hne
  rw [hradix] at hrefines
  obtain ⟨h, hrun, hh, -⟩ := hrefines
  exact ⟨h, edges, hrun, hb, hh⟩

/-- For every tree that `do_radix` builds below a root edge, whichever allocations fail: `do_layout_bfs` ends with every
edge once in breadth-first order, and the children of an edge are where `e_bfs_idx` of the first one and the record
say, if that one has a position below 2^32. The number of entries is an `unsigned int`. -/
theorem constructRadix_laidOut {alloc : ℕ → Bool} {links : Links TrieHead} {fuel n : ℕ} {ents : List TrieEntry} {ret : Bool}
    (hcnt : ents.length < 2 ^ 32) (hrun : (fresh links).constructRadix alloc fuel (some ents) = .ok (ret, h))
    (hroot : h.rRootEdge = some n) :
    ∃ root : TrieEdge, root.ptr = n ∧ h.Holds root ∧
      root.edges.map TrieEdge.ptr = (List.range h.nAlloc).filter alloc ∧ LaidOutRight FirstChildBelow h root := by
  obtain ⟨edges, st, hradix, hh, hptrs⟩ := constructRadix_constructed hrun hroot
  obtain ⟨hkids, hbelow⟩ := doRadix_fanout hradix
  have hcount : ∀ e ∈ TrieEdge.edges ⟨0, [], none, edges⟩, e.eNumEdges < 2 ^ 32 := by
    intro e he
    rcases List.mem_cons.mp he with rfl | he
    · exact lt_of_le_of_lt hkids hcnt
    · exact lt_of_le_of_lt (hbelow e he) hcnt
  have hn : n = 0 := Option.some.inj (hroot.symm.trans hh.rootEdge)
  exact ⟨_, hn.symm, hh, hptrs, hh.laidOutRight hcount⟩

theorem constructRadix_laidOut_letters : ∃ h,
    (fresh ⟨id, id⟩).constructRadix allocOk (radixFuel letterUris 0 + 1) (some letterUris) = .ok (true, h) ∧
      ∃ root : TrieEdge, root.ptr = 0 ∧ h.Holds root ∧
        root.edges.map TrieEdge.ptr = (List.range h.nAlloc).filter allocOk ∧ LaidOutRight FirstChildBelow h root := by
  obtain ⟨h, edges, hrun, -, hh⟩ := constructRadix_built letterUris_uriList (by decide) ⟨id, id⟩
  exact ⟨h, hrun, constructRadix_laidOut (by decide) hrun hh.rootEdge⟩

end TrieHeap

end Ashttpd
