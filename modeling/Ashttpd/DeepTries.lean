import Ashttpd.BreadthFirstLayout
import Ashttpd.TrieWide

/-!
# A trie with more edges than indices

From 2^32 + 255 edges on some edge has its first child at a position that `e_bfs_idx` cannot hold. The URIs below are
fewer than 2^32, but their trie has more edges than that.
-/
namespace Ashttpd

/-- In a tree with enough edges some first child stands behind all positions that can be held. -/
theorem exists_late_child {root : TrieEdge} (hfanout : ∀ e ∈ root.edges, e.eNumEdges < 0x100)
    (hlen : 2 ^ 32 + 0xff ≤ root.edges.length) :
    ∃ e c k, e ∈ doLayoutBfs root ∧ c ∈ e.children.head? ∧ (doLayoutBfs root)[k]? = some c ∧ 2 ^ 32 ≤ k := by
  have hperm := doLayoutBfs_perm root
  have hlong : [root].length < (doLayoutBfs root).length := by
    rw [hperm.length_eq, List.length_singleton]
    omega
  obtain ⟨e, k, he, hne, hk, hlast⟩ := levelOrder_last TrieEdge.size_children (by simp) hlong
  have hcount : e.children.length < 0x100 := hfanout e (hperm.mem_iff.mp he)
  obtain ⟨c, cs, hc⟩ := List.exists_cons_of_ne_nil hne
  have hsize : (doLayoutBfs root).length = k + e.children.length := hlast
  rw [hperm.length_eq] at hsize
  refine ⟨e, c, k, he, by rw [hc]; rfl, ?_, by omega⟩
  rw [hc] at hk
  exact hk

namespace TrieHeap

theorem LaidOut.not_childrenAtIdx {h : TrieHeap} {root e c : TrieEdge} {k : ℕ} (hl : h.LaidOut root)
    (hc : c ∈ e.children.head?) (hk : (Ashttpd.doLayoutBfs root)[k]? = some c) (hlate : 2 ^ 32 ≤ k) :
    ¬ h.ChildrenAtIdx (Ashttpd.doLayoutBfs root) e := by
  intro hat
  obtain ⟨cs, hcs⟩ : ∃ cs, e.children = c :: cs := List.head?_eq_some_iff.mp hc
  have hfirst := hat c hc 0 (by simp [hcs])
  rw [hcs, List.getElem?_cons_zero, Nat.add_zero, hl.idx k c hk, UInt32.toNat_ofNat', ← hk] at hfirst
  have hmod : k % 2 ^ 32 < 2 ^ 32 := Nat.mod_lt _ (Nat.two_pow_pos 32)
  have hlt : k < (Ashttpd.doLayoutBfs root).length := (List.getElem?_eq_some_iff.mp hk).1
  have heq : k % 2 ^ 32 = k := (List.getElem?_inj (hmod.trans_le (hlate.trans hlt.le)) (hl.nodup.of_map _)).mp hfirst
  omega

/-- What is laid out right for all edges has no such child. -/
theorem Holds.not_laidOutRight {h : TrieHeap} {root : TrieEdge} (hh : h.Holds root)
    (hfanout : ∀ e ∈ root.edges, e.eNumEdges < 0x100) (hlen : 2 ^ 32 + 0xff ≤ root.edges.length) :
    ¬ LaidOutRight (fun _ _ => True) h root := by
  intro hright
  obtain ⟨order, h₁, h₂, hbreadth, -, -, hlayout, -, hall⟩ := hright _ (Nat.lt_succ_self _)
  obtain ⟨h₂', hlayout', hl⟩ := hh.layoutRadix (Nat.lt_succ_self _)
  cases hlayout.symm.trans hlayout'
  have horder : order = Ashttpd.doLayoutBfs root :=
    hbreadth.levels.trans (doLayoutBfs_breadthFirst root).levels.symm
  subst horder
  obtain ⟨e, c, k, he, hc, hk, hlate⟩ := exists_late_child hfanout hlen
  obtain ⟨j, hj⟩ := List.mem_iff_getElem?.mp he
  exact hl.not_childrenAtIdx hc hk hlate (hall j e hj trivial).1

end TrieHeap

theorem length_words (d : ℕ) : (words d).length = 2 ^ d := by
  induction d with
  | zero => rfl
  | succ d ih =>
    rw [words, List.length_append, List.length_map, List.length_map, ih, Nat.pow_succ]
    omega

/-- A slash, a word of length `d`, and `n` letters. -/
def deepUris (d n : ℕ) : List TrieEntry := (words d).map fun s => ⟨47 :: s ++ List.replicate n 97, 0⟩

variable {d n : ℕ}

theorem deepUris_uriList (d n : ℕ) : UriList (deepUris d n) := by
  have hmem : ∀ e ∈ deepUris d n, ∃ s ∈ words d, e = ⟨47 :: s ++ List.replicate n 97, 0⟩ := by
    intro e he
    obtain ⟨s, hs, rfl⟩ := List.mem_map.mp he
    exact ⟨s, hs, rfl⟩
  have hnul : ∀ s ∈ words d, (0 : UInt8) ∉ 47 :: s ++ List.replicate n 97 := by
    intro s hs hm
    rcases List.mem_append.mp hm with hm | hm
    · exact List.not_mem_cons_of_ne_of_not_mem (by decide) (zero_not_mem_words hs) hm
    · exact absurd (List.mem_replicate.mp hm).2 (by decide)
  refine ⟨?_, ?_, ?_⟩
  · intro e he
    obtain ⟨s, -, rfl⟩ := hmem e he
    exact List.cons_ne_nil _ _
  · intro e he
    obtain ⟨s, hs, rfl⟩ := hmem e he
    exact hnul s hs
  · rw [deepUris, List.pairwise_map]
    refine (words_sorted d).imp_of_mem ?_
    intro s t hs ht hlt
    refine (strcmp_neg_iff (hnul t ht)).mpr (append_lt_append_of_lt ?_ (List.cons_lt_cons_iff.mpr (.inr ⟨rfl, hlt⟩)))
    rw [List.length_cons, List.length_cons, length_of_mem_words hs, length_of_mem_words ht]

theorem deepUris_ne_nil (d n : ℕ) : deepUris d n ≠ [] := by
  simp [deepUris, words_ne_nil]

/-- The trie of these URIs has an edge for every eight letters of every URI. -/
theorem deepUris_size {edges : EdgeList} (hd : d + 1 + n < 0x100) (hb : Built (deepUris d n) 0 1 edges) :
    edges.Short ∧ 2 ^ d * n ≤ RE_EDGE_MAX * edges.size := by
  have htexts : (deepUris d n).map (·.from 0) = ((words d).map (47 :: ·)).map (· ++ List.replicate n 97) := by
    rw [deepUris, List.map_map, List.map_map]
    rfl
  have hlen : ∀ s ∈ (words d).map ((47 : UInt8) :: ·), s.length = d + 1 := by
    intro s hs
    obtain ⟨w, hw, rfl⟩ := List.mem_map.mp hs
    rw [List.length_cons, length_of_mem_words hw]
  have hshort : edges.Short := by
    refine (hb.short_iff (p := []) (by simp)).mpr (remaindersBelow_of_length fun t ht => ?_)
    rw [htexts] at ht
    obtain ⟨s, hs, rfl⟩ := List.mem_map.mp ht
    rw [List.length_append, hlen s hs, List.length_replicate]
    exact hd
  have hnd : ((words d).map ((47 : UInt8) :: ·)).Nodup := by
    refine List.Nodup.map (fun s t h => (List.cons.inj h).2) ?_
    refine List.Pairwise.imp ?_ (words_sorted d)
    rintro s t hlt rfl
    exact List.lt_irrefl s hlt
  have hge := remaindersLength_ge (p := []) (u := List.replicate n 97) hlen hnd (by simp)
  have hle := hb.remaindersLength_le hshort (p := []) (by simp)
  rw [htexts] at hle
  rw [List.length_map, length_words, List.length_replicate] at hge
  exact ⟨hshort, hge.trans hle⟩

/-- The trie of these URIs is complete for the letters of the words, and goes on where an edge cannot hold the rest. -/
theorem deepUris_trie (hd : d + 1 + n < 0x100) (hn : RE_EDGE_MAX ≤ n) : ∃ ptr cmp term kids,
    trieNew allocOk (deepUris d n) = .ok (some (trieOf (.cons ptr cmp term kids .nil))) ∧
      (∀ e ∈ (trieOf (.cons ptr cmp term kids .nil)).rBfsOrder, Fits e) ∧
      CompleteBelow TrieEdge.children (fun e => e.children ≠ []) d ⟨ptr, cmp, term, kids⟩ := by
  have hu := deepUris_uriList d n
  obtain ⟨edges, hb, hnew⟩ := hu.trieNew_built (deepUris_ne_nil d n)
  have hents : (deepUris d n).map (·.from 0) = wordBlock 47 (List.replicate n 97) d ++ [] := by
    rw [deepUris, wordBlock, List.map_map, List.append_nil]
    rfl
  have hshort : edges.Short := (deepUris_size hd hb).1
  have hfits := (fits_iff_of_perm edges).mpr ((hb.fits_iff hu.radixable).mpr hshort)
  obtain ⟨ptr, cmp, term, kids, next, after, m, rfl, hnext, hafter, -, hfull⟩ :=
    hb.words_block (by rwa [List.length_replicate]) hents (by simp)
  obtain rfl : after = [] := List.map_eq_nil_iff.mp hafter
  cases hnext
  refine ⟨ptr, cmp, term, kids, hnew, hfits, hfull.mono fun e he => ?_⟩
  exact he (by rwa [List.length_replicate])

/-- No list of URIs with that many edges is laid out right. -/
theorem UriList.not_laidOutRight {ents : List TrieEntry} (hu : UriList ents) (hne : ents ≠ [])
    (hsize : ∀ edges, Built ents 0 1 edges → edges.Short ∧ 2 ^ 32 + 0xff ≤ edges.size + 1) (links : Links TrieHead) :
    ∃ h, (TrieHeap.fresh links).constructRadix allocOk (radixFuel ents 0 + 1) (some ents) = .ok (true, h) ∧
      h.rRootEdge = some 0 ∧
      ¬ ∃ root : TrieEdge, root.ptr = 0 ∧ h.Holds root ∧ TrieHeap.LaidOutRight (fun _ _ => True) h root := by
  obtain ⟨h, edges, hrun, hb, hh⟩ := TrieHeap.constructRadix_built hu hne links
  refine ⟨h, hrun, hh.rootEdge, ?_⟩
  rintro ⟨root, -, hroot, hright⟩
  obtain rfl := hroot.unique hh
  obtain ⟨hshort, hlen⟩ := hsize edges hb
  have hfits := (hb.fits_iff hu.radixable).mpr hshort
  refine hh.not_laidOutRight (fun e he => (hfits e he).1) ?_ hright
  rw [TrieEdge.length_edges]
  exact hlen

/-- An edge whose first child `e_bfs_idx` does not lead to, in the trie of 2^31 URIs of 56 letters. -/
theorem constructRadix_not_laidOut : UriList (deepUris 31 24) ∧ (deepUris 31 24).length < 2 ^ 32 ∧
    ∃ h, (TrieHeap.fresh ⟨id, id⟩).constructRadix allocOk (radixFuel (deepUris 31 24) 0 + 1) (some (deepUris 31 24)) =
        .ok (true, h) ∧ h.rRootEdge = some 0 ∧
      ¬ ∃ root : TrieEdge, root.ptr = 0 ∧ h.Holds root ∧ TrieHeap.LaidOutRight (fun _ _ => True) h root := by
  have hcnt : (deepUris 31 24).length < 2 ^ 32 := by
    rw [deepUris, List.length_map, length_words]
    decide
  refine ⟨deepUris_uriList 31 24, hcnt, (deepUris_uriList 31 24).not_laidOutRight (deepUris_ne_nil 31 24) ?_ _⟩
  intro edges hb
  obtain ⟨hshort, hsize⟩ := deepUris_size (by decide) hb
  rw [RE_EDGE_MAX] at hsize
  exact ⟨hshort, by omega⟩

end Ashttpd
