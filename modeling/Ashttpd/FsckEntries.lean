import Ashttpd.Fsck
import Ashttpd.DeepTries

/-!
# What `fsckroot` prints

`print_deets` goes down the table depth first, with the way down in a buffer that is as long as the longest text
`do_dump` found. Over the table of a whole trie it comes by the entries in the order of the list. Where a
position no longer fits `re_edges_idx` the walks lead back into the table.
-/
namespace Ashttpd

/-- With as much time as they need the walks return, and `print_deets`, given a buffer as long as `dump_root` says,
prints these texts and objects and never copies past the buffer. -/
def Prints (recs : List TrieDedge) (out : List (Bytes × UInt32)) : Prop :=
  ∃ maxLen bound, ∀ fuel, bound ≤ fuel → dumpRoot recs fuel = .ok maxLen ∧
    ∀ mem, ∃ mem', printDeets recs maxLen fuel mem = .ok (mem', out)

abbrev TrieEntry.shown (e : TrieEntry) : Bytes × UInt32 := (e.tStr, e.tOid)

variable {recs : List TrieDedge} {ents : List TrieEntry} {ofs n : ℕ} {l edges : EdgeList} {out out' : List (Bytes × UInt32)}

theorem Prints.unique (h : Prints recs out) (h' : Prints recs out') : out = out' := by
  obtain ⟨maxLen, bound, hall⟩ := h
  obtain ⟨maxLen', bound', hall'⟩ := h'
  obtain ⟨hdump, hprint⟩ := hall (max bound bound') (le_max_left _ _)
  obtain ⟨hdump', hprint'⟩ := hall' (max bound bound') (le_max_right _ _)
  obtain rfl := Except.ok.inj (hdump.symm.trans hdump')
  obtain ⟨mem, hrun⟩ := hprint fun _ => 0
  obtain ⟨mem', hrun'⟩ := hprint' fun _ => 0
  exact congrArg Prod.snd (Except.ok.inj (hrun.symm.trans hrun'))

theorem Recorded.prints (h : Recorded recs (rootOf edges)) : Prints recs (edges.objects []) :=
  ⟨edges.longest, recs.length + 1, fun _ hf => ⟨h.dumpRoot_eq hf, h.printDeets_eq hf⟩⟩

theorem EdgeList.objects_eq (l : EdgeList) (p : Bytes) :
    l.objects p = ((l.terminals p).filter fun x => x.2.tOid ≠ GIDX_INVALID_OID).map fun x => (x.1, x.2.tOid) := by
  induction l generalizing p with
  | nil => rfl
  | cons ptr cmp term kids next ihk ihn =>
    rw [objects, terminals, List.filter_append, List.filter_append, List.map_append, List.map_append, ← ihk, ← ihn]
    cases term with
    | none => rfl
    | some t =>
      by_cases ht : t.tOid = GIDX_INVALID_OID
      · simp [TrieEdge.object, TrieEdge.oid, ht]
      · simp [TrieEdge.object, TrieEdge.oid, ht]

theorem Built.objects (h : Built ents 0 n l) :
    l.objects [] = (ents.filter fun e => e.tOid ≠ GIDX_INVALID_OID).map TrieEntry.shown := by
  rw [l.objects_eq, h.terminals fun _ _ => rfl, List.filter_map, List.map_map]
  rfl

section written

variable {write : ℕ → Bool} {r : Trie}

/-- Over the table that is written for a list `fsckroot` prints the entries with an object, in the order of the list. -/
theorem printDeets_entries (hu : UriList ents) (hnew : trieNew allocOk ents = .ok (some r))
    (hwrite : trieWriteTrie write r = .ok (true, recs)) (hidx : IndicesFit r.rBfsOrder) :
    Prints recs ((ents.filter fun e => e.tOid ≠ GIDX_INVALID_OID).map TrieEntry.shown) := by
  obtain ⟨edges, hb, hrec⟩ := hu.recorded hnew hwrite hidx
  rw [hb.grown_allocOk] at hrec
  rw [← hb.objects]
  exact hrec.prints

/-- The URIs "/" and "/a". -/
theorem printDeets_entries_index : Prints indexWebroot.rTrie [([47], 0), ([47, 97], 1)] := by
  have hu : UriList [⟨[47], 0⟩, ⟨[47, 97], 1⟩] := ⟨by decide, by decide, by decide⟩
  have hnew : trieNew allocOk [⟨[47], 0⟩, ⟨[47, 97], 1⟩] = .ok (some indexTrie) := by decide
  have hwrite : trieWriteTrie writeOk indexTrie = .ok (true, indexWebroot.rTrie) := by decide
  exact printDeets_entries hu hnew hwrite (indicesFit_of_length (by decide))

end written

def slashTrie (e : TrieEntry) : Trie := trieOf (.cons 1 [47] (some e) .nil .nil)

def slashRecords (oid : UInt32) : List TrieDedge :=
  [⟨GIDX_INVALID_OID, 1, 1, 0, [0, 0, 0, 0, 0, 0, 0, 0]⟩, ⟨oid, 0, 0, 1, [47, 0, 0, 0, 0, 0, 0, 0]⟩]

theorem slashTrie_written (e : TrieEntry) : trieWriteTrie writeOk (slashTrie e) = .ok (true, slashRecords e.tOid) := rfl

theorem slashTrie_prints (e : TrieEntry) : Prints (slashRecords e.tOid) (TrieEdge.object ⟨1, [47], some e, .nil⟩ [47]) := by
  have hrec : Recorded (slashRecords e.tOid) (rootOf (.cons 1 [47] (some e) .nil .nil)) :=
    .of_written rfl (slashTrie_written e) (indicesFit_of_length (show 2 ≤ 2 ^ 32 by decide)) (n := 1) (List.Sublist.refl _)
  have hprints := hrec.prints
  rwa [EdgeList.objects, EdgeList.objects, EdgeList.objects, List.append_nil, List.append_nil] at hprints

/-- Where every position that an index can hold is that of a record with children, `do_dump` does not return. -/
theorem doDump_never (h : ∀ i < 2 ^ 32, ∃ d, recs[i]? = some d ∧ d.reNumEdges.toNat ≠ 0) (fuel : ℕ) {re num ret : ℕ}
    (hre : re < 2 ^ 32) (hnum : num ≠ 0) : doDump recs fuel re num ret = .error .nontermination := by
  induction fuel generalizing re num ret with
  | zero => rfl
  | succ fuel ih =>
    obtain ⟨num, rfl⟩ := Nat.exists_eq_succ_of_ne_zero hnum
    obtain ⟨d, hd, hkids⟩ := h re hre
    have hread : trieRecord recs re = .ok d := by rw [trieRecord, hd]
    rw [doDump, hread]
    show (doDump recs fuel d.reEdgesIdx.toNat d.reNumEdges.toNat 0 >>= _) = _
    rw [ih d.reEdgesIdx.toNat_lt hkids]
    rfl

/-- In the order of a tree that is complete below its one top edge, and goes on there, all positions below `2 ^ (d + 1)`
have children: the root, the edges that branch and the level behind them. -/
theorem doLayoutBfs_complete {d ptr : ℕ} {cmp : Bytes} {term : Option TrieEntry} {kids : EdgeList}
    (hfull : CompleteBelow TrieEdge.children (fun e => e.children ≠ []) d ⟨ptr, cmp, term, kids⟩) : ∀ i < 2 ^ (d + 1),
      ∃ e, (doLayoutBfs (rootOf (.cons ptr cmp term kids .nil)))[i]? = some e ∧ e.children ≠ [] := by
  obtain ⟨inner, level, rest, horder, hcount, hlevel, hinner, hgoes⟩ : ∃ inner level rest, levelOrder TrieEdge.children
      (EdgeList.cons ptr cmp term kids .nil).size [⟨ptr, cmp, term, kids⟩] = inner ++ (level ++ rest) ∧
        inner.length + 1 = 1 * 2 ^ d ∧ level.length = 1 * 2 ^ d ∧ (∀ e ∈ inner, e.children ≠ []) ∧
        ∀ e ∈ level, e.children ≠ [] :=
    levelOrder_complete TrieEdge.size_children (by simp [EdgeList.size]) (by simpa using hfull)
  have hall : doLayoutBfs (rootOf (.cons ptr cmp term kids .nil)) =
      (rootOf (.cons ptr cmp term kids .nil) :: (inner ++ level)) ++ rest := by
    rw [List.cons_append, List.append_assoc, ← horder]
    rfl
  intro i hi
  have hlt : i < (rootOf (.cons ptr cmp term kids .nil) :: (inner ++ level)).length := by
    rw [List.length_cons, List.length_append, hlevel]
    rw [Nat.pow_succ] at hi
    omega
  refine ⟨_, by rw [hall, List.getElem?_append_left hlt, List.getElem?_eq_getElem hlt], ?_⟩
  rcases List.mem_cons.mp (List.getElem_mem hlt) with hroot | hmem
  · rw [hroot]
    exact List.cons_ne_nil _ _
  · rcases List.mem_append.mp hmem with hmem | hmem
    · exact hinner _ hmem
    · exact hgoes _ hmem

/-- In the trie of 2^31 URIs with the same last 24 letters the edges without children stand behind `2 ^ 32` others. -/
theorem deepUris_crossed : ∃ r recs, trieNew allocOk (deepUris 31 24) = .ok (some r) ∧
    trieWriteTrie writeOk r = .ok (true, recs) ∧ ∀ out, ¬ Prints recs out := by
  obtain ⟨ptr, cmp, term, kids, hnew, hfits, hfull⟩ :=
    deepUris_trie (show 31 + 1 + 24 < 0x100 by decide) (show RE_EDGE_MAX ≤ 24 by decide)
  have hrecs : ∀ i < 2 ^ 32, ∃ d, ((trieOf (.cons ptr cmp term kids .nil)).rBfsOrder.map
      (dedgeOf (trieOf (.cons ptr cmp term kids .nil)).rBfsOrder))[i]? = some d ∧ d.reNumEdges.toNat ≠ 0 := by
    intro i hi
    obtain ⟨e, he, hkids⟩ := doLayoutBfs_complete hfull i hi
    refine ⟨_, by rw [List.getElem?_map]; exact congrArg _ he, ?_⟩
    rw [dedgeOf_numEdges (hfits e (List.mem_of_getElem? he))]
    exact fun hzero => hkids (List.eq_nil_of_length_eq_zero hzero)
  refine ⟨_, _, hnew, (trieWriteTrie_iff _ _).mpr ⟨hfits, rfl⟩, ?_⟩
  rintro out ⟨maxLen, bound, hall⟩
  have hdump := (hall bound (Nat.le_refl _)).1
  rw [dumpRoot, doDump_never hrecs bound (Nat.two_pow_pos 32) Nat.one_ne_zero] at hdump
  cases hdump

/-- An entry with the invalid object is not printed; entries that were lost to a failed allocation are not; and of a trie
that is too large for the indices nothing is, the walk never returning. -/
theorem printDeets_incomplete :
    (UriList [⟨[47], GIDX_INVALID_OID⟩] ∧ ∃ r recs, trieNew allocOk [⟨[47], GIDX_INVALID_OID⟩] = .ok (some r) ∧
      trieWriteTrie writeOk r = .ok (true, recs) ∧ ¬ Prints recs ([⟨[47], GIDX_INVALID_OID⟩].map TrieEntry.shown)) ∧
    (UriList letterUris ∧ ∃ r recs, trieNew (fun k => k != 2) letterUris = .ok (some r) ∧
      trieWriteTrie writeOk r = .ok (true, recs) ∧ ¬ Prints recs (letterUris.map TrieEntry.shown)) ∧
    (UriList (deepUris 31 24) ∧ (deepUris 31 24).length < 2 ^ 32 ∧ ∃ r recs, trieNew allocOk (deepUris 31 24) = .ok (some r) ∧
      trieWriteTrie writeOk r = .ok (true, recs) ∧ ¬ Prints recs ((deepUris 31 24).map TrieEntry.shown)) := by
  refine ⟨⟨⟨by decide, by decide, by decide⟩, slashTrie ⟨[47], GIDX_INVALID_OID⟩, _, by decide, slashTrie_written _, ?_⟩,
    ⟨letterUris_uriList, slashTrie ⟨[47], 0⟩, _, by decide +kernel, slashTrie_written _, ?_⟩, deepUris_uriList 31 24, ?_, ?_⟩
  · intro h
    exact absurd (h.unique (slashTrie_prints ⟨[47], GIDX_INVALID_OID⟩)) (by decide)
  · intro h
    exact absurd (h.unique (slashTrie_prints ⟨[47], 0⟩)) (by decide)
  · rw [deepUris, List.length_map, length_words]
    decide
  · obtain ⟨r, recs, hnew, hwrite, hnot⟩ := deepUris_crossed
    exact ⟨r, recs, hnew, hwrite, hnot _⟩

end Ashttpd
