import Ashttpd.TrieLayout

/-!
# The records of a trie on disk

From the sorted URIs `mkroot` hands to `trie_new` to the records `trie_write_trie`
writes: where the records of an edge's children stand, and which URI lists can be
written at all.
-/
namespace Ashttpd

/-- `strcmp` on the texts of two C strings; behind its end a text reads as its terminator. -/
def strcmp : Bytes → Bytes → ℤ
  | [], [] => 0
  | [], b :: _ => -b.toNat
  | a :: _, [] => a.toNat
  | a :: as, b :: bs => if a = b then strcmp as bs else a.toNat - b.toNat

theorem strcmp_neg_iff {s t : Bytes} (ht : 0 ∉ t) : strcmp s t < 0 ↔ s < t := by
  induction s generalizing t with
  | nil =>
    cases t with
    | nil => simp [strcmp]
    | cons b t =>
      have hb : b.toNat ≠ 0 := by
        intro hz
        obtain rfl : b = 0 := UInt8.toNat_inj.mp hz
        exact ht List.mem_cons_self
      simp only [strcmp, List.nil_lt_cons, iff_true]
      omega
  | cons a s ih =>
    cases t with
    | nil =>
      simp only [strcmp, List.not_lt_nil, iff_false]
      omega
    | cons b t =>
      rw [strcmp, List.cons_lt_cons_iff]
      split_ifs with heq
      · subst heq
        rw [ih fun hm => ht (List.mem_cons_of_mem _ hm)]
        exact ⟨fun h => .inr ⟨rfl, h⟩, fun h => h.elim (fun hlt => absurd hlt (UInt8.lt_irrefl a))
          And.right⟩
      · rw [UInt8.lt_iff_toNat_lt]
        constructor
        · intro h
          exact .inl (by omega)
        · rintro (h | ⟨rfl, -⟩)
          · omega
          · exact absurd rfl heq

/-- What `sort_uris` leaves: non-empty C strings in strictly increasing order. -/
structure UriList (ents : List TrieEntry) : Prop where
  nonEmpty : ∀ e ∈ ents, e.tStr ≠ []
  nulFree : ∀ e ∈ ents, 0 ∉ e.tStr
  sorted : ents.Pairwise fun a b => strcmp a.tStr b.tStr < 0

theorem UriList.radixable {ents : List TrieEntry} (h : UriList ents) : Radixable ents 0 := by
  refine ⟨?_, ?_, h.nulFree⟩
  · intro e he
    exact List.length_pos_iff.mpr (h.nonEmpty e he)
  · refine h.sorted.imp_of_mem ?_
    intro a b _ hb hab
    exact (strcmp_neg_iff (h.nulFree b hb)).mp hab

def trieOf (edges : EdgeList) : Trie :=
  ⟨⟨0, [], none, edges⟩, doLayoutBfs ⟨0, [], none, edges⟩, UInt32.ofNat (edges.size + 1)⟩

theorem UriList.trieNew_built {ents : List TrieEntry} (h : UriList ents) (hne : ents ≠ []) :
    ∃ edges, Built ents 0 1 edges ∧ trieNew allocOk ents = .ok (some (trieOf edges)) := by
  obtain ⟨edges, hrun, hb⟩ := doRadix_built ⟨1, 1⟩ h.radixable (Nat.lt_succ_self _)
  refine ⟨edges, hb, ?_⟩
  have hemp : ents.isEmpty = false := by
    cases ents with
    | nil => exact absurd rfl hne
    | cons e es => rfl
  have hnew : edgeNew allocOk ⟨0, 0⟩ = (some 0, ⟨1, 1⟩) := rfl
  have hcons : constructRadix allocOk ents =
      .ok (some (⟨0, [], none, edges⟩, RadixState.advance ⟨1, 1⟩ edges.size)) := by
    simp only [constructRadix, hnew, hemp, Bool.false_eq_true, if_false, hrun]
  have hcount : 1 + UInt32.ofNat edges.size = UInt32.ofNat (edges.size + 1) := by
    rw [UInt32.ofNat_add, UInt32.add_comm]
    rfl
  simp only [trieNew, hcons, trieOf, RadixState.advance, hcount]

theorem trieNew_nil (alloc : ℕ → Bool) (r : Option Trie) (hr : trieNew alloc [] = .ok r) :
    r = none := by
  rw [trieNew, constructRadix] at hr
  cases ha : alloc 0 with
  | false =>
    simp only [edgeNew, ha, Bool.false_eq_true, if_false] at hr
    exact (Except.ok.inj hr).symm
  | true =>
    simp only [edgeNew, ha, if_true, List.isEmpty_nil] at hr
    cases hr

section order

variable (root : TrieEdge)

theorem doLayoutBfs_perm : (doLayoutBfs root).Perm root.edges := by
  have h : (levelOrder TrieEdge.children (root.eEdges.size + 1) [root]).Perm
      ([root].flatMap TrieEdge.edges) :=
    levelOrder_perm TrieEdge.size_children TrieEdge.edges_eq (by simp)
  simpa [doLayoutBfs] using h

theorem doLayoutBfs_root : (doLayoutBfs root)[0]? = some root := by
  rw [doLayoutBfs, levelOrder_eq TrieEdge.size_children (by simp)]
  rfl

theorem doLayoutBfs_children {k : ℕ} {e : TrieEdge} (hk : (doLayoutBfs root)[k]? = some e) :
    ∃ first, ∀ i < e.children.length, (doLayoutBfs root)[first + i]? = e.children[i]? := by
  refine ⟨1 + blockStart TrieEdge.children (doLayoutBfs root) k, ?_⟩
  intro i hi
  exact levelOrder_children TrieEdge.size_children (by simp) hk hi

theorem doLayoutBfs_length : (doLayoutBfs root).length = root.eEdges.size + 1 := by
  rw [(doLayoutBfs_perm root).length_eq, TrieEdge.edges, List.length_cons,
    EdgeList.length_edges]

end order

theorem Built.order_nodup {ents : List TrieEntry} {edges : EdgeList} (h : Built ents 0 1 edges) :
    ((trieOf edges).rBfsOrder.map TrieEdge.ptr).Nodup := by
  have hperm := (doLayoutBfs_perm ⟨0, [], none, edges⟩).map TrieEdge.ptr
  apply hperm.nodup_iff.mpr
  have hptrs : (TrieEdge.edges ⟨0, [], none, edges⟩).map TrieEdge.ptr =
      List.range' 0 (edges.size + 1) := by
    rw [TrieEdge.edges, List.map_cons, h.ptrs, List.range'_succ]
  rw [hptrs]
  exact List.nodup_range'

/-- Where allocations differ, the index stored in an edge is its position. -/
theorem eBfsIdx_eq {order : List TrieEdge} (hnd : (order.map TrieEdge.ptr).Nodup) {k : ℕ}
    {e : TrieEdge} (hk : order[k]? = some e) : eBfsIdx order e = UInt32.ofNat k := by
  rw [eBfsIdx]
  congr 1
  obtain ⟨hlt, rfl⟩ := List.getElem?_eq_some_iff.mp hk
  rw [List.findIdx_eq hlt]
  refine ⟨by simp, ?_⟩
  intro j hj
  have hj' : j < (order.map TrieEdge.ptr).length := by
    rw [List.length_map]
    omega
  have hk' : k < (order.map TrieEdge.ptr).length := by rwa [List.length_map]
  have hne : (order.map TrieEdge.ptr)[j] ≠ (order.map TrieEdge.ptr)[k] :=
    fun heq => absurd (hnd.getElem_inj_iff.mp heq) (by omega)
  simpa using hne

/-- What `node_to_disk` asserts of an edge. -/
def Fits (e : TrieEdge) : Prop := e.eNumEdges < 0x100 ∧ e.eCmp.length ≤ RE_EDGE_MAX

instance (e : TrieEdge) : Decidable (Fits e) := inferInstanceAs (Decidable (_ ∧ _))

/-- The record of an edge in an order. -/
def dedgeOf (order : List TrieEdge) (e : TrieEdge) : TrieDedge where
  reOid := match e.eTerminal with
    | some t => t.tOid
    | none => GIDX_INVALID_OID
  reEdgesIdx := firstChildIdx order e
  reNumEdges := UInt8.ofNat e.eNumEdges
  reStrlen := UInt8.ofNat e.eCmp.length
  reStr := e.eCmp ++ List.replicate (RE_EDGE_MAX - e.eCmp.length) 0

theorem dedgeOf_strlen {e : TrieEdge} (hf : Fits e) (order : List TrieEdge) :
    (dedgeOf order e).reStrlen.toNat = e.eCmp.length := by
  have hcap := hf.2
  rw [RE_EDGE_MAX] at hcap
  rw [dedgeOf, UInt8.toNat_ofNat']
  exact Nat.mod_eq_of_lt (by omega)

theorem dedgeOf_numEdges {e : TrieEdge} (hf : Fits e) (order : List TrieEdge) :
    (dedgeOf order e).reNumEdges.toNat = e.children.length := by
  rw [dedgeOf, UInt8.toNat_ofNat']
  exact Nat.mod_eq_of_lt hf.1

theorem dedgeOf_str (e : TrieEdge) (order : List TrieEdge) : (dedgeOf order e).reStr.take e.eCmp.length = e.eCmp := by
  rw [dedgeOf, List.take_left]

theorem firstChildIdx_eq {order : List TrieEdge} (hnd : (order.map TrieEdge.ptr).Nodup) {e c : TrieEdge}
    {cs : List TrieEdge} (hc : e.children = c :: cs) {first : ℕ} (hfirst : order[first]? = some c)
    (hlt : first < 2 ^ 32) : (firstChildIdx order e).toNat = first := by
  simp only [firstChildIdx, hc, eBfsIdx_eq hnd hfirst, UInt32.toNat_ofNat']
  exact Nat.mod_eq_of_lt hlt

theorem nodeToDisk_eq (order : List TrieEdge) (e : TrieEdge) :
    nodeToDisk e (firstChildIdx order e) =
      if Fits e then .ok (dedgeOf order e) else .error .assertion := rfl

def writeOk : ℕ → Bool := fun _ => true

theorem writeEdges_iff (order es : List TrieEdge) (i : ℕ) (out out' : List TrieDedge) :
    writeEdges writeOk order es i out = .ok (true, out') ↔
      (∀ e ∈ es, Fits e) ∧ out' = out ++ es.map (dedgeOf order) := by
  induction es generalizing i out with
  | nil =>
    simp only [writeEdges, Except.ok.injEq, Prod.mk.injEq, true_and, List.map_nil,
      List.append_nil, List.not_mem_nil, false_implies, implies_true]
    exact eq_comm
  | cons e es ih =>
    rw [writeEdges, nodeToDisk_eq]
    by_cases hf : Fits e
    · simp only [hf, if_true, writeOk, ih, List.forall_mem_cons, true_and, List.map_cons,
        List.append_assoc, List.singleton_append]
    · simp only [hf, if_false, List.forall_mem_cons, false_and, iff_false]
      exact fun h => nomatch h

theorem trieWriteTrie_iff (r : Trie) (out : List TrieDedge) :
    trieWriteTrie writeOk r = .ok (true, out) ↔
      (∀ e ∈ r.rBfsOrder, Fits e) ∧ out = r.rBfsOrder.map (dedgeOf r.rBfsOrder) := by
  rw [trieWriteTrie, writeEdges_iff, List.nil_append]

/-- Whatever is written are the records of the first edges, all of which fit. -/
theorem writeEdges_front {write : ℕ → Bool} {order es : List TrieEdge} {i : ℕ} {ret : Bool} {out out' : List TrieDedge}
    (h : writeEdges write order es i out = .ok (ret, out')) :
    ∃ ds, ds <+: es ∧ (∀ e ∈ ds, Fits e) ∧ out' = out ++ ds.map (dedgeOf order) := by
  induction es generalizing i out with
  | nil =>
    cases h
    exact ⟨[], List.nil_prefix, by simp, by simp⟩
  | cons e es ih =>
    rw [writeEdges, nodeToDisk_eq] at h
    by_cases hf : Fits e
    · rw [if_pos hf] at h
      dsimp only at h
      cases hw : write i with
      | false =>
        rw [hw] at h
        cases h
        exact ⟨[], List.nil_prefix, by simp, by simp⟩
      | true =>
        rw [hw] at h
        obtain ⟨ds, ⟨rest, rfl⟩, hfits, rfl⟩ := ih h
        refine ⟨e :: ds, ⟨rest, rfl⟩, List.forall_mem_cons.mpr ⟨hf, hfits⟩, ?_⟩
        rw [List.append_assoc, List.map_cons, List.singleton_append]
    · rw [if_neg hf] at h
      cases h

/-- What is written whole is written alike under any schedule. -/
theorem writeEdges_written {write : ℕ → Bool} {order es : List TrieEdge} {i : ℕ} {out out' : List TrieDedge}
    (h : writeEdges write order es i out = .ok (true, out')) : writeEdges writeOk order es i out = .ok (true, out') := by
  induction es generalizing i out with
  | nil => exact h
  | cons e es ih =>
    rw [writeEdges] at h ⊢
    cases hd : nodeToDisk e (firstChildIdx order e) with
    | error f =>
      rw [hd] at h
      cases h
    | ok d =>
      rw [hd] at h
      cases hw : write i with
      | false =>
        simp only [hw, Bool.false_eq_true, if_false] at h
        cases h
      | true =>
        simp only [hw, if_true] at h
        exact ih h

theorem trieWriteTrie_written {write : ℕ → Bool} {r : Trie} {out : List TrieDedge}
    (h : trieWriteTrie write r = .ok (true, out)) :
    (∀ e ∈ r.rBfsOrder, Fits e) ∧ out = r.rBfsOrder.map (dedgeOf r.rBfsOrder) :=
  (trieWriteTrie_iff r out).mp (writeEdges_written h)

theorem fits_iff_of_perm (edges : EdgeList) :
    (∀ e ∈ (trieOf edges).rBfsOrder, Fits e) ↔ ∀ e ∈ (trieOf edges).rRootEdge.edges, Fits e := by
  have hperm := doLayoutBfs_perm ⟨0, [], none, edges⟩
  exact ⟨fun h e he => h e (hperm.mem_iff.mpr he), fun h e he => h e (hperm.mem_iff.mp he)⟩

theorem Built.fits_iff {ents : List TrieEntry} {edges : EdgeList} (hr : Radixable ents 0)
    (h : Built ents 0 1 edges) : (∀ e ∈ (trieOf edges).rRootEdge.edges, Fits e) ↔ edges.Short := by
  constructor
  · intro hf e he
    exact (hf e (List.mem_cons_of_mem _ he)).2
  · intro hs e he
    have hord := h.ordered hr hs
    rcases List.mem_cons.mp he with rfl | he
    · exact ⟨hord.fanout, Nat.zero_le _⟩
    · exact ⟨(hord.below he).fanout, hs e he⟩

/-- Every edge built for the list fits its record, and all records are written. -/
def Encodable (ents : List TrieEntry) : Prop :=
  ∃ r, trieNew allocOk ents = .ok (some r) ∧
    (∀ e ∈ r.rRootEdge.edges, e.eCmp.length ≤ RE_EDGE_MAX ∧ e.eNumEdges < 0x100) ∧
    ∃ out, trieWriteTrie writeOk r = .ok (true, out)

theorem Encodable.remaindersBelow {ents : List TrieEntry} (hu : UriList ents)
    (h : Encodable ents) : ents ≠ [] ∧ RemaindersBelow 0x100 [] (ents.map TrieEntry.tStr) := by
  obtain ⟨r, hnew, -, out, hwrite⟩ := h
  have hne : ents ≠ [] := by
    rintro rfl
    cases trieNew_nil _ _ hnew
  refine ⟨hne, ?_⟩
  obtain ⟨edges, hb, hnew'⟩ := hu.trieNew_built hne
  obtain rfl : r = trieOf edges := by
    rw [hnew] at hnew'
    simpa using hnew'
  have hfits := (fits_iff_of_perm edges).mp ((trieWriteTrie_iff _ _).mp hwrite).1
  have hshort := (hb.fits_iff hu.radixable).mp hfits
  have hrem := (hb.short_iff (p := []) (by simp)).mp hshort
  simpa [TrieEntry.from] using hrem

theorem encodable_of_remaindersBelow {ents : List TrieEntry} (hu : UriList ents)
    (hne : ents ≠ []) (hrem : RemaindersBelow 0x100 [] (ents.map TrieEntry.tStr)) :
    Encodable ents := by
  obtain ⟨edges, hb, hnew⟩ := hu.trieNew_built hne
  have hshort : edges.Short := (hb.short_iff (p := []) (by simp)).mpr (by simpa using hrem)
  have hfits := (hb.fits_iff hu.radixable).mpr hshort
  refine ⟨trieOf edges, hnew, fun e he => (hfits e he).symm,
    (trieOf edges).rBfsOrder.map (dedgeOf (trieOf edges).rBfsOrder), ?_⟩
  exact (trieWriteTrie_iff _ _).mpr ⟨(fits_iff_of_perm edges).mpr hfits, rfl⟩

/-- A list of URIs can be written exactly when it has an entry and no URI is 256 bytes longer
than what it shares with the one before it. -/
theorem encodable_iff {ents : List TrieEntry} (hu : UriList ents) :
    Encodable ents ↔ ents ≠ [] ∧ RemaindersBelow 0x100 [] (ents.map TrieEntry.tStr) :=
  ⟨fun h => h.remaindersBelow hu, fun h => encodable_of_remaindersBelow hu h.1 h.2⟩

theorem encodable_iff_index : Encodable [⟨[47], 0⟩, ⟨[47, 97], 1⟩] ↔
    [(⟨[47], 0⟩ : TrieEntry), ⟨[47, 97], 1⟩] ≠ [] ∧ RemaindersBelow 0x100 [] [[47], [47, 97]] :=
  encodable_iff ⟨by decide, by decide, by decide⟩

/-- A single URI, a slash and `n` letters. -/
def longUri (n : ℕ) : List TrieEntry := [⟨47 :: List.replicate n 97, 0⟩]

theorem longUri_uriList (n : ℕ) : UriList (longUri n) := by
  refine ⟨?_, ?_, List.pairwise_singleton _ _⟩
  · intro e he
    obtain rfl := List.mem_singleton.mp he
    exact List.cons_ne_nil _ _
  · intro e he
    obtain rfl := List.mem_singleton.mp he
    rw [List.mem_cons, List.mem_replicate]
    rintro (h | ⟨-, h⟩)
    · exact absurd h (by decide)
    · exact absurd h (by decide)

theorem longUri_encodable {n : ℕ} (h : Encodable (longUri n)) : n < 255 := by
  obtain ⟨-, hlt, -⟩ := h.remaindersBelow (longUri_uriList n)
  rw [prefixLen_nil_left, List.length_cons, List.length_replicate] at hlt
  omega

theorem longUri_not_encodable : UriList (longUri 255) ∧ ¬ Encodable (longUri 255) :=
  ⟨longUri_uriList 255, fun h => absurd (longUri_encodable h) (by decide)⟩

end Ashttpd
