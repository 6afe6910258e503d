import Ashttpd.TrieRecords
import Ashttpd.Webroot

/-!
# What is written is what is found

`EdgeList.oidOf` says what a tree of edges answers to a text. The builder makes trees that
answer with the object of the text's own entry, and `trie_query` over the records of a tree
answers what the tree answers.
-/
namespace Ashttpd

/-- The object a record keeps for an edge. -/
def TrieEdge.oid (e : TrieEdge) : UInt32 :=
  match e.eTerminal with
  | some t => t.tOid
  | none => GIDX_INVALID_OID

/-- The object a sibling list leads to: the first label that starts the text is taken, and
the rest of the text looked up below it. -/
def EdgeList.oidOf : EdgeList → Bytes → UInt32
  | .nil, _ => GIDX_INVALID_OID
  | .cons ptr cmp term kids next, q =>
    if cmp <+: q then
      if q.length = cmp.length then TrieEdge.oid ⟨ptr, cmp, term, kids⟩
      else kids.oidOf (q.drop cmp.length)
    else next.oidOf q

theorem EdgeList.oidOf_of_no_prefix {l : EdgeList} {q : Bytes}
    (h : ∀ e ∈ l.toList, ¬ e.eCmp <+: q) : l.oidOf q = GIDX_INVALID_OID := by
  induction l with
  | nil => rfl
  | cons ptr cmp term kids next _ ih =>
    rw [toList, List.forall_mem_cons] at h
    rw [oidOf, if_neg h.1, ih h.2]

/-- In an ordered sibling list at most one label starts a text. -/
theorem EdgeList.Ordered.oidOf_of_prefix {l : EdgeList} (hl : l.Ordered) {e : TrieEdge}
    (he : e ∈ l.toList) {q : Bytes} (hp : e.eCmp <+: q) :
    l.oidOf q = if q.length = e.eCmp.length then e.oid
      else e.eEdges.oidOf (q.drop e.eCmp.length) := by
  induction l with
  | nil => simp [toList] at he
  | cons ptr cmp term kids next _ ih =>
    obtain ⟨hne, -, hlt, -, hn⟩ := hl
    rw [toList, List.mem_cons] at he
    rcases he with rfl | he
    · rw [oidOf, if_pos hp]
    · have hnot : ¬ cmp <+: q := by
        intro hc
        have hfirst := hlt e he
        have hne' := (hn.label he).1
        cases q with
        | nil => exact hne (List.prefix_nil.mp hc)
        | cons b q =>
          obtain ⟨a, as, rfl⟩ := List.exists_cons_of_ne_nil hne
          obtain ⟨c, cs, hcs⟩ := List.exists_cons_of_ne_nil hne'
          rw [hcs] at hp hfirst
          obtain ⟨rfl, -⟩ := List.cons_prefix_cons.mp hc
          obtain ⟨rfl, -⟩ := List.cons_prefix_cons.mp hp
          exact UInt8.lt_irrefl c hfirst
      rw [oidOf, if_neg hnot, ih hn he]

theorem EdgeList.oidOf_below {ptr : ℕ} {cmp q : Bytes} {term : Option TrieEntry}
    {kids next : EdgeList} (hq : q ≠ []) :
    (EdgeList.cons ptr cmp term kids next).oidOf (cmp ++ q) = kids.oidOf q := by
  have hlen : ¬ (cmp ++ q).length = cmp.length := by
    have := List.length_pos_iff.mpr hq
    rw [List.length_append]
    omega
  rw [oidOf, if_pos (List.prefix_append cmp q), if_neg hlen, List.drop_left]

theorem EdgeList.oidOf_self (ptr : ℕ) (cmp : Bytes) (term : Option TrieEntry)
    (kids next : EdgeList) :
    (EdgeList.cons ptr cmp term kids next).oidOf cmp = TrieEdge.oid ⟨ptr, cmp, term, kids⟩ := by
  rw [oidOf, if_pos (List.prefix_refl cmp), if_pos rfl]

/-- The label of a group does not start the suffix of an entry after the group. -/
theorem Radixable.label_not_prefix {v : TrieEntry} {group after : List TrieEntry} {ofs len : ℕ}
    (h : Radixable (v :: (group ++ after)) ofs) (hg : Group v group after ofs len)
    {e : TrieEntry} (he : e ∈ after) : ¬ (v.from ofs).take len <+: e.from ofs := by
  intro hp
  have hlt := h.first_lt hg e he
  obtain ⟨a, as, hc⟩ := List.exists_cons_of_ne_nil hg.label_ne_nil
  have hv : a = v.first ofs := by
    rw [← hg.label_first, hc, List.headD_cons]
  obtain ⟨t, ht⟩ := hp
  have he' : a = e.first ofs := by
    rw [TrieEntry.first, ← ht, hc, List.cons_append, List.headD_cons]
  rw [← hv, ← he'] at hlt
  exact UInt8.lt_irrefl a hlt

theorem Radixable.from_ne_nil {ents : List TrieEntry} {ofs : ℕ} (h : Radixable ents ofs)
    {e : TrieEntry} (he : e ∈ ents) : e.from ofs ≠ [] := by
  have := h.longer e he
  rw [ne_eq, List.drop_eq_nil_iff]
  omega

/-- A short tree answers the suffix of an entry with its object. -/
theorem Built.oidOf_mem {ents : List TrieEntry} {ofs n : ℕ} {l : EdgeList}
    (h : Built ents ofs n l) (hr : Radixable ents ofs) (hs : l.Short) {e : TrieEntry}
    (he : e ∈ ents) : l.oidOf (e.from ofs) = e.tOid := by
  induction h with
  | nil => simp at he
  | long hl hn ih =>
    have hcap := (EdgeList.short_cons.mp hs).1
    rw [List.length_drop, RE_EDGE_MAX] at hcap
    omega
  | @terminal v group after ofs len n kids next hg hend hk hn ihk ihn =>
    obtain ⟨-, hsk, hsn⟩ := EdgeList.short_cons.mp hs
    have hlabel : v.from ofs = (v.from ofs).take len :=
      (List.take_of_length_le (by rw [List.length_drop]; omega)).symm
    rcases List.mem_cons.mp he with rfl | he
    · rw [← hlabel, EdgeList.oidOf_self]
      rfl
    · rcases List.mem_append.mp he with he | he
      · have hcut := hr.cut_terminal hg
        rw [hg.from_eq (List.mem_cons_of_mem _ he), EdgeList.oidOf_below (hcut.from_ne_nil he)]
        exact ihk hcut hsk he
      · rw [EdgeList.oidOf, if_neg (hr.label_not_prefix hg he)]
        exact ihn hr.cut_after hsn he
  | @inner v group after ofs len n kids next hg hend hk hn ihk ihn =>
    obtain ⟨-, hsk, hsn⟩ := EdgeList.short_cons.mp hs
    rw [← List.cons_append] at he
    rcases List.mem_append.mp he with he | he
    · have hcut := hr.cut_inner hg hend
      rw [hg.from_eq he, EdgeList.oidOf_below (hcut.from_ne_nil he)]
      exact ihk hcut hsk he
    · rw [EdgeList.oidOf, if_neg (hr.label_not_prefix hg he)]
      exact ihn hr.cut_after hsn he

/-- A built tree answers any other text with no object. -/
theorem Built.oidOf_not_mem {ents : List TrieEntry} {ofs n : ℕ} {l : EdgeList}
    (h : Built ents ofs n l) (hs : l.Short) {q : Bytes} (hq : ∀ e ∈ ents, e.from ofs ≠ q) :
    l.oidOf q = GIDX_INVALID_OID := by
  induction h generalizing q with
  | nil => rfl
  | long hl hn ih =>
    have hcap := (EdgeList.short_cons.mp hs).1
    rw [List.length_drop, RE_EDGE_MAX] at hcap
    omega
  | @terminal v group after ofs len n kids next hg hend hk hn ihk ihn =>
    obtain ⟨-, hsk, hsn⟩ := EdgeList.short_cons.mp hs
    rw [EdgeList.oidOf]
    by_cases hp : (v.from ofs).take len <+: q
    · obtain ⟨t, rfl⟩ := hp
      have hlabel : (v.from ofs).take len = v.from ofs :=
        List.take_of_length_le (by rw [List.length_drop]; omega)
      have ht : t ≠ [] := by
        rintro rfl
        apply hq v List.mem_cons_self
        rw [List.append_nil, hlabel]
      have hbelow : ∀ e ∈ group, e.from (ofs + len) ≠ t := by
        intro e he heq
        apply hq e (List.mem_cons_of_mem _ (List.mem_append_left _ he))
        rw [hg.from_eq (List.mem_cons_of_mem _ he), heq]
      rw [← ihk hsk hbelow, ← EdgeList.oidOf, EdgeList.oidOf_below ht]
    · rw [if_neg hp]
      exact ihn hsn fun e he => hq e (List.mem_cons_of_mem _ (List.mem_append_right _ he))
  | @inner v group after ofs len n kids next hg hend hk hn ihk ihn =>
    obtain ⟨-, hsk, hsn⟩ := EdgeList.short_cons.mp hs
    rw [EdgeList.oidOf]
    by_cases hp : (v.from ofs).take len <+: q
    · obtain ⟨t, rfl⟩ := hp
      by_cases ht : t = []
      · subst ht
        rw [List.append_nil, if_pos (List.prefix_refl _), if_pos rfl]
        rfl
      · have hbelow : ∀ e ∈ v :: group, e.from (ofs + len) ≠ t := by
          intro e he heq
          apply hq e (by rw [← List.cons_append]; exact List.mem_append_left _ he)
          rw [hg.from_eq he, heq]
        rw [← ihk hsk hbelow, ← EdgeList.oidOf, EdgeList.oidOf_below ht]
    · rw [if_neg hp]
      exact ihn hsn fun e he => hq e (List.mem_cons_of_mem _ (List.mem_append_right _ he))

/-- A webroot whose trie table holds the edges below a root, in the order laid out. -/
structure Stores (w : Webroot) (root : TrieEdge) : Prop where
  records : w.rTrie = (doLayoutBfs root).map (dedgeOf (doLayoutBfs root))
  count : w.rNumEdges.toNat = (doLayoutBfs root).length
  nodup : ((doLayoutBfs root).map TrieEdge.ptr).Nodup
  fits : ∀ e ∈ doLayoutBfs root, Fits e

section stored

variable {w : Webroot} {root : TrieEdge} (h : Stores w root) {k : ℕ} {e : TrieEdge}

include h

theorem Stores.index_lt (hk : (doLayoutBfs root)[k]? = some e) : k < w.rNumEdges.toNat := by
  rw [h.count]
  exact (List.getElem?_eq_some_iff.mp hk).1

theorem Stores.readDedge_eq (hk : (doLayoutBfs root)[k]? = some e) :
    readDedge w k = .ok (dedgeOf (doLayoutBfs root) e) := by
  have hget : w.rTrie[k]? = some (dedgeOf (doLayoutBfs root) e) := by
    rw [h.records, List.getElem?_map, hk]
    rfl
  rw [readDedge, if_pos (h.index_lt hk), hget]

theorem Stores.fits_at (hk : (doLayoutBfs root)[k]? = some e) : Fits e :=
  h.fits e (List.mem_of_getElem? hk)

theorem Stores.strlen_eq (hk : (doLayoutBfs root)[k]? = some e) :
    (dedgeOf (doLayoutBfs root) e).reStrlen.toNat = e.eCmp.length := dedgeOf_strlen (h.fits_at hk) _

theorem Stores.numEdges_eq (hk : (doLayoutBfs root)[k]? = some e) :
    (dedgeOf (doLayoutBfs root) e).reNumEdges.toNat = e.children.length := dedgeOf_numEdges (h.fits_at hk) _

/-- The record of an edge points to its children, inside the table. -/
theorem Stores.children_at (hk : (doLayoutBfs root)[k]? = some e) :
    (dedgeOf (doLayoutBfs root) e).reEdgesIdx < w.rNumEdges ∧
      ∀ i < e.children.length, (doLayoutBfs root)[(dedgeOf (doLayoutBfs root) e).reEdgesIdx.toNat
        + i]? = e.children[i]? := by
  have hidx : (dedgeOf (doLayoutBfs root) e).reEdgesIdx = firstChildIdx (doLayoutBfs root) e := rfl
  rw [hidx, UInt32.lt_iff_toNat_lt]
  cases hc : e.children with
  | nil =>
    rw [firstChildIdx, hc]
    exact ⟨h.index_lt (doLayoutBfs_root root), by simp⟩
  | cons c cs =>
    obtain ⟨first, hfirst⟩ := doLayoutBfs_children root hk
    rw [hc] at hfirst
    have hc0 : (doLayoutBfs root)[first]? = some c := hfirst 0 (Nat.succ_pos _)
    have hlt := h.index_lt hc0
    have hnat : (firstChildIdx (doLayoutBfs root) e).toNat = first :=
      firstChildIdx_eq h.nodup hc hc0 (hlt.trans w.rNumEdges.toNat_lt)
    rw [hnat]
    exact ⟨hlt, hfirst⟩

theorem Stores.trieCmp_eq (hk : (doLayoutBfs root)[k]? = some e) (m : Mem) (ptr : ℕ) :
    trieCmp w m ptr k = .ok (memcmp (m.slice ptr e.eCmp.length) e.eCmp) := by
  have hcap := (h.fits_at hk).2
  simp only [trieCmp, h.readDedge_eq hk, h.strlen_eq hk, dedgeOf_str]
  rw [if_neg (by omega)]

end stored

/-- The answer of the comparison at a position of the order. -/
def labelCmp (order : List TrieEdge) (m : Mem) (ptr i : ℕ) : ℤ :=
  match order[i]? with
  | some e => memcmp (m.slice ptr e.eCmp.length) e.eCmp
  | none => 0

theorem labelCmp_eq {order : List TrieEdge} {i : ℕ} {e : TrieEdge} (hi : order[i]? = some e)
    (m : Mem) (ptr : ℕ) :
    labelCmp order m ptr i = memcmp (m.slice ptr e.eCmp.length) e.eCmp := by
  rw [labelCmp, hi]

/-- Along ordered siblings the comparison falls. -/
theorem EdgeList.Ordered.falling {l : EdgeList} (hl : l.Ordered) {order : List TrieEdge}
    {base : ℕ} (hbase : ∀ i < l.toList.length, order[base + i]? = l.toList[i]?) (m : Mem)
    (ptr : ℕ) : Falling (labelCmp order m ptr) base l.toList.length := by
  intro i j hi hij hj hle
  obtain ⟨i, rfl⟩ : ∃ n, i = base + n := ⟨i - base, by omega⟩
  obtain ⟨j, rfl⟩ : ∃ n, j = base + n := ⟨j - base, by omega⟩
  have hi' : i < l.toList.length := by omega
  have hj' : j < l.toList.length := by omega
  have hfirst : l.toList[i].eCmp.headD 0 < l.toList[j].eCmp.headD 0 :=
    List.pairwise_iff_getElem.mp hl.firsts i j hi' hj' (by omega)
  rw [labelCmp_eq ((hbase i hi').trans (List.getElem?_eq_getElem hi'))] at hle
  rw [labelCmp_eq ((hbase j hj').trans (List.getElem?_eq_getElem hj'))]
  obtain ⟨a, as, ha⟩ := List.exists_cons_of_ne_nil (hl.label (List.getElem_mem hi')).1
  obtain ⟨b, bs, hb⟩ := List.exists_cons_of_ne_nil (hl.label (List.getElem_mem hj')).1
  rw [ha, List.length_cons, Mem.slice_succ] at hle
  rw [hb, List.length_cons, Mem.slice_succ]
  rw [ha, hb, List.headD_cons, List.headD_cons] at hfirst
  exact memcmp_cons_of_lt (UInt8.lt_of_le_of_lt (le_of_memcmp_cons hle) hfirst) _ _

/-- Queries over stored siblings answer what the tree answers. The induction is on the
length of the text that is left. -/
theorem Stores.trieQueryFrom_siblings {w : Webroot} {root : TrieEdge} (h : Stores w root)
    {m : Mem} {fuel : ℕ} {l : EdgeList} (hl : l.Ordered) {q : Bytes} {ptr base : ℕ}
    (hq : m.HoldsStr ptr q) (hf : q.length < fuel)
    (hbase : ∀ i < l.toList.length, (doLayoutBfs root)[base + i]? = l.toList[i]?) :
    trieQueryFrom w m fuel base l.toList.length ptr q.length = .ok (l.oidOf q) := by
  induction fuel generalizing l q ptr base with
  | zero => omega
  | succ fuel ih =>
    have hat : ∀ i (hi : i < l.toList.length),
        (doLayoutBfs root)[base + i]? = some l.toList[i] :=
      fun i hi => (hbase i hi).trans (List.getElem?_eq_getElem hi)
    have hprobe : ∀ i, base ≤ i → i < base + l.toList.length →
        trieCmp w m ptr i = .ok (labelCmp (doLayoutBfs root) m ptr i) := by
      intro i h1 h2
      obtain ⟨i, rfl⟩ : ∃ n, i = base + n := ⟨i - base, by omega⟩
      rw [h.trieCmp_eq (hat i (by omega)), labelCmp_eq (hat i (by omega))]
    have hzero : ∀ i (hi : i < l.toList.length),
        labelCmp (doLayoutBfs root) m ptr (base + i) = 0 ↔ l.toList[i].eCmp <+: q := by
      intro i hi
      rw [labelCmp_eq (hat i hi), hq.memcmp_eq_zero_iff (hl.label (List.getElem_mem hi)).2]
    by_cases hex : ∃ e ∈ l.toList, e.eCmp <+: q
    · obtain ⟨e, he, hp⟩ := hex
      obtain ⟨i, hi, rfl⟩ := List.getElem_of_mem he
      have hfound := bisect_found hprobe (hl.falling hbase m ptr) (Nat.le_refl _)
        (Nat.le_add_right base i) (by omega) ((hzero i hi).mpr hp)
      obtain ⟨t, rfl⟩ := hp
      obtain ⟨hidx, hchildren⟩ := h.children_at (hat i hi)
      have hlen : (l.toList[i].eCmp ++ t).length - l.toList[i].eCmp.length = t.length := by
        rw [List.length_append, Nat.add_sub_cancel_left]
      simp only [trieQueryFrom, hfound, h.readDedge_eq (hat i hi), h.strlen_eq (hat i hi), hlen]
      rw [hl.oidOf_of_prefix he (List.prefix_append _ t), if_neg (by simp)]
      by_cases ht : t = []
      · subst ht
        rw [if_pos List.length_nil, if_pos (by rw [List.append_nil])]
        rfl
      · have hpos := List.length_pos_iff.mpr ht
        have hfirst := List.length_pos_iff.mpr (hl.label he).1
        rw [List.length_append] at hf
        rw [if_neg (by omega), if_pos hidx, if_neg (by rw [List.length_append]; omega),
          List.drop_left, h.numEdges_eq (hat i hi)]
        exact ih (hl.below (EdgeList.mem_edges_of_mem_toList he)) hq.drop (by omega) hchildren
    · have hmiss : bisect (trieCmp w m ptr) l.toList.length base l.toList.length = .ok none := by
        apply bisect_missing hprobe (Nat.le_refl _)
        intro k h1 h2 hk
        obtain ⟨i, rfl⟩ : ∃ n, k = base + n := ⟨k - base, by omega⟩
        have hi : i < l.toList.length := by omega
        exact hex ⟨l.toList[i], List.getElem_mem hi, (hzero i hi).mp hk⟩
      rw [trieQueryFrom, hmiss, EdgeList.oidOf_of_no_prefix fun e he hp => hex ⟨e, he, hp⟩]

/-- A query from the root record answers what the tree below the root answers. -/
theorem Stores.trieQuery_eq {w : Webroot} {edges : EdgeList}
    (h : Stores w ⟨0, [], none, edges⟩) (hl : edges.Ordered) {m : Mem} {q : Bytes} {ptr : ℕ}
    (hq : m.HoldsStr ptr q) :
    trieQuery w m ptr q.length = .ok (if q = [] then GIDX_INVALID_OID else edges.oidOf q) := by
  have hat := doLayoutBfs_root ⟨0, [], none, edges⟩
  have hroot : bisect (trieCmp w m ptr) 1 0 1 = .ok (some 0) := by
    have hcmp := h.trieCmp_eq hat m ptr
    simp only [bisect, Nat.reduceDiv, Nat.add_zero, hcmp]
    rfl
  obtain ⟨hidx, hchildren⟩ := h.children_at hat
  have hlen0 : (dedgeOf (doLayoutBfs ⟨0, [], none, edges⟩) ⟨0, [], none, edges⟩).reStrlen.toNat
      = 0 := h.strlen_eq hat
  simp only [trieQuery, trieQueryFrom, hroot, h.readDedge_eq hat, hlen0, Nat.not_lt_zero,
    if_false, Nat.sub_zero, Nat.add_zero]
  by_cases hnil : q = []
  · subst hnil
    rw [if_pos List.length_nil, if_pos rfl]
    rfl
  · have hpos := List.length_pos_iff.mpr hnil
    have hfuel : q.length < (w.rNumEdges.toNat + 1) * (q.length + 1) :=
      Nat.lt_of_lt_of_le (Nat.lt_succ_self _) (Nat.le_mul_of_pos_left _ (Nat.succ_pos _))
    rw [if_neg (by omega), if_pos hidx, if_neg hnil, h.numEdges_eq hat]
    exact h.trieQueryFrom_siblings hl hq hfuel hchildren

/-- A webroot maps the records written for a trie and counts them as the trie does. -/
structure Maps (w : Webroot) (r : Trie) : Prop where
  written : trieWriteTrie writeOk r = .ok (true, w.rTrie)
  counted : w.rNumEdges = trieNumEdges r

theorem Maps.stores {w : Webroot} {ents : List TrieEntry} {edges : EdgeList}
    (hb : Built ents 0 1 edges) (h : Maps w (trieOf edges)) (hfew : w.rTrie.length < 2 ^ 32) :
    Stores w ⟨0, [], none, edges⟩ := by
  obtain ⟨hfits, hrec⟩ := (trieWriteTrie_iff _ _).mp h.written
  refine ⟨hrec, ?_, hb.order_nodup, hfits⟩
  have hlen : (doLayoutBfs ⟨0, [], none, edges⟩).length = edges.size + 1 :=
    doLayoutBfs_length ⟨0, [], none, edges⟩
  have hsize : w.rTrie.length = edges.size + 1 := by
    rw [hrec, List.length_map]
    exact hlen
  have hcount : w.rNumEdges = UInt32.ofNat (edges.size + 1) := h.counted
  rw [hlen, hcount, UInt32.toNat_ofNat', Nat.mod_eq_of_lt (by omega)]

/-- Queries of a mapped trie answer the object listed for the text, or none when the text is
not listed. -/
theorem trieQuery_roundTrip {w : Webroot} {ents : List TrieEntry} {r : Trie} (hu : UriList ents)
    (hnew : trieNew allocOk ents = .ok (some r)) (h : Maps w r)
    (hfew : w.rTrie.length < 2 ^ 32) {m : Mem} {q : Bytes} {ptr : ℕ} (hq : m.HoldsStr ptr q) :
    (∀ e ∈ ents, e.tStr = q → trieQuery w m ptr q.length = .ok e.tOid) ∧
      ((∀ e ∈ ents, e.tStr ≠ q) → trieQuery w m ptr q.length = .ok GIDX_INVALID_OID) := by
  have hne : ents ≠ [] := by
    rintro rfl
    cases trieNew_nil _ _ hnew
  obtain ⟨edges, hb, hnew'⟩ := hu.trieNew_built hne
  obtain rfl : r = trieOf edges := by
    rw [hnew] at hnew'
    simpa using hnew'
  have hstores := h.stores hb hfew
  have hshort : edges.Short := by
    apply (hb.fits_iff hu.radixable).mp
    exact (fits_iff_of_perm edges).mp hstores.fits
  have hord := hb.ordered hu.radixable hshort
  rw [hstores.trieQuery_eq hord hq]
  constructor
  · rintro e he rfl
    rw [if_neg (hu.nonEmpty e he)]
    exact congrArg Except.ok (hb.oidOf_mem hu.radixable hshort he)
  · intro hnone
    split_ifs with hnil
    · rfl
    · exact congrArg Except.ok (hb.oidOf_not_mem hshort hnone)

theorem EdgeList.Ordered.nulFree {l : EdgeList} (h : l.Ordered) {e : TrieEdge} (he : e ∈ l.edges) : 0 ∉ e.eCmp := by
  induction l with
  | nil => simp [edges] at he
  | cons ptr cmp term kids next ihk ihn =>
    obtain ⟨-, h0, -, hk, hn⟩ := h
    rw [edges, List.mem_cons, List.mem_append] at he
    rcases he with rfl | he | he
    · exact h0
    · exact ihk hk he
    · exact ihn hn he

/-- The labels of a mapped trie are parts of its texts. -/
theorem Maps.textLabels {w : Webroot} {ents : List TrieEntry} {r : Trie} (hu : UriList ents)
    (hnew : trieNew allocOk ents = .ok (some r)) (h : Maps w r) (hfew : w.rTrie.length < 2 ^ 32) : w.TextLabels := by
  have hne : ents ≠ [] := by
    rintro rfl
    cases trieNew_nil _ _ hnew
  obtain ⟨edges, hb, hnew'⟩ := hu.trieNew_built hne
  obtain rfl : r = trieOf edges := by
    rw [hnew] at hnew'
    simpa using hnew'
  have hstores := h.stores hb hfew
  have hshort : edges.Short := by
    apply (hb.fits_iff hu.radixable).mp
    exact (fits_iff_of_perm edges).mp hstores.fits
  intro d hd
  rw [hstores.records] at hd
  obtain ⟨e, he, rfl⟩ := List.mem_map.mp hd
  rw [dedgeOf_strlen (hstores.fits e he), dedgeOf_str]
  have hmem := (doLayoutBfs_perm _).mem_iff.mp he
  rw [TrieEdge.edges, List.mem_cons] at hmem
  rcases hmem with rfl | hmem
  · simp
  · exact (hb.ordered hu.radixable hshort).nulFree hmem

def indexTrie : Trie :=
  trieOf (.cons 1 [47] (some ⟨[47], 0⟩) (.cons 2 [97] (some ⟨[47, 97], 1⟩) .nil .nil) .nil)

def indexWebroot : Webroot where
  rMap := []
  rNumEdges := 3
  rNumRedirect := 0
  rNumOid := 2
  rTrie := [⟨GIDX_INVALID_OID, 1, 1, 0, [0, 0, 0, 0, 0, 0, 0, 0]⟩,
    ⟨0, 2, 1, 1, [47, 0, 0, 0, 0, 0, 0, 0]⟩, ⟨1, 0, 0, 1, [97, 0, 0, 0, 0, 0, 0, 0]⟩]
  rRedir := []
  rFile := []

theorem trieQuery_roundTrip_index :
    trieQuery indexWebroot (Mem.store 0 0 ([47, 97] ++ 0 :: [97, 98])) 0 2 = .ok 1 := by
  have hu : UriList [⟨[47], 0⟩, ⟨[47, 97], 1⟩] := ⟨by decide, by decide, by decide⟩
  have hm : Maps indexWebroot indexTrie := ⟨by decide, by decide⟩
  exact (trieQuery_roundTrip hu (r := indexTrie) (by decide) hm (by decide)
    (Mem.holdsStr_store 0 0 [47, 97] [97, 98] (by decide))).1 ⟨[47, 97], 1⟩ (by decide) rfl

end Ashttpd
