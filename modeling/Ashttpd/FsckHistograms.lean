import Ashttpd.FsckEntries
import Ashttpd.LinkedUris

/-!
# The histograms of `fsckroot`

`hist` has as many counters as the longest URI is long, and is indexed by the length of a label. A trie of
`mkroot` has the edge "/" on top, so that a label can only be as long as the longest URI if nothing is below it.
-/
namespace Ashttpd

/-- With as much time as the walks need `do_fsck` counts every edge in both histograms, with all indices inside the
arrays. -/
def HistogramsOk (recs : List TrieDedge) : Prop :=
  ∃ maxLen bound, ∀ fuel, bound ≤ fuel → dumpRoot recs fuel = .ok maxLen ∧ ∃ hist hist2,
    calcHists recs fuel 0 1 (List.replicate maxLen 0) (List.replicate 0x100 0) = .ok (hist, hist2) ∧
      (dumpHist hist).toNat = recs.length ∧ (dumpHist hist2).toNat = recs.length

/-- What `mkroot` hands to `trie_new`: all URIs start with a slash, and that of the base directory is nothing else. -/
structure MkrootList (ents : List TrieEntry) : Prop extends UriList ents where
  slashed : ∀ e ∈ ents, e.tStr.head? = some SLASH
  base : ∃ e ∈ ents, e.tStr = [SLASH]

variable {recs : List TrieDedge} {order : List TrieEdge} {base : ℕ} {alloc : ℕ → Bool} {ents : List TrieEntry} {l : EdgeList}

theorem histCount_of_ok {hist hist' : List UInt32} {i : ℕ} (h : histCount hist i = .ok hist') :
    i < hist.length ∧ CountedUp 1 hist hist' := by
  by_cases hi : i < hist.length
  · obtain ⟨hist'', hrun, hc⟩ := histCount_counted hi
    obtain rfl := Except.ok.inj (h.symm.trans hrun)
    exact ⟨hi, hc⟩
  · rw [histCount, if_neg hi] at h
    cases h

section walks

variable (hreads : ∀ k e, order[k]? = some e → ∃ d, EdgeReads recs order k e d) {fuel : ℕ}

include hreads

/-- `calc_hists` returns only if the labels are shorter than the array. -/
theorem calcHists_of_ok {hist hist2 : List UInt32} {hists : List UInt32 × List UInt32} (hl : StandsAt order base l)
    (h : calcHists recs fuel base l.toList.length hist hist2 = .ok hists) :
    hists.1.length = hist.length ∧ ∀ e ∈ l.edges, e.eCmp.length < hist.length := by
  induction l generalizing base fuel hist hist2 hists with
  | nil =>
    cases fuel with
    | zero => cases h
    | succ fuel =>
      obtain rfl := Except.ok.inj h
      simp [EdgeList.edges]
  | cons ptr cmp term kids next ihk ihn =>
    cases fuel with
    | zero => cases h
    | succ fuel =>
      obtain ⟨d, hd⟩ := hreads base _ hl.head
      have h : calcHists recs (fuel + 1) base (next.toList.length + 1) hist hist2 = .ok hists := h
      rw [hd.calcHists_round] at h
      obtain ⟨a, hbelow, h⟩ := bind_eq_ok_iff.mp h
      obtain ⟨b, hb, h⟩ := bind_eq_ok_iff.mp h
      obtain ⟨c, hc, hbehind⟩ := bind_eq_ok_iff.mp h
      obtain ⟨hak, hk⟩ := ihk hd.children hbelow
      obtain ⟨hlen, hcb⟩ := histCount_of_ok hb
      obtain ⟨hcn, hn⟩ := ihn hl.tail hbehind
      rw [hcb.length, hak] at hcn hn
      rw [hak] at hlen
      refine ⟨hcn, ?_⟩
      rw [EdgeList.edges, List.forall_mem_cons, List.forall_mem_append]
      exact ⟨hlen, hk, hn⟩

end walks

/-- The histograms of a table are right if the longest text is longer than every label, the empty one of the root
edge included. -/
theorem Recorded.histogramsOk_iff {edges : EdgeList} (h : Recorded recs (rootOf edges)) : HistogramsOk recs ↔
    recs.length < 2 ^ 32 ∧ ∀ e ∈ (rootList edges).edges, e.eCmp.length < edges.longest := by
  constructor
  · rintro ⟨maxLen, bound, hall⟩
    obtain ⟨hdump, hist, hist2, hcalc, htotal, -⟩ := hall (max bound (recs.length + 1)) (le_max_left _ _)
    have hlong : maxLen = edges.longest := Except.ok.inj (hdump.symm.trans (h.dumpRoot_eq (le_max_right bound _)))
    obtain ⟨-, hlabels⟩ := calcHists_of_ok (fun _ _ => h.reads) (Recorded.stands edges) hcalc
    rw [List.length_replicate, hlong] at hlabels
    exact ⟨htotal ▸ (dumpHist hist).toNat_lt, hlabels⟩
  · rintro ⟨hfew, hlabels⟩
    have hcount : ∀ {n : ℕ} {hist : List UInt32}, CountedUp recs.length (List.replicate n 0) hist →
        (dumpHist hist).toNat = recs.length := by
      intro n hist hc
      rw [hc.total, dumpHist_zeros, UInt32.zero_add, UInt32.toNat_ofNat', Nat.mod_eq_of_lt hfew]
    refine ⟨edges.longest, recs.length + 1, fun fuel hf => ⟨h.dumpRoot_eq hf, ?_⟩⟩
    obtain ⟨hist, hist2, hcalc, hc, hc2⟩ := h.calcHists_eq hf hlabels
    exact ⟨hist, hist2, hcalc, hcount hc, hcount hc2⟩

/-- A scan of a base directory makes such a list. -/
theorem Mkroot.Scannable.mkrootList {a : Attrs} {es : DirEntries Attrs} (h : Scannable a es) (base : Bytes)
    (magic : Bytes → Bytes) {depth : ℕ} (hdepth : es.height < depth) (hfew : (treeLinks es).length < 2 ^ 32) :
    ∃ r r', scanItem (treeFs base magic (.dir a es)) depth (webrootNew base) [] [] = .ok (some r) ∧
      sortUris r = .ok r' ∧ MkrootList (trieEntries r') := by
  obtain ⟨r, hscan, hadds⟩ := h.scan base magic hdepth
  obtain ⟨r', hsort, hperm, -, -, hlist, -⟩ := hadds.sorted_list h hfew
  have hmem : ∀ s, (∃ e ∈ trieEntries r', e.tStr = s) ↔ ∃ x ∈ treeLinks es, uriText x = s := by
    intro s
    have hmap : s ∈ (trieEntries r').map TrieEntry.tStr ↔ s ∈ (treeLinks es).map uriText := by
      rw [← hadds.map_uri, trieEntries, List.map_map]
      exact (hperm.map Uri.uUri).mem_iff
    simpa using hmap
  refine ⟨r, r', hscan, hsort, hlist, fun e he => ?_, (hmem [SLASH]).mpr ⟨([], true), List.mem_cons_self, rfl⟩⟩
  obtain ⟨⟨ps, last⟩, hx, htext⟩ := (hmem e.tStr).mp ⟨e, he, rfl⟩
  rw [← htext, uriText, List.head?_append]
  by_cases hps : ps = []
  · obtain ⟨-, -, hnil, -⟩ := h.mem_treeLinks.mp hx
    cases last with
    | false => exact absurd hps (hnil rfl)
    | true => simp [hps, pathOf]
  · rw [pathOf_head? hps]
    rfl

theorem Built.label_pos {ofs n : ℕ} (h : Built ents ofs n l) : ∀ e ∈ l.edges, 0 < e.eCmp.length := by
  induction h with
  | nil => simp [EdgeList.edges]
  | long hl hn ih =>
    rw [EdgeList.edges, List.forall_mem_cons, List.forall_mem_append, List.length_drop]
    exact ⟨by omega, by simp [EdgeList.edges], ih⟩
  | terminal hg he hk hn ihk ihn =>
    rw [EdgeList.edges, List.forall_mem_cons, List.forall_mem_append, hg.label_length]
    exact ⟨hg.pos, ihk, ihn⟩
  | inner hg he hk hn ihk ihn =>
    rw [EdgeList.edges, List.forall_mem_cons, List.forall_mem_append, hg.label_length]
    exact ⟨hg.pos, ihk, ihn⟩

theorem EdgeList.grown_labels {P : Bytes → Prop} (h : ∀ e ∈ l.edges, P e.eCmp) (alloc : ℕ → Bool) (level k : ℕ) :
    ∀ e ∈ (l.grown alloc level k).edges, P e.eCmp := by
  induction l generalizing level k with
  | nil => exact h
  | cons ptr cmp term kids next ihk ihn =>
    rw [edges, List.forall_mem_cons, List.forall_mem_append] at h
    rw [grown]
    split
    · rw [edges, List.forall_mem_cons, List.forall_mem_append]
      exact ⟨h.1, ihk h.2.1 _ _, ihn h.2.2 _ _⟩
    · simp [edges]

namespace MkrootList

theorem head (h : MkrootList ents) : ∃ v rest, ents = v :: rest ∧ v.tStr = [SLASH] := by
  obtain ⟨e, he, hbase⟩ := h.base
  cases ents with
  | nil => cases he
  | cons v rest =>
    refine ⟨v, rest, rfl, ?_⟩
    rcases List.mem_cons.mp he with rfl | he
    · exact hbase
    · have hlt : v.tStr < [SLASH] := hbase ▸ List.rel_of_pairwise_cons h.radixable.sorted he
      obtain ⟨t, ht⟩ := List.head?_eq_some_iff.mp (h.slashed v List.mem_cons_self)
      rw [ht] at hlt
      simp at hlt

/-- All edges are below that of "/". -/
theorem built {edges : EdgeList} (h : MkrootList ents) (hb : Built ents 0 1 edges) :
    ∃ v kids, edges = .cons 1 [SLASH] (some v) kids .nil ∧ ∀ e ∈ kids.edges, 0 < e.eCmp.length := by
  obtain ⟨v, rest, rfl, hv⟩ := h.head
  have hpos := hb.label_pos
  have hlen : v.tStr.length = 1 := by rw [hv, List.length_singleton]
  cases hb with
  | long hl hn => omega
  | @terminal _ group after _ len _ kids next hg he hk hn =>
    obtain rfl : len = 1 := by omega
    obtain rfl : after = [] := by
      cases after with
      | nil => rfl
      | cons a after =>
        obtain ⟨t, ht⟩ := List.head?_eq_some_iff.mp (h.slashed a (by simp))
        have hapart := hg.apart a rfl
        simp [TrieEntry.from, hv, ht] at hapart
    cases hn
    rw [EdgeList.edges, List.forall_mem_cons, List.forall_mem_append] at hpos
    refine ⟨v, kids, ?_, hpos.2.1⟩
    rw [TrieEntry.from, hv]
    rfl
  | inner hg he hk hn =>
    have hpos := hg.pos
    omega

end MkrootList

/-- With the edge of "/" on top, something must be below it. -/
theorem labels_below_slash_iff {ptr : ℕ} {term : Option TrieEntry} {kids : EdgeList}
    (hpos : ∀ e ∈ kids.edges, 0 < e.eCmp.length) :
    (∀ e ∈ (rootList (.cons ptr [SLASH] term kids .nil)).edges, e.eCmp.length < (EdgeList.cons ptr [SLASH] term kids .nil).longest) ↔
      kids ≠ .nil := by
  have hlongest : (EdgeList.cons ptr [SLASH] term kids .nil).longest = kids.longest + 1 := by simp [EdgeList.longest]
  rw [hlongest]
  constructor
  · rintro hlabels rfl
    have hslash := hlabels ⟨ptr, [SLASH], term, .nil⟩ (by simp [EdgeList.edges])
    exact absurd hslash (Nat.lt_irrefl 1)
  · intro hne e he
    have hlong : 0 < kids.longest := by
      cases kids with
      | nil => exact absurd rfl hne
      | cons ptr' cmp term' kids' next =>
        have hmem : ⟨ptr', cmp, term', kids'⟩ ∈ (EdgeList.cons ptr' cmp term' kids' next).edges := by simp [EdgeList.edges]
        exact Nat.lt_of_lt_of_le (hpos _ hmem) (EdgeList.length_le_longest hmem)
    simp only [EdgeList.edges, List.append_nil, List.mem_cons] at he
    rcases he with rfl | rfl | he
    · exact Nat.succ_pos _
    · exact Nat.succ_lt_succ hlong
    · exact Nat.lt_succ_of_le (EdgeList.length_le_longest he)

section written

variable {write : ℕ → Bool} {r : Trie}

theorem MkrootList.histogramsOk_iff (h : MkrootList ents) (hnew : trieNew alloc ents = .ok (some r))
    (hwrite : trieWriteTrie write r = .ok (true, recs)) (hfew : recs.length < 2 ^ 32) :
    HistogramsOk recs ↔ 2 < recs.length := by
  have hlen : recs.length = r.rBfsOrder.length := by
    rw [(trieWriteTrie_written hwrite).2, List.length_map]
  obtain ⟨edges, hb, hrec⟩ := h.toUriList.recorded hnew hwrite (indicesFit_of_length (by omega))
  obtain ⟨v, kids, rfl, hpos⟩ := h.built hb
  rw [hrec.histogramsOk_iff, hrec.length, EdgeList.size]
  rw [hrec.length, EdgeList.size] at hfew
  cases ha : alloc 1 with
  | false =>
    have hnil : (EdgeList.cons 1 [SLASH] (some v) kids .nil).grown alloc 1 1 = .nil := by simp [EdgeList.grown, ha]
    rw [hnil] at hfew ⊢
    simp [EdgeList.size, EdgeList.longest, EdgeList.edges]
  | true =>
    have hcons : (EdgeList.cons 1 [SLASH] (some v) kids .nil).grown alloc 1 1 =
        .cons 1 [SLASH] (some v) (kids.grown alloc 2 2) .nil := by simp [EdgeList.grown, ha]
    have hpos' := EdgeList.grown_labels (P := fun cmp => 0 < cmp.length) hpos alloc 2 2
    rw [hcons] at hfew ⊢
    rw [labels_below_slash_iff hpos']
    simp only [EdgeList.size] at hfew ⊢
    cases hk : kids.grown alloc 2 2 with
    | nil => simp [EdgeList.size]
    | cons ptr cmp term kids' next =>
      rw [hk] at hfew
      simp only [EdgeList.size] at hfew ⊢
      simp
      omega

/-- The histograms of what `mkroot` writes are right if and only if the trie has an edge besides that of the root and
that of "/", and its edges can be counted. -/
theorem calcHists_inBounds_iff (h : MkrootList ents) (hnew : trieNew alloc ents = .ok (some r))
    (hwrite : trieWriteTrie write r = .ok (true, recs)) : HistogramsOk recs ↔ 2 < recs.length ∧ recs.length < 2 ^ 32 := by
  by_cases hfew : recs.length < 2 ^ 32
  · rw [h.histogramsOk_iff hnew hwrite hfew, and_iff_left hfew]
  · constructor
    · rintro ⟨maxLen, bound, hall⟩
      obtain ⟨-, hist, hist2, -, htotal, -⟩ := hall bound (Nat.le_refl _)
      have hlt := (dumpHist hist).toNat_lt
      omega
    · exact fun hok => absurd hok.2 hfew

end written

theorem calcHists_inBounds_iff_index : HistogramsOk indexWebroot.rTrie ↔
    2 < indexWebroot.rTrie.length ∧ indexWebroot.rTrie.length < 2 ^ 32 := by
  have hu : UriList [⟨[47], 0⟩, ⟨[47, 97], 1⟩] := ⟨by decide, by decide, by decide⟩
  have hnew : trieNew allocOk [⟨[47], 0⟩, ⟨[47, 97], 1⟩] = .ok (some indexTrie) := by decide
  have hwrite : trieWriteTrie writeOk indexTrie = .ok (true, indexWebroot.rTrie) := by decide
  exact calcHists_inBounds_iff ⟨hu, by decide, by decide⟩ hnew hwrite

/-- In an empty base directory only "/" is linked, and the histogram of the labels has one counter too few. -/
theorem calcHists_outOfBounds : ∃ r r' trie recs,
    Mkroot.scanItem (Mkroot.treeFs [] id (.dir Mkroot.flatRoot .nil)) 1 (Mkroot.webrootNew []) [] [] = .ok (some r) ∧
      Mkroot.sortUris r = .ok r' ∧ MkrootList (Mkroot.trieEntries r') ∧
      trieNew allocOk (Mkroot.trieEntries r') = .ok (some trie) ∧ trieWriteTrie writeOk trie = .ok (true, recs) ∧
      ¬ HistogramsOk recs := by
  obtain ⟨r, r', hscan, hsort, hents⟩ : ∃ r r',
      Mkroot.scanItem (Mkroot.treeFs [] id (.dir Mkroot.flatRoot .nil)) 1 (Mkroot.webrootNew []) [] [] = .ok (some r) ∧
        Mkroot.sortUris r = .ok r' ∧ Mkroot.trieEntries r' = [⟨[47], 0⟩] :=
    ⟨_, _, rfl, rfl, by decide +kernel⟩
  have hlist : MkrootList [⟨[47], 0⟩] := ⟨⟨by decide, by decide, by decide⟩, by decide, by decide⟩
  have hnew : trieNew allocOk [⟨[47], 0⟩] = .ok (some (slashTrie ⟨[47], 0⟩)) := by decide
  refine ⟨r, r', _, _, hscan, hsort, hents ▸ hlist, hents ▸ hnew, slashTrie_written ⟨[47], 0⟩, ?_⟩
  rw [hlist.histogramsOk_iff hnew (slashTrie_written ⟨[47], 0⟩) (by decide)]
  decide

end Ashttpd
