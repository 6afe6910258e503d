import Ashttpd.TrieRoundTrip

/-!
# A trie whose edges cannot be counted

The counters of edges are 32 bits wide. The URIs below make a complete binary tree of
exactly 2^32 edges: the count stored for it is zero, and no record may be read.
-/
namespace Ashttpd

/-- All texts of a length over two letters, in increasing order. -/
def words : ℕ → List Bytes
  | 0 => [[]]
  | d + 1 => (words d).map (97 :: ·) ++ (words d).map (98 :: ·)

theorem words_ne_nil (d : ℕ) : words d ≠ [] := by
  induction d with
  | zero => simp [words]
  | succ d ih => simp [words, ih]

theorem length_of_mem_words {d : ℕ} {s : Bytes} (h : s ∈ words d) : s.length = d := by
  induction d generalizing s with
  | zero =>
    obtain rfl := List.mem_singleton.mp h
    rfl
  | succ d ih =>
    rw [words, List.mem_append, List.mem_map, List.mem_map] at h
    rcases h with ⟨t, ht, rfl⟩ | ⟨t, ht, rfl⟩
    · rw [List.length_cons, ih ht]
    · rw [List.length_cons, ih ht]

theorem zero_not_mem_words {d : ℕ} {s : Bytes} (h : s ∈ words d) : 0 ∉ s := by
  induction d generalizing s with
  | zero =>
    obtain rfl := List.mem_singleton.mp h
    exact List.not_mem_nil
  | succ d ih =>
    rw [words, List.mem_append, List.mem_map, List.mem_map] at h
    rcases h with ⟨t, ht, rfl⟩ | ⟨t, ht, rfl⟩
    · exact List.not_mem_cons_of_ne_of_not_mem (by decide) (ih ht)
    · exact List.not_mem_cons_of_ne_of_not_mem (by decide) (ih ht)

theorem words_sorted (d : ℕ) : (words d).Pairwise (· < ·) := by
  induction d with
  | zero => exact List.pairwise_singleton _ _
  | succ d ih =>
    have hblock : ∀ c : UInt8, ((words d).map (c :: ·)).Pairwise (· < ·) := by
      intro c
      rw [List.pairwise_map]
      exact ih.imp fun hlt => List.cons_lt_cons_iff.mpr (.inr ⟨rfl, hlt⟩)
    rw [words, List.pairwise_append]
    refine ⟨hblock 97, hblock 98, ?_⟩
    intro s hs t ht
    obtain ⟨s, -, rfl⟩ := List.mem_map.mp hs
    obtain ⟨t, -, rfl⟩ := List.mem_map.mp ht
    exact List.cons_lt_cons_iff.mpr (.inl (by decide))

/-- Two ways to cut a list where a property is lost for the first time are one. -/
theorem append_cut_unique {α : Type*} {P : α → Prop} {as bs cs ds : List α}
    (h : as ++ bs = cs ++ ds) (ha : ∀ a ∈ as, P a) (hc : ∀ c ∈ cs, P c)
    (hb : ∀ b ∈ bs.head?, ¬ P b) (hd : ∀ d ∈ ds.head?, ¬ P d) : as = cs ∧ bs = ds := by
  induction as generalizing cs with
  | nil =>
    cases cs with
    | nil => exact ⟨rfl, h⟩
    | cons c cs =>
      rw [List.nil_append] at h
      subst h
      exact absurd (hc c List.mem_cons_self) (hb c rfl)
  | cons a as ih =>
    cases cs with
    | nil =>
      rw [List.nil_append] at h
      subst h
      exact absurd (ha a List.mem_cons_self) (hd a rfl)
    | cons c cs =>
      obtain ⟨rfl, h'⟩ := List.cons.inj h
      obtain ⟨rfl, rfl⟩ := ih h' (fun x hx => ha x (List.mem_cons_of_mem _ hx))
        fun x hx => hc x (List.mem_cons_of_mem _ hx)
      exact ⟨rfl, rfl⟩

/-- A group is what starts with the first byte of its leading entry. -/
theorem Group.eq_block {v : TrieEntry} {group after : List TrieEntry} {ofs len : ℕ}
    (hg : Group v group after ofs len) {c : UInt8} {block : List Bytes} {tail : List Bytes}
    (h : (v :: (group ++ after)).map (·.from ofs) = block ++ tail)
    (hblock : ∀ s ∈ block, s.head? = some c) (htail : ∀ s ∈ tail.head?, s.head? ≠ some c)
    (hne : block ≠ []) :
    (v :: group).map (·.from ofs) = block ∧ after.map (·.from ofs) = tail := by
  have hv : (v.from ofs).head? = some c := by
    obtain ⟨s, rest, rfl⟩ := List.exists_cons_of_ne_nil hne
    rw [List.map_cons, List.cons_append] at h
    rw [(List.cons.inj h).1]
    exact hblock s List.mem_cons_self
  obtain ⟨t, ht⟩ : ∃ t, v.from ofs = c :: t := List.head?_eq_some_iff.mp hv
  rw [← List.cons_append, List.map_append] at h
  apply append_cut_unique (P := fun s => List.head? s = some c) h
  · intro s hs
    obtain ⟨e, he, rfl⟩ := List.mem_map.mp hs
    have hpos := hg.pos
    obtain ⟨k, rfl⟩ : ∃ k, len = k + 1 := ⟨len - 1, by omega⟩
    have hfrom := hg.from_eq he
    rw [ht, List.take_succ_cons, List.cons_append] at hfrom
    rw [hfrom, List.head?_cons]
  · exact hblock
  · intro s hs hc
    rw [List.head?_map, Option.mem_def, Option.map_eq_some_iff] at hs
    obtain ⟨e, he, rfl⟩ := hs
    obtain ⟨u, hu⟩ : ∃ u, e.from ofs = c :: u := List.head?_eq_some_iff.mp hc
    have hapart := hg.apart e he
    rw [ht, hu, prefixLen_cons_self] at hapart
    omega
  · exact htail

def wordBlock (c : UInt8) (t : Bytes) (d : ℕ) : List Bytes := (words d).map fun s => c :: (s ++ t)

variable {c : UInt8} {t : Bytes}

theorem wordBlock_ne_nil (d : ℕ) : wordBlock c t d ≠ [] := by simp [wordBlock, words_ne_nil]

theorem head_of_mem_wordBlock {d : ℕ} {s : Bytes} (h : s ∈ wordBlock c t d) : s.head? = some c := by
  obtain ⟨w, -, rfl⟩ := List.mem_map.mp h
  rfl

theorem wordBlock_succ (d : ℕ) :
    wordBlock c t (d + 1) = (wordBlock 97 t d ++ wordBlock 98 t d).map (c :: ·) := by
  unfold wordBlock
  rw [words, List.map_append, List.map_append, List.map_map, List.map_map, List.map_map, List.map_map]
  rfl

private theorem first_length {d : ℕ} {v : TrieEntry} {rest : List TrieEntry} {ofs : ℕ} {tail : List Bytes}
    (h : (v :: rest).map (·.from ofs) = wordBlock c t d ++ tail) :
    v.tStr.length - ofs = d + 1 + t.length := by
  obtain ⟨s, ss, hs⟩ := List.exists_cons_of_ne_nil (words_ne_nil d)
  rw [wordBlock, hs, List.map_cons, List.map_cons, List.cons_append] at h
  have hlen : (v.tStr.drop ofs).length = (c :: (s ++ t)).length := congrArg List.length (List.cons.inj h).1
  have hs' : s.length = d := length_of_mem_words (hs ▸ List.mem_cons_self)
  rw [List.length_drop, List.length_cons, List.length_append, hs'] at hlen
  omega

/-- Words over both letters behind one byte share no more than that byte. -/
private theorem Group.len_eq_one {d : ℕ} {v : TrieEntry} {group after : List TrieEntry}
    {ofs len : ℕ} (hg : Group v group after ofs len) {tail : List Bytes}
    (h : (v :: (group ++ after)).map (·.from ofs) = wordBlock c t (d + 1) ++ tail)
    (htail : ∀ s ∈ tail.head?, s.head? ≠ some c) : len = 1 := by
  obtain ⟨hgroup, -⟩ := hg.eq_block h (fun _ => head_of_mem_wordBlock) htail (wordBlock_ne_nil _)
  obtain ⟨s, ss, hs⟩ := List.exists_cons_of_ne_nil (words_ne_nil d)
  have hv : v.from ofs = c :: 97 :: (s ++ t) := by
    rw [wordBlock, words, hs, List.map_cons, List.map_cons, List.cons_append, List.map_cons] at hgroup
    exact (List.cons.inj hgroup).1
  have hmem : c :: 98 :: (s ++ t) ∈ (v :: group).map (·.from ofs) := by
    rw [hgroup, wordBlock, words, hs]
    simp
  obtain ⟨e, he, hfrom⟩ := List.mem_map.mp hmem
  have hne : e ≠ v := by
    rintro rfl
    rw [hv] at hfrom
    simp at hfrom
  have hshared := hg.shared e ((List.mem_cons.mp he).resolve_left hne)
  rw [hv, hfrom, prefixLen_cons_self, prefixLen_cons_ne (by decide)] at hshared
  have hpos := hg.pos
  omega

theorem Built.ne_nil {v : TrieEntry} {rest : List TrieEntry} {ofs n : ℕ} {l : EdgeList}
    (h : Built (v :: rest) ofs n l) : l.toList ≠ [] := by
  cases h with
  | long => simp [EdgeList.toList]
  | terminal => simp [EdgeList.toList]
  | inner => simp [EdgeList.toList]

/-- A block of words behind one byte makes a tree that is complete below its first edge, with `2 ^ (d + 1) - 1` edges if
nothing follows the words; the last edges of a way have children if what follows has no place in them. The induction is
on the length of the words, a block of longer words being two blocks below one edge. -/
theorem Built.words_block {d : ℕ} {ents : List TrieEntry} {ofs n : ℕ} {l : EdgeList}
    (h : Built ents ofs n l) {tail : List Bytes} (hd : d + 1 + t.length < 0x100)
    (hents : ents.map (·.from ofs) = wordBlock c t d ++ tail)
    (htail : ∀ s ∈ tail.head?, s.head? ≠ some c) :
    ∃ ptr cmp term kids next after m, l = .cons ptr cmp term kids next ∧ Built after ofs m next ∧
      after.map (·.from ofs) = tail ∧ (t = [] → kids.size + 2 = 2 ^ (d + 1)) ∧
      CompleteBelow TrieEdge.children (fun e => RE_EDGE_MAX ≤ t.length → e.children ≠ []) d ⟨ptr, cmp, term, kids⟩ := by
  induction d generalizing ents ofs n l c tail with
  | zero =>
    cases h with
    | nil => simp [wordBlock, words] at hents
    | @long v rest _ _ next hl hn =>
      have hlen := first_length hents
      omega
    | @terminal v group after _ len _ kids next hg hend hk hn =>
      obtain ⟨hgroup, hafter⟩ := hg.eq_block hents (fun _ => head_of_mem_wordBlock) htail (wordBlock_ne_nil _)
      have hnil : group = [] := by
        have hlen := congrArg List.length hgroup
        simpa [wordBlock, words] using hlen
      subst hnil
      cases hk
      refine ⟨_, _, _, _, next, after, _, rfl, hn, hafter, fun _ => rfl, fun hlong => ?_⟩
      have hlen := first_length hents
      have hcap := hg.cap
      omega
    | @inner v group after _ len _ kids next hg hend hk hn =>
      obtain ⟨-, hafter⟩ := hg.eq_block hents (fun _ => head_of_mem_wordBlock) htail (wordBlock_ne_nil _)
      refine ⟨_, _, _, _, next, after, _, rfl, hn, hafter, ?_, fun _ => hk.ne_nil⟩
      rintro rfl
      have hlen := first_length hents
      have hpos := hg.pos
      rw [List.length_nil] at hlen
      omega
  | succ d ih =>
    cases h with
    | nil => exact absurd hents.symm (by simp [wordBlock, words_ne_nil])
    | @long v rest _ _ next hl hn =>
      have hlen := first_length hents
      omega
    | @terminal v group after _ len _ kids next hg hend hk hn =>
      have hlen := first_length hents
      have hone := hg.len_eq_one hents htail
      omega
    | @inner v group after _ len _ kids next hg hend hk hn =>
      obtain ⟨hgroup, hafter⟩ := hg.eq_block hents (fun _ => head_of_mem_wordBlock) htail (wordBlock_ne_nil _)
      obtain rfl : len = 1 := hg.len_eq_one hents htail
      have hkids : (v :: group).map (·.from (ofs + 1)) = wordBlock 97 t d ++ wordBlock 98 t d := by
        have hdrop : (v :: group).map (·.from (ofs + 1)) =
            ((v :: group).map (·.from ofs)).map (List.drop 1) := by
          rw [List.map_map]
          apply List.map_congr_left
          intro e _
          exact e.from_add ofs 1
        rw [hdrop, hgroup, wordBlock_succ, List.map_map]
        exact List.map_id _
      have hhead : ∀ s ∈ (wordBlock 98 t d).head?, s.head? ≠ some 97 := by
        intro s hs
        rw [head_of_mem_wordBlock (List.mem_of_mem_head? hs)]
        decide
      obtain ⟨p, t', u, below, low, half, m, hcons, hlow, hhalf, hsize, hfull⟩ := ih hk (by omega) hkids hhead
      have hhalf' : half.map (·.from (ofs + 1)) = wordBlock 98 t d ++ [] := by
        rw [hhalf, List.append_nil]
      obtain ⟨p', t'', u', below', high, none, m', hcons', hhigh, hnone, hsize', hfull'⟩ :=
        ih hlow (by omega) hhalf' (by simp)
      obtain rfl : none = [] := List.map_eq_nil_iff.mp hnone
      cases hhigh
      subst hcons' hcons
      refine ⟨_, _, _, _, next, after, _, rfl, hn, hafter, fun ht => ?_, _, _, rfl, hfull, hfull'⟩
      have hlow := hsize ht
      have hhigh := hsize' ht
      simp only [EdgeList.size]
      omega

def wideUris (d : ℕ) : List TrieEntry := (words d).map fun s => ⟨47 :: s, 0⟩

theorem wideUris_uriList (d : ℕ) : UriList (wideUris d) := by
  have hmem : ∀ e ∈ wideUris d, ∃ s ∈ words d, e = ⟨47 :: s, 0⟩ := by
    intro e he
    obtain ⟨s, hs, rfl⟩ := List.mem_map.mp he
    exact ⟨s, hs, rfl⟩
  have hnul : ∀ s ∈ words d, (0 : UInt8) ∉ 47 :: s :=
    fun s hs => List.not_mem_cons_of_ne_of_not_mem (by decide) (zero_not_mem_words hs)
  refine ⟨?_, ?_, ?_⟩
  · intro e he
    obtain ⟨s, -, rfl⟩ := hmem e he
    exact List.cons_ne_nil _ _
  · intro e he
    obtain ⟨s, hs, rfl⟩ := hmem e he
    exact hnul s hs
  · rw [wideUris, List.pairwise_map]
    refine (words_sorted d).imp_of_mem ?_
    intro s t _ ht hlt
    exact (strcmp_neg_iff (hnul t ht)).mpr (List.cons_lt_cons_iff.mpr (.inr ⟨rfl, hlt⟩))

theorem wideUris_ne_nil (d : ℕ) : wideUris d ≠ [] := by
  simp [wideUris, words_ne_nil]

theorem remaindersBelow_of_length {bound : ℕ} {p : Bytes} {ss : List Bytes}
    (h : ∀ s ∈ ss, s.length < bound) : RemaindersBelow bound p ss := by
  induction ss generalizing p with
  | nil => trivial
  | cons s ss ih =>
    rw [List.forall_mem_cons] at h
    exact ⟨(Nat.sub_le _ _).trans_lt h.1, ih h.2⟩

/-- The trie of these words can be written. -/
theorem wideUris_trie {d : ℕ} (hd : d + 1 < 0x100) : ∃ ptr cmp term kids,
    trieNew allocOk (wideUris d) = .ok (some (trieOf (.cons ptr cmp term kids .nil))) ∧
      (∀ e ∈ (trieOf (.cons ptr cmp term kids .nil)).rBfsOrder, Fits e) ∧ kids.size + 2 = 2 ^ (d + 1) := by
  have hu := wideUris_uriList d
  obtain ⟨edges, hb, hnew⟩ := hu.trieNew_built (wideUris_ne_nil d)
  have hrem : RemaindersBelow 0x100 [] ((wideUris d).map (·.from 0)) := by
    apply remaindersBelow_of_length
    intro t ht
    obtain ⟨e, he, rfl⟩ := List.mem_map.mp ht
    obtain ⟨s, hs, rfl⟩ := List.mem_map.mp he
    have hlen : (47 :: s).length < 0x100 := by
      rw [List.length_cons, length_of_mem_words hs]
      omega
    exact hlen
  have hshort : edges.Short := (hb.short_iff (by simp)).mpr hrem
  have hfits := (fits_iff_of_perm edges).mpr ((hb.fits_iff hu.radixable).mpr hshort)
  have hents : (wideUris d).map (·.from 0) = wordBlock 47 [] d ++ [] := by
    rw [wideUris, wordBlock, List.map_map, List.append_nil]
    refine List.map_congr_left fun s _ => ?_
    rw [List.append_nil]
    rfl
  obtain ⟨ptr, cmp, term, kids, next, after, m, rfl, hnext, hafter, hsize, -⟩ := hb.words_block hd hents (by simp)
  obtain rfl : after = [] := List.map_eq_nil_iff.mp hafter
  cases hnext
  exact ⟨ptr, cmp, term, kids, hnew, hfits, hsize rfl⟩

theorem wideUris_written : ∃ r w, trieNew allocOk (wideUris 31) = .ok (some r) ∧ Maps w r ∧
    w.rNumEdges = 0 := by
  obtain ⟨ptr, cmp, term, kids, hnew, hfits, hsize⟩ := wideUris_trie (show 31 + 1 < 0x100 by decide)
  have hcount : trieNumEdges (trieOf (.cons ptr cmp term kids .nil)) = 0 := by
    have hcount' : (EdgeList.cons ptr cmp term kids .nil).size + 1 = 2 ^ 32 := by
      simp only [EdgeList.size]
      omega
    rw [trieNumEdges, trieOf, hcount']
    rfl
  refine ⟨_, ⟨[], 0, 0, 0, (trieOf (.cons ptr cmp term kids .nil)).rBfsOrder.map
    (dedgeOf (trieOf (.cons ptr cmp term kids .nil)).rBfsOrder), [], []⟩, hnew, ⟨?_, hcount.symm⟩, rfl⟩
  exact (trieWriteTrie_iff _ _).mpr ⟨hfits, rfl⟩

/-- A list on which every query reads behind the counted records. -/
theorem trieQuery_wideUris : UriList (wideUris 31) ∧
    (∀ e ∈ wideUris 31, e.tOid ≠ GIDX_INVALID_OID) ∧
    ∃ r w, trieNew allocOk (wideUris 31) = .ok (some r) ∧ Maps w r ∧
      ∀ m ptr len, trieQuery w m ptr len = .error .outOfRange := by
  refine ⟨wideUris_uriList 31, ?_, ?_⟩
  · intro e he
    obtain ⟨s, -, rfl⟩ := List.mem_map.mp he
    show (0 : UInt32) ≠ GIDX_INVALID_OID
    decide
  · obtain ⟨r, w, hnew, hmaps, hcount⟩ := wideUris_written
    refine ⟨r, w, hnew, hmaps, ?_⟩
    intro m ptr len
    have hread : readDedge w 0 = .error .outOfRange := by
      rw [readDedge, hcount, if_neg (by decide)]
    simp [trieQuery, trieQueryFrom, bisect, trieCmp, hread]

end Ashttpd
