import Ashttpd.TrieRecords

/-!
# Tries from allocations that fail

`do_radix` does not look at what its own call returns. What a failure below the first level takes away is
missing from the trie, and only a failure in the first level is told to the caller.
-/
namespace Ashttpd

/-- The strings that end at a terminal edge, with the path `p` before them. -/
def EdgeList.terminalPaths : EdgeList → Bytes → List Bytes
  | .nil, _ => []
  | .cons _ cmp term kids next, p =>
    (if term.isSome then [p ++ cmp] else []) ++ (kids.terminalPaths (p ++ cmp) ++ next.terminalPaths p)

/-- The same edges with their entries. -/
def EdgeList.terminals : EdgeList → Bytes → List (Bytes × TrieEntry)
  | .nil, _ => []
  | .cons _ cmp term kids next, p =>
    term.toList.map (p ++ cmp, ·) ++ (kids.terminals (p ++ cmp) ++ next.terminals p)

theorem EdgeList.terminalPaths_eq (l : EdgeList) (p : Bytes) : l.terminalPaths p = (l.terminals p).map Prod.fst := by
  induction l generalizing p with
  | nil => rfl
  | cons ptr cmp term kids next ihk ihn =>
    rw [terminalPaths, terminals, List.map_append, List.map_append, ihk, ihn]
    cases term with
    | none => rfl
    | some t => rfl

/-- `trie_new` returns `NULL`, or a trie in which every string is the path of one terminal edge. -/
def WholeOrNull (alloc : ℕ → Bool) (ents : List TrieEntry) : Prop :=
  trieNew alloc ents = .ok none ∨ ∃ r, trieNew alloc ents = .ok (some r) ∧
    ∀ e ∈ ents, (r.rRootEdge.eEdges.terminalPaths []).count e.tStr = 1

variable {ents : List TrieEntry} {ofs n : ℕ} {l : EdgeList} {alloc : ℕ → Bool}

theorem Group.take_eq {v e : TrieEntry} {group after : List TrieEntry} {len : ℕ} {p : Bytes}
    (h : Group v group after ofs len) (he : e ∈ v :: group) (hp : e.tStr.take ofs = p) :
    e.tStr.take (ofs + len) = p ++ (v.from ofs).take len := by
  rw [List.take_add, hp]
  congr 1
  show (e.from ofs).take len = _
  rw [h.from_eq he, List.take_left' h.label_length]

/-- In a whole tree the texts are those of the entries, in their order. -/
theorem Built.terminals (h : Built ents ofs n l) {p : Bytes} (hp : ∀ e ∈ ents, e.tStr.take ofs = p) :
    l.terminals p = ents.map fun e => (e.tStr, e) := by
  induction h generalizing p with
  | nil => rfl
  | @long v rest ofs n next hl hn ih =>
    have hv : p ++ v.from ofs = v.tStr := by rw [← hp v List.mem_cons_self, List.take_append_drop]
    have hrest := ih fun e he => hp e (List.mem_cons_of_mem _ he)
    rw [EdgeList.terminals, hv, hrest]
    rfl
  | @terminal v group after ofs len n kids next hg he hk hn ihk ihn =>
    have hv : p ++ (v.from ofs).take len = v.tStr := by
      rw [← hg.take_eq List.mem_cons_self (hp v List.mem_cons_self), he, List.take_length]
    have hkids := ihk fun e hmem => hg.take_eq (List.mem_cons_of_mem _ hmem)
      (hp e (List.mem_cons_of_mem _ (List.mem_append_left _ hmem)))
    have hnext := ihn fun e hmem => hp e (List.mem_cons_of_mem _ (List.mem_append_right _ hmem))
    rw [EdgeList.terminals, hkids, hnext, hv, List.map_cons, List.map_append]
    rfl
  | @inner v group after ofs len n kids next hg he hk hn ihk ihn =>
    have hmem : ∀ e ∈ v :: group, e ∈ v :: (group ++ after) := by
      intro e hmem
      rcases List.mem_cons.mp hmem with rfl | hmem
      · exact List.mem_cons_self
      · exact List.mem_cons_of_mem _ (List.mem_append_left _ hmem)
    have hkids := ihk fun e hin => hg.take_eq hin (hp e (hmem e hin))
    have hnext := ihn fun e hin => hp e (List.mem_cons_of_mem _ (List.mem_append_right _ hin))
    rw [EdgeList.terminals, hkids, hnext, List.map_cons, List.map_cons, List.map_append]
    rfl

theorem Built.terminalPaths (h : Built ents ofs n l) {p : Bytes} (hp : ∀ e ∈ ents, e.tStr.take ofs = p) :
    l.terminalPaths p = ents.map TrieEntry.tStr := by
  rw [l.terminalPaths_eq, h.terminals hp, List.map_map]
  rfl

theorem EdgeList.terminalPaths_of_kept {level k : ℕ} {p : Bytes} (h : ∀ c ∈ l.calls alloc level k, c.2 = true) :
    (l.grown alloc level k).terminalPaths p = l.terminalPaths p := by
  induction l generalizing level k p with
  | nil => rfl
  | cons ptr cmp term kids next ihk ihn =>
    rw [calls] at h
    split_ifs at h with ha
    · rw [grown, if_pos ha, terminalPaths, terminalPaths,
        ihk fun c hc => h c (List.mem_cons_of_mem _ (List.mem_append_left _ hc)),
        ihn fun c hc => h c (List.mem_cons_of_mem _ (List.mem_append_right _ hc))]
    · exact absurd (h _ (List.mem_singleton_self _)) Bool.false_ne_true

theorem failed_below_or_behind {level : ℕ} {below behind : List (ℕ × Bool)}
    (h : ∃ c ∈ (level, true) :: (below ++ behind), c.2 = false) :
    (∃ c ∈ below, c.2 = false) ∨ ∃ c ∈ behind, c.2 = false := by
  obtain ⟨c, hc, hfailed⟩ := h
  rcases List.mem_cons.mp hc with rfl | hc
  · cases hfailed
  rcases List.mem_append.mp hc with hc | hc
  · exact Or.inl ⟨c, hc, hfailed⟩
  · exact Or.inr ⟨c, hc, hfailed⟩

/-- There are never more paths than entries, and less if a call fails. -/
theorem Built.length_terminalPaths (h : Built ents ofs n l) (alloc : ℕ → Bool) (level k : ℕ) (p : Bytes) :
    ((l.grown alloc level k).terminalPaths p).length ≤ ents.length ∧
      ((∃ c ∈ l.calls alloc level k, c.2 = false) → ((l.grown alloc level k).terminalPaths p).length < ents.length) := by
  induction h generalizing level k p with
  | nil =>
    refine ⟨Nat.le_refl 0, ?_⟩
    rintro ⟨c, hc, -⟩
    cases hc
  | @long v rest ofs n next hl hn ih =>
    by_cases ha : alloc k = true
    · obtain ⟨hle, hlt⟩ := ih level (k + 1) p
      simp only [EdgeList.grown, EdgeList.calls, ha, EdgeList.terminalPaths, Option.isSome_some, if_true,
        List.length_append, List.length_cons, List.length_nil, Nat.add_zero]
      refine ⟨by omega, fun hfailed => ?_⟩
      rcases failed_below_or_behind hfailed with ⟨c, hc, -⟩ | hbehind
      · cases hc
      · have h := hlt hbehind
        omega
    · simp [EdgeList.grown, ha, EdgeList.terminalPaths]
  | @terminal v group after ofs len n kids next hg he hk hn ihk ihn =>
    rw [EdgeList.grown, EdgeList.calls]
    split_ifs with ha
    · obtain ⟨hle, hlt⟩ := ihk (level + 1) (k + 1) (p ++ (v.from ofs).take len)
      obtain ⟨hle', hlt'⟩ := ihn level (k + 1 + (kids.calls alloc (level + 1) (k + 1)).length) p
      simp only [EdgeList.terminalPaths, Option.isSome_some, if_true, List.length_append, List.length_cons, List.length_nil]
      refine ⟨by omega, fun hfailed => ?_⟩
      rcases failed_below_or_behind hfailed with hbelow | hbehind
      · have h := hlt hbelow
        omega
      · have h := hlt' hbehind
        omega
    · simp [EdgeList.terminalPaths]
  | @inner v group after ofs len n kids next hg he hk hn ihk ihn =>
    rw [EdgeList.grown, EdgeList.calls]
    split_ifs with ha
    · obtain ⟨hle, hlt⟩ := ihk (level + 1) (k + 1) (p ++ (v.from ofs).take len)
      obtain ⟨hle', hlt'⟩ := ihn level (k + 1 + (kids.calls alloc (level + 1) (k + 1)).length) p
      rw [List.length_cons] at hle hlt
      simp only [EdgeList.terminalPaths, Option.isSome_none, Bool.false_eq_true, if_false, List.length_append,
        List.length_cons, List.length_nil]
      refine ⟨by omega, fun hfailed => ?_⟩
      rcases failed_below_or_behind hfailed with hbelow | hbehind
      · have h := hlt hbelow
        omega
      · have h := hlt' hbehind
        omega
    · simp [EdgeList.terminalPaths]

/-- All strings are there if and only if no call fails. -/
theorem Built.all_paths_iff (h : Built ents 0 n l) (alloc : ℕ → Bool) (hr : Radixable ents 0) (level k : ℕ) :
    (∀ e ∈ ents, ((l.grown alloc level k).terminalPaths []).count e.tStr = 1) ↔
      ∀ c ∈ l.calls alloc level k, c.2 = true := by
  have hnodup : (ents.map TrieEntry.tStr).Nodup := by
    apply List.pairwise_map.mpr
    apply hr.sorted.imp
    rintro a b hab heq
    have hlt : a.tStr < b.tStr := hab
    rw [heq] at hlt
    exact absurd hlt (List.lt_irrefl _)
  constructor
  · intro hall c hc
    by_contra hfailed
    have hlt := (h.length_terminalPaths alloc level k []).2 ⟨c, hc, by simpa using hfailed⟩
    have hsub : ents.map TrieEntry.tStr ⊆ (l.grown alloc level k).terminalPaths [] := by
      intro s hs
      obtain ⟨e, he, rfl⟩ := List.mem_map.mp hs
      apply List.count_pos_iff.mp
      rw [hall e he]
      exact Nat.one_pos
    have hle := (hnodup.subperm hsub).length_le
    rw [List.length_map] at hle
    omega
  · intro hkept e he
    rw [EdgeList.terminalPaths_of_kept hkept, h.terminalPaths fun _ _ => rfl]
    exact List.count_eq_one_of_mem hnodup (List.mem_map_of_mem he)

theorem levelKept_eq_false {level : ℕ} {calls : List (ℕ × Bool)} : levelKept level calls = false ↔ (level, false) ∈ calls := by
  unfold levelKept
  rw [List.all_eq_false]
  constructor
  · rintro ⟨⟨d, b⟩, hc, hnot⟩
    simp at hnot
    rwa [← hnot.1, ← hnot.2]
  · intro hc
    exact ⟨_, hc, by simp⟩

/-- What `trie_new` leaves of a tree under a schedule. -/
def TrieGrown (ents : List TrieEntry) (edges : EdgeList) (alloc : ℕ → Bool) : Prop :=
  if alloc 0 = false ∨ levelKept 1 (edges.calls alloc 1 1) = false then trieNew alloc ents = .ok none
  else ∃ r, trieNew alloc ents = .ok (some r) ∧ r.rRootEdge.eEdges = edges.grown alloc 1 1

theorem UriList.trieNew_grown (hu : UriList ents) (hne : ents ≠ []) :
    ∃ edges, Built ents 0 1 edges ∧ ∀ alloc, TrieGrown ents edges alloc := by
  obtain ⟨edges, hb, hgrows⟩ := doRadix_grows 1 hu.radixable (Nat.lt_succ_self _)
  refine ⟨edges, hb, fun alloc => ?_⟩
  unfold TrieGrown
  have hemp : ents.isEmpty = false := by
    cases ents with
    | nil => exact absurd rfl hne
    | cons e es => rfl
  cases ha : alloc 0 with
  | false =>
    rw [if_pos (Or.inl rfl)]
    simp [trieNew, constructRadix, edgeNew, ha]
  | true =>
    have hrun := hgrows alloc 1 ⟨1, 1⟩
    have hnew : edgeNew alloc ⟨0, 0⟩ = (some 0, ⟨1, 1⟩) := by simp [edgeNew, ha]
    cases hkept : levelKept 1 (edges.calls alloc 1 1) with
    | false =>
      rw [if_pos (Or.inr rfl)]
      simp only [hkept] at hrun
      simp only [trieNew, constructRadix, hnew, hemp, Bool.false_eq_true, if_false, hrun]
    | true =>
      rw [if_neg (by simp)]
      simp only [hkept] at hrun
      simp only [trieNew, constructRadix, hnew, hemp, Bool.false_eq_true, if_false, hrun]
      exact ⟨_, rfl, rfl⟩

/-- Without failures the tree is that of the trie. -/
theorem Built.trieNew_allocOk {edges : EdgeList} (h : Built ents 0 1 edges) (hu : UriList ents) (hne : ents ≠ [])
    (hgrown : ∀ alloc, TrieGrown ents edges alloc) : trieNew allocOk ents = .ok (some (trieOf edges)) := by
  obtain ⟨edges', -, hnew⟩ := hu.trieNew_built hne
  have hroot : allocOk 0 ≠ false := by decide
  have hkept : levelKept 1 (edges.calls allocOk 1 1) ≠ false := by
    intro hfailed
    exact absurd ((edges.calls_allocOk 1 1).2 _ (levelKept_eq_false.mp hfailed)) Bool.false_ne_true
  have hall := hgrown allocOk
  unfold TrieGrown at hall
  rw [if_neg (not_or.mpr ⟨hroot, hkept⟩), h.grown_allocOk] at hall
  obtain ⟨r, hr, hedges⟩ := hall
  cases hnew.symm.trans hr
  rw [hnew, ← hedges]
  rfl

/-- For every schedule `trie_new` returns `NULL` or a trie with all strings if and only if the root edge or one
of the first level cannot be allocated, or all edges can. -/
theorem trieNew_whole_iff (hu : UriList ents) : ∃ edges,
    (ents ≠ [] → trieNew allocOk ents = .ok (some (trieOf edges))) ∧ ∀ alloc, WholeOrNull alloc ents ↔
      alloc 0 = false ∨ (1, false) ∈ edges.calls alloc 1 1 ∨ (ents ≠ [] ∧ ∀ c ∈ edges.calls alloc 1 1, c.2 = true) := by
  by_cases hne : ents = []
  · subst hne
    refine ⟨.nil, fun h => absurd rfl h, fun alloc => ⟨?_, ?_⟩⟩
    · intro h
      cases ha : alloc 0 with
      | false => exact Or.inl rfl
      | true =>
        have hfault : trieNew alloc [] = .error .assertion := by simp [trieNew, constructRadix, edgeNew, ha]
        rcases h with h | ⟨r, h, -⟩
        · cases hfault.symm.trans h
        · cases hfault.symm.trans h
    · rintro (ha | hcall | ⟨hne, -⟩)
      · exact Or.inl (by simp [trieNew, constructRadix, edgeNew, ha])
      · cases hcall
      · exact absurd rfl hne
  · obtain ⟨edges, hb, hnew⟩ := hu.trieNew_grown hne
    refine ⟨edges, fun _ => hb.trieNew_allocOk hu hne hnew, fun alloc => ?_⟩
    have hnew := hnew alloc
    unfold TrieGrown at hnew
    rw [← or_assoc, ← levelKept_eq_false]
    by_cases hnull : alloc 0 = false ∨ levelKept 1 (edges.calls alloc 1 1) = false
    · rw [if_pos hnull] at hnew
      exact ⟨fun _ => Or.inl hnull, fun _ => Or.inl hnew⟩
    · rw [if_neg hnull] at hnew
      obtain ⟨r, hr, hedges⟩ := hnew
      have hpaths := hb.all_paths_iff alloc hu.radixable 1 1
      rw [← hedges] at hpaths
      constructor
      · rintro (h | ⟨r', hr', hall⟩)
        · cases hr.symm.trans h
        · cases hr.symm.trans hr'
          exact Or.inr ⟨hne, hpaths.mp hall⟩
      · rintro (h | ⟨-, hkept⟩)
        · exact absurd h hnull
        · exact Or.inr ⟨r, hr, hpaths.mpr hkept⟩

def letterUris : List TrieEntry := [⟨[47], 0⟩, ⟨[47, 97], 1⟩, ⟨[47, 98], 2⟩]

theorem letterUris_uriList : UriList letterUris := ⟨by decide, by decide, by decide⟩

theorem trieNew_whole_iff_letters : ∃ edges,
    (letterUris ≠ [] → trieNew allocOk letterUris = .ok (some (trieOf edges))) ∧ ∀ alloc, WholeOrNull alloc letterUris ↔
      alloc 0 = false ∨ (1, false) ∈ edges.calls alloc 1 1 ∨
        (letterUris ≠ [] ∧ ∀ c ∈ edges.calls alloc 1 1, c.2 = true) :=
  trieNew_whole_iff letterUris_uriList

/-- The edge for "a" cannot be allocated: `trie_new` returns a trie without "/a" and "/b". -/
theorem trieNew_partial : ¬ WholeOrNull (fun k => k != 2) letterUris := by
  have hrun : (trieNew (fun k => k != 2) letterUris).toOption.any (fun r => r.any fun r =>
      r.rRootEdge.eEdges.terminalPaths [] == [[47]]) = true := by
    decide +kernel
  rintro (h | ⟨r, h, hall⟩)
  · rw [h] at hrun
    cases hrun
  · rw [h] at hrun
    have hpaths : r.rRootEdge.eEdges.terminalPaths [] = [[47]] := eq_of_beq hrun
    have ha := hall ⟨[47, 97], 1⟩ (by decide)
    rw [hpaths] at ha
    exact absurd ha (by decide)

end Ashttpd
