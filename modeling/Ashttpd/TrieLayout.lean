import Ashttpd.TrieRadix
import Mathlib.Data.Finset.Dedup
import Mathlib.Order.Interval.Finset.Nat

/-!
# The edges of a built tree and their layout

Which label lengths and fan-outs a `Built` tree has, and where `do_layout_bfs` puts its
edges. `Short` trees, those without a label over `RE_EDGE_MAX`, are the ones whose
siblings start with different bytes.
-/
namespace Ashttpd

/-- The edges of a sibling list and all edges below them, depth first. -/
def EdgeList.edges : EdgeList → List TrieEdge
  | .nil => []
  | .cons ptr cmp term kids next => ⟨ptr, cmp, term, kids⟩ :: (kids.edges ++ next.edges)

def TrieEdge.edges (e : TrieEdge) : List TrieEdge := e :: e.eEdges.edges

theorem EdgeList.edges_eq (l : EdgeList) : l.edges = l.toList.flatMap TrieEdge.edges := by
  induction l with
  | nil => rfl
  | cons ptr cmp term kids next _ ih =>
    rw [edges, ih, toList, List.flatMap_cons, TrieEdge.edges, List.cons_append]

theorem TrieEdge.edges_eq (e : TrieEdge) :
    e.edges = e :: e.children.flatMap TrieEdge.edges := by
  rw [edges, EdgeList.edges_eq, children]

theorem EdgeList.toList_inj {l l' : EdgeList} (h : l.toList = l'.toList) : l = l' := by
  induction l generalizing l' with
  | nil =>
    cases l' with
    | nil => rfl
    | cons ptr cmp term kids next => cases h
  | cons ptr cmp term kids next _ ih =>
    cases l' with
    | nil => cases h
    | cons ptr' cmp' term' kids' next' =>
      obtain ⟨hhead, hnext⟩ := List.cons.inj h
      cases hhead
      rw [ih hnext]

theorem EdgeList.length_edges (l : EdgeList) : l.edges.length = l.size := by
  induction l with
  | nil => rfl
  | cons ptr cmp term kids next hk hn =>
    simp only [edges, size, List.length_cons, List.length_append, hk, hn]
    omega

theorem TrieEdge.length_edges (e : TrieEdge) : e.edges.length = e.eEdges.size + 1 := by
  rw [TrieEdge.edges, List.length_cons, EdgeList.length_edges]

theorem EdgeList.length_toList_le (l : EdgeList) : l.toList.length ≤ l.size := by
  induction l with
  | nil => exact Nat.le_refl 0
  | cons ptr cmp term kids next _ ih =>
    rw [toList, List.length_cons, size]
    omega

theorem EdgeList.mem_edges_of_mem_toList {l : EdgeList} {e : TrieEdge} (h : e ∈ l.toList) :
    e ∈ l.edges := by
  rw [edges_eq, List.mem_flatMap]
  exact ⟨e, h, List.mem_cons_self⟩

theorem EdgeList.children_mem_edges {l : EdgeList} {e c : TrieEdge} (he : e ∈ l.edges) (hc : c ∈ e.children) :
    c ∈ l.edges := by
  induction l with
  | nil => simp [edges] at he
  | cons ptr cmp term kids next ihk ihn =>
    rw [edges, List.mem_cons, List.mem_append] at he ⊢
    rcases he with rfl | he | he
    · exact Or.inr (Or.inl (mem_edges_of_mem_toList hc))
    · exact Or.inr (Or.inl (ihk he))
    · exact Or.inr (Or.inr (ihn he))

theorem EdgeList.size_lt_of_mem {l : EdgeList} {e : TrieEdge} (h : e ∈ l.toList) :
    e.eEdges.size < l.size := by
  induction l with
  | nil => simp [toList] at h
  | cons ptr cmp term kids next _ ih =>
    rw [toList, List.mem_cons] at h
    rcases h with rfl | h
    · simp only [size]
      omega
    · have := ih h
      simp only [size]
      omega

theorem TrieEdge.children_mem_edges {root e c : TrieEdge} (he : e ∈ root.edges) (hc : c ∈ e.children) : c ∈ root.edges := by
  rcases List.mem_cons.mp he with rfl | he
  · exact List.mem_cons_of_mem _ (EdgeList.mem_edges_of_mem_toList hc)
  · exact List.mem_cons_of_mem _ (EdgeList.children_mem_edges he hc)

theorem TrieEdge.size_children (e : TrieEdge) : ∀ c ∈ e.children, c.eEdges.size < e.eEdges.size :=
  fun _ hc => EdgeList.size_lt_of_mem hc

theorem range'_split (n k m : ℕ) :
    n :: (List.range' (n + 1) k ++ List.range' (n + 1 + k) m) = List.range' n (k + 1 + m) := by
  rw [List.range'_append_1, ← List.range'_succ]
  congr 1
  omega

/-- The addresses of a built tree are consecutive allocations. -/
theorem Built.ptrs {ents : List TrieEntry} {ofs n : ℕ} {l : EdgeList} (h : Built ents ofs n l) :
    l.edges.map TrieEdge.ptr = List.range' n l.size := by
  induction h with
  | nil => rfl
  | @long v rest ofs n next hl hn ih =>
    simp only [EdgeList.edges, EdgeList.size, List.map_cons, List.nil_append, ih]
    exact range'_split n 0 next.size
  | terminal hg he hk hn ihk ihn =>
    simp only [EdgeList.edges, EdgeList.size, List.map_cons, List.map_append, ihk, ihn]
    exact range'_split _ _ _
  | inner hg he hk hn ihk ihn =>
    simp only [EdgeList.edges, EdgeList.size, List.map_cons, List.map_append, ihk, ihn]
    exact range'_split _ _ _

/-- The addresses of what a schedule leaves are among the allocations made for it. -/
theorem EdgeList.grown_ptrs (l : EdgeList) (alloc : ℕ → Bool) (level n : ℕ) :
    ((l.grown alloc level n).edges.map TrieEdge.ptr).Sublist (List.range' n (l.calls alloc level n).length) := by
  induction l generalizing level n with
  | nil => exact List.Sublist.refl _
  | cons ptr cmp term kids next ihk ihn =>
    rw [grown, calls]
    split_ifs
    · have hk := ihk (level + 1) (n + 1)
      have hn := ihn level (n + 1 + (kids.calls alloc (level + 1) (n + 1)).length)
      have hsum : ∀ a b : ℕ, a + b + 1 = a + 1 + b := by omega
      rw [edges, List.map_cons, List.map_append, List.length_cons, List.length_append, hsum, ← range'_split]
      exact (hk.append hn).cons_cons n
    · exact List.nil_sublist _

/-- No label is over `RE_EDGE_MAX`. -/
def EdgeList.Short (l : EdgeList) : Prop := ∀ e ∈ l.edges, e.eCmp.length ≤ RE_EDGE_MAX

theorem EdgeList.short_nil : EdgeList.nil.Short := by
  intro e he
  simp [edges] at he

theorem EdgeList.short_cons {ptr : ℕ} {cmp : Bytes} {term : Option TrieEntry}
    {kids next : EdgeList} :
    (EdgeList.cons ptr cmp term kids next).Short ↔
      cmp.length ≤ RE_EDGE_MAX ∧ kids.Short ∧ next.Short := by
  simp only [Short, edges, List.forall_mem_cons, List.forall_mem_append]

theorem Group.label_length {v : TrieEntry} {group after : List TrieEntry} {ofs len : ℕ}
    (h : Group v group after ofs len) : ((v.from ofs).take len).length = len := by
  have hf := h.fits
  simp only [List.length_take, List.length_drop]
  omega

theorem Group.label_short {v : TrieEntry} {group after : List TrieEntry} {ofs len : ℕ}
    (h : Group v group after ofs len) : ((v.from ofs).take len).length ≤ RE_EDGE_MAX := by
  rw [h.label_length]
  exact h.cap

/-- Two lists that start alike share nothing with the same lists. -/
theorem prefixLen_eq_zero_of_shared {α : Type*} [DecidableEq α] {p q s : List α}
    (hpq : 0 < prefixLen p q) (h : prefixLen p s = 0) : prefixLen q s = 0 := by
  cases p with
  | nil => simp at hpq
  | cons a p =>
    cases q with
    | nil => simp
    | cons b q =>
      obtain rfl := prefixLen_cons_pos hpq
      cases s with
      | nil => simp
      | cons c s =>
        have hne : a ≠ c := by
          rintro rfl
          simp at h
        rw [prefixLen_cons_ne hne]

/-- What stands last in a group shares nothing with what comes after the group. -/
theorem Group.apart_last {v : TrieEntry} {group after : List TrieEntry} {ofs len : ℕ}
    (h : Group v group after ofs len) :
    ∀ s ∈ (after.map (·.from ofs)).head?,
      prefixLen ((group.map (·.from ofs)).getLastD (v.from ofs)) s = 0 := by
  intro s hs
  rw [List.head?_map, Option.mem_def, Option.map_eq_some_iff] at hs
  obtain ⟨e, he, rfl⟩ := hs
  have hv := h.apart e he
  cases hl : group.getLast? with
  | none =>
    rw [List.getLast?_eq_none_iff] at hl
    simpa [hl] using hv
  | some g =>
    have hmem : g ∈ group := List.mem_of_getLast? hl
    have hlast : (group.map (·.from ofs)).getLastD (v.from ofs) = g.from ofs := by
      rw [List.getLastD_eq_getLast?, List.getLast?_map, hl]
      rfl
    rw [hlast]
    have hshared := h.shared g hmem
    have hpos := h.pos
    exact prefixLen_eq_zero_of_shared (by omega) hv

theorem Group.map_from {v : TrieEntry} {group after sub : List TrieEntry} {ofs len : ℕ}
    (h : Group v group after ofs len) (hsub : sub ⊆ v :: group) :
    sub.map (·.from ofs) = (sub.map (·.from (ofs + len))).map ((v.from ofs).take len ++ ·) := by
  rw [List.map_map]
  apply List.map_congr_left
  intro e he
  exact h.from_eq (hsub he)

theorem Group.remainders {v : TrieEntry} {group after sub : List TrieEntry} {ofs len : ℕ}
    (h : Group v group after ofs len) (hsub : sub ⊆ v :: group) (p : Bytes) :
    RemaindersBelow 0x100 p (sub.map (·.from (ofs + len))) ↔
      RemaindersBelow 0x100 ((v.from ofs).take len ++ p) (sub.map (·.from ofs)) := by
  rw [h.map_from hsub, remaindersBelow_shift]

/-- A built tree is short exactly when every suffix is less than 256 bytes longer than what
it shares with the suffix before it. -/
theorem Built.short_iff {ents : List TrieEntry} {ofs n : ℕ} {l : EdgeList}
    (h : Built ents ofs n l) {p : Bytes}
    (hp : ∀ s ∈ (ents.map (·.from ofs)).head?, prefixLen p s = 0) :
    l.Short ↔ RemaindersBelow 0x100 p (ents.map (·.from ofs)) := by
  induction h generalizing p with
  | nil => exact ⟨fun _ => trivial, fun _ => EdgeList.short_nil⟩
  | @long v rest ofs n next hl hn ih =>
    have hv : prefixLen p (v.from ofs) = 0 := hp _ rfl
    have hlen : 0x100 ≤ (v.from ofs).length := by rwa [List.length_drop]
    rw [EdgeList.short_cons, List.map_cons, RemaindersBelow, hv]
    constructor
    · rintro ⟨hcap, -⟩
      rw [RE_EDGE_MAX] at hcap
      omega
    · rintro ⟨hshort, -⟩
      omega
  | @terminal v group after ofs len n kids next hg he hk hn ihk ihn =>
    have hv : prefixLen p (v.from ofs) = 0 := hp _ rfl
    have hshort : (v.from ofs).length < 0x100 := by
      rw [List.length_drop]
      exact hg.short
    have hkids := ihk (p := []) (by simp)
    rw [hg.remainders (List.subset_cons_self v group), List.append_nil,
      List.take_of_length_le (by rw [List.length_drop]; omega)] at hkids
    rw [EdgeList.short_cons, List.map_cons, List.map_append, RemaindersBelow, hv,
      remaindersBelow_append, hkids, ihn hg.apart_last]
    exact ⟨fun hs => ⟨hshort, hs.2⟩, fun hs => ⟨hg.label_short, hs.2⟩⟩
  | @inner v group after ofs len n kids next hg he hk hn ihk ihn =>
    have hv : prefixLen p (v.from ofs) = 0 := hp _ rfl
    have hshort : (v.from ofs).length < 0x100 := by
      rw [List.length_drop]
      exact hg.short
    have hkids := ihk (p := []) (by simp)
    rw [hg.remainders (List.Subset.refl _), List.append_nil, List.map_cons, RemaindersBelow]
      at hkids
    rw [EdgeList.short_cons, List.map_cons, List.map_append, RemaindersBelow, hv,
      remaindersBelow_append, hkids, ihn hg.apart_last]
    constructor
    · rintro ⟨-, ⟨-, hgroup⟩, hafter⟩
      exact ⟨hshort, hgroup, hafter⟩
    · rintro ⟨-, hgroup, hafter⟩
      exact ⟨hg.label_short, ⟨(Nat.sub_le _ _).trans_lt hshort, hgroup⟩, hafter⟩

/-- An edge of a short tree takes up at most eight bytes of what the entries add to those before them. -/
theorem Built.remaindersLength_le {ents : List TrieEntry} {ofs n : ℕ} {l : EdgeList} (h : Built ents ofs n l)
    (hs : l.Short) {p : Bytes} (hp : ∀ s ∈ (ents.map (·.from ofs)).head?, prefixLen p s = 0) :
    remaindersLength p (ents.map (·.from ofs)) ≤ RE_EDGE_MAX * l.size := by
  induction h generalizing p with
  | nil => exact Nat.zero_le _
  | long hl hn ih =>
    have hcap := (EdgeList.short_cons.mp hs).1
    rw [List.length_drop, RE_EDGE_MAX] at hcap
    omega
  | @terminal v group after ofs len n kids next hg he hk hn ihk ihn =>
    obtain ⟨-, hsk, hsn⟩ := EdgeList.short_cons.mp hs
    have hv : prefixLen p (v.from ofs) = 0 := hp _ rfl
    have hlen : (v.from ofs).length = len := by
      rw [List.length_drop]
      omega
    have hkids := ihk hsk (p := []) (by simp)
    rw [← remaindersLength_shift ((v.from ofs).take len), ← hg.map_from (List.subset_cons_self v group), List.append_nil,
      List.take_of_length_le (by omega)] at hkids
    have hnext := ihn hsn hg.apart_last
    have hcap := hg.cap
    rw [List.map_cons, List.map_append, remaindersLength, remaindersLength_append, hv, hlen, EdgeList.size, Nat.mul_add,
      Nat.mul_add]
    omega
  | @inner v group after ofs len n kids next hg he hk hn ihk ihn =>
    obtain ⟨-, hsk, hsn⟩ := EdgeList.short_cons.mp hs
    have hv : prefixLen p (v.from ofs) = 0 := hp _ rfl
    have hkids := ihk hsk (p := []) (by simp)
    have hfrom : (v.from ofs).length = len + (v.from (ofs + len)).length := by
      rw [List.length_drop, List.length_drop]
      omega
    have hshift : remaindersLength (v.from ofs) (group.map (·.from ofs)) =
        remaindersLength (v.from (ofs + len)) (group.map (·.from (ofs + len))) := by
      have hv' := hg.from_eq (List.mem_cons_self (a := v) (l := group))
      rw [hg.map_from (List.subset_cons_self v group)]
      generalize (v.from ofs).take len = w at hv' ⊢
      rw [hv', remaindersLength_shift]
    rw [List.map_cons, remaindersLength, prefixLen_nil_left] at hkids
    have hnext := ihn hsn hg.apart_last
    have hcap := hg.cap
    rw [List.map_cons, List.map_append, remaindersLength, remaindersLength_append, hv, hfrom, hshift, EdgeList.size,
      Nat.mul_add, Nat.mul_add]
    omega

/-- Sibling labels are non-empty and free of NUL, and start with increasing bytes. -/
def EdgeList.Ordered : EdgeList → Prop
  | .nil => True
  | .cons _ cmp _ kids next => cmp ≠ [] ∧ 0 ∉ cmp ∧
      (∀ e ∈ next.toList, cmp.headD 0 < e.eCmp.headD 0) ∧ kids.Ordered ∧ next.Ordered

abbrev TrieEntry.first (e : TrieEntry) (ofs : ℕ) : UInt8 := (e.from ofs).headD 0

theorem headD_le_of_lt {s t : Bytes} (h : s < t) : s.headD 0 ≤ t.headD 0 := by
  cases s with
  | nil => exact UInt8.zero_le
  | cons a s =>
    cases t with
    | nil => exact absurd h (List.not_lt_nil _)
    | cons b t =>
      rcases List.cons_lt_cons_iff.mp h with hlt | ⟨rfl, -⟩
      · exact UInt8.le_of_lt hlt
      · exact UInt8.le_refl a

theorem headD_lt_of_lt {s t : Bytes} (hs : s ≠ []) (h : s < t) (h0 : prefixLen s t = 0) :
    s.headD 0 < t.headD 0 := by
  cases s with
  | nil => exact absurd rfl hs
  | cons a s =>
    cases t with
    | nil => exact absurd h (List.not_lt_nil _)
    | cons b t =>
      rcases List.cons_lt_cons_iff.mp h with hlt | ⟨rfl, -⟩
      · exact hlt
      · rw [prefixLen_cons_self] at h0
        omega

/-- What comes after a group starts with greater bytes than the group does. -/
theorem Radixable.first_lt {v : TrieEntry} {group after : List TrieEntry} {ofs len : ℕ}
    (h : Radixable (v :: (group ++ after)) ofs) (hg : Group v group after ofs len) :
    ∀ e ∈ after, v.first ofs < e.first ofs := by
  cases after with
  | nil => simp
  | cons a after =>
    have hva : v.from ofs < a.from ofs := List.rel_of_pairwise_cons h.sorted (by simp)
    have hfirst : v.first ofs < a.first ofs := by
      apply headD_lt_of_lt ?_ hva (hg.apart a rfl)
      have hlong := h.longer v List.mem_cons_self
      rw [ne_eq, List.drop_eq_nil_iff]
      omega
    intro e he
    rcases List.mem_cons.mp he with rfl | he
    · exact hfirst
    · have hae : a.from ofs < e.from ofs := List.rel_of_pairwise_cons h.cut_after.sorted he
      exact UInt8.lt_of_lt_of_le hfirst (headD_le_of_lt hae)

theorem Group.label_ne_nil {v : TrieEntry} {group after : List TrieEntry} {ofs len : ℕ}
    (h : Group v group after ofs len) : (v.from ofs).take len ≠ [] := by
  have hl := h.label_length
  have hp := h.pos
  intro hnil
  rw [hnil, List.length_nil] at hl
  omega

theorem Group.label_first {v : TrieEntry} {group after : List TrieEntry} {ofs len : ℕ}
    (h : Group v group after ofs len) : ((v.from ofs).take len).headD 0 = v.first ofs := by
  have hp := h.pos
  obtain ⟨k, rfl⟩ : ∃ k, len = k + 1 := ⟨len - 1, by omega⟩
  cases hv : v.from ofs <;> simp [hv]

/-- In a short tree the top labels start like some of the entries. -/
theorem Built.first_of_mem {ents : List TrieEntry} {ofs n : ℕ} {l : EdgeList}
    (h : Built ents ofs n l) {e : TrieEdge} (he : e ∈ l.toList) :
    ∃ v ∈ ents, e.eCmp.headD 0 = v.first ofs := by
  induction h with
  | nil => simp [EdgeList.toList] at he
  | @long v rest ofs n next hl hn ih =>
    rw [EdgeList.toList, List.mem_cons] at he
    rcases he with rfl | he
    · exact ⟨v, List.mem_cons_self, rfl⟩
    · obtain ⟨w, hw, heq⟩ := ih he
      exact ⟨w, List.mem_cons_of_mem _ hw, heq⟩
  | @terminal v group after ofs len n kids next hg hend hk hn ihk ihn =>
    rw [EdgeList.toList, List.mem_cons] at he
    rcases he with rfl | he
    · exact ⟨v, List.mem_cons_self, hg.label_first⟩
    · obtain ⟨w, hw, heq⟩ := ihn he
      exact ⟨w, List.mem_cons_of_mem _ (List.mem_append_right _ hw), heq⟩
  | @inner v group after ofs len n kids next hg hend hk hn ihk ihn =>
    rw [EdgeList.toList, List.mem_cons] at he
    rcases he with rfl | he
    · exact ⟨v, List.mem_cons_self, hg.label_first⟩
    · obtain ⟨w, hw, heq⟩ := ihn he
      exact ⟨w, List.mem_cons_of_mem _ (List.mem_append_right _ hw), heq⟩

theorem Radixable.label_nulFree {v : TrieEntry} {rest : List TrieEntry} {ofs len : ℕ}
    (h : Radixable (v :: rest) ofs) : 0 ∉ (v.from ofs).take len := by
  intro hmem
  exact h.nulFree v List.mem_cons_self (List.mem_of_mem_drop (List.mem_of_mem_take hmem))

/-- The group step of `Built.ordered`, common to the terminal and the inner case. -/
private theorem ordered_group {v : TrieEntry} {group after : List TrieEntry} {ofs len n m : ℕ}
    {kids next : EdgeList} {term : Option TrieEntry} (hg : Group v group after ofs len)
    (hr : Radixable (v :: (group ++ after)) ofs) (hn : Built after ofs m next)
    (hkids : kids.Ordered) (hnext : next.Ordered) :
    (EdgeList.cons n ((v.from ofs).take len) term kids next).Ordered := by
  refine ⟨hg.label_ne_nil, hr.label_nulFree, ?_, hkids, hnext⟩
  intro e he
  obtain ⟨w, hw, heq⟩ := hn.first_of_mem he
  rw [heq, hg.label_first]
  exact hr.first_lt hg w hw

/-- Short trees are ordered. -/
theorem Built.ordered {ents : List TrieEntry} {ofs n : ℕ} {l : EdgeList}
    (h : Built ents ofs n l) (hr : Radixable ents ofs) (hs : l.Short) : l.Ordered := by
  induction h with
  | nil => trivial
  | long hl hn ih =>
    have hcap := (EdgeList.short_cons.mp hs).1
    rw [List.length_drop, RE_EDGE_MAX] at hcap
    omega
  | terminal hg he hk hn ihk ihn =>
    obtain ⟨-, hsk, hsn⟩ := EdgeList.short_cons.mp hs
    exact ordered_group hg hr hn (ihk (hr.cut_terminal hg) hsk) (ihn hr.cut_after hsn)
  | inner hg he hk hn ihk ihn =>
    obtain ⟨-, hsk, hsn⟩ := EdgeList.short_cons.mp hs
    exact ordered_group hg hr hn (ihk (hr.cut_inner hg he) hsk) (ihn hr.cut_after hsn)

theorem EdgeList.Ordered.firsts {l : EdgeList} (h : l.Ordered) :
    l.toList.Pairwise fun a b => a.eCmp.headD 0 < b.eCmp.headD 0 := by
  induction l with
  | nil => exact List.Pairwise.nil
  | cons ptr cmp term kids next _ ih =>
    obtain ⟨-, -, hlt, -, hn⟩ := h
    exact List.Pairwise.cons hlt (ih hn)

theorem EdgeList.Ordered.label {l : EdgeList} (h : l.Ordered) {e : TrieEdge} (he : e ∈ l.toList) :
    e.eCmp ≠ [] ∧ 0 ∉ e.eCmp := by
  induction l with
  | nil => simp [toList] at he
  | cons ptr cmp term kids next _ ih =>
    obtain ⟨hne, h0, -, -, hn⟩ := h
    rw [toList, List.mem_cons] at he
    rcases he with rfl | he
    · exact ⟨hne, h0⟩
    · exact ih hn he

theorem EdgeList.Ordered.below {l : EdgeList} (h : l.Ordered) {e : TrieEdge} (he : e ∈ l.edges) :
    e.eEdges.Ordered := by
  induction l with
  | nil => simp [edges] at he
  | cons ptr cmp term kids next ihk ihn =>
    obtain ⟨-, -, -, hk, hn⟩ := h
    rw [edges, List.mem_cons, List.mem_append] at he
    rcases he with rfl | he | he
    · exact hk
    · exact ihk hk he
    · exact ihn hn he

/-- Increasing non-zero bytes are at most 255. -/
theorem length_lt_of_increasing {bs : Bytes} (h : bs.Pairwise (· < ·)) (h0 : 0 ∉ bs) :
    bs.length < 0x100 := by
  have hnd : (bs.map UInt8.toNat).Nodup :=
    (List.pairwise_map.mpr (h.imp fun hlt => Nat.ne_of_lt hlt))
  have hsub : (bs.map UInt8.toNat).toFinset ⊆ Finset.Ioo 0 256 := by
    intro x hx
    rw [List.mem_toFinset, List.mem_map] at hx
    obtain ⟨b, hb, rfl⟩ := hx
    have hne : b.toNat ≠ 0 := by
      intro hz
      obtain rfl : b = 0 := UInt8.toNat_inj.mp hz
      exact h0 hb
    rw [Finset.mem_Ioo]
    exact ⟨Nat.pos_of_ne_zero hne, b.toNat_lt⟩
  have hcard := Finset.card_le_card hsub
  rw [List.toFinset_card_of_nodup hnd, List.length_map, Nat.card_Ioo] at hcard
  omega

theorem EdgeList.Ordered.fanout {l : EdgeList} (h : l.Ordered) : l.toList.length < 0x100 := by
  have hinc : (l.toList.map fun e => e.eCmp.headD 0).Pairwise (· < ·) :=
    List.pairwise_map.mpr h.firsts
  have h0 : 0 ∉ l.toList.map fun e => e.eCmp.headD 0 := by
    intro hmem
    obtain ⟨e, he, hz⟩ := List.mem_map.mp hmem
    obtain ⟨hne, hnul⟩ := h.label he
    cases hc : e.eCmp with
    | nil => exact hne hc
    | cons c cs =>
      rw [hc, List.headD_cons] at hz
      subst hz
      exact hnul (hc ▸ List.mem_cons_self)
  simpa using length_lt_of_increasing hinc h0

end Ashttpd
