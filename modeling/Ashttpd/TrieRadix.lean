import Ashttpd.TrieBuilder
import Mathlib.Order.Lattice
import Mathlib.Tactic.SplitIfs

/-!
# What `do_radix` builds

`Built` says once what a run of `do_radix` with all allocations succeeding can produce.
An entry list cut at `ofs` is treated through its suffixes; a group is a run of entries
whose suffixes share their first byte with that of the leading entry.
-/
namespace Ashttpd

abbrev TrieEntry.from (e : TrieEntry) (ofs : ℕ) : Bytes := e.tStr.drop ofs

theorem TrieEntry.from_add (e : TrieEntry) (ofs len : ℕ) :
    e.from (ofs + len) = (e.from ofs).drop len := by
  rw [TrieEntry.from, TrieEntry.from, List.drop_drop]

theorem commonPrefix_eq (a b : Bytes) (ofs : ℕ) :
    commonPrefix a b ofs = min RE_EDGE_MAX (prefixLen (a.drop ofs) (b.drop ofs)) := by
  have hl := prefixLen_le_left (a.drop ofs) (b.drop ofs)
  have hr := prefixLen_le_right (a.drop ofs) (b.drop ofs)
  simp only [List.length_drop] at hl hr
  simp only [commonPrefix]
  split_ifs <;> omega

/-- A group `v :: group` of entries, the entries after it, and its label length. -/
structure Group (v : TrieEntry) (group after : List TrieEntry) (ofs len : ℕ) : Prop where
  short : v.tStr.length - ofs < 0x100
  pos : 1 ≤ len
  cap : len ≤ RE_EDGE_MAX
  fits : ofs + len ≤ v.tStr.length
  shared : ∀ e ∈ group, len ≤ prefixLen (v.from ofs) (e.from ofs)
  apart : ∀ e ∈ after.head?, prefixLen (v.from ofs) (e.from ofs) = 0

private theorem radixGroup_loop (v : TrieEntry) (ofs : ℕ) (ts : List TrieEntry) (len last : ℕ)
    (h1 : 1 ≤ len) (h8 : len ≤ RE_EDGE_MAX) :
    ∃ len' k, radixGroup v ofs len last (last + 1) ts = (len', last + k) ∧ 1 ≤ len' ∧
      len' ≤ len ∧ (∀ t ∈ ts.take k, len' ≤ prefixLen (v.from ofs) (t.from ofs)) ∧
      ∀ t ∈ (ts.drop k).head?, prefixLen (v.from ofs) (t.from ofs) = 0 := by
  induction ts generalizing len last with
  | nil => exact ⟨len, 0, rfl, h1, Nat.le_refl _, by simp, by simp⟩
  | cons t ts ih =>
    have hguard : len < 0x100 := by simp only [RE_EDGE_MAX] at h8; omega
    simp only [radixGroup, hguard, if_true, commonPrefix_eq]
    by_cases hx : min RE_EDGE_MAX (prefixLen (v.from ofs) (t.from ofs)) = 0
    · rw [if_pos hx]
      refine ⟨len, 0, rfl, h1, Nat.le_refl _, by simp, ?_⟩
      intro e he
      obtain rfl : t = e := by simpa using he
      simp only [RE_EDGE_MAX] at hx
      omega
    · rw [if_neg hx]
      obtain ⟨len', k, heq, hpos, hle, hin, hout⟩ :=
        ih (if min RE_EDGE_MAX (prefixLen (v.from ofs) (t.from ofs)) < len then
          min RE_EDGE_MAX (prefixLen (v.from ofs) (t.from ofs)) else len) (last + 1)
          (by split_ifs <;> omega) (by split_ifs <;> omega)
      refine ⟨len', k + 1, ?_, hpos, ?_, ?_, by simpa using hout⟩
      · rw [heq]
        congr 1
        omega
      · refine hle.trans ?_
        split_ifs <;> omega
      · intro e he
        rw [List.take_succ_cons, List.mem_cons] at he
        rcases he with rfl | he
        · refine hle.trans ?_
          split_ifs <;> omega
        · exact hin e he

/-- On a short leading suffix the loop finds a group. -/
theorem radixGroup_short {v : TrieEntry} {rest : List TrieEntry} {ofs : ℕ}
    (hv : ofs < v.tStr.length) (hs : v.tStr.length - ofs < 0x100) :
    ∃ len k, radixGroup v ofs (v.tStr.length - ofs) 0 0 (v :: rest) = (len, k) ∧
      Group v (rest.take k) (rest.drop k) ofs len := by
  obtain ⟨len, k, heq, hpos, hle, hin, hout⟩ :=
    radixGroup_loop v ofs rest (min RE_EDGE_MAX (v.tStr.length - ofs)) 0
      (by simp only [RE_EDGE_MAX]; omega) (Nat.min_le_left _ _)
  have hself : commonPrefix v.tStr v.tStr ofs = min RE_EDGE_MAX (v.tStr.length - ofs) := by
    rw [commonPrefix_eq, prefixLen_self, List.length_drop]
  have hne : min RE_EDGE_MAX (v.tStr.length - ofs) ≠ 0 := by simp only [RE_EDGE_MAX]; omega
  refine ⟨len, k, ?_, ?_⟩
  · simp only [radixGroup, hs, if_true, hself, hne, if_false]
    rw [Nat.zero_add k] at heq
    rw [← heq]
    congr 1
    split_ifs <;> omega
  · exact ⟨hs, hpos, hle.trans (Nat.min_le_left _ _), by omega, hin, hout⟩

theorem radixGroup_long (v : TrieEntry) (rest : List TrieEntry) {ofs : ℕ}
    (hl : 0x100 ≤ v.tStr.length - ofs) :
    radixGroup v ofs (v.tStr.length - ofs) 0 0 (v :: rest) = (v.tStr.length - ofs, 0) := by
  rw [radixGroup, if_neg (by omega)]

theorem Group.from_eq {v : TrieEntry} {group after : List TrieEntry} {ofs len : ℕ}
    (h : Group v group after ofs len) {e : TrieEntry} (he : e ∈ v :: group) :
    e.from ofs = (v.from ofs).take len ++ e.from (ofs + len) := by
  rcases List.mem_cons.mp he with rfl | he
  · rw [TrieEntry.from_add, List.take_append_drop]
  · rw [TrieEntry.from_add]
    exact eq_append_of_le_prefixLen (h.shared e he)

/-- What a successful run of `do_radix` makes of a list of entries cut at `ofs`, when the
next allocation is number `n`. -/
inductive Built : List TrieEntry → ℕ → ℕ → EdgeList → Prop
  | nil {ofs n : ℕ} : Built [] ofs n .nil
  | long {v : TrieEntry} {rest : List TrieEntry} {ofs n : ℕ} {next : EdgeList}
      (hl : 0x100 ≤ v.tStr.length - ofs) (hn : Built rest ofs (n + 1) next) :
      Built (v :: rest) ofs n (.cons n (v.from ofs) (some v) .nil next)
  | terminal {v : TrieEntry} {group after : List TrieEntry} {ofs len n : ℕ} {kids next : EdgeList}
      (hg : Group v group after ofs len) (he : ofs + len = v.tStr.length)
      (hk : Built group (ofs + len) (n + 1) kids)
      (hn : Built after ofs (n + 1 + kids.size) next) :
      Built (v :: (group ++ after)) ofs n
        (.cons n ((v.from ofs).take len) (some v) kids next)
  | inner {v : TrieEntry} {group after : List TrieEntry} {ofs len n : ℕ} {kids next : EdgeList}
      (hg : Group v group after ofs len) (he : ofs + len < v.tStr.length)
      (hk : Built (v :: group) (ofs + len) (n + 1) kids)
      (hn : Built after ofs (n + 1 + kids.size) next) :
      Built (v :: (group ++ after)) ofs n
        (.cons n ((v.from ofs).take len) none kids next)

/-- Entries that `do_radix` may be called with: nothing is used up, the suffixes increase. -/
structure Radixable (ents : List TrieEntry) (ofs : ℕ) : Prop where
  longer : ∀ e ∈ ents, ofs < e.tStr.length
  sorted : ents.Pairwise fun a b => a.from ofs < b.from ofs
  nulFree : ∀ e ∈ ents, 0 ∉ e.tStr

theorem Radixable.sublist {ents sub : List TrieEntry} {ofs : ℕ} (h : Radixable ents ofs)
    (hs : sub.Sublist ents) : Radixable sub ofs :=
  ⟨fun e he => h.longer e (hs.subset he), h.sorted.sublist hs,
    fun e he => h.nulFree e (hs.subset he)⟩

theorem Radixable.cut {v : TrieEntry} {group after sub : List TrieEntry} {ofs len : ℕ}
    (h : Radixable (v :: (group ++ after)) ofs) (hg : Group v group after ofs len)
    (hs : sub.Sublist (v :: group)) (hl : ∀ e ∈ sub, ofs + len < e.tStr.length) :
    Radixable sub (ofs + len) := by
  have hs' : sub.Sublist (v :: (group ++ after)) :=
    hs.trans ((List.sublist_append_left group after).cons_cons v)
  have hsub := h.sublist hs'
  refine ⟨hl, ?_, hsub.nulFree⟩
  refine hsub.sorted.imp_of_mem ?_
  intro a b ha hb hab
  rwa [hg.from_eq (hs.subset ha), hg.from_eq (hs.subset hb), append_lt_append_left_iff] at hab

theorem Radixable.group_longer {v : TrieEntry} {group after : List TrieEntry} {ofs len : ℕ}
    (h : Radixable (v :: (group ++ after)) ofs) (hg : Group v group after ofs len) :
    ∀ e ∈ group, ofs + len < e.tStr.length := by
  intro e he
  have hlt : v.from ofs < e.from ofs :=
    List.rel_of_pairwise_cons h.sorted (List.mem_append_left _ he)
  rw [hg.from_eq List.mem_cons_self, hg.from_eq (List.mem_cons_of_mem _ he),
    append_lt_append_left_iff] at hlt
  by_contra hle
  have hnil : e.from (ofs + len) = [] := List.drop_eq_nil_of_le (by omega)
  rw [hnil] at hlt
  exact List.not_lt_nil _ hlt

theorem Radixable.cut_terminal {v : TrieEntry} {group after : List TrieEntry} {ofs len : ℕ}
    (h : Radixable (v :: (group ++ after)) ofs) (hg : Group v group after ofs len) :
    Radixable group (ofs + len) :=
  h.cut hg (List.sublist_cons_self v group) (h.group_longer hg)

theorem Radixable.cut_inner {v : TrieEntry} {group after : List TrieEntry} {ofs len : ℕ}
    (h : Radixable (v :: (group ++ after)) ofs) (hg : Group v group after ofs len)
    (he : ofs + len < v.tStr.length) : Radixable (v :: group) (ofs + len) := by
  refine h.cut hg (List.Sublist.refl _) ?_
  intro e hm
  rcases List.mem_cons.mp hm with rfl | hm
  · exact he
  · exact h.group_longer hg e hm

theorem Radixable.cut_after {v : TrieEntry} {group after : List TrieEntry} {ofs : ℕ}
    (h : Radixable (v :: (group ++ after)) ofs) : Radixable after ofs :=
  h.sublist ((List.sublist_append_right group after).cons v)

@[simp] theorem radixFuel_cons (v : TrieEntry) (rest : List TrieEntry) (ofs : ℕ) :
    radixFuel (v :: rest) ofs = v.tStr.length - ofs + 1 + radixFuel rest ofs := by
  simp [radixFuel]

theorem radixFuel_append (xs ys : List TrieEntry) (ofs : ℕ) :
    radixFuel (xs ++ ys) ofs = radixFuel xs ofs + radixFuel ys ofs := by
  simp [radixFuel]

theorem radixFuel_cut (ents : List TrieEntry) (ofs len : ℕ) :
    radixFuel ents (ofs + len) ≤ radixFuel ents ofs := by
  induction ents with
  | nil => exact Nat.le_refl _
  | cons v rest ih =>
    rw [radixFuel_cons, radixFuel_cons]
    omega

def allocOk : ℕ → Bool := fun _ => true

/-- The state after `n` successful calls of `edge_new`. -/
def RadixState.advance (st : RadixState) (n : ℕ) : RadixState :=
  ⟨st.nAlloc + n, st.rNumEdges + UInt32.ofNat n⟩

/-- The calls of `edge_new` made for the edges of a tree, each with its level and whether it succeeds, when
the next one is number `k`. Where one fails the rest of its level is given up. -/
def EdgeList.calls (alloc : ℕ → Bool) : EdgeList → ℕ → ℕ → List (ℕ × Bool)
  | .nil, _, _ => []
  | .cons _ _ _ kids next, level, k =>
    if alloc k then
      (level, true) :: (kids.calls alloc (level + 1) (k + 1) ++
        next.calls alloc level (k + 1 + (kids.calls alloc (level + 1) (k + 1)).length))
    else [(level, false)]

/-- What these calls leave of the tree. -/
def EdgeList.grown (alloc : ℕ → Bool) : EdgeList → ℕ → ℕ → EdgeList
  | .nil, _, _ => .nil
  | .cons _ cmp term kids next, level, k =>
    if alloc k then
      .cons k cmp term (kids.grown alloc (level + 1) (k + 1))
        (next.grown alloc level (k + 1 + (kids.calls alloc (level + 1) (k + 1)).length))
    else .nil

def levelKept (level : ℕ) (calls : List (ℕ × Bool)) : Bool := calls.all fun c => c.1 != level || c.2

def RadixState.after (st : RadixState) (calls : List (ℕ × Bool)) : RadixState :=
  ⟨st.nAlloc + calls.length, st.rNumEdges + UInt32.ofNat (calls.countP (·.2))⟩

theorem RadixState.after_after (st : RadixState) (calls calls' : List (ℕ × Bool)) :
    (st.after calls).after calls' = st.after (calls ++ calls') := by
  simp only [RadixState.after, RadixState.mk.injEq, List.length_append, List.countP_append]
  exact ⟨by omega, by rw [UInt32.ofNat_add, UInt32.add_assoc]⟩

@[simp] theorem RadixState.after_nAlloc (st : RadixState) (calls : List (ℕ × Bool)) :
    (st.after calls).nAlloc = st.nAlloc + calls.length := rfl

theorem EdgeList.le_level {alloc : ℕ → Bool} {l : EdgeList} {level k : ℕ} :
    ∀ c ∈ l.calls alloc level k, level ≤ c.1 := by
  induction l generalizing level k with
  | nil =>
    intro c hc
    cases hc
  | cons ptr cmp term kids next ihk ihn =>
    intro c hc
    rw [calls] at hc
    split_ifs at hc
    · rcases List.mem_cons.mp hc with rfl | hc
      · exact Nat.le_refl _
      rcases List.mem_append.mp hc with hc | hc
      · exact Nat.le_of_succ_le (ihk c hc)
      · exact ihn c hc
    · rw [List.mem_singleton.mp hc]

theorem levelKept_below (alloc : ℕ → Bool) (kids : EdgeList) (level k : ℕ) (calls : List (ℕ × Bool)) :
    levelKept level ((level, true) :: (kids.calls alloc (level + 1) k ++ calls)) = levelKept level calls := by
  have hbelow : levelKept level (kids.calls alloc (level + 1) k) = true := by
    apply List.all_eq_true.mpr
    intro c hc
    have hlevel := EdgeList.le_level c hc
    have hne : c.1 ≠ level := by omega
    simp [hne]
  unfold levelKept at hbelow ⊢
  rw [List.all_cons, List.all_append, hbelow]
  simp

/-- `do_radix` on these entries makes of the tree what the schedule leaves of it. -/
def Grows (fuel : ℕ) (ents : List TrieEntry) (ofs : ℕ) (l : EdgeList) : Prop :=
  ∀ alloc level st, doRadix alloc fuel ents ofs st = .ok (l.grown alloc level st.nAlloc,
    levelKept level (l.calls alloc level st.nAlloc), st.after (l.calls alloc level st.nAlloc))

theorem grows_nil (fuel ofs : ℕ) : Grows (fuel + 1) [] ofs .nil := by
  intro alloc level st
  simp [doRadix, EdgeList.grown, EdgeList.calls, levelKept, RadixState.after]

/-- One round of the outer loop, given what the two calls below it make. -/
theorem Grows.round {fuel n : ℕ} {v : TrieEntry} {rest sub : List TrieEntry} {ofs len k : ℕ} {kids next : EdgeList}
    (hgroup : radixGroup v ofs (v.tStr.length - ofs) 0 0 (v :: rest) = (len, k))
    (hfit : ofs + len ≤ v.tStr.length)
    (hsub : sub = if ofs + len = v.tStr.length then rest.take k else v :: rest.take k)
    (hkids : Grows fuel sub (ofs + len) kids) (hnext : Grows fuel (rest.drop k) ofs next) :
    Grows (fuel + 1) (v :: rest) ofs
      (.cons n ((v.from ofs).take len) (if ofs + len = v.tStr.length then some v else none) kids next) := by
  have hnot : ¬ v.tStr.length < ofs + len := by omega
  subst hsub
  intro alloc level st
  cases ha : alloc st.nAlloc with
  | false =>
    simp [doRadix, edgeNew, ha, EdgeList.grown, EdgeList.calls, levelKept, RadixState.after]
  | true =>
    have hone : edgeNew alloc st = (some st.nAlloc, st.after [(level, true)]) := by
      simp [edgeNew, ha, RadixState.after]
    have hk := hkids alloc (level + 1) (st.after [(level, true)])
    have hn := hnext alloc level ((st.after [(level, true)]).after (kids.calls alloc (level + 1) (st.nAlloc + 1)))
    simp only [RadixState.after_nAlloc, RadixState.after_after, List.length_append, List.length_singleton,
      ← Nat.add_assoc] at hk hn
    simp only [doRadix, hgroup, hone, hnot, if_false, hk, hn, EdgeList.grown, EdgeList.calls,
      ha, if_true, levelKept_below]
    rfl

/-- `do_radix` makes of a list a tree of which every schedule leaves what it leaves. -/
theorem doRadix_grows {fuel : ℕ} {ents : List TrieEntry} {ofs : ℕ} (n : ℕ)
    (hr : Radixable ents ofs) (hf : radixFuel ents ofs < fuel) :
    ∃ l, Built ents ofs n l ∧ Grows fuel ents ofs l := by
  induction fuel generalizing ents ofs n with
  | zero => omega
  | succ fuel ih =>
    cases ents with
    | nil => exact ⟨.nil, .nil, grows_nil fuel ofs⟩
    | cons v rest =>
      have hv : ofs < v.tStr.length := hr.longer v List.mem_cons_self
      rw [radixFuel_cons] at hf
      by_cases hl : 0x100 ≤ v.tStr.length - ofs
      · obtain ⟨next, hb, hnext⟩ := ih (n + 1) (hr.sublist (List.sublist_cons_self v rest)) (by omega)
        have hend : ofs + (v.tStr.length - ofs) = v.tStr.length := by omega
        obtain ⟨fuel, rfl⟩ : ∃ n, fuel = n + 1 := ⟨fuel - 1, by omega⟩
        refine ⟨.cons n (v.from ofs) (some v) .nil next, .long hl hb, ?_⟩
        have hround := Grows.round (n := n) (radixGroup_long v rest hl) (Nat.le_of_eq hend)
          (show [] = _ by simp [hend]) (grows_nil fuel _) (by rwa [List.drop_zero])
        rwa [if_pos hend, List.take_of_length_le (by simp)] at hround
      · obtain ⟨len, k, heq, hg⟩ := radixGroup_short hv (by omega)
        have hsplit : rest = rest.take k ++ rest.drop k := (List.take_append_drop k rest).symm
        have hfuel : radixFuel rest ofs =
            radixFuel (rest.take k) ofs + radixFuel (rest.drop k) ofs := by
          rw [← radixFuel_append, ← hsplit]
        have hr' : Radixable (v :: (rest.take k ++ rest.drop k)) ofs := by rwa [← hsplit]
        have hcut := radixFuel_cut (rest.take k) ofs len
        have hpos := hg.pos
        by_cases he : ofs + len = v.tStr.length
        · obtain ⟨kids, hbk, hkids⟩ := ih (n + 1) (hr'.cut_terminal hg) (by omega)
          obtain ⟨next, hbn, hnext⟩ := ih (n + 1 + kids.size) hr'.cut_after (by omega)
          refine ⟨.cons n ((v.from ofs).take len) (some v) kids next, ?_, ?_⟩
          · rw [hsplit]
            exact .terminal hg he hbk hbn
          · have hround := Grows.round (n := n) heq hg.fits (by rw [if_pos he]) hkids hnext
            rwa [if_pos he] at hround
        · have hlt : ofs + len < v.tStr.length := by have := hg.fits; omega
          obtain ⟨kids, hbk, hkids⟩ := ih (n + 1) (hr'.cut_inner hg hlt) (by rw [radixFuel_cons]; omega)
          obtain ⟨next, hbn, hnext⟩ := ih (n + 1 + kids.size) hr'.cut_after (by omega)
          refine ⟨.cons n ((v.from ofs).take len) none kids next, ?_, ?_⟩
          · rw [hsplit]
            exact .inner hg hlt hbk hbn
          · have hround := Grows.round (n := n) heq hg.fits (by rw [if_neg he]) hkids hnext
            rwa [if_neg he] at hround

theorem EdgeList.calls_allocOk (l : EdgeList) (level k : ℕ) :
    (l.calls allocOk level k).length = l.size ∧ ∀ c ∈ l.calls allocOk level k, c.2 = true := by
  induction l generalizing level k with
  | nil => exact ⟨rfl, by simp [calls]⟩
  | cons ptr cmp term kids next ihk ihn =>
    have hcalls : (cons ptr cmp term kids next).calls allocOk level k = (level, true) ::
        (kids.calls allocOk (level + 1) (k + 1) ++
          next.calls allocOk level (k + 1 + (kids.calls allocOk (level + 1) (k + 1)).length)) := if_pos rfl
    rw [hcalls, List.length_cons, List.length_append, (ihk _ _).1, (ihn _ _).1]
    refine ⟨by rw [size]; omega, fun c hc => ?_⟩
    rcases List.mem_cons.mp hc with rfl | hc
    · rfl
    rcases List.mem_append.mp hc with hc | hc
    · exact (ihk _ _).2 c hc
    · exact (ihn _ _).2 c hc

theorem Built.grown_allocOk {ents : List TrieEntry} {ofs n : ℕ} {l : EdgeList} (h : Built ents ofs n l) (level : ℕ) :
    l.grown allocOk level n = l := by
  induction h generalizing level with
  | nil => rfl
  | long hl hn ih =>
    rw [EdgeList.grown, if_pos (show allocOk _ = true from rfl)]
    exact congrArg _ (ih level)
  | terminal hg he hk hn ihk ihn =>
    rw [EdgeList.grown, if_pos (show allocOk _ = true from rfl), (EdgeList.calls_allocOk _ _ _).1, ihk, ihn]
  | inner hg he hk hn ihk ihn =>
    rw [EdgeList.grown, if_pos (show allocOk _ = true from rfl), (EdgeList.calls_allocOk _ _ _).1, ihk, ihn]

/-- With all allocations succeeding `do_radix` returns, and returns a `Built` tree. -/
theorem doRadix_built {fuel : ℕ} {ents : List TrieEntry} {ofs : ℕ} (st : RadixState)
    (hr : Radixable ents ofs) (hf : radixFuel ents ofs < fuel) :
    ∃ edges, doRadix allocOk fuel ents ofs st = .ok (edges, true, st.advance edges.size) ∧
      Built ents ofs st.nAlloc edges := by
  obtain ⟨edges, hb, hgrows⟩ := doRadix_grows st.nAlloc hr hf
  obtain ⟨hlen, htrue⟩ := edges.calls_allocOk 0 st.nAlloc
  have hkept : levelKept 0 (edges.calls allocOk 0 st.nAlloc) = true := by
    apply List.all_eq_true.mpr
    intro c hc
    simp [htrue c hc]
  have hafter : st.after (edges.calls allocOk 0 st.nAlloc) = st.advance edges.size := by
    unfold RadixState.after RadixState.advance
    rw [List.countP_eq_length.mpr htrue, hlen]
  have hrun := hgrows allocOk 0 st
  rw [hb.grown_allocOk, hkept, hafter] at hrun
  exact ⟨edges, hrun, hb⟩

end Ashttpd
