import Ashttpd.TrieHeap
import Ashttpd.TrieLayout

/-!
# What `do_radix` links

A run of `do_radix` in memory makes the tree that the run without memory makes: every edge has its fields and its
list of children, and whatever was there before is as it was, but for the node that the edges are put below.
-/
namespace Ashttpd

def TrieEdge.link (e : TrieEdge) : TrieHead := .eList e.ptr

/-- A list head that is there when the allocations up to the `k`-th have been made. -/
def TrieHead.Before (k : ℕ) : TrieHead → Prop
  | .eList e => e < k
  | .eBfs e => e < k
  | .eEdges e => e < k
  | _ => True

theorem TrieHead.Before.mono {j k : ℕ} {q : TrieHead} (h : q.Before j) (hjk : j ≤ k) : q.Before k := by
  cases q <;> first | exact Nat.lt_of_lt_of_le h hjk | trivial

namespace TrieHeap

open Links

variable {h h' : TrieHeap} {alloc : ℕ → Bool} {n e : ℕ} {xs : List ℕ} {l kids next : EdgeList} {d : TrieEdge}
  {depth : UInt32} {q : TrieHead}

/-- An edge of a tree is in memory, with its fields and its list of children. -/
structure HoldsEdge (h : TrieHeap) (e : TrieEdge) : Prop where
  cmp : (h.edge e.ptr).eCmp = e.eCmp
  terminal : (h.edge e.ptr).eTerminal = e.eTerminal
  numEdges : (h.edge e.ptr).eNumEdges = UInt32.ofNat e.eNumEdges
  ring : h.links.Ring (.eEdges e.ptr) (e.children.map TrieEdge.link)

theorem HoldsEdge.congr (hd : h.HoldsEdge d) (hfields : h'.edge d.ptr = h.edge d.ptr)
    (hlinks : ∀ q ∈ TrieHead.eEdges d.ptr :: d.children.map TrieEdge.link, SameAt h.links h'.links q) :
    h'.HoldsEdge d :=
  ⟨hfields ▸ hd.cmp, hfields ▸ hd.terminal, hfields ▸ hd.numEdges, hd.ring.congr hlinks⟩

/-- Where `do_radix` puts edges: below `n`, behind the edges `xs`. -/
structure Site (h : TrieHeap) (n : ℕ) (xs : List ℕ) : Prop where
  node : n < h.nAlloc
  before : ∀ x ∈ xs, x < h.nAlloc
  ring : h.links.Ring (.eEdges n) (xs.map .eList)

/-- The edges of `l`, and nothing else, were put there. -/
structure Grew (alloc : ℕ → Bool) (h h' : TrieHeap) (n : ℕ) (xs : List ℕ) (l : EdgeList) : Prop where
  le : h.nAlloc ≤ h'.nAlloc
  node : h'.edge n = { h.edge n with eNumEdges := (h.edge n).eNumEdges + UInt32.ofNat l.toList.length }
  ring : h'.links.Ring (.eEdges n) (xs.map .eList ++ l.toList.map TrieEdge.link)
  below : ∀ e ∈ l.edges, h'.HoldsEdge e
  ptrs : l.edges.map TrieEdge.ptr = (List.range' h.nAlloc (h'.nAlloc - h.nAlloc)).filter alloc
  others : ∀ m < h.nAlloc, m ≠ n → h'.edge m = h.edge m
  heads : ∀ q : TrieHead, q.Before h.nAlloc → q ≠ .eEdges n → q ∉ xs.map TrieHead.eList → SameAt h.links h'.links q
  root : h'.rRootEdge = h.rRootEdge

theorem Site.grew_none {k : ℕ} (hs : h.Site n xs) (hk : h.nAlloc ≤ k)
    (hnone : (List.range' h.nAlloc (k - h.nAlloc)).filter alloc = []) : Grew alloc h { h with nAlloc := k } n xs .nil where
  le := hk
  node := by simp [EdgeList.toList]
  ring := by simpa [EdgeList.toList] using hs.ring
  below := by simp [EdgeList.edges]
  ptrs := by rw [hnone, EdgeList.edges, List.map_nil]
  others _ _ _ := rfl
  heads _ _ _ _ := ⟨rfl, rfl⟩
  root := rfl

theorem Site.grew_nil (hs : h.Site n xs) (alloc : ℕ → Bool) : Grew alloc h h n xs .nil :=
  hs.grew_none (Nat.le_refl _) (by simp)

theorem Site.grew_failed (hs : h.Site n xs) (ha : alloc h.nAlloc = false) :
    Grew alloc h { h with nAlloc := h.nAlloc + 1 } n xs .nil :=
  hs.grew_none (Nat.le_succ _) (by simp [ha])

/-- A new edge `e` was put there, without children and for now without a label. -/
structure Added (h h' : TrieHeap) (n : ℕ) (xs : List ℕ) : Prop where
  nAlloc : h'.nAlloc = h.nAlloc + 1
  numEdges : h'.rNumEdges = h.rNumEdges + 1
  node : h'.edge n = { h.edge n with eNumEdges := (h.edge n).eNumEdges + 1 }
  edge : h'.edge h.nAlloc = ⟨[], none, 0, 0⟩
  ring : h'.links.Ring (.eEdges n) ((xs ++ [h.nAlloc]).map .eList)
  kids : h'.links.Ring (.eEdges h.nAlloc) []
  others : ∀ m < h.nAlloc, m ≠ n → h'.edge m = h.edge m
  heads : ∀ q : TrieHead, q.Before h.nAlloc → q ≠ .eEdges n → q ∉ xs.map TrieHead.eList → SameAt h.links h'.links q
  root : h'.rRootEdge = h.rRootEdge

@[simp] theorem adoptEdge_links : (h.adoptEdge e n).links = h.links.listAddTail (.eList e) (.eEdges n) := by
  unfold adoptEdge
  dsimp only
  split <;> rfl

@[simp] theorem adoptEdge_edge : (h.adoptEdge e n).edge =
    Function.update h.edge n { h.edge n with eNumEdges := (h.edge n).eNumEdges + 1 } := by
  unfold adoptEdge
  dsimp only
  split <;> rfl

@[simp] theorem adoptEdge_nAlloc : (h.adoptEdge e n).nAlloc = h.nAlloc := by
  unfold adoptEdge
  dsimp only
  split <;> rfl

@[simp] theorem adoptEdge_rNumEdges : (h.adoptEdge e n).rNumEdges = h.rNumEdges := by
  unfold adoptEdge
  dsimp only
  split <;> rfl

@[simp] theorem adoptEdge_rRootEdge : (h.adoptEdge e n).rRootEdge = h.rRootEdge := by
  unfold adoptEdge
  dsimp only
  split <;> rfl

def linkNew (h : TrieHeap) (n : ℕ) : Links TrieHead :=
  ((h.links.initListHead (.eEdges h.nAlloc)).initListHead (.eBfs h.nAlloc)).listAddTail (.eList h.nAlloc) (.eEdges n)

theorem sameAt_initNew (hq : q.Before h.nAlloc) :
    SameAt h.links ((h.links.initListHead (.eEdges h.nAlloc)).initListHead (.eBfs h.nAlloc)) q := by
  refine (sameAt_initListHead ?_).trans (sameAt_initListHead ?_)
  · rintro rfl
    exact Nat.lt_irrefl _ hq
  · rintro rfl
    exact Nat.lt_irrefl _ hq

theorem Site.ring_before (hs : h.Site n xs) : ∀ q ∈ TrieHead.eEdges n :: xs.map .eList, q.Before h.nAlloc := by
  intro q hq
  rcases List.mem_cons.mp hq with rfl | hq
  · exact hs.node
  · obtain ⟨x, hx, rfl⟩ := List.mem_map.mp hq
    exact hs.before x hx

theorem Site.ring_initNew (hs : h.Site n xs) :
    ((h.links.initListHead (.eEdges h.nAlloc)).initListHead (.eBfs h.nAlloc)).Ring (.eEdges n) (xs.map .eList) :=
  hs.ring.congr fun q hq => sameAt_initNew (hs.ring_before q hq)

theorem Site.ring_linkNew (hs : h.Site n xs) : (h.linkNew n).Ring (.eEdges n) ((xs ++ [h.nAlloc]).map .eList) := by
  rw [List.map_append]
  refine hs.ring_initNew.listAddTail fun hm => ?_
  exact Nat.lt_irrefl _ (hs.ring_before _ hm)

theorem Site.kids_linkNew (hs : h.Site n xs) : (h.linkNew n).Ring (.eEdges h.nAlloc) [] := by
  have hinit : (h.links.initListHead (.eEdges h.nAlloc)).Ring (.eEdges h.nAlloc) [] := ring_initListHead
  refine hinit.congr fun q hq => (?_ : SameAt _ (h.linkNew n) q)
  obtain rfl := List.mem_singleton.mp hq
  refine (sameAt_initListHead (by simp)).trans (hs.ring_initNew.sameAt_listAddTail (fun hm => ?_) (by simp))
  exact Nat.lt_irrefl _ (hs.ring_before _ hm)

theorem Site.sameAt_linkNew (hs : h.Site n xs) (hq : q.Before h.nAlloc) (hn : q ≠ .eEdges n) (hxs : q ∉ xs.map .eList) :
    SameAt h.links (h.linkNew n) q := by
  refine (sameAt_initNew hq).trans (hs.ring_initNew.sameAt_listAddTail (List.not_mem_cons_of_ne_of_not_mem hn hxs) ?_)
  rintro rfl
  exact Nat.lt_irrefl _ hq

theorem Site.edgeNew (hs : h.Site n xs) (ha : alloc h.nAlloc = true) :
    ∃ h', h.edgeNew alloc (some n) = (some h.nAlloc, h') ∧ Added h h' n xs := by
  unfold TrieHeap.edgeNew
  rw [if_pos ha]
  refine ⟨_, rfl, ?_⟩
  have hn : n ≠ h.nAlloc := Nat.ne_of_lt hs.node
  refine ⟨?_, ?_, ?_, ?_, ?_, ?_, ?_, ?_, ?_⟩
  · simp [setEdge, setLinks]
  · simp [setEdge, setLinks]
  · simp [setEdge, setLinks, hn]
  · simp [setEdge, setLinks, hn.symm]
  · simpa [setEdge, setLinks, linkNew] using hs.ring_linkNew
  · simpa [setEdge, setLinks, linkNew] using hs.kids_linkNew
  · intro m hm hmn
    simp [setEdge, setLinks, hmn, Nat.ne_of_lt hm]
  · intro q hq hqn hqxs
    simpa [setEdge, setLinks, linkNew] using hs.sameAt_linkNew hq hqn hqxs
  · simp [setEdge, setLinks]

theorem edgeNew_failed (ha : alloc h.nAlloc = false) (parent : Option ℕ) :
    h.edgeNew alloc parent = (none, { h with nAlloc := h.nAlloc + 1 }) := by
  unfold TrieHeap.edgeNew
  rw [if_neg (by simp [ha])]

theorem Grew.ptr_bounds (hg : Grew alloc h h' n xs l) (hd : d ∈ l.edges) : h.nAlloc ≤ d.ptr ∧ d.ptr < h'.nAlloc := by
  have hmem : d.ptr ∈ l.edges.map TrieEdge.ptr := List.mem_map_of_mem hd
  rw [hg.ptrs, List.mem_filter, List.mem_range'_1] at hmem
  have hle := hg.le
  omega

theorem Grew.keeps (hg : Grew alloc h h' n xs l) (hd : h.HoldsEdge d) (hlt : d.ptr < h.nAlloc) (hn : d.ptr ≠ n)
    (hc : ∀ c ∈ d.children, c.ptr < h.nAlloc ∧ c.ptr ∉ xs) : h'.HoldsEdge d := by
  refine hd.congr (hg.others _ hlt hn) fun q hq => ?_
  rcases List.mem_cons.mp hq with rfl | hq
  · refine hg.heads _ hlt (fun heq => hn (TrieHead.eEdges.inj heq)) fun hm => ?_
    obtain ⟨x, -, hx⟩ := List.mem_map.mp hm
    cases hx
  · obtain ⟨c, hc', rfl⟩ := List.mem_map.mp hq
    refine hg.heads _ (hc c hc').1 (fun heq => nomatch heq) fun hm => ?_
    obtain ⟨x, hx, heq⟩ := List.mem_map.mp hm
    exact (hc c hc').2 (TrieHead.eList.inj heq ▸ hx)

theorem allocations_cons {a b : ℕ} (he : alloc e = true) (hb : e + 1 ≤ b) (ha : b ≤ a) :
    e :: ((List.range' (e + 1) (b - (e + 1))).filter alloc ++ (List.range' b (a - b)).filter alloc) =
      (List.range' e (a - e)).filter alloc := by
  have hsplit := range'_split e (b - (e + 1)) (a - b)
  rw [show e + 1 + (b - (e + 1)) = b by omega, show b - (e + 1) + 1 + (a - b) = a - e by omega] at hsplit
  rw [← hsplit, List.filter_cons_of_pos he, List.filter_append]

/-- The heap after the label of the edge `e` has been set, and its terminal if it is one. -/
structure Labelled (h h' : TrieHeap) (e : ℕ) (cmp : Bytes) (term : Option TrieEntry) : Prop where
  links : h'.links = h.links
  nAlloc : h'.nAlloc = h.nAlloc
  rNumEdges : h'.rNumEdges = h.rNumEdges
  root : h'.rRootEdge = h.rRootEdge
  others : ∀ m, m ≠ e → h'.edge m = h.edge m
  edge : h'.edge e = { h.edge e with eCmp := cmp, eTerminal := term }

/-- What follows on the new edge, on what is put below it and on what is put behind it. -/
theorem Added.cons {h₁ h₂ h₃ : TrieHeap} {cmp : Bytes} {term : Option TrieEntry} (hs : h.Site n xs)
    (ha : alloc h.nAlloc = true) (hadded : Added h h₁ n xs) (hlabel : Labelled h₁ h₂ h.nAlloc cmp term)
    (hkids : Grew alloc h₂ h₃ h.nAlloc [] kids) (hnext : Grew alloc h₃ h' n (xs ++ [h.nAlloc]) next) :
    Grew alloc h h' n xs (.cons h.nAlloc cmp term kids next) := by
  have hnode : h₂.edge h.nAlloc = ⟨cmp, term, 0, 0⟩ := by rw [hlabel.edge, hadded.edge]
  have hcount₂ : h₂.nAlloc = h.nAlloc + 1 := hlabel.nAlloc.trans hadded.nAlloc
  have hle₂ := hkids.le
  have hle₃ := hnext.le
  have hn : n ≠ h.nAlloc := Nat.ne_of_lt hs.node
  have hlt := hs.node
  have hbelow : ∀ c ∈ kids.edges, c.ptr < h₃.nAlloc ∧ c.ptr ∉ xs ++ [h.nAlloc] := by
    intro c hc
    have hptr := hkids.ptr_bounds hc
    refine ⟨hptr.2, fun hm => ?_⟩
    rcases List.mem_append.mp hm with hm | hm
    · have hx := hs.before _ hm
      omega
    · have hx := List.mem_singleton.mp hm
      omega
  refine ⟨by omega, ?_, ?_, ?_, ?_, ?_, ?_, ?_⟩
  · have hsum : (h.edge n).eNumEdges + 1 + UInt32.ofNat next.toList.length =
        (h.edge n).eNumEdges + UInt32.ofNat (next.toList.length + 1) := by
      rw [UInt32.ofNat_add, UInt32.add_comm (UInt32.ofNat _), ← UInt32.add_assoc]
      rfl
    rw [hnext.node, hkids.others n (by omega) hn, hlabel.others n hn, hadded.node, EdgeList.toList, List.length_cons, ← hsum]
  · have h := hnext.ring
    rw [List.map_append, List.append_assoc] at h
    exact h
  · intro d hd
    rw [EdgeList.edges, List.mem_cons, List.mem_append] at hd
    rcases hd with rfl | hd | hd
    · have hself : h.nAlloc < h₃.nAlloc := by omega
      refine hnext.keeps ⟨?_, ?_, ?_, ?_⟩ hself hn.symm fun c hc => hbelow c (EdgeList.mem_edges_of_mem_toList hc)
      · rw [hkids.node, hnode]
      · rw [hkids.node, hnode]
      · rw [hkids.node, hnode]
        exact UInt32.zero_add _
      · exact hkids.ring
    · have hptr := hkids.ptr_bounds hd
      have hdn : d.ptr ≠ n := by omega
      exact hnext.keeps (hkids.below d hd) hptr.2 hdn fun c hc => hbelow c (EdgeList.children_mem_edges hd hc)
    · exact hnext.below d hd
  · rw [EdgeList.edges, List.map_cons, List.map_append, hkids.ptrs, hnext.ptrs, hcount₂]
    have hle : h.nAlloc + 1 ≤ h₃.nAlloc := by omega
    exact allocations_cons ha hle hle₃
  · intro m hm hmn
    rw [hnext.others m (by omega) hmn, hkids.others m (by omega) (by omega), hlabel.others m (by omega), hadded.others m hm hmn]
  · intro q hq hqn hqxs
    have hnew : q ∉ (xs ++ [h.nAlloc]).map TrieHead.eList := by
      rw [List.map_append, List.mem_append, not_or]
      refine ⟨hqxs, fun hm => ?_⟩
      obtain rfl := List.mem_singleton.mp hm
      exact Nat.lt_irrefl _ hq
    have hown : q ≠ .eEdges h.nAlloc := by
      rintro rfl
      exact Nat.lt_irrefl _ hq
    have h₂₃ := hkids.heads q (hq.mono (by omega)) hown List.not_mem_nil
    rw [hlabel.links] at h₂₃
    exact ((hadded.heads q hq hqn hqxs).trans h₂₃).trans (hnext.heads q (hq.mono (by omega)) hqn hnew)
  · rw [hnext.root, hkids.root, hlabel.root, hadded.root]

@[simp] theorem reachDepth_links : (h.reachDepth depth).links = h.links := by
  unfold reachDepth
  split <;> rfl

@[simp] theorem reachDepth_edge : (h.reachDepth depth).edge = h.edge := by
  unfold reachDepth
  split <;> rfl

@[simp] theorem reachDepth_nAlloc : (h.reachDepth depth).nAlloc = h.nAlloc := by
  unfold reachDepth
  split <;> rfl

@[simp] theorem reachDepth_rNumEdges : (h.reachDepth depth).rNumEdges = h.rNumEdges := by
  unfold reachDepth
  split <;> rfl

@[simp] theorem reachDepth_rRootEdge : (h.reachDepth depth).rRootEdge = h.rRootEdge := by
  unfold reachDepth
  split <;> rfl

theorem Grew.of_reachDepth (hg : Grew alloc (h.reachDepth depth) h' n xs l) : Grew alloc h h' n xs l := by
  obtain ⟨hle, hnode, hring, hbelow, hptrs, hothers, hheads, hroot⟩ := hg
  simp only [reachDepth_links, reachDepth_edge, reachDepth_nAlloc, reachDepth_rRootEdge] at *
  exact ⟨hle, hnode, hring, hbelow, hptrs, hothers, hheads, hroot⟩

theorem Site.reachDepth (hs : h.Site n xs) (depth : UInt32) : (h.reachDepth depth).Site n xs := by
  refine ⟨?_, ?_, ?_⟩
  · simpa using hs.node
  · simpa using hs.before
  · simpa using hs.ring

theorem labelled_setLabel {cmp : Bytes} (v : TrieEntry) (p : Prop) [Decidable p] (hterm : (h.edge e).eTerminal = none) :
    Labelled h (if p then (h.setLabel e cmp).setEdge e { (h.setLabel e cmp).edge e with eTerminal := some v }
      else h.setLabel e cmp) e cmp (if p then some v else none) := by
  have hlabel : Labelled h (h.setLabel e cmp) e cmp none := by
    unfold setLabel
    dsimp only
    split <;> refine ⟨rfl, rfl, rfl, rfl, fun m hm => Function.update_of_ne hm _ _, ?_⟩ <;>
      · rw [← hterm]
        exact Function.update_self _ _ _
  by_cases hp : p
  · rw [if_pos hp, if_pos hp]
    refine ⟨hlabel.links, hlabel.nAlloc, hlabel.rNumEdges, hlabel.root, fun m hm => ?_, ?_⟩
    · exact (Function.update_of_ne hm _ _).trans (hlabel.others m hm)
    · refine (Function.update_self _ _ _).trans ?_
      rw [hlabel.edge]
  · rw [if_neg hp, if_neg hp]
    exact hlabel

/-- What is done for an edge and below it does not touch the place where it stands. -/
theorem Added.site {h₁ h₂ h₃ : TrieHeap} {cmp : Bytes} {term : Option TrieEntry} (hs : h.Site n xs)
    (hadded : Added h h₁ n xs) (hlabel : Labelled h₁ h₂ h.nAlloc cmp term) (hkids : Grew alloc h₂ h₃ h.nAlloc [] kids) :
    h₃.Site n (xs ++ [h.nAlloc]) := by
  have hcount : h₂.nAlloc = h.nAlloc + 1 := hlabel.nAlloc.trans hadded.nAlloc
  have hle := hkids.le
  have hn := hs.node
  have hbefore : ∀ x ∈ xs ++ [h.nAlloc], x < h.nAlloc + 1 := by
    intro x hx
    rcases List.mem_append.mp hx with hx | hx
    · exact Nat.lt_succ_of_lt (hs.before x hx)
    · rw [List.mem_singleton.mp hx]
      exact Nat.lt_succ_self _
  refine ⟨by omega, fun x hx => ?_, (hlabel.links ▸ hadded.ring).congr fun q hq => ?_⟩
  · have hx := hbefore x hx
    omega
  · rcases List.mem_cons.mp hq with rfl | hq
    · refine hkids.heads _ ?_ (fun heq => ?_) List.not_mem_nil
      · show n < h₂.nAlloc
        omega
      · have heq := TrieHead.eEdges.inj heq
        omega
    · obtain ⟨x, hx, rfl⟩ := List.mem_map.mp hq
      refine hkids.heads _ ?_ (fun heq => nomatch heq) List.not_mem_nil
      have hx := hbefore x hx
      show x < h₂.nAlloc
      omega

/-- A run in memory has the result of a run without it, and puts the edges that are made there below `n`. -/
def Refines (alloc : ℕ → Bool) (h : TrieHeap) (n : ℕ) (xs : List ℕ) :
    Except Fault (EdgeList × Bool × RadixState) → Except Fault (Bool × TrieHeap) → Prop
  | .error f, r => r = .error f
  | .ok (l, ret, st), r => ∃ h', r = .ok (ret, h') ∧ st = ⟨h'.nAlloc, h'.rNumEdges⟩ ∧ Grew alloc h h' n xs l

/-- An edge with what is put below it comes before what is put behind it. -/
theorem Refines.cons {h₁ h₂ h₃ : TrieHeap} {cmp : Bytes} {term : Option TrieEntry} (hs : h.Site n xs)
    (ha : alloc h.nAlloc = true) (hadded : Added h h₁ n xs) (hlabel : Labelled h₁ h₂ h.nAlloc cmp term)
    (hkids : Grew alloc h₂ h₃ h.nAlloc [] kids) {p : Except Fault (EdgeList × Bool × RadixState)}
    {r : Except Fault (Bool × TrieHeap)} :
    Refines alloc h₃ n (xs ++ [h.nAlloc]) p r →
      Refines alloc h n xs (match p with
        | .error f => .error f
        | .ok (next, ret, st) => .ok (.cons h.nAlloc cmp term kids next, ret, st)) r := by
  intro hnext
  cases p with
  | error f => exact hnext
  | ok res =>
    obtain ⟨next, ret, st⟩ := res
    obtain ⟨h', hr, hst, hgrew⟩ := hnext
    exact ⟨h', hr, hst, hadded.cons hs ha hlabel hkids hgrew⟩

theorem radixLoop_refines {fuel ofs : ℕ} {ents : List TrieEntry} (hs : h.Site n xs) :
    Refines alloc h n xs (Ashttpd.doRadix alloc fuel ents ofs ⟨h.nAlloc, h.rNumEdges⟩)
      (h.radixLoop alloc fuel n ents ofs depth) := by
  induction fuel generalizing ents ofs depth h n xs with
  | zero => exact rfl
  | succ fuel ih =>
    cases ents with
    | nil => exact ⟨h, rfl, rfl, hs.grew_nil alloc⟩
    | cons v rest =>
      rw [Ashttpd.doRadix, TrieHeap.radixLoop]
      generalize radixGroup v ofs (v.tStr.length - ofs) 0 0 (v :: rest) = group
      obtain ⟨len, last⟩ := group
      cases ha : alloc h.nAlloc with
      | false =>
        simp only [edgeNew_failed ha, Ashttpd.edgeNew, ha, Bool.false_eq_true, if_false]
        exact ⟨_, rfl, rfl, hs.grew_failed ha⟩
      | true =>
        obtain ⟨h₁, hnew, hadded⟩ := hs.edgeNew ha
        simp only [hnew, Ashttpd.edgeNew, ha, if_true]
        by_cases hlen : v.tStr.length < ofs + len
        · simp only [hlen, if_true]
          exact rfl
        simp only [hlen, if_false]
        have hlabel := @labelled_setLabel h₁ h.nAlloc ((v.tStr.drop ofs).take len) v (ofs + len = v.tStr.length) _
          (by rw [hadded.edge])
        generalize (if ofs + len = v.tStr.length then (h₁.setLabel h.nAlloc ((v.tStr.drop ofs).take len)).setEdge h.nAlloc
          { (h₁.setLabel h.nAlloc ((v.tStr.drop ofs).take len)).edge h.nAlloc with eTerminal := some v }
          else h₁.setLabel h.nAlloc ((v.tStr.drop ofs).take len)) = h₂ at hlabel ⊢
        have hcount : h₂.nAlloc = h.nAlloc + 1 := hlabel.nAlloc.trans hadded.nAlloc
        have hnum : h₂.rNumEdges = h.rNumEdges + 1 := hlabel.rNumEdges.trans hadded.numEdges
        have hsite : h₂.Site h.nAlloc [] := ⟨by omega, by simp, hlabel.links ▸ hadded.kids⟩
        rw [← hcount, ← hnum]
        by_cases hskip : ofs + len = v.tStr.length ∧ last = 0
        · -- the source goes on with the next entry, the tree gets no edges below this one
          rw [if_pos hskip]
          obtain ⟨hend, rfl⟩ := hskip
          simp only [hend, if_true, List.take_zero, List.drop_zero] at hlabel ⊢
          have hkids := hsite.grew_nil alloc
          cases fuel with
          | zero => exact rfl
          | succ fuel =>
            have hnext : Refines alloc h₂ n (xs ++ [h.nAlloc]) (Ashttpd.doRadix alloc (fuel + 1) rest ofs _)
                (TrieHeap.radixLoop alloc (fuel + 1) n rest ofs depth h₂) := ih (hadded.site hs hlabel hkids)
            rw [Ashttpd.doRadix]
            exact Refines.cons hs ha hadded hlabel hkids hnext
        · rw [if_neg hskip]
          have hbelow : Refines alloc _ h.nAlloc [] (Ashttpd.doRadix alloc fuel
              (if ofs + len = v.tStr.length then rest.take last else v :: rest.take last) (ofs + len) _)
              (TrieHeap.radixLoop alloc fuel h.nAlloc _ (ofs + len) (depth + 1) _) := ih (hsite.reachDepth (depth + 1))
          rw [reachDepth_nAlloc, reachDepth_rNumEdges] at hbelow
          cases hp : Ashttpd.doRadix alloc fuel
              (if ofs + len = v.tStr.length then rest.take last else v :: rest.take last) (ofs + len)
              ⟨h₂.nAlloc, h₂.rNumEdges⟩ with
          | error f =>
            rw [hp] at hbelow
            have hfault : TrieHeap.radixLoop alloc fuel h.nAlloc _ _ _ _ = .error f := hbelow
            simp only [hfault]
            exact rfl
          | ok res =>
            obtain ⟨kids, ret, st⟩ := res
            rw [hp] at hbelow
            obtain ⟨h₃, hrun, rfl, hgrew⟩ := hbelow
            have hkids := hgrew.of_reachDepth
            simp only [hrun]
            exact Refines.cons hs ha hadded hlabel hkids (ih (hadded.site hs hlabel hkids))

/-- A tree is in memory, and none of its edges stands in an order yet. -/
structure Holds (h : TrieHeap) (root : TrieEdge) : Prop where
  rootEdge : h.rRootEdge = some root.ptr
  edges : ∀ e ∈ root.edges, h.HoldsEdge e
  nodup : (root.edges.map TrieEdge.ptr).Nodup
  order : h.links.Ring .rBfsOrder []
  unlinked : h.links.Ring (.eBfs root.ptr) []

/-- The root edge that `construct_radix` makes first. -/
theorem constructRadix_root {links : Links TrieHead} (ha : alloc 0 = true) :
    ∃ h₁, (fresh links).edgeNew alloc none = (some 0, h₁) ∧ h₁.Site 0 [] ∧ h₁.nAlloc = 1 ∧ h₁.rNumEdges = 1 ∧
      h₁.edge 0 = ⟨[], none, 0, 0⟩ ∧ h₁.links.Ring .rBfsOrder [] ∧ h₁.links.Ring (.eBfs 0) [] := by
  have hroot : alloc (fresh links).nAlloc = true := ha
  unfold TrieHeap.edgeNew
  rw [if_pos hroot]
  have horder : ∀ l : Links TrieHead, l.Ring .rBfsOrder [] →
      ((l.initListHead (.eEdges 0)).initListHead (.eBfs 0)).Ring .rBfsOrder [] := by
    intro l hl
    refine hl.congr fun q hq => ?_
    obtain rfl := List.mem_singleton.mp hq
    exact (sameAt_initListHead (by simp)).trans (sameAt_initListHead (by simp))
  have hkids : ∀ l : Links TrieHead, ((l.initListHead (.eEdges 0)).initListHead (.eBfs 0)).Ring (.eEdges 0) [] := by
    intro l
    have hinit : (l.initListHead (.eEdges 0)).Ring (.eEdges 0) [] := ring_initListHead
    refine hinit.congr fun q hq => ?_
    obtain rfl := List.mem_singleton.mp hq
    exact sameAt_initListHead (by simp)
  refine ⟨_, rfl, ⟨Nat.zero_lt_one, by simp, hkids _⟩, rfl, ?_, ?_, horder _ ring_initListHead, ring_initListHead⟩
  · exact UInt32.zero_add 1
  · simp [setEdge, setLinks, fresh]

/-- A tree that `construct_radix` made is in memory. -/
def Constructed (alloc : ℕ → Bool) (h : TrieHeap) (edges : EdgeList) : Prop :=
  h.Holds ⟨0, [], none, edges⟩ ∧
    (TrieEdge.edges ⟨0, [], none, edges⟩).map TrieEdge.ptr = (List.range h.nAlloc).filter alloc

/-- The root edge and what was put below it are a tree in memory. -/
theorem Grew.holds {h₁ : TrieHeap} (hg : Grew alloc { h₁ with rRootEdge := some 0 } h 0 [] l) (hcount : h₁.nAlloc = 1)
    (ha : alloc 0 = true) (hedge : h₁.edge 0 = ⟨[], none, 0, 0⟩) (horder : h₁.links.Ring .rBfsOrder [])
    (hbfs : h₁.links.Ring (.eBfs 0) []) : Constructed alloc h l := by
  have hle : 1 ≤ h.nAlloc := hcount ▸ hg.le
  have hptrs : (TrieEdge.edges ⟨0, [], none, l⟩).map TrieEdge.ptr = (List.range h.nAlloc).filter alloc := by
    have hl := hg.ptrs
    rw [show TrieHeap.nAlloc { h₁ with rRootEdge := some 0 } = 1 from hcount] at hl
    rw [TrieEdge.edges, List.map_cons, hl, List.range_eq_range', ← Nat.sub_add_cancel hle, List.range'_succ,
      List.filter_cons_of_pos ha, Nat.add_sub_cancel]
  have hnode : h.edge 0 = ⟨[], none, UInt32.ofNat l.toList.length, 0⟩ := by
    rw [hg.node]
    show ({ h₁.edge 0 with eNumEdges := (h₁.edge 0).eNumEdges + UInt32.ofNat l.toList.length } : EdgeFields) = _
    rw [hedge, UInt32.zero_add]
  refine ⟨⟨hg.root, ?_, ?_, ?_, ?_⟩, hptrs⟩
  · intro e he
    rcases List.mem_cons.mp he with rfl | he
    · exact ⟨by rw [hnode], by rw [hnode], by rw [hnode]; rfl, hg.ring⟩
    · exact hg.below e he
  · rw [hptrs]
    exact List.nodup_range.filter _
  · refine horder.congr fun q hq => ?_
    obtain rfl := List.mem_singleton.mp hq
    exact hg.heads _ trivial (by simp) List.not_mem_nil
  · refine hbfs.congr fun q hq => ?_
    obtain rfl := List.mem_singleton.mp hq
    refine hg.heads _ ?_ (by simp) List.not_mem_nil
    show 0 < h₁.nAlloc
    omega

/-- With a root edge, `construct_radix` ends as `do_radix` does without memory. -/
theorem constructRadix_refines {links : Links TrieHead} {fuel : ℕ} {ents : List TrieEntry} (ha : alloc 0 = true)
    (hne : ents ≠ []) : match Ashttpd.doRadix alloc fuel ents 0 ⟨1, 1⟩ with
      | .error f => (fresh links).constructRadix alloc fuel (some ents) = .error f
      | .ok (edges, ret, _) => ∃ h, (fresh links).constructRadix alloc fuel (some ents) = .ok (ret, h) ∧
          Constructed alloc h edges := by
  obtain ⟨h₁, hnew, hsite, hcount, hnum, hedge, horder, hbfs⟩ := @constructRadix_root alloc links ha
  have hsite' : TrieHeap.Site { h₁ with rRootEdge := some 0 } 0 [] := ⟨hsite.node, hsite.before, hsite.ring⟩
  have hrefines := @radixLoop_refines _ alloc 0 [] 1 fuel 0 ents (hsite'.reachDepth 1)
  have hst : (⟨h₁.nAlloc, h₁.rNumEdges⟩ : RadixState) = ⟨1, 1⟩ := by rw [hcount, hnum]
  have hrun : (fresh links).constructRadix alloc fuel (some ents) =
      TrieHeap.doRadix alloc fuel 0 ents 0 1 { h₁ with rRootEdge := some 0 } := by
    rw [constructRadix, hnew]
    exact if_neg (by simp [hne])
  rw [reachDepth_nAlloc, reachDepth_rNumEdges, hst] at hrefines
  rw [hrun]
  cases hp : Ashttpd.doRadix alloc fuel ents 0 ⟨1, 1⟩ with
  | error f =>
    rw [hp] at hrefines
    exact hrefines
  | ok res =>
    obtain ⟨edges, ret, st⟩ := res
    rw [hp] at hrefines
    obtain ⟨h, hloop, -, hgrew⟩ := hrefines
    exact ⟨h, hloop, hgrew.of_reachDepth.holds hcount ha hedge horder hbfs⟩

/-- Every tree that `construct_radix` returns is the tree of a run without memory. -/
theorem constructRadix_constructed {links : Links TrieHead} {fuel : ℕ} {ents : List TrieEntry} {ret : Bool} {root : ℕ}
    (hrun : (fresh links).constructRadix alloc fuel (some ents) = .ok (ret, h)) (hroot : h.rRootEdge = some root) :
    ∃ edges st, Ashttpd.doRadix alloc fuel ents 0 ⟨1, 1⟩ = .ok (edges, ret, st) ∧ Constructed alloc h edges := by
  cases ha : alloc 0 with
  | false =>
    rw [constructRadix, edgeNew_failed (h := fresh links) ha] at hrun
    cases hrun
    cases hroot
  | true =>
    have hne : ents ≠ [] := by
      rintro rfl
      obtain ⟨h₁, hnew, -⟩ := @constructRadix_root alloc links ha
      rw [constructRadix, hnew] at hrun
      cases hrun
    have hrefines := @constructRadix_refines alloc links fuel ents ha hne
    cases hp : Ashttpd.doRadix alloc fuel ents 0 ⟨1, 1⟩ with
    | error f =>
      rw [hp] at hrefines
      cases hrun.symm.trans hrefines
    | ok res =>
      obtain ⟨edges, ret', st⟩ := res
      rw [hp] at hrefines
      obtain ⟨h', hrun', hbuilt⟩ := hrefines
      cases hrun.symm.trans hrun'
      exact ⟨edges, st, rfl, hbuilt⟩

end TrieHeap

end Ashttpd
