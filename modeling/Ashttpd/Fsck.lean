import Ashttpd.TrieRoundTrip
import Ashttpd.PartialTries
import Ashttpd.Outcomes

/-!
# Walking the records of a trie (`fsck.c`)

The three walks of `fsckroot` over the table of records, from the root record on. What they print is left
out, but for the calls of `print_obj`. Every walk follows the indices that are stored, as far as they lead.
-/
namespace Ashttpd

def trieRecord (recs : List TrieDedge) (i : ℕ) : Except Fault TrieDedge :=
  match recs[i]? with
  | some d => .ok d
  | none => .error .outOfRange

/-- `do_dump`, from the record `re` on; `ret` is what its loop has found so far. -/
def doDump (recs : List TrieDedge) : ℕ → ℕ → ℕ → ℕ → Except Fault ℕ
  | 0, _, _, _ => .error .nontermination
  | _ + 1, _, 0, ret => .ok ret
  | fuel + 1, re, numEdges + 1, ret => do
    let d ← trieRecord recs re
    let below ← doDump recs fuel d.reEdgesIdx.toNat d.reNumEdges.toNat 0
    let tmp := below + d.reStrlen.toNat
    doDump recs fuel (re + 1) numEdges (if ret < tmp then tmp else ret)

def dumpRoot (recs : List TrieDedge) (fuel : ℕ) : Except Fault ℕ := doDump recs fuel 0 1 0

/-- `hist[i]++`. -/
def histCount (hist : List UInt32) (i : ℕ) : Except Fault (List UInt32) :=
  if i < hist.length then .ok (hist.modify i (· + 1)) else .error .outOfRange

def calcHists (recs : List TrieDedge) : ℕ → ℕ → ℕ → List UInt32 → List UInt32 → Except Fault (List UInt32 × List UInt32)
  | 0, _, _, _, _ => .error .nontermination
  | _ + 1, _, 0, hist, hist2 => .ok (hist, hist2)
  | fuel + 1, re, numEdges + 1, hist, hist2 => do
    let d ← trieRecord recs re
    let (hist, hist2) ← calcHists recs fuel d.reEdgesIdx.toNat d.reNumEdges.toNat hist hist2
    let hist ← histCount hist d.reStrlen.toNat
    let hist2 ← histCount hist2 d.reNumEdges.toNat
    calcHists recs fuel (re + 1) numEdges hist hist2

/-- The total that `dump_hist` and `dump_fanout_hist` print. -/
def dumpHist (hist : List UInt32) : UInt32 := hist.foldl (· + ·) 0

/-- The buffer of the path, and what `print_obj` was called with: the string and the object. -/
abbrev Deets := Mem × List (Bytes × UInt32)

/-- `do_deets`. The buffer has `maxLen` bytes, and `buf` counts from its start. -/
def doDeets (recs : List TrieDedge) (maxLen : ℕ) : ℕ → ℕ → ℕ → ℕ → Deets → Except Fault Deets
  | 0, _, _, _, _ => .error .nontermination
  | _ + 1, _, 0, _, st => .ok st
  | fuel + 1, re, numEdges + 1, buf, (mem, out) => do
    let d ← trieRecord recs re
    if d.reStr.length < d.reStrlen.toNat ∨ maxLen < buf + d.reStrlen.toNat then .error .outOfRange
    else
      let mem := mem.store buf (d.reStr.take d.reStrlen.toNat)
      let out := if d.reOid ≠ GIDX_INVALID_OID then out ++ [(mem.slice 0 (buf + d.reStrlen.toNat), d.reOid)] else out
      let st ← doDeets recs maxLen fuel d.reEdgesIdx.toNat d.reNumEdges.toNat (buf + d.reStrlen.toNat) (mem, out)
      doDeets recs maxLen fuel (re + 1) numEdges buf st

def printDeets (recs : List TrieDedge) (maxLen fuel : ℕ) (mem : Mem) : Except Fault Deets :=
  doDeets recs maxLen fuel 0 1 0 (mem, [])

/-- The position of every first child fits the 32 bits of `re_edges_idx`. -/
def IndicesFit (order : List TrieEdge) : Prop :=
  ∀ e ∈ order, ∀ c cs, e.children = c :: cs → ∀ k, order[k]? = some c → k < 2 ^ 32

/-- The table is the one written for the edges below a root, and its indices are those of the edges. -/
structure Recorded (recs : List TrieDedge) (root : TrieEdge) : Prop where
  records : recs = (doLayoutBfs root).map (dedgeOf (doLayoutBfs root))
  nodup : ((doLayoutBfs root).map TrieEdge.ptr).Nodup
  fits : ∀ e ∈ doLayoutBfs root, Fits e
  indices : IndicesFit (doLayoutBfs root)

def StandsAt (order : List TrieEdge) (base : ℕ) (l : EdgeList) : Prop := ∀ i < l.toList.length, order[base + i]? = l.toList[i]?

theorem indicesFit_of_length {order : List TrieEdge} (h : order.length ≤ 2 ^ 32) : IndicesFit order := by
  intro e _ c cs _ k hk
  exact Nat.lt_of_lt_of_le (List.getElem?_eq_some_iff.mp hk).1 h

variable {recs : List TrieDedge} {root e : TrieEdge} {order : List TrieEdge} {base : ℕ}

section stands

variable {ptr : ℕ} {cmp : Bytes} {term : Option TrieEntry} {kids next : EdgeList}

theorem StandsAt.head (h : StandsAt order base (.cons ptr cmp term kids next)) : order[base]? = some ⟨ptr, cmp, term, kids⟩ :=
  h 0 (Nat.succ_pos _)

theorem StandsAt.tail (h : StandsAt order base (.cons ptr cmp term kids next)) : StandsAt order (base + 1) next := by
  intro i hi
  have hget := h (i + 1) (Nat.succ_lt_succ hi)
  rwa [← Nat.add_assoc, Nat.add_right_comm] at hget

end stands

/-- What a walk reads of an edge of the tree, and where it goes on. -/
structure EdgeReads (recs : List TrieDedge) (order : List TrieEdge) (re : ℕ) (e : TrieEdge) (d : TrieDedge) : Prop where
  record : trieRecord recs re = .ok d
  oid : d.reOid = e.oid
  strlen : d.reStrlen.toNat = e.eCmp.length
  numEdges : d.reNumEdges.toNat = e.children.length
  str : d.reStr.take e.eCmp.length = e.eCmp
  children : StandsAt order d.reEdgesIdx.toNat e.eEdges

theorem Recorded.reads (h : Recorded recs root) {k : ℕ} (hk : (doLayoutBfs root)[k]? = some e) :
    ∃ d, EdgeReads recs (doLayoutBfs root) k e d := by
  have hf := h.fits e (List.mem_of_getElem? hk)
  refine ⟨dedgeOf (doLayoutBfs root) e, ?_, rfl, dedgeOf_strlen hf _, dedgeOf_numEdges hf _, dedgeOf_str e _, ?_⟩
  · unfold trieRecord
    rw [h.records, List.getElem?_map, hk]
    rfl
  · obtain ⟨first, hfirst⟩ := doLayoutBfs_children root hk
    cases hc : e.children with
    | nil =>
      intro i hi
      have hnil : e.eEdges.toList.length = 0 := congrArg List.length hc
      rw [hnil] at hi
      cases hi
    | cons c cs =>
      have hc0 : (doLayoutBfs root)[first]? = some c := by
        have hget := hfirst 0 (by rw [hc]; exact Nat.succ_pos _)
        rwa [hc] at hget
      have hidx : (dedgeOf (doLayoutBfs root) e).reEdgesIdx.toNat = first :=
        firstChildIdx_eq h.nodup hc hc0 (h.indices e (List.mem_of_getElem? hk) c cs hc first hc0)
      rw [hidx]
      exact hfirst

section rounds

variable {re n fuel ret : ℕ} {d : TrieDedge}

theorem EdgeReads.doDump_round (h : EdgeReads recs order re e d) :
    doDump recs (fuel + 1) re (n + 1) ret = (doDump recs fuel d.reEdgesIdx.toNat e.children.length 0 >>= fun below =>
      doDump recs fuel (re + 1) n (max ret (below + e.eCmp.length))) := by
  have hmax : ∀ tmp, (if ret < tmp then tmp else ret) = max ret tmp := by
    intro tmp
    split
    · omega
    · omega
  rw [doDump, h.record]
  show (doDump recs fuel d.reEdgesIdx.toNat d.reNumEdges.toNat 0 >>= _) = _
  rw [h.numEdges, h.strlen]
  simp only [hmax]

/-- What is printed at an edge, with `text` in the buffer. -/
def TrieEdge.object (e : TrieEdge) (text : Bytes) : List (Bytes × UInt32) :=
  if e.oid ≠ GIDX_INVALID_OID then [(text, e.oid)] else []

theorem EdgeReads.doDeets_round {maxLen pos : ℕ} {mem : Mem} {out : List (Bytes × UInt32)} (h : EdgeReads recs order re e d)
    (hfit : pos + e.eCmp.length ≤ maxLen) : doDeets recs maxLen (fuel + 1) re (n + 1) pos (mem, out) =
      (doDeets recs maxLen fuel d.reEdgesIdx.toNat e.children.length (pos + e.eCmp.length)
        (mem.store pos e.eCmp, out ++ e.object (mem.slice 0 pos ++ e.eCmp)) >>= doDeets recs maxLen fuel (re + 1) n pos) := by
  have hroom : ¬ (d.reStr.length < d.reStrlen.toNat ∨ maxLen < pos + d.reStrlen.toNat) := by
    have hle := congrArg List.length h.str
    rw [List.length_take] at hle
    have hlen := h.strlen
    omega
  have htext : (mem.store pos e.eCmp).slice 0 (pos + e.eCmp.length) = mem.slice 0 pos ++ e.eCmp := by
    have hextend := Mem.slice_store_extend mem 0 pos e.eCmp
    rwa [Nat.zero_add] at hextend
  have hout : (if e.oid ≠ GIDX_INVALID_OID then out ++ [(mem.slice 0 pos ++ e.eCmp, e.oid)] else out) =
      out ++ e.object (mem.slice 0 pos ++ e.eCmp) := by
    unfold TrieEdge.object
    split
    · rfl
    · rw [List.append_nil]
  rw [doDeets, h.record]
  show (if _ then _ else _) = _
  rw [if_neg hroom]
  simp only [h.strlen, h.str, h.oid, h.numEdges, htext]
  rw [hout]

theorem EdgeReads.calcHists_round {hist hist2 : List UInt32} (h : EdgeReads recs order re e d) :
    calcHists recs (fuel + 1) re (n + 1) hist hist2 =
      (calcHists recs fuel d.reEdgesIdx.toNat e.children.length hist hist2 >>= fun hists =>
        histCount hists.1 e.eCmp.length >>= fun hist => histCount hists.2 e.children.length >>= fun hist2 =>
          calcHists recs fuel (re + 1) n hist hist2) := by
  rw [calcHists, h.record]
  show (calcHists recs fuel d.reEdgesIdx.toNat d.reNumEdges.toNat hist hist2 >>= _) = _
  rw [h.numEdges, h.strlen]

end rounds

namespace EdgeList

/-- The longest text on a way down. -/
def longest : EdgeList → ℕ
  | nil => 0
  | cons _ cmp _ kids next => max (kids.longest + cmp.length) next.longest

/-- What the edges with an object spell, behind the text `p`. -/
def objects : EdgeList → Bytes → List (Bytes × UInt32)
  | nil, _ => []
  | cons ptr cmp term kids next, p =>
    TrieEdge.object ⟨ptr, cmp, term, kids⟩ (p ++ cmp) ++ (kids.objects (p ++ cmp) ++ next.objects p)

theorem length_le_longest {l : EdgeList} (he : e ∈ l.edges) : e.eCmp.length ≤ l.longest := by
  induction l with
  | nil => cases he
  | cons ptr cmp term kids next ihk ihn =>
    rw [longest]
    rcases List.mem_cons.mp he with rfl | he
    · exact le_max_of_le_left (Nat.le_add_left _ _)
    · rcases List.mem_append.mp he with he | he
      · exact le_max_of_le_left (Nat.le_add_right_of_le (ihk he))
      · exact le_max_of_le_right (ihn he)

end EdgeList

/-- `k` more are counted, in as many counters. -/
structure CountedUp (k : ℕ) (hist hist' : List UInt32) : Prop where
  length : hist'.length = hist.length
  total : dumpHist hist' = dumpHist hist + UInt32.ofNat k

namespace CountedUp

variable {k k' : ℕ} {hist hist' hist'' : List UInt32}

theorem refl (hist : List UInt32) : CountedUp 0 hist hist := ⟨rfl, (UInt32.add_zero _).symm⟩

theorem trans (h : CountedUp k hist hist') (h' : CountedUp k' hist' hist'') : CountedUp (k + k') hist hist'' :=
  ⟨h'.length.trans h.length, by rw [h'.total, h.total, UInt32.ofNat_add, UInt32.add_assoc]⟩

end CountedUp

theorem dumpHist_eq (hist : List UInt32) : dumpHist hist = hist.sum := (List.sum_eq_foldl).symm

theorem dumpHist_zeros (n : ℕ) : dumpHist (List.replicate n 0) = 0 := by
  rw [dumpHist_eq]
  induction n with
  | zero => rfl
  | succ n ih => rw [List.replicate_succ, List.sum_cons, ih, UInt32.zero_add]

private theorem sum_modify {hist : List UInt32} {i : ℕ} (h : i < hist.length) : (hist.modify i (· + 1)).sum = hist.sum + 1 := by
  induction hist generalizing i with
  | nil => cases h
  | cons n hist ih =>
    cases i with
    | zero => rw [List.modify_zero_cons, List.sum_cons, List.sum_cons, UInt32.add_assoc, UInt32.add_comm 1, UInt32.add_assoc]
    | succ i => rw [List.modify_succ_cons, List.sum_cons, List.sum_cons, ih (Nat.lt_of_succ_lt_succ h), UInt32.add_assoc]

theorem histCount_counted {hist : List UInt32} {i : ℕ} (h : i < hist.length) :
    ∃ hist', histCount hist i = .ok hist' ∧ CountedUp 1 hist hist' := by
  refine ⟨hist.modify i (· + 1), if_pos h, List.length_modify _ _ _, ?_⟩
  rw [dumpHist_eq, dumpHist_eq]
  exact sum_modify h

section walks

variable (hreads : ∀ k e, order[k]? = some e → ∃ d, EdgeReads recs order k e d) {l : EdgeList} {fuel : ℕ}

include hreads

theorem doDump_eq {ret : ℕ} (hl : StandsAt order base l) (hf : l.size < fuel) :
    doDump recs fuel base l.toList.length ret = .ok (max ret l.longest) := by
  induction l generalizing base fuel ret with
  | nil =>
    obtain ⟨fuel, rfl⟩ := Nat.exists_eq_succ_of_ne_zero (Nat.ne_of_gt (Nat.zero_lt_of_lt hf))
    rw [EdgeList.longest, Nat.max_zero]
    rfl
  | cons ptr cmp term kids next ihk ihn =>
    obtain ⟨fuel, rfl⟩ := Nat.exists_eq_succ_of_ne_zero (Nat.ne_of_gt (Nat.zero_lt_of_lt hf))
    obtain ⟨d, hd⟩ := hreads base _ hl.head
    rw [EdgeList.size] at hf
    have hbelow : doDump recs fuel d.reEdgesIdx.toNat kids.toList.length 0 = .ok (max 0 kids.longest) :=
      ihk hd.children (by omega)
    show doDump recs (fuel + 1) base (next.toList.length + 1) ret = _
    rw [hd.doDump_round]
    show (doDump recs fuel d.reEdgesIdx.toNat kids.toList.length 0 >>= _) = _
    rw [hbelow]
    show doDump recs fuel (base + 1) next.toList.length _ = _
    rw [ihn hl.tail (by omega), EdgeList.longest, Nat.zero_max, Nat.max_assoc]

/-- The way down is in the buffer when an edge is printed, and again when its next sibling is read. -/
theorem doDeets_eq {maxLen pos : ℕ} {p : Bytes} {mem : Mem} {out : List (Bytes × UInt32)} (hl : StandsAt order base l)
    (hf : l.size < fuel) (hp : p.length = pos) (hmem : mem.slice 0 pos = p) (hfit : pos + l.longest ≤ maxLen) :
    ∃ mem', doDeets recs maxLen fuel base l.toList.length pos (mem, out) = .ok (mem', out ++ l.objects p) ∧
      mem'.slice 0 pos = p := by
  induction l generalizing base fuel pos p mem out with
  | nil =>
    obtain ⟨fuel, rfl⟩ := Nat.exists_eq_succ_of_ne_zero (Nat.ne_of_gt (Nat.zero_lt_of_lt hf))
    refine ⟨mem, ?_, hmem⟩
    rw [EdgeList.objects, List.append_nil]
    rfl
  | cons ptr cmp term kids next ihk ihn =>
    obtain ⟨fuel, rfl⟩ := Nat.exists_eq_succ_of_ne_zero (Nat.ne_of_gt (Nat.zero_lt_of_lt hf))
    obtain ⟨d, hd⟩ := hreads base _ hl.head
    rw [EdgeList.size] at hf
    rw [EdgeList.longest] at hfit
    have hpath : (mem.store pos cmp).slice 0 (pos + cmp.length) = p ++ cmp := by
      have hextend := Mem.slice_store_extend mem 0 pos cmp
      rwa [Nat.zero_add, hmem] at hextend
    have hlen : (p ++ cmp).length = pos + cmp.length := by rw [List.length_append, hp]
    obtain ⟨mem₁, hbelow, hmem₁⟩ := @ihk _ fuel _ _ _ (out ++ TrieEdge.object ⟨ptr, cmp, term, kids⟩ (p ++ cmp))
      hd.children (by omega) hlen hpath (by omega)
    have hmem₁' : mem₁.slice 0 pos = p := by
      have hcut := congrArg (List.take pos) hmem₁
      rwa [Mem.slice_add, List.take_left' (Mem.slice_length _ _ _), List.take_left' hp] at hcut
    obtain ⟨mem₂, hbehind, hmem₂⟩ := @ihn _ fuel _ _ _ _ hl.tail (by omega) hp hmem₁' (by omega)
    refine ⟨mem₂, ?_, hmem₂⟩
    show doDeets recs maxLen (fuel + 1) base (next.toList.length + 1) pos (mem, out) = _
    rw [hd.doDeets_round (by show pos + cmp.length ≤ maxLen; omega), hmem]
    show (doDeets recs maxLen fuel d.reEdgesIdx.toNat kids.toList.length (pos + cmp.length) _ >>= _) = _
    rw [hbelow]
    show doDeets recs maxLen fuel (base + 1) next.toList.length pos _ = _
    rw [hbehind, EdgeList.objects, List.append_assoc, List.append_assoc]

theorem calcHists_eq {hist hist2 : List UInt32} (hl : StandsAt order base l) (hf : l.size < fuel)
    (hin : ∀ e ∈ l.edges, e.eCmp.length < hist.length ∧ e.children.length < hist2.length) :
    ∃ hist' hist2', calcHists recs fuel base l.toList.length hist hist2 = .ok (hist', hist2') ∧
      CountedUp l.size hist hist' ∧ CountedUp l.size hist2 hist2' := by
  induction l generalizing base fuel hist hist2 with
  | nil =>
    obtain ⟨fuel, rfl⟩ := Nat.exists_eq_succ_of_ne_zero (Nat.ne_of_gt (Nat.zero_lt_of_lt hf))
    exact ⟨hist, hist2, rfl, .refl _, .refl _⟩
  | cons ptr cmp term kids next ihk ihn =>
    obtain ⟨fuel, rfl⟩ := Nat.exists_eq_succ_of_ne_zero (Nat.ne_of_gt (Nat.zero_lt_of_lt hf))
    obtain ⟨d, hd⟩ := hreads base _ hl.head
    rw [EdgeList.size] at hf
    rw [EdgeList.edges, List.forall_mem_cons, List.forall_mem_append] at hin
    obtain ⟨⟨hlen, hnum⟩, hink, hinn⟩ := hin
    obtain ⟨a, a2, hbelow, hca, hca2⟩ := @ihk _ fuel _ _ hd.children (by omega) hink
    obtain ⟨b, hb, hcb⟩ := @histCount_counted a _ (hca.length ▸ hlen)
    obtain ⟨b2, hb2, hcb2⟩ := @histCount_counted a2 _ (hca2.length ▸ hnum)
    have hinn' : ∀ e ∈ next.edges, e.eCmp.length < b.length ∧ e.children.length < b2.length := by
      rwa [hcb.length, hcb2.length, hca.length, hca2.length]
    obtain ⟨c, c2, hbehind, hcc, hcc2⟩ := @ihn _ fuel _ _ hl.tail (by omega) hinn'
    refine ⟨c, c2, ?_, (hca.trans hcb).trans hcc, (hca2.trans hcb2).trans hcc2⟩
    show calcHists recs (fuel + 1) base (next.toList.length + 1) hist hist2 = _
    rw [hd.calcHists_round]
    show (calcHists recs fuel d.reEdgesIdx.toNat kids.toList.length hist hist2 >>= _) = _
    rw [hbelow]
    show (histCount a cmp.length >>= _) = _
    rw [hb]
    show (histCount a2 kids.toList.length >>= _) = _
    have hb2' : histCount a2 kids.toList.length = .ok b2 := hb2
    rw [hb2']
    exact hbehind

end walks

abbrev rootOf (edges : EdgeList) : TrieEdge := ⟨0, [], none, edges⟩

abbrev rootList (edges : EdgeList) : EdgeList := .cons 0 [] none edges .nil

namespace Recorded

variable {edges : EdgeList} {fuel : ℕ}

theorem length (h : Recorded recs (rootOf edges)) : recs.length = (rootList edges).size := by
  rw [h.records, List.length_map, doLayoutBfs_length]
  rfl

theorem stands (edges : EdgeList) : StandsAt (doLayoutBfs (rootOf edges)) 0 (rootList edges) := by
  intro i hi
  obtain rfl : i = 0 := Nat.lt_one_iff.mp hi
  exact doLayoutBfs_root _

theorem dumpRoot_eq (h : Recorded recs (rootOf edges)) (hf : recs.length < fuel) : dumpRoot recs fuel = .ok edges.longest := by
  have hrun : doDump recs fuel 0 (rootList edges).toList.length 0 = .ok (max 0 (rootList edges).longest) :=
    doDump_eq (fun _ _ => h.reads) (stands edges) (h.length ▸ hf)
  rwa [Nat.zero_max, EdgeList.longest, EdgeList.longest, Nat.max_zero] at hrun

theorem printDeets_eq (h : Recorded recs (rootOf edges)) (hf : recs.length < fuel) (mem : Mem) :
    ∃ mem', printDeets recs edges.longest fuel mem = .ok (mem', edges.objects []) := by
  have hfit : 0 + (rootList edges).longest ≤ edges.longest := by
    rw [EdgeList.longest, EdgeList.longest, List.length_nil]
    omega
  obtain ⟨mem', hrun, -⟩ : ∃ mem', doDeets recs edges.longest fuel 0 (rootList edges).toList.length 0 (mem, []) =
      .ok (mem', [] ++ (rootList edges).objects []) ∧ mem'.slice 0 0 = [] :=
    doDeets_eq (fun _ _ => h.reads) (stands edges) (h.length ▸ hf) List.length_nil (Mem.slice_zero mem 0) hfit
  have hroot : TrieEdge.object (rootOf edges) [] = [] := if_neg fun hne => hne rfl
  refine ⟨mem', hrun.trans ?_⟩
  rw [EdgeList.objects, EdgeList.objects, List.append_nil, List.append_nil, hroot]
  rfl

theorem calcHists_eq (h : Recorded recs (rootOf edges)) (hf : recs.length < fuel)
    (hlabels : ∀ e ∈ (rootList edges).edges, e.eCmp.length < edges.longest) : ∃ hist hist2,
      calcHists recs fuel 0 1 (List.replicate edges.longest 0) (List.replicate 0x100 0) = .ok (hist, hist2) ∧
        CountedUp recs.length (List.replicate edges.longest 0) hist ∧ CountedUp recs.length (List.replicate 0x100 0) hist2 := by
  have hin : ∀ e ∈ (rootList edges).edges, e.eCmp.length < (List.replicate edges.longest (0 : UInt32)).length ∧
      e.children.length < (List.replicate 0x100 (0 : UInt32)).length := by
    intro e he
    rw [List.length_replicate, List.length_replicate]
    have hmem : e ∈ TrieEdge.edges (rootOf edges) := by simpa [EdgeList.edges, TrieEdge.edges] using he
    exact ⟨hlabels e he, (h.fits e ((doLayoutBfs_perm _).mem_iff.mpr hmem)).1⟩
  have hrun := Ashttpd.calcHists_eq (fun _ _ => h.reads) (stands edges) (h.length ▸ hf) hin
  rwa [← h.length] at hrun

end Recorded

section written

variable {alloc write : ℕ → Bool} {ents : List TrieEntry} {r : Trie} {n : ℕ}

theorem trieNew_root (h : trieNew alloc ents = .ok (some r)) :
    r.rRootEdge = rootOf r.rRootEdge.eEdges ∧ r.rBfsOrder = doLayoutBfs (rootOf r.rRootEdge.eEdges) := by
  cases ha : alloc 0 with
  | false => simp [trieNew, constructRadix, edgeNew, ha] at h
  | true =>
    have hone : edgeNew alloc ⟨0, 0⟩ = (some 0, ⟨1, 1⟩) := by simp [edgeNew, ha]
    simp only [trieNew, constructRadix, hone] at h
    split at h
    · cases h
    · cases h
    · rename_i root st hc
      obtain rfl := Option.some.inj (Except.ok.inj h)
      split at hc
      · cases hc
      · split at hc
        · cases hc
        · cases hc
        · obtain ⟨rfl, rfl⟩ := Prod.mk.inj (Option.some.inj (Except.ok.inj hc))
          exact ⟨rfl, rfl⟩

theorem Recorded.of_written {edges : EdgeList} (horder : r.rBfsOrder = doLayoutBfs (rootOf edges))
    (hwrite : trieWriteTrie write r = .ok (true, recs)) (hidx : IndicesFit r.rBfsOrder)
    (hnodup : (edges.edges.map TrieEdge.ptr).Sublist (List.range' 1 n)) : Recorded recs (rootOf edges) := by
  obtain ⟨hfits, hrecs⟩ := trieWriteTrie_written hwrite
  rw [horder] at hfits hrecs hidx
  refine ⟨hrecs, ?_, hfits, hidx⟩
  apply ((doLayoutBfs_perm _).map TrieEdge.ptr).nodup_iff.mpr
  refine List.nodup_cons.mpr ⟨fun hmem => ?_, hnodup.nodup List.nodup_range'⟩
  have hrange := List.mem_range'_1.mp (hnodup.subset hmem)
  exact absurd hrange.1 (Nat.not_succ_le_zero 0)

/-- The table of a written trie, whatever allocations failed. -/
theorem UriList.recorded (hu : UriList ents) (hnew : trieNew alloc ents = .ok (some r))
    (hwrite : trieWriteTrie write r = .ok (true, recs)) (hidx : IndicesFit r.rBfsOrder) :
    ∃ edges, Built ents 0 1 edges ∧ Recorded recs (rootOf (edges.grown alloc 1 1)) := by
  have hne : ents ≠ [] := by
    rintro rfl
    cases trieNew_nil _ _ hnew
  obtain ⟨edges, hb, hgrown⟩ := hu.trieNew_grown hne
  have hgrown := hgrown alloc
  unfold TrieGrown at hgrown
  split at hgrown
  · cases hnew.symm.trans hgrown
  obtain ⟨r', hr', hedges⟩ := hgrown
  obtain rfl : r = r' := Option.some.inj (Except.ok.inj (hnew.symm.trans hr'))
  obtain ⟨-, horder⟩ := trieNew_root hnew
  rw [hedges] at horder
  exact ⟨edges, hb, .of_written horder hwrite hidx (edges.grown_ptrs alloc 1 1)⟩

end written

end Ashttpd
