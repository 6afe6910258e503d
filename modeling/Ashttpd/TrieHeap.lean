import Ashttpd.TrieBuilder
import Ashttpd.IntrusiveLists

/-!
# The trie in memory (`trie.c`)

The functions of `trie.c` with the list heads that they link, where `TrieBuilder.lean` has the tree that they
make. An edge is told by the number of the allocation it came from.
-/
namespace Ashttpd

/-- The list heads of a trie: the three of every edge, that of `struct trie`, and the two on the stack of
`do_layout_bfs`. -/
inductive TrieHead where
  | eList (e : ℕ)
  | eBfs (e : ℕ)
  | eEdges (e : ℕ)
  | rBfsOrder
  | cur
  | next
  deriving DecidableEq, Repr

/-- `list_entry(pos, struct trie_edge, e_list)`; any other list head is in no such edge. -/
def TrieHead.entryOfEList : TrieHead → Except Fault ℕ
  | .eList e => .ok e
  | _ => .error .outOfRange

def TrieHead.entryOfEBfs : TrieHead → Except Fault ℕ
  | .eBfs e => .ok e
  | _ => .error .outOfRange

/-- `struct trie_edge` without its list heads. -/
structure EdgeFields where
  eCmp : Bytes
  eTerminal : Option TrieEntry
  eNumEdges : UInt32
  eBfsIdx : UInt32

/-- `struct trie` with its edges and all list heads; `hgang_alloc0` is called for the `nAlloc`-th time next. -/
structure TrieHeap where
  links : Links TrieHead
  edge : ℕ → EdgeFields
  nAlloc : ℕ
  rRootEdge : Option ℕ
  rNumEdges : UInt32
  rMaxFanout : UInt32
  rMaxCmp : UInt32
  rMaxPath : UInt32

namespace TrieHeap

def setLinks (h : TrieHeap) (links : Links TrieHead) : TrieHeap := { h with links := links }

def setEdge (h : TrieHeap) (e : ℕ) (fields : EdgeFields) : TrieHeap :=
  { h with edge := Function.update h.edge e fields }

/-- What `trie_new` hands to `construct_radix`. The list heads of edges that are still to be allocated hold
anything. -/
def fresh (links : Links TrieHead) : TrieHeap :=
  ⟨links.initListHead .rBfsOrder, fun _ => ⟨[], none, 0, 0⟩, 0, none, 0, 0, 0, 0⟩

/-- What `edge_new` does for the parent. -/
def adoptEdge (h : TrieHeap) (e parent : ℕ) : TrieHeap :=
  let h := h.setLinks (h.links.listAddTail (.eList e) (.eEdges parent))
  let h := h.setEdge parent { h.edge parent with eNumEdges := (h.edge parent).eNumEdges + 1 }
  if h.rMaxFanout < (h.edge parent).eNumEdges then { h with rMaxFanout := (h.edge parent).eNumEdges } else h

/-- `edge_new`. The link `e_list` of an edge without a parent stays as it is. -/
def edgeNew (alloc : ℕ → Bool) (h : TrieHeap) (parent : Option ℕ) : Option ℕ × TrieHeap :=
  let e := h.nAlloc
  let h := { h with nAlloc := e + 1 }
  if alloc e then
    let h := h.setEdge e ⟨[], none, 0, 0⟩
    let h := h.setLinks ((h.links.initListHead (.eEdges e)).initListHead (.eBfs e))
    let h := match parent with
      | none => h
      | some p => h.adoptEdge e p
    (some e, { h with rNumEdges := h.rNumEdges + 1 })
  else (none, h)

/-- `if ( depth > r->r_max_path ) r->r_max_path = depth`. -/
def reachDepth (h : TrieHeap) (depth : UInt32) : TrieHeap :=
  if h.rMaxPath < depth then { h with rMaxPath := depth } else h

/-- The label of an edge is set. -/
def setLabel (h : TrieHeap) (e : ℕ) (cmp : Bytes) : TrieHeap :=
  let h := h.setEdge e { h.edge e with eCmp := cmp }
  if h.rMaxCmp.toNat < cmp.length then { h with rMaxCmp := UInt32.ofNat cmp.length } else h

/-- The loop of `do_radix` for the edge `n`, on the entries from `v` up to `end`; the list being empty is `v` being
`NULL`. -/
def radixLoop (alloc : ℕ → Bool) :
    ℕ → ℕ → List TrieEntry → ℕ → UInt32 → TrieHeap → Except Fault (Bool × TrieHeap)
  | 0, _, _, _, _, _ => .error .nontermination
  | _ + 1, _, [], _, _, h => .ok (true, h)
  | fuel + 1, n, v :: rest, ofs, depth, h =>
    let (len, last) := radixGroup v ofs (v.tStr.length - ofs) 0 0 (v :: rest)
    match h.edgeNew alloc (some n) with
    | (none, h) => .ok (false, h)
    | (some e, h) =>
      let h := h.setLabel e ((v.tStr.drop ofs).take len)
      if v.tStr.length < ofs + len then .error .assertion
      else
        let isTerminal := ofs + len = v.tStr.length
        let h := if isTerminal then h.setEdge e { h.edge e with eTerminal := some v } else h
        if isTerminal ∧ last = 0 then radixLoop alloc fuel n rest ofs depth h
        else
          let sub := if isTerminal then rest.take last else v :: rest.take last
          -- the result of the recursive call is ignored
          match radixLoop alloc fuel e sub (ofs + len) (depth + 1) (h.reachDepth (depth + 1)) with
          | .error f => .error f
          | .ok (_, h) => radixLoop alloc fuel n (rest.drop last) ofs depth h

def doRadix (alloc : ℕ → Bool) (fuel n : ℕ) (ents : List TrieEntry) (ofs : ℕ) (depth : UInt32) (h : TrieHeap) :
    Except Fault (Bool × TrieHeap) :=
  radixLoop alloc fuel n ents ofs depth (h.reachDepth depth)

/-- `construct_radix`; `ent` may be `NULL`. -/
def constructRadix (alloc : ℕ → Bool) (fuel : ℕ) (ent : Option (List TrieEntry)) (h : TrieHeap) :
    Except Fault (Bool × TrieHeap) :=
  match ent with
  | none => .ok (true, h)
  | some ents =>
    match h.edgeNew alloc none with
    | (none, h) => .ok (false, { h with rRootEdge := none })
    | (some n, h) =>
      let h := { h with rRootEdge := some n }
      -- `do_radix` asserts that `v` is before `end`
      if ents.isEmpty then .error .assertion else h.doRadix alloc fuel n ents 0 1

/-- The inner loop of `do_layout_bfs`, which puts the children of an edge on `next`. -/
def queueChildren (fuel : ℕ) (h : TrieHeap) (e : ℕ) : Except Fault TrieHeap :=
  Links.listForEach links .nontermination (.eEdges e)
    (fun pos h => pos.entryOfEList.map fun ee => h.setLinks (h.links.listAddTail (.eBfs ee) .next))
    fuel (h.links.next (.eEdges e)) h

/-- The outer loop. -/
def queueLevel (fuel : ℕ) (h : TrieHeap) : Except Fault TrieHeap :=
  Links.listForEach links .nontermination .cur (fun pos h => pos.entryOfEBfs >>= h.queueChildren fuel)
    fuel (h.links.next .cur) h

/-- `do_layout_bfs` from the label `again` on, for at most the given number of levels; `fuel` bounds every loop over a
list. -/
def layoutLevels (fuel : ℕ) : ℕ → TrieHeap → Except Fault TrieHeap
  | 0, _ => .error .nontermination
  | levels + 1, h => do
    let h ← h.queueLevel fuel
    let h := h.setLinks (h.links.listSplice .cur (h.links.prev .rBfsOrder))
    let h := h.setLinks (h.links.initListHead .cur)
    if h.links.listEmpty .next then pure h
    else
      let h := h.setLinks (h.links.listSplice .next .cur)
      let h := h.setLinks (h.links.initListHead .next)
      layoutLevels fuel levels h

def doLayoutBfs (fuel : ℕ) (h : TrieHeap) : Except Fault TrieHeap :=
  match h.rRootEdge with
  | none => .ok h
  | some root =>
    let h := h.setLinks ((h.links.initListHead .cur).initListHead .next)
    let h := h.setLinks (h.links.listAdd .cur (.eBfs root))
    h.layoutLevels fuel fuel

/-- `do_layout_inorder`, which visits all edges below `e` and leaves them as they are. -/
def doLayoutInorder (h : TrieHeap) : ℕ → ℕ → Except Fault Unit
  | 0, _ => .error .nontermination
  | fuel + 1, e =>
    Links.listForEach (fun _ => h.links) .nontermination (.eEdges e)
      (fun pos _ => pos.entryOfEList >>= h.doLayoutInorder fuel) (fuel + 1) (h.links.next (.eEdges e)) ()

/-- The loop of `layout_radix` that numbers the edges of `r_bfs_order`. -/
def numberEdges (fuel : ℕ) (h : TrieHeap) : Except Fault TrieHeap :=
  (Links.listForEach (fun s : TrieHeap × UInt32 => s.1.links) .nontermination .rBfsOrder
    (fun pos s => pos.entryOfEBfs.map fun e => (s.1.setEdge e { s.1.edge e with eBfsIdx := s.2 }, s.2 + 1))
    fuel (h.links.next .rBfsOrder) (h, 0)).map Prod.fst

def layoutRadix (fuel : ℕ) (h : TrieHeap) : Except Fault TrieHeap :=
  match h.rRootEdge with
  | none => .error .nullPointer
  | some root => do
    h.doLayoutInorder fuel root
    let h ← h.doLayoutBfs fuel
    h.numberEdges fuel

def nodeToDisk (h : TrieHeap) (e : ℕ) (idx : UInt32) : Except Fault TrieDedge :=
  let fields := h.edge e
  if fields.eNumEdges < 0x100 ∧ fields.eCmp.length ≤ RE_EDGE_MAX then
    .ok {
      reOid := match fields.eTerminal with
        | some t => t.tOid
        | none => GIDX_INVALID_OID
      reEdgesIdx := idx
      reNumEdges := fields.eNumEdges.toUInt8
      reStrlen := UInt8.ofNat fields.eCmp.length
      reStr := fields.eCmp ++ List.replicate (RE_EDGE_MAX - fields.eCmp.length) 0 }
  else .error .assertion

/-- The index that `trie_write_trie` gives to `node_to_disk`. -/
def childIdx (h : TrieHeap) (e : ℕ) : Except Fault UInt32 :=
  if h.links.listEmpty (.eEdges e) then .ok 0
  else (h.links.next (.eEdges e)).entryOfEList.map fun ee => (h.edge ee).eBfsIdx

/-- The loop of `trie_write_trie` from a position of `r_bfs_order` on; `write` and the result are those of
`writeEdges`. -/
def writeFrom (h : TrieHeap) (write : ℕ → Bool) :
    ℕ → TrieHead → ℕ → List TrieDedge → Except Fault (Bool × List TrieDedge)
  | 0, _, _, _ => .error .nontermination
  | fuel + 1, pos, i, out =>
    if pos = .rBfsOrder then .ok (true, out)
    else do
      let e ← pos.entryOfEBfs
      let idx ← h.childIdx e
      let d ← h.nodeToDisk e idx
      if write i then writeFrom h write fuel (h.links.next pos) (i + 1) (out ++ [d]) else .ok (false, out)

def trieWriteTrie (fuel : ℕ) (write : ℕ → Bool) (h : TrieHeap) : Except Fault (Bool × List TrieDedge) :=
  h.writeFrom write fuel (h.links.next .rBfsOrder) 0 []

end TrieHeap

end Ashttpd
