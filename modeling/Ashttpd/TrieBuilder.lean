import Ashttpd.Vectors
import Ashttpd.BreadthFirstOrder
import Ashttpd.CommonPrefixes

/-!
# Building and writing the URI trie (`trie.c`)

A node of the radix tree does nothing but point to more edges, so only edges are
stored. `EdgeList` is a sibling list: its first edge with that edge's own children
(`e_edges`) and the siblings after it (`e_list`). An edge keeps the number of the
allocation it came from as its identity, the way the source keeps its address.
-/
namespace Ashttpd

def GIDX_INVALID_OID : UInt32 := 0xffffffff
def RE_EDGE_MAX : ℕ := 8

structure TrieEntry where
  tStr : Bytes
  tOid : UInt32
  deriving DecidableEq, Repr

inductive EdgeList where
  | nil
  | cons (ptr : ℕ) (eCmp : Bytes) (eTerminal : Option TrieEntry) (eEdges eList : EdgeList)
  deriving DecidableEq, Repr

structure TrieEdge where
  ptr : ℕ
  eCmp : Bytes
  eTerminal : Option TrieEntry
  eEdges : EdgeList
  deriving DecidableEq, Repr

/-- The edges of a sibling list, first to last. -/
def EdgeList.toList : EdgeList → List TrieEdge
  | .nil => []
  | .cons ptr cmp term kids next => ⟨ptr, cmp, term, kids⟩ :: next.toList

def TrieEdge.children (e : TrieEdge) : List TrieEdge := e.eEdges.toList

def TrieEdge.eNumEdges (e : TrieEdge) : ℕ := e.children.length

/-- Number of edges in a sibling list and below it. -/
def EdgeList.size : EdgeList → ℕ
  | .nil => 0
  | .cons _ _ _ kids next => kids.size + 1 + next.size

/-- `hgang_alloc0` is called for the `nAlloc`-th time next; `rNumEdges` is the C counter. -/
structure RadixState where
  nAlloc : ℕ
  rNumEdges : UInt32
  deriving DecidableEq, Repr

/-- `edge_new`. The schedule `alloc` says which allocations succeed. -/
def edgeNew (alloc : ℕ → Bool) (st : RadixState) : Option ℕ × RadixState :=
  if alloc st.nAlloc then (some st.nAlloc, ⟨st.nAlloc + 1, st.rNumEdges + 1⟩)
  else (none, ⟨st.nAlloc + 1, st.rNumEdges⟩)

def commonPrefix (a b : Bytes) (ofs : ℕ) : ℕ :=
  let min := if a.length < b.length then a.length else b.length
  if min ≤ ofs then 0
  else
    let ret := prefixLen (a.drop ofs) (b.drop ofs)
    if RE_EDGE_MAX < ret then RE_EDGE_MAX else ret

/-- The first loop of `do_radix`: the label length and the position of `last`, both
positions counted from `v`. The list holds the entries from `tmp` up to `end`. -/
def radixGroup (v : TrieEntry) (ofs : ℕ) : ℕ → ℕ → ℕ → List TrieEntry → ℕ × ℕ
  | len, last, _, [] => (len, last)
  | len, last, tmp, t :: ts =>
    if len < 0x100 then
      let x := commonPrefix v.tStr t.tStr ofs
      if x = 0 then (len, last)
      else radixGroup v ofs (if x < len then x else len) tmp (tmp + 1) ts
    else (len, last)

/-- `do_radix`: the edges it appends to its node, its return value and the state after it.
The entries are those from `v` up to `end`; the list being empty is `v` being `NULL`. -/
def doRadix (alloc : ℕ → Bool) :
    ℕ → List TrieEntry → ℕ → RadixState → Except Fault (EdgeList × Bool × RadixState)
  | 0, _, _, _ => .error .nontermination
  | _ + 1, [], _, st => .ok (.nil, true, st)
  | fuel + 1, v :: rest, ofs, st =>
    let (len, last) := radixGroup v ofs (v.tStr.length - ofs) 0 0 (v :: rest)
    match edgeNew alloc st with
    | (none, st) => .ok (.nil, false, st)
    | (some ptr, st) =>
      if v.tStr.length < ofs + len then .error .assertion
      else
        let isTerminal := ofs + len = v.tStr.length
        -- without a second entry in the group this is the `continue` of the source
        let sub := if isTerminal then rest.take last else v :: rest.take last
        -- the result of the recursive call is ignored
        match doRadix alloc fuel sub (ofs + len) st with
        | .error f => .error f
        | .ok (kids, _, st) =>
          match doRadix alloc fuel (rest.drop last) ofs st with
          | .error f => .error f
          | .ok (next, ret, st) =>
            .ok (.cons ptr ((v.tStr.drop ofs).take len) (if isTerminal then some v else none)
              kids next, ret, st)

/-- Rounds that suffice for `do_radix` on entries cut at `ofs`. -/
def radixFuel (ents : List TrieEntry) (ofs : ℕ) : ℕ :=
  (ents.map fun e => e.tStr.length - ofs + 1).sum

structure Trie where
  rRootEdge : TrieEdge
  rBfsOrder : List TrieEdge
  rNumEdges : UInt32
  deriving DecidableEq, Repr

/-- `construct_radix` on a non-`NULL` entry array: the root edge and the counters. -/
def constructRadix (alloc : ℕ → Bool) (ents : List TrieEntry) :
    Except Fault (Option (TrieEdge × RadixState)) :=
  match edgeNew alloc ⟨0, 0⟩ with
  | (none, _) => .ok none
  | (some ptr, st) =>
    if ents.isEmpty then .error .assertion
    else match doRadix alloc (radixFuel ents 0 + 1) ents 0 st with
      | .error f => .error f
      | .ok (_, false, _) => .ok none
      | .ok (edges, true, st) => .ok (some (⟨ptr, [], none, edges⟩, st))

/-- `do_layout_bfs`: every level is spliced behind the levels above it. -/
def doLayoutBfs (root : TrieEdge) : List TrieEdge :=
  levelOrder TrieEdge.children (root.eEdges.size + 1) [root]

/-- `trie_new`; `do_layout_inorder` visits every edge and changes none. -/
def trieNew (alloc : ℕ → Bool) (ents : List TrieEntry) : Except Fault (Option Trie) :=
  match constructRadix alloc ents with
  | .error f => .error f
  | .ok none => .ok none
  | .ok (some (root, st)) => .ok (some ⟨root, doLayoutBfs root, st.rNumEdges⟩)

/-- The index `layout_radix` stores in an edge, a `uint32_t`. -/
def eBfsIdx (order : List TrieEdge) (e : TrieEdge) : UInt32 :=
  UInt32.ofNat (order.findIdx fun x => x.ptr == e.ptr)

structure TrieDedge where
  reOid : UInt32
  reEdgesIdx : UInt32
  reNumEdges : UInt8
  reStrlen : UInt8
  reStr : Bytes
  deriving DecidableEq, Repr

/-- The record `node_to_disk` writes, unless one of its assertions fails. -/
def nodeToDisk (e : TrieEdge) (idx : UInt32) : Except Fault TrieDedge :=
  if e.eNumEdges < 0x100 ∧ e.eCmp.length ≤ RE_EDGE_MAX then
    .ok {
      reOid := match e.eTerminal with
        | some t => t.tOid
        | none => GIDX_INVALID_OID
      reEdgesIdx := idx
      reNumEdges := UInt8.ofNat e.eNumEdges
      reStrlen := UInt8.ofNat e.eCmp.length
      reStr := e.eCmp ++ List.replicate (RE_EDGE_MAX - e.eCmp.length) 0 }
  else .error .assertion

/-- The index of the first child, zero where there is none. -/
def firstChildIdx (order : List TrieEdge) (e : TrieEdge) : UInt32 :=
  match e.children with
  | ee :: _ => eBfsIdx order ee
  | [] => 0

/-- The loop of `trie_write_trie` over the rest of the order. The schedule `write` says which
calls of `fobuf_write` succeed; the records written come with the return value. -/
def writeEdges (write : ℕ → Bool) (order : List TrieEdge) :
    List TrieEdge → ℕ → List TrieDedge → Except Fault (Bool × List TrieDedge)
  | [], _, out => .ok (true, out)
  | e :: es, i, out =>
    match nodeToDisk e (firstChildIdx order e) with
    | .error f => .error f
    | .ok d => if write i then writeEdges write order es (i + 1) (out ++ [d]) else .ok (false, out)

def trieWriteTrie (write : ℕ → Bool) (r : Trie) : Except Fault (Bool × List TrieDedge) :=
  writeEdges write r.rBfsOrder r.rBfsOrder 0 []

def trieNumEdges (r : Trie) : UInt32 := r.rNumEdges

end Ashttpd
