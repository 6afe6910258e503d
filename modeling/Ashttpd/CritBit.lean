import Ashttpd.BitTrees
import Ashttpd.Vectors

/-!
# The crit-bit tree (`critbit.c`)

A node stands for what a pointer to it points to, and the way from the root to a leaf for the
address of its value. A byte of a string is a `char`, which is signed.
-/
namespace Ashttpd

/-- A string without a terminator in it. -/
structure CStr where
  bytes : Bytes
  noNul : (0 : UInt8) ∉ bytes
  deriving DecidableEq, Repr

namespace CStr

def strlen (u : CStr) : ℕ := u.bytes.length

def charAt (u : CStr) (i : ℕ) : UInt8 := u.bytes.getD i 0

end CStr

/-- `struct _cb_node`. -/
inductive CbNode (V : Type) where
  | leaf (key : CStr) (val : Option V)
  | internal (byte : ℕ) (otherbits : UInt8) (child0 child1 : CbNode V)
  deriving DecidableEq, Repr

/-- `struct cb_tree`, which is its `root`. -/
abbrev CbTree (V : Type) := Option (CbNode V)

abbrev CbSlot := List ℕ

variable {V : Type}

def direction (byte : ℕ) (otherbits : UInt8) (u : CStr) : ℕ :=
  (1 + (otherbits ||| u.charAt byte).toNat) >>> 8

namespace CbNode

/-- The key and the value of the leaf that a string leads to. -/
def leafAt (u : CStr) : CbNode V → CStr × Option V
  | leaf key val => (key, val)
  | internal byte otherbits child0 child1 =>
    if direction byte otherbits u = 0 then child0.leafAt u else child1.leafAt u

/-- The address of the value in the leaf that a string leads to. -/
def way (u : CStr) : CbNode V → CbSlot
  | leaf _ _ => []
  | internal byte otherbits child0 child1 =>
    if direction byte otherbits u = 0 then 0 :: child0.way u else 1 :: child1.way u

/-- The value at an address. -/
def value : CbNode V → CbSlot → Option (Option V)
  | leaf _ val, [] => some val
  | internal _ _ child0 child1, i :: slot => if i = 0 then child0.value slot else child1.value slot
  | _, _ => none

/-- Storing a value at an address. -/
def store (v : Option V) : CbNode V → CbSlot → CbNode V
  | leaf key _, [] => leaf key v
  | internal byte otherbits child0 child1, i :: slot =>
    if i = 0 then internal byte otherbits (child0.store v slot) child1
    else internal byte otherbits child0 (child1.store v slot)
  | n, _ => n

end CbNode

/-- `cb_contains`: the value if it returns 1. -/
def cbContains (t : CbTree V) (u : CStr) : Option (Option V) :=
  match t with
  | none => none
  | some n => if u = (n.leafAt u).1 then some (n.leafAt u).2 else none

/-- Which of the calls of `malloc` and `strdup` succeed, for `newnode`, `newleaf` and its key. -/
structure Allocs where
  node : Bool
  leaf : Bool
  key : Bool
  deriving DecidableEq, Repr

/-- The loop over `newbyte`, with so many bytes of the new key left. The counter has 32 bits, and
if it comes to zero again then it does so for ever. -/
def differentByte (key u : CStr) : ℕ → ℕ → Except Fault (Option ℕ)
  | 0, _ => .ok none
  | n + 1, newbyte =>
    if key.charAt newbyte ≠ u.charAt newbyte then .ok (some newbyte)
    else if newbyte + 1 = 2 ^ 32 then .error .nontermination
    else differentByte key u n (newbyte + 1)

/-- A `char` as a `uint32_t`. -/
def signExtend (c : UInt8) : UInt32 := if c < 128 then c.toUInt32 else c.toUInt32 ||| 0xffffff00

/-- The first difference between two keys: `newbyte` and the first value of `newotherbits`. -/
def firstDifference (key u : CStr) : Except Fault (Option (ℕ × UInt32)) := do
  match ← differentByte key u u.strlen 0 with
  | some newbyte => return some (newbyte, signExtend (key.charAt newbyte) ^^^ signExtend (u.charAt newbyte))
  | none =>
    if key.charAt u.strlen ≠ 0 then return some (u.strlen, signExtend (key.charAt u.strlen))
    else return none

/-- `newotherbits` behind the label `different_byte_found`. -/
def newOtherbits (diff : UInt32) : UInt32 :=
  let bits := diff ||| diff >>> 1
  let bits := bits ||| bits >>> 2
  let bits := bits ||| bits >>> 4
  (bits &&& ~~~(bits >>> 1)) ^^^ 255

def newDirection (newotherbits : UInt32) (c : UInt8) : ℕ :=
  ((1 + (newotherbits ||| c.toUInt32)) >>> 8).toNat

/-- `newnode` with `newleaf` stored at `child[1 - newdirection]` and what was there at
`child[newdirection]`, and the address of the value of `newleaf`. -/
def newNode (newbyte : ℕ) (newotherbits : UInt32) (newdirection : ℕ) (newleaf old : CbNode V) :
    Except Fault (CbNode V × CbSlot) :=
  if newdirection = 0 then .ok (.internal newbyte newotherbits.toUInt8 old newleaf, [1])
  else if newdirection = 1 then .ok (.internal newbyte newotherbits.toUInt8 newleaf old, [0])
  else .error .outOfRange

/-- The loop over `wherep` and the stores. -/
def insertNode (newbyte : ℕ) (newotherbits : UInt32) (newdirection : ℕ) (u : CStr) :
    CbNode V → Except Fault (CbNode V × CbSlot)
  | .leaf key val => newNode newbyte newotherbits newdirection (.leaf u none) (.leaf key val)
  | .internal byte otherbits child0 child1 =>
    if newbyte < byte ∨ byte = newbyte ∧ newotherbits < otherbits.toUInt32 then
      newNode newbyte newotherbits newdirection (.leaf u none) (.internal byte otherbits child0 child1)
    else if direction byte otherbits u = 0 then
      (insertNode newbyte newotherbits newdirection u child0).map fun r =>
        (.internal byte otherbits r.1 child1, 0 :: r.2)
    else
      (insertNode newbyte newotherbits newdirection u child1).map fun r =>
        (.internal byte otherbits child0 r.1, 1 :: r.2)

/-- What `cb_insert` returns, and what `*pppv` is set to, if it is. -/
structure CbInserted (V : Type) where
  ret : ℕ
  tree : CbTree V
  slot : Option CbSlot

def cbInsert (t : CbTree V) (u : CStr) (a : Allocs) : Except Fault (CbInserted V) :=
  match t with
  | none =>
    if a.leaf ∧ a.key then .ok ⟨2, some (.leaf u none), some []⟩ else .ok ⟨0, none, none⟩
  | some n => do
    match ← firstDifference (n.leafAt u).1 u with
    | none => return ⟨1, some n, some (n.way u)⟩
    | some (newbyte, diff) =>
      let newotherbits := newOtherbits diff
      let newdirection := newDirection newotherbits ((n.leafAt u).1.charAt newbyte)
      if a.node ∧ a.leaf ∧ a.key then
        let (n, slot) ← insertNode newbyte newotherbits newdirection u n
        return ⟨2, some n, some slot⟩
      else return ⟨0, some n, none⟩

/-- The tree without the leaf that a string leads to, whose sibling takes the place of their parent. -/
def CbNode.removeLeaf (u : CStr) : CbNode V → CbTree V
  | leaf _ _ => none
  | internal byte otherbits child0 child1 =>
    if direction byte otherbits u = 0 then
      match child0.removeLeaf u with
      | none => some child1
      | some n => some (internal byte otherbits n child1)
    else
      match child1.removeLeaf u with
      | none => some child0
      | some n => some (internal byte otherbits child0 n)

/-- What `cb_delete` returns, and what `*ppv` is set to, if it is. -/
structure CbDeleted (V : Type) where
  ret : ℕ
  tree : CbTree V
  val : Option (Option V)

def cbDelete (t : CbTree V) (u : CStr) : CbDeleted V :=
  match t with
  | none => ⟨0, none, none⟩
  | some n =>
    if u = (n.leafAt u).1 then ⟨1, n.removeLeaf u, some (n.leafAt u).2⟩ else ⟨0, some n, none⟩

/-- A call, and for an insertion the value that the caller stores through the slot. -/
inductive CbCall (V : Type) where
  | insert (u : CStr) (a : Allocs) (v : Option V)
  | delete (u : CStr)

/-- What a caller sees of a call: the number returned, and the value that was in the slot or that is
given back. -/
structure CbResult (V : Type) where
  ret : ℕ
  val : Option (Option V)

/-- `cb_insert` and the store through the slot, or `cb_delete`. -/
def CbTree.call (t : CbTree V) : CbCall V → Except Fault (CbTree V × CbResult V)
  | .insert u a v => do
    let r ← cbInsert t u a
    match r.tree, r.slot with
    | some n, some slot => return (some (n.store v slot), ⟨r.ret, n.value slot⟩)
    | _, _ => return (r.tree, ⟨r.ret, none⟩)
  | .delete u => .ok ((cbDelete t u).tree, ⟨(cbDelete t u).ret, (cbDelete t u).val⟩)

def CbTree.Called (t : CbTree V) (c : CbCall V × CbResult V) (t' : CbTree V) : Prop :=
  t.call c.1 = .ok (t', c.2)

/-- The keys in a tree. -/
def CbNode.keys : CbNode V → List CStr
  | leaf key _ => [key]
  | internal _ _ child0 child1 => child0.keys ++ child1.keys

def CbTree.keys (t : CbTree V) : List CStr :=
  match t with
  | none => []
  | some n => n.keys

end Ashttpd
