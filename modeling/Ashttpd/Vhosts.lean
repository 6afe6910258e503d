import Ashttpd.CritBitMap

/-!
# The table of virtual hosts (`vhosts.c`)

A webroot that was opened is known by its number in the order of opening. What it was opened from
and its references are remembered for it, also when it is unmapped and freed, which is when there
are no references any more.
-/
namespace Ashttpd

/-- `struct _webroot`: the file that it was opened from, and `r_ref`. -/
structure OpenRoot where
  file : ℕ
  rRef : ℕ
  deriving DecidableEq, Repr

/-- `struct _vhosts`, and the webroots that were opened. `unrefs` is no field of the source: the
webroots that `webroot_unref` was called for. -/
structure Vhosts where
  vhosts : CbTree ℕ
  vdefault : Option ℕ
  roots : List OpenRoot
  unrefs : List ℕ

def defaultName : CStr := ⟨[95, 95, 100, 101, 102, 97, 117, 108, 116, 95, 95], by decide⟩

/-- What `readdir` or the notifications tell: the directory has got an entry, or has lost it. With it come
whether it is a directory, the file that `webroot_open` succeeds for, if it does, and the memory
there is. -/
inductive VhostEvent where
  | add (name : CStr) (isdir : Bool) (file : Option ℕ) (a : Allocs)
  | del (name : CStr) (isdir : Bool)
  deriving DecidableEq, Repr

namespace Vhosts

/-- `webroot_open` of a file that is a webroot, which there is one reference to. -/
def webrootOpen (v : Vhosts) (file : ℕ) : Vhosts := { v with roots := v.roots ++ [⟨file, 1⟩] }

def webrootUnref (v : Vhosts) (w : Option ℕ) : Except Fault Vhosts :=
  match w with
  | none => .ok v
  | some i =>
    match v.roots[i]? with
    | none => .error .undefined
    | some r =>
      if r.rRef = 0 then .error .undefined
      else .ok { v with roots := v.roots.set i { r with rRef := r.rRef - 1 }, unrefs := v.unrefs ++ [i] }

/-- The end of `vhost_add`, where the webroot `w` is put in the tree. -/
def addName (v : Vhosts) (name : CStr) (w : ℕ) (a : Allocs) : Except Fault Vhosts := do
  let r ← cbInsert v.vhosts name a
  match r.tree, r.slot with
  | some n, some slot =>
    let v ← { v with vhosts := r.tree }.webrootUnref ((n.value slot).getD none)
    return { v with vhosts := some (n.store (some w) slot) }
  | _, _ => return { v with vhosts := r.tree }

def vhostAdd (v : Vhosts) (name : CStr) (isdir : Bool) (file : Option ℕ) (a : Allocs) :
    Except Fault Vhosts :=
  if isdir then .ok v
  else match file with
    | none => .ok v
    | some file =>
      let w := v.roots.length
      let v := v.webrootOpen file
      if name = defaultName then do
        let v ← v.webrootUnref v.vdefault
        return { v with vdefault := some w }
      else v.addName name w a

/-- `vhost_del`. A webroot that `cb_delete` has not set is an indeterminate pointer. -/
def vhostDel (v : Vhosts) (name : CStr) (isdir : Bool) : Except Fault Vhosts :=
  if isdir then .ok v
  else if name = defaultName then do
    let v ← v.webrootUnref v.vdefault
    return { v with vdefault := none }
  else
    let r := cbDelete v.vhosts name
    match r.val with
    | none => .error .undefined
    | some w => { v with vhosts := r.tree }.webrootUnref w

def vhostsLookup (v : Vhosts) (host : CStr) : Option ℕ :=
  match cbContains v.vhosts host with
  | some w => w
  | none => v.vdefault

/-- The table of `vhosts_new`, before the directory is read. -/
def empty : Vhosts := ⟨none, none, [], []⟩

/-- One event as a relation. -/
def Handles (v : Vhosts) (e : VhostEvent) (v' : Vhosts) : Prop :=
  match e with
  | .add name isdir file a => v.vhostAdd name isdir file a = .ok v'
  | .del name isdir => v.vhostDel name isdir = .ok v'

def slot (v : Vhosts) (name : CStr) : Option ℕ :=
  if name = defaultName then v.vdefault else (cbContains v.vhosts name).getD none

end Vhosts
end Ashttpd
