import Ashttpd.VhostEvents

/-!
# Following the directory of virtual hosts (`vhosts.c`, `nbio-inotify.c`)

The directory binds names to files, each of which is a webroot. It is changed by others at any time:
while `vhosts_new` reads it and before it watches it, which goes unnoticed, and afterwards, which is
told by a queue of notices that are handled later.
-/
namespace Ashttpd

/-- What others do to the directory. Files are moved within it, or from or to somewhere else. -/
inductive DirChange where
  | link (name : CStr) (file : ℕ)
  | unlink (name : CStr)
  | rename (old new : CStr)
  | moveIn (name : CStr) (file : ℕ)
  | moveOut (name : CStr)
  deriving DecidableEq, Repr

/-- The notices that the kernel queues for `nbio_inotify_watch_dir`: `IN_CREATE`, `IN_DELETE`,
`IN_MOVED_FROM` and `IN_MOVED_TO`. -/
inductive Notice where
  | create (name : CStr)
  | delete (name : CStr)
  | movedFrom (name : CStr)
  | movedTo (name : CStr)
  deriving DecidableEq, Repr

/-- How far `vhosts_new` is: before `opendir`, in the loop of `readdir`, behind it, and with
the watch installed. -/
inductive Startup where
  | start
  | scanning
  | scanned
  | watching
  deriving DecidableEq, Repr

/-- The directory and the server. Of the scan, it is known which names are bound since it began, which were
returned, and which file was opened last for each. -/
structure DirWorld where
  dir : CStr → Option ℕ
  table : Vhosts
  startup : Startup
  stayed : CStr → Prop
  returned : List CStr
  found : CStr → Option ℕ
  queue : List Notice

namespace DirChange

/-- Whether a change can be made to a directory. -/
def Possible (dir : CStr → Option ℕ) : DirChange → Prop
  | link name _ => dir name = none
  | unlink name => dir name ≠ none
  | rename old new => dir old ≠ none ∧ old ≠ new
  | moveIn _ _ => True
  | moveOut name => dir name ≠ none

/-- The names that a change binds or unbinds, in the order of the notices. -/
def bindings (dir : CStr → Option ℕ) : DirChange → List (CStr × Option ℕ)
  | link name file => [(name, some file)]
  | unlink name => [(name, none)]
  | rename old new => [(old, none), (new, dir old)]
  | moveIn name file => [(name, some file)]
  | moveOut name => [(name, none)]

def apply (dir : CStr → Option ℕ) (c : DirChange) : CStr → Option ℕ :=
  (c.bindings dir).foldl (fun dir b => Function.update dir b.1 b.2) dir

def notices : DirChange → List Notice
  | link name _ => [.create name]
  | unlink name => [.delete name]
  | rename old new => [.movedFrom old, .movedTo new]
  | moveIn name _ => [.movedTo name]
  | moveOut name => [.movedFrom name]

end DirChange

namespace Notice

/-- What `dispatch` makes of a notice by `vhost_ops`. The file is the one that is there by then. -/
def event (dir : CStr → Option ℕ) (a : Allocs) : Notice → VhostEvent
  | create name => .add name false (dir name) a
  | delete name => .del name false
  | movedFrom name => .del name false
  | movedTo name => .add name false (dir name) a

end Notice

/-- A step of the others, or of the server: `opendir`, an entry from `readdir`, the end of the
entries, the watch, and a notice, for which there may be no memory. -/
inductive DirStep where
  | change (c : DirChange)
  | opendir
  | entry (name : CStr) (a : Allocs)
  | endScan
  | watch
  | handle (nstr : Bool) (a : Allocs)

namespace DirWorld

/-- The world after a change. -/
def changed (w : DirWorld) (c : DirChange) : DirWorld :=
  { w with
    dir := c.apply w.dir
    stayed := fun name => w.stayed name ∧ c.apply w.dir name ≠ none
    queue := if w.startup = .watching then w.queue ++ c.notices else w.queue }

/-- The steps that are possible. An entry that is there throughout the scan is returned; others may be. -/
inductive Moves : DirWorld → DirStep → DirWorld → Prop
  | change {w : DirWorld} {c : DirChange} (h : c.Possible w.dir) : Moves w (.change c) (w.changed c)
  | opendir {w : DirWorld} (h : w.startup = .start) :
    Moves w .opendir { w with startup := .scanning, stayed := fun name => w.dir name ≠ none }
  | entry {w : DirWorld} {name : CStr} {a : Allocs} {v : Vhosts} (h : w.startup = .scanning)
    (hadd : w.table.vhostAdd name false (w.dir name) a = .ok v) :
    Moves w (.entry name a) { w with
      table := v
      returned := name :: w.returned
      found := if w.dir name = none then w.found else Function.update w.found name (w.dir name) }
  | endScan {w : DirWorld} (h : w.startup = .scanning) (hall : ∀ name, w.stayed name → name ∈ w.returned) :
    Moves w .endScan { w with startup := .scanned }
  | watch {w : DirWorld} (h : w.startup = .scanned) : Moves w .watch { w with startup := .watching }
  | handle {w : DirWorld} {a : Allocs} {n : Notice} {rest : List Notice} {v : Vhosts}
    (h : w.startup = .watching) (hqueue : w.queue = n :: rest)
    (hdispatch : w.table.Handles (n.event w.dir a) v) :
    Moves w (.handle true a) { w with table := v, queue := rest }
  | drop {w : DirWorld} {a : Allocs} {n : Notice} {rest : List Notice} (h : w.startup = .watching)
    (hqueue : w.queue = n :: rest) : Moves w (.handle false a) { w with queue := rest }

/-- The server before `vhosts_new`. -/
def begin (dir : CStr → Option ℕ) : DirWorld where
  dir := dir
  table := .empty
  startup := .start
  stayed := fun _ => False
  returned := []
  found := fun _ => none
  queue := []

/-- A step that the table can follow: every event finds what it needs, there is memory for the
notice, and when the directory comes to be watched it is as the scan found it. -/
def Followed (w : DirWorld) : DirStep → Prop
  | .entry name a => w.table.Served (.add name false (w.dir name) a)
  | .watch => w.found = w.dir
  | .handle nstr a => nstr = true ∧ ∀ n rest, w.queue = n :: rest → w.table.Served (n.event w.dir a)
  | _ => True

def fileOf (v : Vhosts) (w : Option ℕ) : Option ℕ := w.bind fun i => v.files[i]?

end DirWorld
end Ashttpd
