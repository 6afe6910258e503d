import Ashttpd.TrieRecords
import Ashttpd.DirTree
import Ashttpd.HttpConn

/-!
# Scanning a directory for a webroot (`mkroot.c`)

Objects are appended to two lists and never moved, so that a URI refers to one by its position.
Allocations succeed; what the kernel and `libmagic` answer is a parameter. A scan comes to the
return value zero (`none`) or to the webroot so far.
-/
namespace Ashttpd.Mkroot

inductive FileType where
  | dir
  | reg
  | lnk
  | other
  deriving DecidableEq, Repr

/-- `struct stat`, as far as it is read. -/
structure Stat where
  stMode : FileType
  stDev : UInt64
  stIno : UInt64
  stMtime : ℤ
  stSize : ℕ
  deriving DecidableEq, Repr

inductive Errno where
  | enoent
  | other
  deriving DecidableEq, Repr

/-- The answers to the calls a scan makes, by path. The buffer that `readlink` fills is given as
the string it holds afterwards, the names of a directory in the order `readdir` has them. -/
structure FileSystem where
  lstat : Bytes → Except Errno Stat
  stat : Bytes → Except Errno Stat
  readdir : Bytes → Option (List Bytes)
  readlink : Bytes → Option Bytes
  magicFile : Bytes → Bytes

inductive FileContent where
  | path (p : Option Bytes)
  | tmpchunk (tmpoff : ℕ)
  deriving DecidableEq, Repr

/-- A `struct object` of type `OBJ_TYPE_FILE`. Equal types are one entry of the mime table. -/
structure FileObject where
  type : Option Bytes
  content : FileContent
  size : ℕ
  dev : UInt64
  ino : UInt64
  mtime : ℤ
  deriving DecidableEq, Repr

/-- A `struct object` of type `OBJ_TYPE_REDIRECT`. -/
structure RedirectObject where
  uri : Option Bytes
  code : ℤ
  deriving DecidableEq, Repr

inductive ObjRef where
  | redirect (i : ℕ)
  | file (i : ℕ)
  deriving DecidableEq, Repr

structure Uri where
  uObj : ObjRef
  uUri : Bytes
  deriving DecidableEq, Repr

/-- `struct webroot`, with what was written to its temporary file. -/
structure Webroot where
  rUri : List Uri
  rRedirect : List RedirectObject
  rFile : List FileObject
  rMimeType : List Bytes
  rTmpchunks : Bytes
  rBase : Bytes
  rNumUri : UInt32
  rNumRedirect : UInt32
  rNumFile : UInt32
  deriving DecidableEq, Repr

def indexPages : List Bytes := [ascii "index.html", ascii "default.html"]
def dotfiles : Bool := false
def indexdirs : Bool := true

def pathSplice (dir path : Bytes) : Bytes :=
  if dir.getLast? = some SLASH ∨ path.head? = some SLASH then dir ++ path
  else dir ++ SLASH :: path

def webrootNew (base : Bytes) : Webroot := ⟨[], [], [], [], [], base, 0, 0, 0⟩

def webrootLookup (r : Webroot) (path : Bytes) : Bytes := pathSplice r.rBase path

def Webroot.rTmpoff (r : Webroot) : ℕ := r.rTmpchunks.length

def webrootLink (r : Webroot) (link : Bytes) (target : ObjRef) : Webroot :=
  { r with
    rUri := r.rUri ++ [⟨target, if link = [] then [SLASH] else link⟩]
    rNumUri := r.rNumUri + 1 }

/-- `mime_add`, for the list alone. -/
def mimeAdd (r : Webroot) (mime : Bytes) : Webroot :=
  if mime ∈ r.rMimeType then r else { r with rMimeType := mime :: r.rMimeType }

def objRedirect (r : Webroot) (path : Bytes) : Webroot × ObjRef :=
  ({ r with
      rRedirect := r.rRedirect ++ [⟨some path, 0⟩]
      rNumRedirect := r.rNumRedirect + 1 },
    .redirect r.rRedirect.length)

def objCode (r : Webroot) (code : ℤ) : Webroot × ObjRef :=
  ({ r with
      rRedirect := r.rRedirect ++ [⟨none, code⟩]
      rNumRedirect := r.rNumRedirect + 1 },
    .redirect r.rRedirect.length)

/-- `obj_file`: the object of the device and inode, which is a new one if there is none. -/
def objFile (r : Webroot) (dev ino : UInt64) (mtime : ℤ) (size : ℕ) : Webroot × ℕ :=
  match r.rFile.findIdx? fun o => dev = o.dev ∧ ino = o.ino with
  | some i => (r, i)
  | none =>
    ({ r with
        rFile := r.rFile ++ [⟨none, .path none, size, dev, ino, mtime⟩]
        rNumFile := r.rNumFile + 1 },
      r.rFile.length)

def Webroot.setFile (r : Webroot) (i : ℕ) (f : FileObject → FileObject) : Webroot :=
  { r with rFile := r.rFile.modify i f }

def objFilePath (fs : FileSystem) (r : Webroot) (path : Bytes) (dev ino : UInt64) (mtime : ℤ)
    (size : ℕ) : Webroot × ObjRef :=
  let (r, i) := objFile r dev ino mtime size
  let r := r.setFile i fun o => { o with content := .path (some path) }
  let mime := fs.magicFile path
  let r := mimeAdd r mime
  (r.setFile i fun o => { o with type := some mime }, .file i)

def objFileTmpchunks (r : Webroot) (mime : Bytes) (dev ino : UInt64) (mtime : ℤ) : Webroot × ℕ :=
  let (r, i) := objFile r dev ino mtime 0
  let r := r.setFile i fun o => { o with content := .tmpchunk r.rTmpoff }
  let r := mimeAdd r mime
  (r.setFile i fun o => { o with type := some mime }, i)

def tcPrintf (r : Webroot) (text : Bytes) : Webroot :=
  { r with rTmpchunks := r.rTmpchunks ++ text }

/-- Whether `readdir` loops go on to the next entry at once. -/
def skipped (name : Bytes) : Bool :=
  name = [DOT] || name = [DOT, DOT] || (!dotfiles && name.head? = some DOT)

/-- The pieces that `index_dir` writes before the entries. -/
def listingHead (u : Bytes) : Bytes :=
  ascii "<!DOCTYPE HTML PUBLIC \"-//W3C//DTD HTML 3.2 Final//EN\">" ++
  ascii "<html>\n\t<head><title>Index of " ++ u ++ ascii "</title>\t</head>\n" ++
  ascii "<body><h1>Index of " ++ u ++ ascii "</h1>\n" ++ ascii "</body>\n</html>"

def listingEntry (u name : Bytes) : Bytes :=
  ascii "<a href=\"" ++ pathSplice u name ++ ascii "\">" ++ name ++ ascii "</a><br>\n"

def indexDir (fs : FileSystem) (r : Webroot) (st : Stat) (path u : Bytes) :
    Option (Webroot × ObjRef) :=
  let (r, i) := objFileTmpchunks r (ascii "text/html") st.stDev st.stIno st.stMtime
  let off := r.rTmpoff
  let r := tcPrintf r (listingHead u)
  match fs.readdir path with
  | none => none
  | some names =>
    let entries := names.filter fun name => !skipped name
    let r := entries.foldl (fun r name => tcPrintf r (listingEntry u name)) r
    some (r.setFile i fun o => { o with size := r.rTmpoff - off }, .file i)

/-- `try_index`: `none` is the return value zero, the inner `none` that there is no such page. -/
def tryIndex (fs : FileSystem) (r : Webroot) (u page : Bytes) : Option (Webroot × Option ObjRef) :=
  let ipath := webrootLookup r (pathSplice u page)
  match fs.stat ipath with
  | .error .enoent => some (r, none)
  | .error .other => none
  | .ok st =>
    match st.stMode with
    | .reg =>
      let (r, obj) := objFilePath fs r ipath st.stDev st.stIno st.stMtime st.stSize
      some (r, some obj)
    | _ => some (r, none)

/-- The loop of `add_index` over the index pages left. -/
def tryPages (fs : FileSystem) (u : Bytes) : Webroot → List Bytes → Option (Webroot × Option ObjRef)
  | r, [] => some (r, none)
  | r, page :: pages =>
    match tryIndex fs r u page with
    | none => none
    | some (r, some obj) => some (r, some obj)
    | some (r, none) => tryPages fs u r pages

def addIndex (fs : FileSystem) (r : Webroot) (st : Stat) (path u : Bytes) : Option Webroot :=
  match tryPages fs u r indexPages with
  | none => none
  | some (r, some obj) => some (webrootLink r u obj)
  | some (r, none) =>
    if indexdirs then (indexDir fs r st path u).map fun x => webrootLink x.1 u x.2
    else
      let (r, obj) := objCode r 403
      some (webrootLink r u obj)

/-- The loop of `scan_dir`, where `item` is `scan_item`. -/
def scanEntries (item : Webroot → Bytes → Bytes → Except Fault (Option Webroot)) (dir : Bytes) :
    Webroot → List Bytes → Except Fault (Option Webroot)
  | r, [] => .ok (some r)
  | r, name :: names =>
    if skipped name then scanEntries item dir r names
    else
      match item r dir (pathSplice dir name) with
      | .error f => .error f
      | .ok none => .ok none
      | .ok (some r) => scanEntries item dir r names

def scanDir (fs : FileSystem) (item : Webroot → Bytes → Bytes → Except Fault (Option Webroot))
    (r : Webroot) (dir path : Bytes) : Except Fault (Option Webroot) :=
  match fs.readdir path with
  | none => .ok none
  | some names => scanEntries item dir r names

/-- `scan_item`. The first argument bounds how deep directories are nested. -/
def scanItem (fs : FileSystem) : ℕ → Webroot → Bytes → Bytes → Except Fault (Option Webroot)
  | 0, _, _, _ => .error .nontermination
  | depth + 1, r, dir, u =>
    let path := webrootLookup r u
    match fs.lstat path with
    | .error _ => .ok none
    | .ok st =>
      match st.stMode with
      | .dir =>
        let dpath := pathSplice u [SLASH]
        match addIndex fs r st path dpath with
        | none => .ok none
        | some r =>
          if u = [] then scanDir fs (scanItem fs depth) r u path
          else
            let (r, obj) := objRedirect r dpath
            (scanDir fs (scanItem fs depth) r u path).map fun x =>
              x.map fun r => webrootLink r u obj
      | .reg =>
        let (r, obj) := objFilePath fs r path st.stDev st.stIno st.stMtime st.stSize
        .ok (some (webrootLink r u obj))
      | .lnk =>
        match fs.readlink path with
        | none => .ok none
        | some buf =>
          let (r, obj) := objRedirect r (pathSplice dir buf)
          .ok (some (webrootLink r u obj))
      | .other => .ok (some r)

/-- `sort_uris`: the array it fills has as many slots as `r_num_uri` says. -/
def sortUris (r : Webroot) : Except Fault Webroot :=
  if r.rNumUri.toNat < r.rUri.length then .error .outOfRange
  else if r.rUri.length ≠ r.rNumUri.toNat then .error .assertion
  else .ok { r with rUri := r.rUri.mergeSort fun a b => strcmp a.uUri b.uUri ≤ 0 }

/-- The number that `sort_objects` gives an object: redirects come before files. -/
def oid (r : Webroot) : ObjRef → UInt32
  | .redirect i => UInt32.ofNat i
  | .file i => UInt32.ofNat (r.rRedirect.length + i)

/-- The entries that `webroot_prep` hands to `trie_new`. -/
def trieEntries (r : Webroot) : List TrieEntry := r.rUri.map fun u => ⟨u.uUri, oid r u.uObj⟩

end Ashttpd.Mkroot
