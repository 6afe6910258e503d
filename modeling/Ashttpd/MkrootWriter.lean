import Ashttpd.ByteImages
import Ashttpd.Fobuf
import Ashttpd.Mkroot
import Ashttpd.Sha1

/-!
# Writing a webroot (`webroot_prep`, `webroot_write` and `do_mkroot` of `mkroot.c`)

What the kernel answers is a parameter: the contents of the files that can be opened, how much
every `read` gives, and whether the calls on the output that can fail do. A file that is written is
the bytes that are in it when it is closed.
-/
namespace Ashttpd.Mkroot

def BUFFER_SIZE : ℕ := 2 ^ 20

/-- A file object with what is assigned to it behind the scan. -/
structure PlacedFile where
  obj : FileObject
  off : UInt64
  digest : Bytes

/-- `struct webroot` behind `webroot_prep`; items stand with the offsets assigned to them. -/
structure Prepared where
  root : Webroot
  rTrie : Trie
  mimes : List (Bytes × UInt32)
  redirects : List (RedirectObject × UInt32)
  files : List PlacedFile
  rMimetabSz : UInt32
  rRedirtabSz : UInt32
  rFilesSz : UInt64

def trieTrieSize (t : Trie) : UInt64 := 18 * t.rNumEdges.toUInt64

/-- A loop of `webroot_prep`: an item is placed at the offset, which then is moved on behind it. -/
def placeAll {α : Type} (len : α → ℕ) : UInt64 → List α → List (α × UInt64) × UInt64
  | off, [] => ([], off)
  | off, x :: xs =>
    let (placed, last) := placeAll len (off + UInt64.ofNat (len x)) xs
    ((x, off) :: placed, last)

/-- The text of a redirect, `NULL` counting for none. -/
def RedirectObject.text (o : RedirectObject) : Bytes := o.uri.getD []

/-- The string tables and the files, as `webroot_prep` lays them out behind the records. -/
def layOut (r : Webroot) (t : Trie) : Prepared :=
  let off := 32 + trieTrieSize t + 8 * r.rNumRedirect.toUInt64 + 48 * r.rNumFile.toUInt64
  let (mimes, off) := placeAll List.length off r.rMimeType
  let (redirects, off) := placeAll (fun o => o.text.length) off r.rRedirect
  let (files, _) := placeAll FileObject.size off r.rFile
  { root := r
    rTrie := t
    mimes := mimes.map fun x => (x.1, x.2.toUInt32)
    redirects := redirects.map fun x => (x.1, x.2.toUInt32)
    files := files.map fun x => ⟨x.1, x.2, List.replicate ETAG_SZ 0⟩
    rMimetabSz := (r.rMimeType.map fun m => UInt32.ofNat m.length).sum
    rRedirtabSz := (r.rRedirect.map fun o => UInt32.ofNat o.text.length).sum
    rFilesSz := (r.rFile.map fun o => UInt64.ofNat o.size).sum }

/-- `webroot_prep`. Objects are numbered by their positions. -/
def webrootPrep (r : Webroot) : Except Fault (Option Prepared) :=
  match sortUris r with
  | .error f => .error f
  | .ok r =>
    match trieNew allocOk (trieEntries r) with
    | .error f => .error f
    | .ok none => .ok none
    | .ok (some t) => .ok (some (layOut r t))

/-- Bytes for each of the items go to the output, one call after the other. -/
def writeEach {α : Type} (bytes : α → Except Fault Bytes) : List α → Fobuf → Except Fault (Bool × Fobuf)
  | [], out => .ok (true, out)
  | x :: xs, out => do
    let buf ← bytes x
    let (ret, out) ← fobufWrite out buf
    if !ret then pure (false, out) else writeEach bytes xs out

/-- Go on if a function has returned 1. -/
def thenWrite (x : Except Fault (Bool × Fobuf)) (f : Fobuf → Except Fault (Bool × Fobuf)) :
    Except Fault (Bool × Fobuf) := do
  let (ret, out) ← x
  if !ret then pure (false, out) else f out

def header (p : Prepared) : WebrootHdr where
  hNumEdges := trieNumEdges p.rTrie
  hNumRedirect := p.root.rNumRedirect
  hNumFile := p.root.rNumFile
  hStrtabSz := p.rMimetabSz + p.rRedirtabSz
  hMagic := WEBROOT_MAGIC
  hVers := WEBROOT_CURRENT_VER
  hFilesBegin := (32 + trieTrieSize p.rTrie + 8 * p.root.rNumRedirect.toUInt64 + 48 * p.root.rNumFile.toUInt64 +
    p.rMimetabSz.toUInt64 + p.rRedirtabSz.toUInt64).toUInt32

/-- `write_header`; the stack has left something in the padding. -/
def writeHeader (p : Prepared) (pad : UInt32) (out : Fobuf) : Except Fault (Bool × Fobuf) :=
  fobufWrite out (hdrBytes (header p) pad)

/-- `trie_write_trie`, with `node_to_disk`. -/
def writeTrie (p : Prepared) (out : Fobuf) : Except Fault (Bool × Fobuf) :=
  writeEach (fun e => (nodeToDisk e (firstChildIdx p.rTrie.rBfsOrder e)).map dedgeBytes) p.rTrie.rBfsOrder out

def redirectRecord (x : RedirectObject × UInt32) : WebrootRedirect :=
  match x.1.uri with
  | some uri => ⟨x.2, UInt32.ofNat uri.length⟩
  | none => ⟨WEBROOT_INVALID_REDIRECT, UInt32.ofInt x.1.code⟩

def writeRedirectObjs (p : Prepared) (out : Fobuf) : Except Fault (Bool × Fobuf) :=
  writeEach (fun x => .ok (redirectBytes (redirectRecord x))) p.redirects out

/-- The record of a file, unless its type is not there. -/
def fileRecord (p : Prepared) (f : PlacedFile) : Except Fault WebrootFile :=
  match f.obj.type with
  | none => .error .nullPointer
  | some type =>
    match p.mimes.find? fun m => m.1 = type with
    | none => .error .nullPointer
    | some m =>
      if h : f.digest.length = ETAG_SZ then
        .ok ⟨f.off, UInt64.ofNat f.obj.size, m.2, UInt32.ofNat type.length, UInt32.ofInt f.obj.mtime, f.digest, h⟩
      else .error .outOfRange

def writeFileObjs (p : Prepared) (files : List PlacedFile) (out : Fobuf) : Except Fault (Bool × Fobuf) :=
  writeEach (fun f => (fileRecord p f).map fileBytes) files out

def writeMimetab (p : Prepared) (out : Fobuf) : Except Fault (Bool × Fobuf) :=
  writeEach (fun m => .ok m.1) p.mimes out

def writeRedirtab (p : Prepared) (out : Fobuf) : Except Fault (Bool × Fobuf) :=
  writeEach .ok (p.redirects.filterMap fun x => x.1.uri) out

/-- What `read` returns: a number of bytes, up to what there is and what was asked for, or an error. -/
inductive ReadAnswer where
  | got (n : ℕ)
  | failed
  deriving DecidableEq, Repr

/-- The answers of the kernel, and what is left on the stack. -/
structure Kernel where
  contents : Bytes → Option Bytes
  reads : ℕ → List ReadAnswer
  flushed : Bool
  seeked : Bool
  closed : Bool
  pad : UInt32
  ctx : ShaCtx
  array : Fin 16 → Fips180.Word

/-- The loop of `write_file` over what is left of the file: the hash and the output, or none if the
function returns 0. -/
def writeFileLoop (k : Kernel) (tmp : Bool) :
    List ReadAnswer → Bytes → ℕ → ShaCtx → Fobuf → Except Fault (Option (Bytes × Fobuf))
  | [], _, _, _, _ => .error .nontermination
  | .failed :: _, _, _, _, _ => .ok none
  | .got n :: answers, rest, len, ctx, out => do
    let ret := min n (min (if BUFFER_SIZE < len then BUFFER_SIZE else len) rest.length)
    let buf := rest.take ret
    if ret = 0 then
      let ctx ← blkSha1Update k.array ctx buf
      let sha ← blkSha1Final k.array ctx
      if len = 0 then pure (some (sha, out))
      else if tmp then .error .assertion
      else pure none
    else
      let (wrote, out) ← fobufWrite out buf
      if !wrote then pure none
      else
        let ctx ← blkSha1Update k.array ctx buf
        writeFileLoop k tmp answers (rest.drop ret) (len - ret) ctx out

def writeFile (k : Kernel) (r : Webroot) (i : ℕ) (f : PlacedFile) (out : Fobuf) :
    Except Fault (Option (Bytes × Fobuf)) :=
  match f.obj.content with
  | .path p =>
    match p.bind k.contents with
    | none => .ok none
    | some content => writeFileLoop k false (k.reads i) content f.obj.size (blkSha1Init k.ctx) out
  | .tmpchunk tmpoff =>
    writeFileLoop k true (k.reads i) (r.rTmpchunks.drop tmpoff) f.obj.size (blkSha1Init k.ctx) out

/-- The loop of `write_files` from the file with the number `i` on. -/
def writeFilesFrom (k : Kernel) (r : Webroot) : ℕ → List PlacedFile → Fobuf →
    Except Fault (Option (List PlacedFile × Fobuf))
  | _, [], out => .ok (some ([], out))
  | i, f :: fs, out => do
    match ← writeFile k r i f out with
    | none => pure none
    | some (sha, out) =>
      match ← writeFilesFrom k r (i + 1) fs out with
      | none => pure none
      | some (fs, out) => pure (some ({ f with digest := sha } :: fs, out))

/-- `write_files`, once `fobuf_flush` has returned for the temporary file. -/
def writeFiles (k : Kernel) (p : Prepared) (out : Fobuf) : Except Fault (Option (List PlacedFile × Fobuf)) :=
  if k.flushed then writeFilesFrom k p.root 0 p.files out else .ok none

def overwrite (file : Bytes) (off : ℕ) (bs : Bytes) : Bytes :=
  file.take off ++ List.replicate (off - file.length) 0 ++ bs ++ file.drop (off + bs.length)

def webrootOutputSize (p : Prepared) : UInt64 :=
  32 + trieTrieSize p.rTrie + 8 * p.root.rNumRedirect.toUInt64 + 48 * p.root.rNumFile.toUInt64 +
    p.rMimetabSz.toUInt64 + p.rRedirtabSz.toUInt64 + p.rFilesSz

/-- Where `write_etags` seeks to. -/
def fileObjsOff (p : Prepared) : UInt64 := 32 + trieTrieSize p.rTrie + 8 * p.root.rNumRedirect.toUInt64

/-- The part of `webroot_write` that is read by a mapping. -/
def writeIndex (k : Kernel) (p : Prepared) (out : Fobuf) : Except Fault (Bool × Fobuf) :=
  thenWrite (writeHeader p k.pad out) fun out =>
  thenWrite (writeTrie p out) fun out =>
  thenWrite (writeRedirectObjs p out) fun out =>
  thenWrite (writeFileObjs p p.files out) fun out =>
  thenWrite (writeMimetab p out) fun out => writeRedirtab p out

/-- `webroot_write` on a new file, and what `do_mkroot` does behind it: the file that is closed. -/
def webrootWrite (k : Kernel) (p : Prepared) (out : Fobuf) : Except Fault (Option Bytes) := do
  let file := List.replicate (webrootOutputSize p).toNat 0
  let (ret, out) ← writeIndex k p out
  if !ret then pure none
  else
    match ← writeFiles k p out with
    | none => pure none
    | some (files, out) =>
      -- `write_etags`: what is in the buffer belongs in front of what is written from here on
      let (ret, out) ← fobufFlush out
      if !ret || !k.seeked then pure none
      else
        let file := overwrite file 0 out.written
        let (ret, out) ← writeFileObjs p files { out with written := [] }
        if !ret then pure none
        else
          let (ret, out) ← fobufFlush out
          pure (if ret && k.closed then some (overwrite file (fileObjsOff p).toNat out.written) else none)

/-- `do_mkroot` behind the scan, with a buffer on some memory. -/
def buildImage (k : Kernel) (r : Webroot) (buf : Mem) (answers : List WriteAnswer) :
    Except Fault (Option (Prepared × Bytes)) := do
  match ← webrootPrep r with
  | none => pure none
  | some p =>
    let image ← webrootWrite k p (fobufNew buf BUFFER_SIZE answers)
    pure (image.map fun image => (p, image))

end Ashttpd.Mkroot
