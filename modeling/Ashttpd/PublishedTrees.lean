import Ashttpd.LinkedUris
import Ashttpd.MkrootProgress
import Ashttpd.TrieRoundTrip

/-!
# A directory tree in a webroot file

Looking up a path of the tree in the file that was built for it leads to what stands at the path.
-/
namespace Ashttpd.Mkroot

variable {r r' : Webroot} {t : Trie} {p : Prepared} {k : Kernel} {image : Bytes} {pad : UInt32}
  {wfs : List WebrootFile} {base : Bytes} {magic : Bytes → Bytes} {a : Attrs} {es : DirEntries Attrs}

/-- In the tables that were written, a text is looked up through the entries of the trie. -/
theorem imageWebroot_find (hu : UriList (trieEntries r')) (hne : trieEntries r' ≠ [])
    (htrie : trieNew allocOk (trieEntries r') = .ok (some t)) (hfits : ∀ e ∈ t.rBfsOrder, Fits e)
    (hsmall : t.rBfsOrder.length < 2 ^ 32) {m : Mem} {q : Bytes} {ptr : ℕ} (hq : m.HoldsStr ptr q) :
    (∀ u ∈ r'.rUri, u.uUri = q → webrootFind (imageWebroot r' t pad wfs) m ptr q.length =
        webrootObject (imageWebroot r' t pad wfs) (oid r' u.uObj)) ∧
      (q ∉ r'.rUri.map Uri.uUri → webrootFind (imageWebroot r' t pad wfs) m ptr q.length = .ok none) := by
  obtain ⟨edges, hbuilt, hnew⟩ := hu.trieNew_built hne
  rw [htrie] at hnew
  obtain rfl := Option.some.inj (Except.ok.inj hnew)
  have hmaps : Maps (imageWebroot r' (trieOf edges) pad wfs) (trieOf edges) :=
    ⟨(trieWriteTrie_iff _ _).mpr ⟨hfits, rfl⟩, rfl⟩
  have hstores := hmaps.stores hbuilt (by
    show ((trieOf edges).rBfsOrder.map _).length < 2 ^ 32
    rwa [List.length_map])
  have hshort : edges.Short := (hbuilt.fits_iff hu.radixable).mp ((fits_iff_of_perm edges).mp hfits)
  have hquery := hstores.trieQuery_eq (hbuilt.ordered hu.radixable hshort) hq
  rw [webrootFind_eq, hquery]
  constructor
  · rintro u huri rfl
    have hmem : (⟨u.uUri, oid r' u.uObj⟩ : TrieEntry) ∈ trieEntries r' := List.mem_map_of_mem huri
    have hoid : edges.oidOf u.uUri = oid r' u.uObj := hbuilt.oidOf_mem hu.radixable hshort hmem
    have hne' : u.uUri ≠ [] := hu.nonEmpty _ hmem
    rw [if_neg hne', hoid]
    rfl
  · intro hnone
    have hinvalid : (if q = [] then GIDX_INVALID_OID else edges.oidOf q) = GIDX_INVALID_OID := by
      split
      · rfl
      · refine hbuilt.oidOf_not_mem hshort fun e he heq => hnone ?_
        obtain ⟨u, huri, rfl⟩ := List.mem_map.mp he
        exact List.mem_map.mpr ⟨u, huri, by rw [← heq]; rfl⟩
    rw [hinvalid]
    rfl

/-- The answer is a file with this text in the image. -/
def StoredAs (image text type : Bytes) (mtime : ℤ) (name : WebrootName) : Prop :=
  ∃ off, name = ⟨some type, .data off text.length (UInt32.ofInt mtime) (Fips180.sha1 text), HTTP_FOUND⟩ ∧
    (image.drop off).take text.length = text

/-- The answer is the file at a path, as much of it as there was to be scanned. -/
def StoresFile (k : Kernel) (base : Bytes) (magic : Bytes → Bytes) (image : Bytes) (ps : List Bytes) (a : Attrs)
    (name : WebrootName) : Prop :=
  ∃ text, k.contents (base ++ pathOf ps) = some text ∧ a.size ≤ text.length ∧
    StoredAs image (text.take a.size) (magic (base ++ pathOf ps)) a.mtime name

/-- What a path of the tree is answered with: a file with itself, a directory with a redirect to its
path with a slash, and that with the index page or the listing. -/
inductive Answers (k : Kernel) (base : Bytes) (magic : Bytes → Bytes) (tree : Tree) (image : Bytes) :
    List Bytes × Bool → WebrootName → Prop
  | redirect {ps : List Bytes} {a : Attrs} {es : DirEntries Attrs} (h : tree.walk ps = some (.dir a es)) :
      Answers k base magic tree image (ps, false)
        ⟨none, .moved (some (pathOf ps ++ [SLASH])), HTTP_MOVED_PERMANENTLY⟩
  | file {ps : List Bytes} {a : Attrs} {name : WebrootName} (h : tree.walk ps = some (.file a))
      (hstored : StoresFile k base magic image ps a name) : Answers k base magic tree image (ps, false) name
  | page {ps : List Bytes} {a b : Attrs} {es : DirEntries Attrs} {page : Bytes} {name : WebrootName}
      (h : tree.walk ps = some (.dir a es)) (hpage : pageOf es indexPages = some (page, b))
      (hstored : StoresFile k base magic image (ps ++ [page]) b name) : Answers k base magic tree image (ps, true) name
  | listing {ps : List Bytes} {a : Attrs} {es : DirEntries Attrs} {name : WebrootName}
      (h : tree.walk ps = some (.dir a es)) (hpage : pageOf es indexPages = none)
      (hstored : StoredAs image (listing (pathOf ps ++ [SLASH]) es) (ascii "text/html") a.mtime name) :
      Answers k base magic tree image (ps, true) name

section found

variable {tree : Tree} {w : Ashttpd.Webroot} {off : ℕ → ℕ} {i : ℕ} {o : FileObject} {ps : List Bytes}

theorem Holds.file_at (h : Holds k r image w off) (hi : r.rFile[i]? = some o) {b : Attrs}
    (hstands : Stands base magic r o ps (.file b)) :
    ∃ name, webrootObject w (oid r (.file i)) = .ok (some name) ∧ StoresFile k base magic image ps b name := by
  obtain ⟨type, htype, hobject, ⟨text, hsource, hle⟩, hbytes⟩ := h.file i o hi
  obtain ⟨-, -, hmtime, hsize, hcontent, hmagic⟩ := hstands
  rw [htype] at hmagic
  obtain rfl := Option.some.inj hmagic
  have htext : fileContent k r o = text.take b.size := by
    rw [fileContent, hsource, Option.getD_some, hsize]
  rw [hsize] at hle hbytes
  have hlen : (text.take b.size).length = b.size := List.length_take_of_le hle
  rw [htext] at hbytes hobject
  refine ⟨_, hobject, text, ?_, hle, off i, ?_, ?_⟩
  · rw [← hsource, source, hcontent]
    rfl
  · rw [hlen, hsize, hmtime]
  · rw [hlen]
    exact hbytes

theorem Holds.listing_at (h : Holds k r image w off) (hi : r.rFile[i]? = some o)
    (hstands : Stands base magic r o ps (.dir a es)) :
    ∃ name, webrootObject w (oid r (.file i)) = .ok (some name) ∧
      StoredAs image (listing (pathOf ps ++ [SLASH]) es) (ascii "text/html") a.mtime name := by
  obtain ⟨type, htype, hobject, hreadable, hbytes⟩ := h.file i o hi
  obtain ⟨-, -, hmtime, hhtml, tmpoff, hcontent, -, hchunk⟩ := hstands
  rw [htype] at hhtml
  obtain rfl := Option.some.inj hhtml
  have htext : fileContent k r o = listing (pathOf ps ++ [SLASH]) es := by
    rw [fileContent, source, hcontent, ← hchunk]
    rfl
  have hlen := hreadable.length
  rw [htext] at hbytes hobject hlen
  refine ⟨_, hobject, off i, ?_, ?_⟩
  · rw [hlen, hmtime]
  · rw [hlen]
    exact hbytes

/-- The object that a URI is linked to is the answer for it. -/
theorem Holds.answers (h : Holds k r image w off) {x : List Bytes × Bool} {obj : ObjRef}
    (hserves : Serves base magic tree r x obj) :
    ∃ name, webrootObject w (oid r obj) = .ok (some name) ∧ Answers k base magic tree image x name := by
  cases hserves with
  | redirect hwalk hi => exact ⟨_, h.redirect _ _ hi, .redirect hwalk⟩
  | file hwalk hi hstands =>
    obtain ⟨name, hobject, hstored⟩ := h.file_at hi hstands
    exact ⟨name, hobject, .file hwalk hstored⟩
  | page hwalk hpage hi hstands =>
    obtain ⟨name, hobject, hstored⟩ := h.file_at hi hstands
    exact ⟨name, hobject, .page hwalk hpage hstored⟩
  | listing hwalk hpage hi hstands =>
    obtain ⟨name, hobject, hstored⟩ := h.listing_at hi hstands
    exact ⟨name, hobject, .listing hwalk hpage hstored⟩

end found

/-- `sort_uris` goes through only where the URIs can be counted. -/
theorem few_of_sortUris {links : List (List Bytes × Bool)} {tree : Tree}
    (hadds : Adds base magic tree (webrootNew base) r links) (hsort : sortUris r = .ok r') : links.length < 2 ^ 32 := by
  by_contra hmany
  have hcount : r.rNumUri.toNat < r.rUri.length := by
    rw [hadds.rNumUri, hadds.length]
    omega
  rw [sortUris_overflow hcount] at hsort
  cases hsort

/-- What a file answers that was built for a tree. -/
structure Publishes (k : Kernel) (base : Bytes) (magic : Bytes → Bytes) (a : Attrs) (es : DirEntries Attrs)
    (image : Bytes) (w : Ashttpd.Webroot) : Prop where
  opened : webrootOpen image = some w
  found : ∀ {m : Mem} {ptr : ℕ} {q : Bytes}, m.HoldsStr ptr q → ∀ x ∈ treeLinks es, uriText x = q →
    ∃ name, webrootFind w m ptr q.length = .ok (some name) ∧ Answers k base magic (.dir a es) image x name
  notFound : ∀ {m : Mem} {ptr : ℕ} {q : Bytes}, m.HoldsStr ptr q → ¬ IsUri (.dir a es) q →
    webrootFind w m ptr q.length = .ok none

theorem Preps.publishes (h : Scannable a es) (hadds : Adds base magic (.dir a es) (webrootNew base) r (treeLinks es))
    (hr : Consistent r) (hpreps : Preps r r' t) (hsmall : indexSize r t < 2 ^ 32)
    (htotal : indexSize r t + (r.rFile.map FileObject.size).sum < 2 ^ 64) {buf : Mem} {answers : List WriteAnswer}
    (hwrite : webrootWrite k (layOut r' t) (fobufNew buf BUFFER_SIZE answers) = .ok (some image)) :
    ∃ w, Publishes k base magic a es image w := by
  obtain ⟨r'', hsort, hperm, hredirect, hfile, hlist, hne⟩ :=
    hadds.sorted_list h (few_of_sortUris hadds hpreps.sorted)
  rw [hpreps.sorted] at hsort
  obtain rfl := Except.ok.inj hsort
  have hlen := hpreps.image_length hr.toCounted hsmall hwrite
  obtain ⟨hfits, wfs, off, hopen, hholds⟩ :=
    hpreps.holds hr.toCounted (hpreps.kept hr) hsmall hwrite (hlen ▸ htotal)
  have hedges : t.rBfsOrder.length < 2 ^ 32 := by
    rw [indexSize, recordsSize] at hsmall
    omega
  have hnum : r'.rNumRedirect = r.rNumRedirect := by
    obtain ⟨uris, -, rfl⟩ := sortUris_eq hpreps.sorted
    rfl
  have hoid : ∀ obj, oid r' obj = oid r obj := by
    intro obj
    cases obj with
    | redirect i => rfl
    | file i => rw [oid, oid, hredirect]
  have huris : ∀ q, q ∈ r'.rUri.map Uri.uUri ↔ IsUri (.dir a es) q := by
    intro q
    rw [(hperm.map Uri.uUri).mem_iff, hadds.map_uri, h.mem_uris]
  refine ⟨_, hopen, ?_, ?_⟩
  · intro m ptr q hq x hx hxq
    have hmem : q ∈ r'.rUri.map Uri.uUri := by
      rw [(hperm.map Uri.uUri).mem_iff, hadds.map_uri, ← hxq]
      exact List.mem_map_of_mem hx
    obtain ⟨u, hu, huq⟩ := List.mem_map.mp hmem
    obtain ⟨y, hy, huy, hserves⟩ := hadds.serves (hperm.mem_iff.mp hu)
    obtain rfl : y = x := by
      apply uriText_injective (h.names_of_mem hy) (h.names_of_mem hx)
      rw [← huy, huq, hxq]
    obtain ⟨name, hobject, hanswers⟩ := hholds.answers hserves
    refine ⟨name, ?_, hanswers⟩
    rw [(imageWebroot_find hlist hne hpreps.trie hfits hedges hq).1 u hu huq, hoid]
    exact hobject
  · intro m ptr q hq hnot
    refine (imageWebroot_find hlist hne hpreps.trie hfits hedges hq).2 ?_
    rwa [huris]

theorem Scannable.built (h : Scannable a es) {depth : ℕ} (hdepth : es.height < depth) {buf : Mem}
    {answers : List WriteAnswer}
    (hscan : scanItem (treeFs base magic (.dir a es)) depth (webrootNew base) [] [] = .ok (some r))
    (hbuild : buildImage k r buf answers = .ok (some (p, image))) :
    Adds base magic (.dir a es) (webrootNew base) r (treeLinks es) ∧ Consistent r ∧
      ∃ r' t, Preps r r' t ∧ p = layOut r' t ∧
        webrootWrite k (layOut r' t) (fobufNew buf BUFFER_SIZE answers) = .ok (some image) := by
  obtain ⟨r₁, hscan₁, hadds⟩ := h.scan base magic hdepth
  rw [hscan] at hscan₁
  obtain rfl := Option.some.inj (Except.ok.inj hscan₁)
  exact ⟨hadds, (scanItem_scans depth _ _ _ _ (webrootNew_consistent base) hscan).consistent, buildImage_preps hbuild⟩

theorem fits_iff_remainders {ents : List TrieEntry} (hu : UriList ents) (hne : ents ≠ [])
    (htrie : trieNew allocOk ents = .ok (some t)) :
    (∀ e ∈ t.rBfsOrder, Fits e) ↔ RemaindersBelow 0x100 [] (ents.map TrieEntry.tStr) := by
  obtain ⟨edges, hbuilt, hnew⟩ := hu.trieNew_built hne
  rw [htrie] at hnew
  obtain rfl := Option.some.inj (Except.ok.inj hnew)
  rw [fits_iff_of_perm]
  have hshort := (hbuilt.fits_iff hu.radixable).trans (hbuilt.short_iff (p := []) (by simp))
  simpa [TrieEntry.from] using hshort

def OnDisk (k : Kernel) (base : Bytes) (tree : Tree) : Prop :=
  ∀ ps b, tree.walk ps = some (.file b) → ∃ text, k.contents (base ++ pathOf ps) = some text ∧ b.size ≤ text.length

/-- What a scan of a tree has put on the list of files can be read. -/
theorem OnDisk.readable {tree : Tree} (hdisk : OnDisk k base tree) (hsound : Sound base magic tree r) :
    ∀ o ∈ r.rFile, Readable k r o := by
  intro o ho
  obtain ⟨ps, n, hwalk, hstands⟩ := hsound.known o ho
  cases n with
  | file b =>
    obtain ⟨text, hread, hle⟩ := hdisk ps b hwalk
    obtain ⟨-, -, -, hsize, hcontent, -⟩ := hstands
    refine ⟨text, ?_, by omega⟩
    rw [source, hcontent, ← hread]
    rfl
  | dir a es =>
    obtain ⟨-, -, -, -, off, hcontent, hle, -⟩ := hstands
    refine ⟨r.rTmpchunks.drop off, by rw [source, hcontent], ?_⟩
    rw [List.length_drop]
    rw [Webroot.rTmpoff] at hle
    omega

def shelf : DirEntries Attrs := .file (ascii "a") ⟨1, 2, 5000000, 3⟩ .nil

def shelfRoot : Attrs := ⟨1, 1, 5, 4⟩

def shelfFs : FileSystem := treeFs (ascii "/www") (fun _ => ascii "text/plain") (.dir shelfRoot shelf)

theorem shelf_scannable : Scannable shelfRoot shelf :=
  scannable_of_nodup ⟨⟨by decide, by decide, by decide, by decide⟩, by decide, trivial⟩ (by decide)

/-- What the scan of it leaves. -/
def shelfScan : Webroot :=
  match scanItem shelfFs 2 (webrootNew (ascii "/www")) [] [] with
  | .ok (some r) => r
  | _ => webrootNew []

theorem shelf_scan : scanItem shelfFs 2 (webrootNew (ascii "/www")) [] [] = .ok (some shelfScan) := by
  obtain ⟨r, hscan, -⟩ := shelf_scannable.scan (ascii "/www") (fun _ => ascii "text/plain") (show 1 < 2 by decide)
  have hsame : shelfScan = r := by
    rw [shelfScan, shelfFs, hscan]
  rw [hsame]
  exact hscan

theorem shelf_preps : Preps shelfScan shelfScan indexTrie :=
  preps_of_sorted [⟨[47], 0⟩, ⟨[47, 97], 1⟩] (by decide) (by decide) (by decide) (by decide) (by decide)

/-- A kernel with the file, and as much for each read as there is. -/
def shelfKernel : Kernel where
  contents := fun path => if path = ascii "/www/a" then some (ascii "abc") else none
  reads := fun _ => List.replicate 1000 (.got 1000)
  flushed := true
  seeked := true
  closed := true
  pad := 0
  ctx := ⟨0, fun _ => 0, 0⟩
  array := fun _ => 0

def shelfWrites : List WriteAnswer := List.replicate 1000 (.wrote 1000)

theorem shelf_onDisk : OnDisk shelfKernel (ascii "/www") (.dir shelfRoot shelf) := by
  intro ps b h
  cases ps with
  | nil => cases h
  | cons name ps =>
    obtain ⟨m, hfind, hrest⟩ := Option.bind_eq_some_iff.mp h
    obtain ⟨rfl, rfl⟩ := Prod.mk.inj (List.mem_singleton.mp (DirEntries.mem_of_find hfind))
    cases ps with
    | cons _ _ => cases hrest
    | nil =>
      cases hrest
      exact ⟨ascii "abc", by decide, by decide⟩

theorem shelf_reads : ∀ i o, shelfScan.rFile[i]? = some o → Generous o.size (shelfKernel.reads i) := by
  intro i o ho
  have hsizes : ∀ o ∈ shelfScan.rFile, o.size < 1000 := by decide +kernel
  refine ⟨?_, ?_⟩
  · intro a ha
    exact ⟨1000, by decide, List.eq_of_mem_replicate ha⟩
  · rw [shelfKernel, List.length_replicate]
    exact hsizes o (List.mem_of_getElem? ho)

theorem shelf_writes : Willing (writtenSize shelfScan indexTrie) shelfWrites := by
  refine ⟨?_, ?_⟩
  · intro a ha
    rw [List.eq_of_mem_replicate ha]
    exact (by decide : 0 < 1000)
  · have hsize : writtenSize shelfScan indexTrie ≤ 1000 := by decide +kernel
    rw [shelfWrites, List.countP_replicate]
    exact hsize

theorem shelf_builds : ∃ image, buildImage shelfKernel shelfScan 0 shelfWrites =
    .ok (some (layOut shelfScan indexTrie, image)) := by
  have hr := (scanItem_scans 2 _ _ _ _ (webrootNew_consistent (ascii "/www")) shelf_scan).consistent
  obtain ⟨r, hscan, hadds⟩ := shelf_scannable.scan (ascii "/www") (fun _ => ascii "text/plain") (show 1 < 2 by decide)
  obtain rfl := Option.some.inj (Except.ok.inj (shelf_scan.symm.trans hscan))
  exact buildImage_succeeds hr.allTyped shelf_preps (by decide)
    ⟨rfl, rfl, rfl, shelf_onDisk.readable hadds.sound, shelf_reads⟩ shelf_writes

theorem shelf_sizes : indexSize shelfScan (layOut shelfScan indexTrie).rTrie < 2 ^ 32 ∧
    indexSize shelfScan (layOut shelfScan indexTrie).rTrie + (shelfScan.rFile.map FileObject.size).sum < 2 ^ 64 := by
  decide +kernel

/-- Whatever was scanned, with an index smaller than 4 GiB: the file that `do_mkroot` closes is as
long as it was to be, `webroot_open` takes it, and the answer for an object's number is the object,
a file with its type, time and hash and with a place where its bytes are and no others'. -/
theorem mkroot_roundTrip {fs : FileSystem} {depth : ℕ} {base : Bytes} {buf : Mem} {answers : List WriteAnswer}
    (hscan : scanItem fs depth (webrootNew base) [] [] = .ok (some r))
    (hbuild : buildImage k r buf answers = .ok (some (p, image)))
    (hsmall : indexSize r p.rTrie < 2 ^ 32)
    (htotal : indexSize r p.rTrie + (r.rFile.map FileObject.size).sum < 2 ^ 64) :
    image.length = (webrootOutputSize p).toNat ∧ ∃ w off, Holds k r image w off := by
  have hr := (scanItem_scans depth _ _ _ _ (webrootNew_consistent base) hscan).consistent
  obtain ⟨r', t, hpreps, rfl, hwrite⟩ := buildImage_preps hbuild
  have hlen := hpreps.image_length hr.toCounted hsmall hwrite
  have hlength : image.length < 2 ^ 64 := hlen ▸ htotal
  obtain ⟨-, wfs, off, -, hholds⟩ := hpreps.holds hr.toCounted (hpreps.kept hr) hsmall hwrite hlength
  exact ⟨hpreps.outputSize hr.toCounted hsmall hwrite hlength, _, off, hholds⟩

theorem mkroot_roundTrip_shelf : ∃ image, image.length = (webrootOutputSize (layOut shelfScan indexTrie)).toNat ∧
    ∃ w off, Holds shelfKernel shelfScan image w off := by
  obtain ⟨image, hbuild⟩ := shelf_builds
  exact ⟨image, mkroot_roundTrip shelf_scan hbuild shelf_sizes.1 shelf_sizes.2⟩

/-- A directory tree that is scanned and built is what the webroot file answers with: every path of
it with what is there, nothing else with anything. -/
theorem mkroot_serves_tree (h : Scannable a es) {depth : ℕ} (hdepth : es.height < depth) {buf : Mem}
    {answers : List WriteAnswer}
    (hscan : scanItem (treeFs base magic (.dir a es)) depth (webrootNew base) [] [] = .ok (some r))
    (hbuild : buildImage k r buf answers = .ok (some (p, image))) (hsmall : indexSize r p.rTrie < 2 ^ 32)
    (htotal : indexSize r p.rTrie + (r.rFile.map FileObject.size).sum < 2 ^ 64) :
    ∃ w, Publishes k base magic a es image w := by
  obtain ⟨hadds, hr, r', t, hpreps, rfl, hwrite⟩ := h.built hdepth hscan hbuild
  exact hpreps.publishes h hadds hr hsmall htotal hwrite

theorem mkroot_serves_tree_shelf : ∃ image w, Publishes shelfKernel (ascii "/www") (fun _ => ascii "text/plain")
    shelfRoot shelf image w := by
  obtain ⟨image, hbuild⟩ := shelf_builds
  exact ⟨image, mkroot_serves_tree shelf_scannable (show 1 < 2 by decide) shelf_scan hbuild shelf_sizes.1 shelf_sizes.2⟩

/-- A tree that is still on the disk: with a kernel that lets everything through, `do_mkroot` comes
to its end exactly if no URI has 256 bytes more than it shares with the one sorted before it. -/
theorem mkroot_succeeds_iff (h : Scannable a es) {depth : ℕ} (hdepth : es.height < depth)
    (hfew : (treeLinks es).length < 2 ^ 32) (hdisk : OnDisk k base (.dir a es))
    (hscan : scanItem (treeFs base magic (.dir a es)) depth (webrootNew base) [] [] = .ok (some r))
    (hflushed : k.flushed = true) (hseeked : k.seeked = true) (hclosed : k.closed = true)
    (hreads : ∀ i o, r.rFile[i]? = some o → Generous o.size (k.reads i)) :
    ∃ p, webrootPrep r = .ok (some p) ∧ ∀ buf answers, Willing (writtenSize r p.rTrie) answers →
      ((∃ image, buildImage k r buf answers = .ok (some (p, image))) ↔
        RemaindersBelow 0x100 [] (p.root.rUri.map Uri.uUri)) := by
  have hr := (scanItem_scans depth _ _ _ _ (webrootNew_consistent base) hscan).consistent
  obtain ⟨r₁, hscan₁, hadds⟩ := h.scan base magic hdepth
  rw [hscan] at hscan₁
  obtain rfl := Option.some.inj (Except.ok.inj hscan₁)
  obtain ⟨r', hsort, hperm, -, -, hlist, hne⟩ := hadds.sorted_list h hfew
  obtain ⟨edges, -, htrie⟩ := hlist.trieNew_built hne
  have hpreps : Preps r r' (trieOf edges) := ⟨hsort, htrie⟩
  refine ⟨layOut r' (trieOf edges), ?_, ?_⟩
  · rw [webrootPrep, hsort]
    dsimp only
    rw [htrie]
  · intro buf answers hanswers
    have huris : (trieEntries r').map TrieEntry.tStr = r'.rUri.map Uri.uUri := by
      rw [trieEntries, List.map_map]
      rfl
    have hfits := fits_iff_remainders hlist hne htrie
    rw [huris] at hfits
    refine Iff.trans ⟨?_, ?_⟩ hfits
    · rintro ⟨image, hbuild⟩
      obtain ⟨r₂, t₂, hpreps₂, -, hwrite⟩ := buildImage_preps hbuild
      have hsorted := hpreps₂.sorted
      rw [hsort] at hsorted
      obtain rfl := Except.ok.inj hsorted
      have hsame := hpreps₂.trie
      rw [htrie] at hsame
      obtain rfl := Option.some.inj (Except.ok.inj hsame)
      unfold webrootWrite at hwrite
      obtain ⟨⟨ret, out⟩, hindex, hwrite⟩ := bind_eq_ok_iff.mp hwrite
      cases ret with
      | false => cases hwrite
      | true => exact (writeIndex_takes (fobufNew_ready buf BUFFER_SIZE answers) hindex).1
    · intro hall
      exact buildImage_succeeds hr.allTyped hpreps hall ⟨hflushed, hseeked, hclosed, hdisk.readable hadds.sound, hreads⟩ hanswers

theorem mkroot_succeeds_iff_shelf : ∃ p, webrootPrep shelfScan = .ok (some p) ∧
    ∀ buf answers, Willing (writtenSize shelfScan p.rTrie) answers →
      ((∃ image, buildImage shelfKernel shelfScan buf answers = .ok (some (p, image))) ↔
        RemaindersBelow 0x100 [] (p.root.rUri.map Uri.uUri)) :=
  mkroot_succeeds_iff shelf_scannable (show 1 < 2 by decide) (show 2 < 2 ^ 32 by decide) shelf_onDisk shelf_scan rfl rfl rfl shelf_reads

end Ashttpd.Mkroot
