import Ashttpd.ScannedTree

/-!
# The URIs that a scan links

A scan only appends to the lists of URIs and redirects, and what a file object stands for stays
the same, also where the object is found again through its device and inode.
-/
namespace Ashttpd.Mkroot

/-- The page that stands for a directory, the first of the index pages that is a file in it. -/
def pageOf (es : DirEntries Attrs) : List Bytes → Option (Bytes × Attrs)
  | [] => none
  | page :: pages =>
    match es.find page with
    | some (.file a) => some (page, a)
    | _ => pageOf es pages

/-- The page that `index_dir` writes for a directory. -/
def listing (u : Bytes) (es : DirEntries Attrs) : Bytes :=
  listingHead u ++ (es.names.filter fun name => !skipped name).flatMap (listingEntry u)

variable (base : Bytes) (magic : Bytes → Bytes) (t : Tree)

/-- The object is the one of the file, or the listing of the directory, at the path. -/
def Stands (r : Webroot) (o : FileObject) (ps : List Bytes) : Tree → Prop
  | .file a => o.dev = a.dev ∧ o.ino = a.ino ∧ o.mtime = a.mtime ∧ o.size = a.size ∧
      o.content = .path (some (base ++ pathOf ps)) ∧ o.type = some (magic (base ++ pathOf ps))
  | .dir a es => o.dev = a.dev ∧ o.ino = a.ino ∧ o.mtime = a.mtime ∧
      o.type = some (ascii "text/html") ∧
      ∃ off, o.content = .tmpchunk off ∧ off + o.size ≤ r.rTmpoff ∧
        (r.rTmpchunks.drop off).take o.size = listing (pathOf ps ++ [SLASH]) es

/-- What a URI of the tree is linked to: a directory without its last slash to a redirect to
itself with it, a directory to its index page or its listing, and a file to the object of it. -/
inductive Serves (r : Webroot) : List Bytes × Bool → ObjRef → Prop
  | redirect {ps : List Bytes} {a : Attrs} {es : DirEntries Attrs} {i : ℕ}
      (h : t.walk ps = some (.dir a es))
      (hi : r.rRedirect[i]? = some ⟨some (pathOf ps ++ [SLASH]), 0⟩) :
      Serves r (ps, false) (.redirect i)
  | file {ps : List Bytes} {a : Attrs} {i : ℕ} {o : FileObject}
      (h : t.walk ps = some (.file a)) (hi : r.rFile[i]? = some o)
      (ho : Stands base magic r o ps (.file a)) : Serves r (ps, false) (.file i)
  | page {ps : List Bytes} {a b : Attrs} {es : DirEntries Attrs} {page : Bytes} {i : ℕ}
      {o : FileObject} (h : t.walk ps = some (.dir a es))
      (hpage : pageOf es indexPages = some (page, b)) (hi : r.rFile[i]? = some o)
      (ho : Stands base magic r o (ps ++ [page]) (.file b)) : Serves r (ps, true) (.file i)
  | listing {ps : List Bytes} {a : Attrs} {es : DirEntries Attrs} {i : ℕ} {o : FileObject}
      (h : t.walk ps = some (.dir a es)) (hpage : pageOf es indexPages = none)
      (hi : r.rFile[i]? = some o) (ho : Stands base magic r o ps (.dir a es)) :
      Serves r (ps, true) (.file i)

/-- Every file object stands for something in the tree. -/
structure Sound (r : Webroot) : Prop where
  atBase : r.rBase = base
  known : ∀ o ∈ r.rFile, ∃ ps n, t.walk ps = some n ∧ Stands base magic r o ps n

/-- Nothing that a URI is linked to is lost. -/
structure Keeps (r r' : Webroot) : Prop where
  redirects : r.rRedirect <+: r'.rRedirect
  files : ∀ (i : ℕ) (o : FileObject) (ps : List Bytes) (n : Tree), r.rFile[i]? = some o →
    t.walk ps = some n → Stands base magic r o ps n →
    ∃ o', r'.rFile[i]? = some o' ∧ Stands base magic r' o' ps n

variable {base magic t} {r r' r'' : Webroot} {o : FileObject} {ps : List Bytes} {n : Tree}

theorem Keeps.refl (r : Webroot) : Keeps base magic t r r :=
  ⟨List.prefix_rfl, fun _ o _ _ hi _ ho => ⟨o, hi, ho⟩⟩

theorem Keeps.trans (h : Keeps base magic t r r') (h' : Keeps base magic t r' r'') :
    Keeps base magic t r r'' := by
  refine ⟨h.redirects.trans h'.redirects, fun i o ps n hi hn ho => ?_⟩
  obtain ⟨o', hi', ho'⟩ := h.files i o ps n hi hn ho
  exact h'.files i o' ps n hi' hn ho'

theorem Serves.walk {x : List Bytes × Bool} {obj : ObjRef} (h : Serves base magic t r x obj) : ∃ n, t.walk x.1 = some n := by
  cases h with
  | redirect h => exact ⟨_, h⟩
  | file h => exact ⟨_, h⟩
  | page h => exact ⟨_, h⟩
  | listing h => exact ⟨_, h⟩

theorem Serves.keeps {x : List Bytes × Bool} {obj : ObjRef} (h : Serves base magic t r x obj)
    (hk : Keeps base magic t r r') (hw : ∀ ps page a b es, t.walk ps = some (.dir a es) →
      pageOf es indexPages = some (page, b) → t.walk (ps ++ [page]) = some (.file b)) :
    Serves base magic t r' x obj := by
  cases h with
  | redirect h hi =>
    obtain ⟨more, hmore⟩ := hk.redirects
    refine .redirect h ?_
    rw [← hmore, List.getElem?_append_left (List.getElem?_eq_some_iff.mp hi).1]
    exact hi
  | file h hi ho =>
    obtain ⟨o', hi', ho'⟩ := hk.files _ _ _ _ hi h ho
    exact .file h hi' ho'
  | page h hpage hi ho =>
    obtain ⟨o', hi', ho'⟩ := hk.files _ _ _ _ hi (hw _ _ _ _ _ h hpage) ho
    exact .page h hpage hi' ho'
  | listing h hpage hi ho =>
    obtain ⟨o', hi', ho'⟩ := hk.files _ _ _ _ hi h ho
    exact .listing h hpage hi' ho'

theorem pageOf_find {es : DirEntries Attrs} {pages : List Bytes} {page : Bytes} {b : Attrs}
    (h : pageOf es pages = some (page, b)) : page ∈ pages ∧ es.find page = some (.file b) := by
  induction pages with
  | nil => exact nomatch h
  | cons p pages ih =>
    unfold pageOf at h
    split at h
    · next a hfind =>
      obtain ⟨rfl, rfl⟩ := Prod.mk.inj (Option.some.inj h)
      exact ⟨List.mem_cons_self, hfind⟩
    · obtain ⟨hmem, hfind⟩ := ih h
      exact ⟨List.mem_cons_of_mem _ hmem, hfind⟩

theorem walk_page {es : DirEntries Attrs} {a b : Attrs} {page : Bytes}
    (h : t.walk ps = some (.dir a es)) (hpage : pageOf es indexPages = some (page, b)) :
    t.walk (ps ++ [page]) = some (.file b) := by
  rw [DirNode.walk_snoc h]
  exact (pageOf_find hpage).2

theorem Stands.tmpchunks (h : Stands base magic r o ps n)
    (hchunks : r.rTmpchunks <+: r'.rTmpchunks) : Stands base magic r' o ps n := by
  cases n with
  | file a => exact h
  | dir a es =>
    obtain ⟨hdev, hino, hmtime, htype, off, hcontent, hle, htext⟩ := h
    obtain ⟨more, hmore⟩ := hchunks
    unfold Webroot.rTmpoff at hle
    refine ⟨hdev, hino, hmtime, htype, off, hcontent, ?_, ?_⟩
    · unfold Webroot.rTmpoff
      rw [← hmore, List.length_append]
      omega
    · rw [← hmore, List.drop_append_of_le_length (by omega), List.take_append_of_le_length, htext]
      rw [List.length_drop]
      omega

theorem Stands.inode (h : Stands base magic r o ps n) :
    o.dev = n.stat.dev ∧ o.ino = n.stat.ino := by
  cases n with
  | file a => exact ⟨h.1, h.2.1⟩
  | dir a es => exact ⟨h.1, h.2.1⟩

/-- One file object is new or assigned to, the rest of the webroot only grows. -/
structure Assigns (r r' : Webroot) (i : ℕ) (o : FileObject) : Prop where
  base : r'.rBase = r.rBase
  uris : r'.rUri = r.rUri
  count : r'.rNumUri = r.rNumUri
  redirects : r'.rRedirect = r.rRedirect
  chunks : r.rTmpchunks <+: r'.rTmpchunks
  here : r'.rFile[i]? = some o
  others : ∀ j, j ≠ i → r'.rFile[j]? = r.rFile[j]?
  same : ∀ o₀, r.rFile[i]? = some o₀ → o₀.dev = o.dev ∧ o₀.ino = o.ino

/-- No two paths of the tree have one device and inode. -/
def Inodes (t : Tree) : Prop :=
  ∀ ps qs m n, t.walk ps = some m → t.walk qs = some n →
    m.stat.dev = n.stat.dev → m.stat.ino = n.stat.ino → ps = qs

theorem Stands.unique {o' : FileObject} {qs : List Bytes} {m : Tree} (ht : Inodes t)
    (h : Stands base magic r o ps n) (hn : t.walk ps = some n)
    (h' : Stands base magic r' o' qs m) (hm : t.walk qs = some m)
    (hdev : o.dev = o'.dev) (hino : o.ino = o'.ino) : ps = qs ∧ n = m := by
  have hps : ps = qs := by
    apply ht ps qs n m hn hm
    · rw [← h.inode.1, ← h'.inode.1, hdev]
    · rw [← h.inode.2, ← h'.inode.2, hino]
  subst hps
  exact ⟨rfl, Option.some.inj (hn.symm.trans hm)⟩

theorem Assigns.keeps {i : ℕ} (h : Assigns r r' i o) (ht : Inodes t) (hs : Sound base magic t r)
    (hn : t.walk ps = some n) (ho : Stands base magic r' o ps n) :
    Sound base magic t r' ∧ Keeps base magic t r r' := by
  refine ⟨⟨h.base.trans hs.atBase, fun o' ho' => ?_⟩, ⟨by rw [h.redirects], ?_⟩⟩
  · obtain ⟨j, hj⟩ := List.getElem?_of_mem ho'
    by_cases hji : j = i
    · subst hji
      obtain rfl : o = o' := Option.some.inj (h.here.symm.trans hj)
      exact ⟨ps, n, hn, ho⟩
    · rw [h.others j hji] at hj
      obtain ⟨qs, m, hm, hstands⟩ := hs.known o' (List.mem_of_getElem? hj)
      exact ⟨qs, m, hm, hstands.tmpchunks h.chunks⟩
  · intro j o' qs m hj hm hstands
    by_cases hji : j = i
    · subst hji
      obtain ⟨hdev, hino⟩ := h.same o' hj
      obtain ⟨rfl, rfl⟩ := hstands.unique ht hm ho hn hdev hino
      exact ⟨o, h.here, ho⟩
    · exact ⟨o', by rw [h.others j hji, hj], hstands.tmpchunks h.chunks⟩

theorem objFile_cases (r : Webroot) (dev ino : UInt64) (mtime : ℤ) (size : ℕ) :
    (∃ i o, objFile r dev ino mtime size = (r, i) ∧ r.rFile[i]? = some o ∧
      o.dev = dev ∧ o.ino = ino) ∨
    objFile r dev ino mtime size =
      ({ r with
          rFile := r.rFile ++ [⟨none, .path none, size, dev, ino, mtime⟩]
          rNumFile := r.rNumFile + 1 }, r.rFile.length) := by
  unfold objFile
  cases hfind : r.rFile.findIdx? fun o => dev = o.dev ∧ ino = o.ino with
  | none => exact .inr rfl
  | some i =>
    left
    obtain ⟨hlt, hmatch, -⟩ := List.findIdx?_eq_some_iff_getElem.mp hfind
    have hkey : dev = r.rFile[i].dev ∧ ino = r.rFile[i].ino := by simpa using hmatch
    exact ⟨i, r.rFile[i], rfl, List.getElem?_eq_getElem hlt, hkey.1.symm, hkey.2.symm⟩

/-- `obj_file` for something of the tree, whether or not it has been met before. -/
theorem objFile_assigns (ht : Inodes t) (hs : Sound base magic t r) (hn : t.walk ps = some n)
    (size : ℕ) : ∃ r₁ i o, objFile r n.stat.dev n.stat.ino n.stat.mtime size = (r₁, i) ∧
      Assigns r r₁ i o ∧ o.dev = n.stat.dev ∧ o.ino = n.stat.ino ∧ o.mtime = n.stat.mtime ∧
      ∀ a, n = .file a → size = a.size → o.size = a.size := by
  obtain ⟨i, o, hobj, hi, hdev, hino⟩ | hobj :=
    objFile_cases r n.stat.dev n.stat.ino n.stat.mtime size
  · refine ⟨r, i, o, hobj, ⟨rfl, rfl, rfl, rfl, List.prefix_rfl, hi, fun _ _ => rfl, ?_⟩, hdev, hino,
      ?_⟩
    · intro o₀ hi₀
      obtain rfl : o = o₀ := Option.some.inj (hi.symm.trans hi₀)
      exact ⟨rfl, rfl⟩
    · -- it stands for the same thing already
      obtain ⟨qs, m, hm, hstands⟩ := hs.known o (List.mem_of_getElem? hi)
      have hqs : qs = ps := by
        apply ht qs ps m n hm hn
        · rw [← hstands.inode.1, hdev]
        · rw [← hstands.inode.2, hino]
      subst hqs
      obtain rfl : m = n := Option.some.inj (hm.symm.trans hn)
      cases m with
      | file a =>
        refine ⟨hstands.2.2.1, fun b hb _ => ?_⟩
        obtain rfl := DirNode.file.inj hb
        exact hstands.2.2.2.1
      | dir a es =>
        refine ⟨hstands.2.2.1, fun b hb _ => ?_⟩
        cases hb
  · refine ⟨_, _, ⟨none, .path none, size, n.stat.dev, n.stat.ino, n.stat.mtime⟩, hobj,
      ⟨rfl, rfl, rfl, rfl, List.prefix_rfl, by simp, ?_, ?_⟩, rfl, rfl, rfl, fun _ _ hsize => hsize⟩
    · intro j hj
      rcases Nat.lt_or_gt_of_ne hj with hlt | hgt
      · exact List.getElem?_append_left hlt
      · rw [List.getElem?_eq_none (by simp; omega),
          List.getElem?_eq_none (Nat.le_of_lt hgt)]
    · intro o₀ hi₀
      rw [List.getElem?_eq_none (Nat.le_refl _)] at hi₀
      cases hi₀

theorem Assigns.setFile {i : ℕ} (h : Assigns r r' i o) (f : FileObject → FileObject)
    (hdev : (f o).dev = o.dev) (hino : (f o).ino = o.ino) : Assigns r (r'.setFile i f) i (f o) where
  base := h.base
  uris := h.uris
  count := h.count
  redirects := h.redirects
  chunks := h.chunks
  here := by
    have hhere := h.here
    simp [Webroot.setFile, hhere]
  others j hj := by
    rw [← h.others j hj]
    simp [Webroot.setFile, hj.symm]
  same o₀ ho₀ := by
    rw [hdev, hino]
    exact h.same o₀ ho₀

theorem Assigns.mimeAdd {i : ℕ} (h : Assigns r r' i o) (mime : Bytes) :
    Assigns r (mimeAdd r' mime) i o := by
  unfold Mkroot.mimeAdd
  split_ifs
  · exact h
  · exact ⟨h.base, h.uris, h.count, h.redirects, h.chunks, h.here, h.others, h.same⟩

theorem Assigns.chunk {i : ℕ} (h : Assigns r r' i o) (text : Bytes) :
    Assigns r { r' with rTmpchunks := r'.rTmpchunks ++ text } i o :=
  ⟨h.base, h.uris, h.count, h.redirects, h.chunks.trans (List.prefix_append _ _), h.here, h.others,
    h.same⟩

/-- `obj_file_path` for a file of the tree gives the object of the file. -/
theorem objFilePath_assigns (ht : Inodes t) (hs : Sound base magic t r) {a : Attrs}
    (hn : t.walk ps = some (.file a)) :
    ∃ r₁ i o, objFilePath (treeFs base magic t) r (base ++ pathOf ps) a.dev a.ino a.mtime a.size =
        (r₁, .file i) ∧ Assigns r r₁ i o ∧ Stands base magic r₁ o ps (.file a) := by
  obtain ⟨r₁, i, o, hobj, has, hdev, hino, hmtime, hsize⟩ := objFile_assigns ht hs hn a.size
  unfold objFilePath
  simp only [DirNode.stat] at hobj
  rw [hobj]
  refine ⟨_, i, _, rfl, ((has.setFile (fun o => { o with content := .path (some (base ++ pathOf ps)) })
    rfl rfl).mimeAdd _).setFile _ rfl rfl, hdev, hino, hmtime, hsize a rfl rfl, rfl, rfl⟩

theorem foldl_tcPrintf (f : Bytes → Bytes) (names : List Bytes) (r : Webroot) :
    names.foldl (fun r name => tcPrintf r (f name)) r =
      { r with rTmpchunks := r.rTmpchunks ++ names.flatMap f } := by
  induction names generalizing r with
  | nil => simp
  | cons name names ih =>
    rw [List.foldl_cons, ih, tcPrintf]
    simp [List.append_assoc]

theorem stat_treeFs {path : Bytes} (h : nodeAt base t path = some n) :
    (treeFs base magic t).stat path = .ok (treeStat n) := by
  simp [treeFs, h]

theorem stat_treeFs_none {path : Bytes} (h : nodeAt base t path = none) :
    (treeFs base magic t).stat path = .error .enoent := by
  simp [treeFs, h]

theorem lstat_treeFs {path : Bytes} (h : nodeAt base t path = some n) :
    (treeFs base magic t).lstat path = .ok (treeStat n) := by
  simp [treeFs, h]

theorem readdir_treeFs {path : Bytes} {a : Attrs} {es : DirEntries Attrs}
    (h : nodeAt base t path = some (.dir a es)) :
    (treeFs base magic t).readdir path = some ([DOT] :: [DOT, DOT] :: es.names) := by
  simp [treeFs, h]

@[simp] theorem mimeAdd_rTmpchunks (r : Webroot) (mime : Bytes) :
    (mimeAdd r mime).rTmpchunks = r.rTmpchunks := by
  unfold mimeAdd
  split_ifs <;> rfl

theorem objFileTmpchunks_assigns (ht : Inodes t) (hs : Sound base magic t r) {a : Attrs}
    {es : DirEntries Attrs} (hn : t.walk ps = some (.dir a es)) (mime : Bytes) :
    ∃ r₁ i o, objFileTmpchunks r mime a.dev a.ino a.mtime = (r₁, i) ∧ Assigns r r₁ i o ∧
      o.dev = a.dev ∧ o.ino = a.ino ∧ o.mtime = a.mtime ∧ o.type = some mime ∧
      o.content = .tmpchunk r₁.rTmpoff := by
  obtain ⟨r₁, i, o, hobj, has, hdev, hino, hmtime, -⟩ := objFile_assigns ht hs hn 0
  simp only [DirNode.stat] at hobj
  unfold objFileTmpchunks
  rw [hobj]
  refine ⟨_, i, _, rfl, ((has.setFile (fun o => { o with content := .tmpchunk r₁.rTmpoff })
    rfl rfl).mimeAdd _).setFile _ rfl rfl, hdev, hino, hmtime, rfl, ?_⟩
  simp only [Webroot.rTmpoff, Webroot.setFile, mimeAdd_rTmpchunks]

/-- `index_dir` for a directory of the tree writes its listing. -/
theorem indexDir_assigns (ht : Inodes t) (hs : Sound base magic t r) {a : Attrs}
    {es : DirEntries Attrs} (hn : t.walk ps = some (.dir a es)) {path : Bytes}
    (hpath : nodeAt base t path = some (.dir a es)) :
    ∃ r₁ i o, indexDir (treeFs base magic t) r (a.stat .dir) path (pathOf ps ++ [SLASH]) =
        some (r₁, .file i) ∧ Assigns r r₁ i o ∧ Stands base magic r₁ o ps (.dir a es) := by
  obtain ⟨r₁, i, o, hobj, has, hdev, hino, hmtime, htype, hcontent⟩ :=
    objFileTmpchunks_assigns ht hs hn (ascii "text/html")
  have hskip : (([DOT] :: [DOT, DOT] :: es.names).filter fun name => !skipped name) =
      es.names.filter fun name => !skipped name := by
    simp [skipped]
  unfold indexDir
  rw [readdir_treeFs hpath]
  simp only [Attrs.stat, hobj, hskip, foldl_tcPrintf]
  refine ⟨_, _, _, rfl, ((has.chunk _).chunk _).setFile _ rfl rfl, hdev, hino, hmtime, htype,
    r₁.rTmpoff, hcontent, ?_, ?_⟩
  · simp only [Webroot.rTmpoff, tcPrintf, Webroot.setFile, List.length_append]
    omega
  · simp only [Webroot.rTmpoff, tcPrintf, Webroot.setFile, listing, List.length_append,
      List.append_assoc, List.drop_left]
    exact List.take_of_length_le (by simp only [List.length_append]; omega)

/-- The search of `add_index` for a page finds what `pageOf` says. -/
theorem tryPages_cases (ht : Inodes t) (hs : Sound base magic t r) {a : Attrs}
    {es : DirEntries Attrs} (hn : t.walk ps = some (.dir a es)) (hps : ∀ s ∈ ps, NameOk s)
    {pages : List Bytes} (hpages : ∀ page ∈ pages, NameOk page) :
    (pageOf es pages = none ∧
      tryPages (treeFs base magic t) (pathOf ps ++ [SLASH]) r pages = some (r, none)) ∨
    ∃ page b r₁ i o, pageOf es pages = some (page, b) ∧
      tryPages (treeFs base magic t) (pathOf ps ++ [SLASH]) r pages = some (r₁, some (.file i)) ∧
      Assigns r r₁ i o ∧ Stands base magic r₁ o (ps ++ [page]) (.file b) := by
  induction pages with
  | nil => exact .inl ⟨rfl, rfl⟩
  | cons page pages ih =>
    have ih := ih fun p hp => hpages p (List.mem_cons_of_mem _ hp)
    have hpath : webrootLookup r (pathSplice (pathOf ps ++ [SLASH]) page) =
        base ++ pathOf (ps ++ [page]) := by
      rw [webrootLookup, hs.atBase, pathSplice_page, pathSplice_base base (by simp)]
    have hnames : ∀ s ∈ ps ++ [page], NameOk s := by
      intro s hmem
      rcases List.mem_append.mp hmem with hmem | hmem
      · exact hps s hmem
      · exact hpages s (List.mem_cons.mpr (.inl (List.mem_singleton.mp hmem)))
    have hnode : nodeAt base t (base ++ pathOf (ps ++ [page])) = es.find page := by
      rw [nodeAt_append hnames, DirNode.walk_snoc hn]
    unfold tryPages tryIndex pageOf
    rw [hpath]
    cases hfind : es.find page with
    | none =>
      rw [hfind] at hnode
      simpa only [stat_treeFs_none hnode] using ih
    | some m =>
      rw [hfind] at hnode
      cases m with
      | dir b es' => simpa only [stat_treeFs hnode, treeStat, Attrs.stat] using ih
      | file b =>
        right
        have hwalk : t.walk (ps ++ [page]) = some (.file b) := (DirNode.walk_snoc hn page).trans hfind
        obtain ⟨r₁, i, o, hobj, has, hstands⟩ := objFilePath_assigns ht hs hwalk
        refine ⟨page, b, r₁, i, o, rfl, ?_, has, hstands⟩
        simp only [stat_treeFs hnode, treeStat, Attrs.stat, hobj]

variable (base magic t) in
/-- The links are appended in their order, and what each is linked to is there. -/
structure Adds (r r' : Webroot) (links : List (List Bytes × Bool)) : Prop where
  sound : Sound base magic t r'
  keeps : Keeps base magic t r r'
  uris : ∃ new, r'.rUri = r.rUri ++ new ∧
    List.Forall₂ (fun x u => u.uUri = uriText x ∧ Serves base magic t r' x u.uObj) links new
  count : r'.rNumUri = r.rNumUri + UInt32.ofNat links.length

variable {links links' : List (List Bytes × Bool)} {x : List Bytes × Bool} {obj : ObjRef}

theorem Adds.nil (hs : Sound base magic t r) : Adds base magic t r r [] :=
  ⟨hs, .refl r, ⟨[], by simp, .nil⟩, by simp⟩

theorem Adds.append (h : Adds base magic t r r' links) (h' : Adds base magic t r' r'' links') :
    Adds base magic t r r'' (links ++ links') := by
  obtain ⟨new, huris, hnew⟩ := h.uris
  obtain ⟨new', huris', hnew'⟩ := h'.uris
  refine ⟨h'.sound, h.keeps.trans h'.keeps, ⟨new ++ new', ?_, ?_⟩, ?_⟩
  · rw [huris', huris, List.append_assoc]
  · refine List.rel_append (hnew.imp ?_) hnew'
    intro x u hx
    exact ⟨hx.1, hx.2.keeps h'.keeps fun _ _ _ _ _ => walk_page⟩
  · rw [h'.count, h.count, List.length_append, UInt32.ofNat_add, UInt32.add_assoc]

/-- `webroot_link` once the object is there. -/
theorem adds_link (hs : Sound base magic t r') (hk : Keeps base magic t r r')
    (huris : r'.rUri = r.rUri) (hcount : r'.rNumUri = r.rNumUri)
    (hx : Serves base magic t r' x obj) (hne : uriText x ≠ []) :
    Adds base magic t r (webrootLink r' (uriText x) obj) [x] := by
  refine ⟨⟨hs.atBase, hs.known⟩, ⟨hk.redirects, hk.files⟩, ⟨[⟨obj, uriText x⟩], ?_, ?_⟩, ?_⟩
  · simp [webrootLink, huris, hne]
  · refine .cons ⟨rfl, ?_⟩ .nil
    exact hx.keeps ⟨List.prefix_rfl, fun _ o _ _ hi _ ho => ⟨o, hi, ho⟩⟩ fun _ _ _ _ _ => walk_page
  · simp [webrootLink, hcount]

/-- `add_index` for a directory of the tree links its index page or its listing. -/
theorem addIndex_adds (ht : Inodes t) (hs : Sound base magic t r) {a : Attrs}
    {es : DirEntries Attrs} (hn : t.walk ps = some (.dir a es)) (hps : ∀ s ∈ ps, NameOk s)
    {path : Bytes} (hpath : nodeAt base t path = some (.dir a es)) :
    ∃ r', addIndex (treeFs base magic t) r (a.stat .dir) path (pathOf ps ++ [SLASH]) = some r' ∧
      Adds base magic t r r' [(ps, true)] := by
  have huri : uriText (ps, true) = pathOf ps ++ [SLASH] := rfl
  have hne : uriText (ps, true) ≠ [] := by simp [huri]
  unfold addIndex
  obtain ⟨hpage, htry⟩ | ⟨page, b, r₁, i, o, hpage, htry, has, hstands⟩ :=
    tryPages_cases ht hs hn hps fun page => nameOk_of_mem_indexPages
  · obtain ⟨r₁, i, o, hdir, has, hstands⟩ := indexDir_assigns ht hs hn hpath
    obtain ⟨hs₁, hk₁⟩ := has.keeps ht hs hn hstands
    rw [htry]
    simp only [indexdirs, if_true, hdir, Option.map_some]
    exact ⟨_, rfl, adds_link hs₁ hk₁ has.uris has.count (.listing hn hpage has.here hstands) hne⟩
  · obtain ⟨hs₁, hk₁⟩ := has.keeps ht hs (walk_page hn hpage) hstands
    rw [htry]
    exact ⟨_, rfl, adds_link hs₁ hk₁ has.uris has.count (.page hn hpage has.here hstands) hne⟩

/-- `scan_item` for a regular file of the tree. -/
theorem scanItem_file (ht : Inodes t) (hs : Sound base magic t r) {a : Attrs} (dir : Bytes)
    (depth : ℕ) (hn : t.walk ps = some (.file a)) (hps : ∀ s ∈ ps, NameOk s) (hnil : ps ≠ []) :
    ∃ r', scanItem (treeFs base magic t) (depth + 1) r dir (pathOf ps) = .ok (some r') ∧
      Adds base magic t r r' [(ps, false)] := by
  have hpath : webrootLookup r (pathOf ps) = base ++ pathOf ps := by
    rw [webrootLookup, hs.atBase, pathSplice_base base hnil]
  have hnode : nodeAt base t (base ++ pathOf ps) = some (.file a) := by rw [nodeAt_append hps, hn]
  obtain ⟨r₁, i, o, hobj, has, hstands⟩ := objFilePath_assigns ht hs hn
  obtain ⟨hs₁, hk₁⟩ := has.keeps ht hs hn hstands
  have huri : uriText (ps, false) = pathOf ps := by simp [uriText]
  have hne : uriText (ps, false) ≠ [] := by
    rw [huri, pathOf_eq_pathText hnil]
    simp [pathText]
  refine ⟨webrootLink r₁ (pathOf ps) (.file i), ?_, ?_⟩
  · unfold scanItem
    simp only [hpath, lstat_treeFs hnode, treeStat, Attrs.stat, hobj]
  · rw [← huri]
    exact adds_link hs₁ hk₁ has.uris has.count (.file hn has.here hstands) hne

/-- `obj_redirect` for a directory, which is linked when what the directory holds has been. -/
theorem objRedirect_adds (hs : Sound base magic t r) (path : Bytes) :
    Adds base magic t r (objRedirect r path).1 [] ∧
      (objRedirect r path).1.rRedirect[r.rRedirect.length]? = some ⟨some path, 0⟩ := by
  refine ⟨⟨⟨hs.atBase, hs.known⟩, ⟨List.prefix_append _ _, fun _ o _ _ hi _ ho => ⟨o, hi, ho⟩⟩,
    ⟨[], by simp [objRedirect], .nil⟩, by simp [objRedirect]⟩, by simp [objRedirect]⟩

/-- `scan_dir` passes over the two entries that are not part of the tree. -/
theorem scanDir_treeFs {path : Bytes} {a : Attrs} {es : DirEntries Attrs}
    (hpath : nodeAt base t path = some (.dir a es))
    (item : Webroot → Bytes → Bytes → Except Fault (Option Webroot)) (dir : Bytes) :
    scanDir (treeFs base magic t) item r dir path = scanEntries item dir r es.names := by
  have hdot : skipped [DOT] = true := rfl
  have hdots : skipped [DOT, DOT] = true := rfl
  simp only [scanDir, readdir_treeFs hpath, scanEntries, hdot, hdots, if_true]

/-- `scan_item` for a directory of the tree, when what it holds is scanned as it should be. -/
theorem scanItem_dir (ht : Inodes t) (hs : Sound base magic t r) {a : Attrs}
    {es : DirEntries Attrs} (dir : Bytes) {depth : ℕ} (hn : t.walk ps = some (.dir a es))
    (hps : ∀ s ∈ ps, NameOk s) (hnil : ps ≠ [])
    (hscan : ∀ r, Sound base magic t r → ∃ r', scanEntries (scanItem (treeFs base magic t) depth)
      (pathOf ps) r es.names = .ok (some r') ∧ Adds base magic t r r' (es.links ps)) :
    ∃ r', scanItem (treeFs base magic t) (depth + 1) r dir (pathOf ps) = .ok (some r') ∧
      Adds base magic t r r' ((ps, true) :: (es.links ps ++ [(ps, false)])) := by
  have hnode : nodeAt base t (webrootLookup r (pathOf ps)) = some (.dir a es) := by
    rw [webrootLookup, hs.atBase, nodeAt_lookup hps, hn]
  have huri : uriText (ps, false) = pathOf ps := by simp [uriText]
  have hne : pathOf ps ≠ [] := by
    rw [pathOf_eq_pathText hnil]
    simp [pathText]
  obtain ⟨r₁, hindex, hadds₁⟩ := addIndex_adds ht hs hn hps hnode
  obtain ⟨hadds₂, hredir⟩ := objRedirect_adds hadds₁.sound (pathOf ps ++ [SLASH])
  obtain ⟨r₃, hloop, hadds₃⟩ := hscan _ hadds₂.sound
  have hserves : Serves base magic t r₃ (ps, false) (.redirect r₁.rRedirect.length) :=
    (Serves.redirect hn hredir).keeps hadds₃.keeps fun _ _ _ _ _ => walk_page
  have hadds₄ := adds_link hadds₃.sound (.refl r₃) rfl rfl hserves (by rwa [huri])
  refine ⟨_, ?_, hadds₁.append (hadds₂.append (hadds₃.append hadds₄))⟩
  unfold scanItem
  simp only [lstat_treeFs hnode, treeStat, Attrs.stat, pathSplice_slash]
  simp only [Attrs.stat] at hindex
  rw [hindex]
  simp only [hne, if_false, scanDir_treeFs hnode, hloop, huri]
  rfl

/-- The loop of `scan_dir` goes on with what an entry has left. -/
theorem scanEntries_cons {item : Webroot → Bytes → Bytes → Except Fault (Option Webroot)}
    {name : Bytes} (names : List Bytes) (hps : ∀ s ∈ ps, NameOk s) (hname : NameOk name)
    (hitem : item r (pathOf ps) (pathOf (ps ++ [name])) = .ok (some r')) :
    scanEntries item (pathOf ps) r (name :: names) = scanEntries item (pathOf ps) r' names := by
  simp only [scanEntries, not_skipped hname, pathSplice_name hps hname, Bool.false_eq_true, if_false,
    hitem]

/-- The loop of `scan_dir` over entries of the tree links what is at and below them. -/
theorem scanEntries_adds (ht : Inodes t) {es : DirEntries Attrs} (hwn : es.WellNamed NameOk) :
    ∀ {depth : ℕ} {ps : List Bytes} {r : Webroot}, es.height ≤ depth → Sound base magic t r →
      (∀ s ∈ ps, NameOk s) → (∀ x ∈ es.toList, t.walk (ps ++ [x.1]) = some x.2) →
      ∃ r', scanEntries (scanItem (treeFs base magic t) depth) (pathOf ps) r es.names =
        .ok (some r') ∧ Adds base magic t r r' (es.links ps) := by
  induction es with
  | nil => exact fun _ hs _ _ => ⟨_, rfl, .nil hs⟩
  | file name a rest ih =>
    intro depth ps r hdepth hs hps hwalk
    obtain ⟨hname, -, hrest⟩ := hwn
    rw [DirEntries.height] at hdepth
    obtain ⟨d, rfl⟩ := Nat.exists_eq_succ_of_ne_zero (show depth ≠ 0 by omega)
    have hnames : ∀ s ∈ ps ++ [name], NameOk s := by
      simpa [or_imp, forall_and] using ⟨hps, hname⟩
    obtain ⟨r₁, hitem, hadds⟩ := scanItem_file ht hs (pathOf ps) d
      (hwalk _ List.mem_cons_self) hnames (by simp)
    obtain ⟨r', hloop, hadds'⟩ := ih hrest (show rest.height ≤ d + 1 by omega) hadds.sound hps
      fun x hx => hwalk x (List.mem_cons_of_mem _ hx)
    exact ⟨r', (scanEntries_cons _ hps hname hitem).trans hloop, hadds.append hadds'⟩
  | dir name a entries rest ihsub ih =>
    intro depth ps r hdepth hs hps hwalk
    obtain ⟨hname, -, hsub, hrest⟩ := hwn
    rw [DirEntries.height] at hdepth
    obtain ⟨d, rfl⟩ := Nat.exists_eq_succ_of_ne_zero (show depth ≠ 0 by omega)
    have hnames : ∀ s ∈ ps ++ [name], NameOk s := by
      simpa [or_imp, forall_and] using ⟨hps, hname⟩
    have hn : t.walk (ps ++ [name]) = some (.dir a entries) := hwalk _ List.mem_cons_self
    have hbelow : ∀ x ∈ entries.toList, t.walk ((ps ++ [name]) ++ [x.1]) = some x.2 := by
      intro x hx
      rw [DirNode.walk_snoc hn, hsub.find_iff]
      exact hx
    obtain ⟨r₁, hitem, hadds⟩ := scanItem_dir ht hs (pathOf ps) hn hnames (by simp)
      fun r hr => ihsub hsub (show entries.height ≤ d by omega) hr hnames hbelow
    obtain ⟨r', hloop, hadds'⟩ := ih hrest (show rest.height ≤ d + 1 by omega) hadds.sound hps
      fun x hx => hwalk x (List.mem_cons_of_mem _ hx)
    refine ⟨r', (scanEntries_cons _ hps hname hitem).trans hloop, ?_⟩
    simpa [DirEntries.links] using hadds.append hadds'

end Ashttpd.Mkroot
