import Ashttpd.Mkroot

/-!
# What a scan sees of a directory tree

The calls of `scan_item` are answered by a tree of directories and regular files that stands at
the base directory.
-/
namespace Ashttpd.Mkroot

/-- What `lstat` tells of an entry besides its type. -/
structure Attrs where
  dev : UInt64
  ino : UInt64
  mtime : ℤ
  size : ℕ
  deriving DecidableEq, Repr

abbrev Tree := DirNode Attrs

def Attrs.stat (a : Attrs) (mode : FileType) : Stat := ⟨mode, a.dev, a.ino, a.mtime, a.size⟩

def treeStat : Tree → Stat
  | .file a => a.stat .reg
  | .dir a _ => a.stat .dir

def components (path : Bytes) : List Bytes := (path.splitOn SLASH).filter (· ≠ [])

def nodeAt (base : Bytes) (t : Tree) (path : Bytes) : Option Tree :=
  if base.isPrefixOf path then t.walk (components (path.drop base.length)) else none

/-- The file system with the tree at `base`. -/
def treeFs (base : Bytes) (magic : Bytes → Bytes) (t : Tree) : FileSystem where
  lstat path := match nodeAt base t path with
    | none => .error .enoent
    | some n => .ok (treeStat n)
  stat path := match nodeAt base t path with
    | none => .error .enoent
    | some n => .ok (treeStat n)
  readdir path := match nodeAt base t path with
    | some (.dir _ es) => some ([DOT] :: [DOT, DOT] :: es.names)
    | _ => none
  readlink _ := none
  magicFile := magic

/-- A name that a URI can have and that `scan_dir` does not skip. -/
structure NameOk (name : Bytes) : Prop where
  nonempty : name ≠ []
  noSlash : SLASH ∉ name
  noNul : 0 ∉ name
  noDot : name.head? ≠ some DOT

/-- The names are fit for URIs, and no two paths have one device and inode. -/
structure Scannable (a : Attrs) (es : DirEntries Attrs) : Prop where
  named : es.WellNamed NameOk
  inodes : ∀ ps qs m n, (DirNode.dir a es).walk ps = some m → (DirNode.dir a es).walk qs = some n →
    m.stat.dev = n.stat.dev → m.stat.ino = n.stat.ino → ps = qs

/-- A tree is scannable if all that `lstat` tells of it differs by device and inode. -/
theorem scannable_of_nodup {a : Attrs} {es : DirEntries Attrs} (hnamed : es.WellNamed NameOk)
    (h : ((a :: es.stats).map fun s => (s.dev, s.ino)).Nodup) : Scannable a es := by
  refine ⟨hnamed, fun ps qs m n hm hn hdev hino => ?_⟩
  exact DirEntries.walk_key_injective h hm hn (Prod.ext hdev hino)

def pathOf (ps : List Bytes) : Bytes := ps.flatMap (SLASH :: ·)

def uriText (x : List Bytes × Bool) : Bytes := pathOf x.1 ++ if x.2 then [SLASH] else []

@[simp] theorem pathOf_nil : pathOf [] = [] := rfl

theorem pathOf_snoc (ps : List Bytes) (name : Bytes) :
    pathOf (ps ++ [name]) = pathOf ps ++ SLASH :: name := by
  simp [pathOf]

theorem pathOf_eq_pathText {ps : List Bytes} (h : ps ≠ []) : pathOf ps = pathText ps := by
  induction ps with
  | nil => exact absurd rfl h
  | cons name ps ih =>
    cases ps with
    | nil => simp [pathOf, pathText]
    | cons name' ps =>
      have hrest := ih (by simp)
      rw [pathText, List.intercalate_cons_cons, List.append_assoc, List.singleton_append]
      rw [pathText] at hrest
      rw [← hrest]
      rfl

variable {ps qs : List Bytes}

theorem components_pathOf (h : ∀ s ∈ ps, NameOk s) : components (pathOf ps) = ps := by
  unfold components
  have hself : ps.filter (· ≠ []) = ps := by
    rw [List.filter_eq_self]
    intro s hs
    simpa using (h s hs).nonempty
  by_cases hnil : ps = []
  · subst hnil
    rfl
  · have htail := splitOn_pathText fun s hs => (h s hs).noSlash
    rw [if_neg hnil] at htail
    rw [pathOf_eq_pathText hnil]
    obtain ⟨hd, tl, hsplit⟩ := exists_splitOn_slash (pathText ps)
    have hhd : hd = [] := by
      rw [pathText, splitOn_slash_cons] at hsplit
      exact (List.cons.inj hsplit).1.symm
    rw [hsplit, List.tail_cons] at htail
    rw [hsplit, htail, hhd]
    simpa using hself

theorem pathOf_head? (h : ps ≠ []) : (pathOf ps).head? = some SLASH := by
  rw [pathOf_eq_pathText h]
  rfl

theorem pathOf_getLast? (h : ∀ s ∈ ps, NameOk s) : (pathOf ps).getLast? ≠ some SLASH := by
  cases ps using List.reverseRecOn with
  | nil => simp
  | append_singleton ps name _ =>
    have hname := h name (by simp)
    rw [pathOf_snoc]
    intro hlast
    obtain ⟨c, s, hs⟩ := List.exists_cons_of_ne_nil hname.nonempty
    rw [hs, List.getLast?_append, List.getLast?_cons_cons] at hlast
    have hmem : SLASH ∈ name := by
      rw [hs]
      apply List.mem_of_getLast?
      cases hl : (c :: s).getLast? with
      | none => simp at hl
      | some x => simpa [hl] using hlast
    exact hname.noSlash hmem

/-- `path_splice` of a directory and an entry of it. -/
theorem pathSplice_name (h : ∀ s ∈ ps, NameOk s) {name : Bytes} (hname : NameOk name) :
    pathSplice (pathOf ps) name = pathOf (ps ++ [name]) := by
  have hhead : name.head? ≠ some SLASH := fun hs => hname.noSlash (List.mem_of_mem_head? hs)
  rw [pathSplice, if_neg (not_or.mpr ⟨pathOf_getLast? h, hhead⟩), pathOf_snoc]

theorem pathSplice_slash (u : Bytes) : pathSplice u [SLASH] = u ++ [SLASH] := by
  simp [pathSplice]

theorem pathSplice_page (ps : List Bytes) (page : Bytes) :
    pathSplice (pathOf ps ++ [SLASH]) page = pathOf (ps ++ [page]) := by
  simp [pathSplice, pathOf_snoc]

/-- `webroot_lookup` of a path below the base directory. -/
theorem pathSplice_base (base : Bytes) (h : ps ≠ []) :
    pathSplice base (pathOf ps) = base ++ pathOf ps := by
  simp [pathSplice, pathOf_head? h]

section tree

variable {base : Bytes} {t : Tree}

theorem nodeAt_append (h : ∀ s ∈ ps, NameOk s) : nodeAt base t (base ++ pathOf ps) = t.walk ps := by
  simp [nodeAt, components_pathOf h]

theorem nodeAt_base : nodeAt base t (pathSplice base []) = t.walk [] := by
  unfold pathSplice
  split_ifs
  · have hhere : nodeAt base t (base ++ pathOf []) = t.walk [] := nodeAt_append (by simp)
    simpa using hhere
  · simp only [nodeAt, List.isPrefixOf_iff_prefix, List.prefix_append, if_true, List.drop_left]
    rfl

/-- What `webroot_lookup` makes of a path is found where the path leads. -/
theorem nodeAt_lookup (h : ∀ s ∈ ps, NameOk s) :
    nodeAt base t (pathSplice base (pathOf ps)) = t.walk ps := by
  by_cases hnil : ps = []
  · subst hnil
    exact nodeAt_base
  · rw [pathSplice_base base hnil, nodeAt_append h]

end tree

theorem nameOk_of_mem_indexPages {page : Bytes} (h : page ∈ indexPages) : NameOk page := by
  simp only [indexPages, List.mem_cons, List.not_mem_nil, or_false] at h
  obtain rfl | rfl := h
  · exact ⟨by decide, by decide, by decide, by decide⟩
  · exact ⟨by decide, by decide, by decide, by decide⟩

theorem not_skipped {name : Bytes} (h : NameOk name) : skipped name = false := by
  have hdot : name ≠ [DOT] := by
    rintro rfl
    exact h.noDot rfl
  have hdots : name ≠ [DOT, DOT] := by
    rintro rfl
    exact h.noDot rfl
  simp [skipped, hdot, hdots, h.noDot]

theorem pathOf_injective (hp : ∀ s ∈ ps, NameOk s) (hq : ∀ s ∈ qs, NameOk s)
    (h : pathOf ps = pathOf qs) : ps = qs := by
  rw [← components_pathOf hp, h, components_pathOf hq]

/-- Different paths have different URIs, and so have a path and the same with a last slash. -/
theorem uriText_injective {x y : List Bytes × Bool} (hx : ∀ s ∈ x.1, NameOk s)
    (hy : ∀ s ∈ y.1, NameOk s) (h : uriText x = uriText y) : x = y := by
  obtain ⟨ps, b⟩ := x
  obtain ⟨qs, b'⟩ := y
  have hmixed : ∀ {ps qs : List Bytes}, (∀ s ∈ qs, NameOk s) → pathOf ps ++ [SLASH] ≠ pathOf qs := by
    intro ps qs hqs heq
    have hlast := pathOf_getLast? hqs
    rw [← heq] at hlast
    simp at hlast
  cases b with
  | false =>
    cases b' with
    | false => exact Prod.ext (pathOf_injective hx hy (by simpa [uriText] using h)) rfl
    | true => exact absurd (by simpa [uriText] using h.symm) (hmixed hx)
  | true =>
    cases b' with
    | false => exact absurd (by simpa [uriText] using h) (hmixed hy)
    | true => exact Prod.ext (pathOf_injective hx hy (by simpa [uriText] using h)) rfl

theorem nul_not_mem_uriText {x : List Bytes × Bool} (hx : ∀ s ∈ x.1, NameOk s) :
    0 ∉ uriText x := by
  intro hmem
  rcases List.mem_append.mp hmem with hmem | hmem
  · obtain ⟨s, hs, hc⟩ := List.mem_flatMap.mp hmem
    cases hc with
    | tail _ hc => exact (hx s hs).noNul hc
  · split_ifs at hmem
    · exact absurd hmem (by decide)
    · exact nomatch hmem

end Ashttpd.Mkroot
