import Ashttpd.LinkedPaths
import Ashttpd.PublishedUris

/-!
# The list of URIs that `mkroot` builds its trie from

A scan of a tree links every path once, and `sort_uris` puts the links in the order that
`trie_new` relies on, as long as `r_num_uri` can count them.
-/
namespace Ashttpd.Mkroot

variable {base : Bytes} {magic : Bytes → Bytes} {t : Tree} {a : Attrs} {es : DirEntries Attrs}
  {r r' : Webroot} {links : List (List Bytes × Bool)}

def IsUri (t : Tree) (u : Bytes) : Prop :=
  ∃ ps n, t.walk ps = some n ∧ (ps ≠ [] ∧ u = pathOf ps ∨ n.IsDir ∧ u = pathOf ps ++ [SLASH])

def treeLinks (es : DirEntries Attrs) : List (List Bytes × Bool) := ([], true) :: es.links []

theorem Scannable.mem_treeLinks (h : Scannable a es) {ps : List Bytes} {b : Bool} :
    (ps, b) ∈ treeLinks es ↔ ∃ n, (DirNode.dir a es).walk ps = some n ∧
      (b = false → ps ≠ []) ∧ (b = true → n.IsDir) := by
  rw [treeLinks, List.mem_cons, h.named.mem_links_iff]
  constructor
  · rintro (heq | ⟨name, n, hmem, rest, m, hwalk, hb, rfl⟩)
    · obtain ⟨rfl, rfl⟩ := Prod.mk.inj heq
      exact ⟨.dir a es, rfl, by simp, fun _ => trivial⟩
    · refine ⟨m, ?_, by simp, hb⟩
      rw [List.nil_append, DirNode.walk, h.named.find_iff.mpr hmem]
      exact hwalk
  · rintro ⟨n, hwalk, hnil, hb⟩
    cases ps with
    | nil =>
      cases b with
      | true => exact .inl rfl
      | false => exact absurd rfl (hnil rfl)
    | cons name ps =>
      obtain ⟨m, hfind, hrest⟩ := Option.bind_eq_some_iff.mp hwalk
      exact .inr ⟨name, m, DirEntries.mem_of_find hfind, ps, n, hrest, hb, rfl⟩

theorem Scannable.nodup_treeLinks (h : Scannable a es) : (treeLinks es).Nodup := by
  refine List.nodup_cons.mpr ⟨fun hmem => ?_, h.named.nodup_links []⟩
  obtain ⟨name, n, -, rest, m, -, -, heq⟩ := h.named.mem_links_iff.mp hmem
  exact nomatch heq

theorem Scannable.names_of_mem (h : Scannable a es) {x : List Bytes × Bool}
    (hx : x ∈ treeLinks es) : ∀ s ∈ x.1, NameOk s := by
  obtain ⟨n, hwalk, -⟩ := h.mem_treeLinks.mp hx
  exact (h.named.walk hwalk).1

theorem Scannable.nodup_uris (h : Scannable a es) : ((treeLinks es).map uriText).Nodup := by
  refine h.nodup_treeLinks.map_on ?_
  intro x hx y hy hxy
  exact uriText_injective (h.names_of_mem hx) (h.names_of_mem hy) hxy

theorem Scannable.mem_uris (h : Scannable a es) {u : Bytes} :
    u ∈ (treeLinks es).map uriText ↔ IsUri (.dir a es) u := by
  constructor
  · intro hu
    obtain ⟨⟨ps, b⟩, hx, rfl⟩ := List.mem_map.mp hu
    obtain ⟨n, hwalk, hnil, hdir⟩ := h.mem_treeLinks.mp hx
    cases b with
    | false => exact ⟨ps, n, hwalk, .inl ⟨hnil rfl, by simp [uriText]⟩⟩
    | true => exact ⟨ps, n, hwalk, .inr ⟨hdir rfl, rfl⟩⟩
  · rintro ⟨ps, n, hwalk, ⟨hnil, rfl⟩ | ⟨hdir, rfl⟩⟩
    · refine List.mem_map.mpr ⟨(ps, false), h.mem_treeLinks.mpr ⟨n, hwalk, fun _ => hnil, ?_⟩, ?_⟩
      · simp
      · simp [uriText]
    · exact List.mem_map.mpr ⟨(ps, true), h.mem_treeLinks.mpr ⟨n, hwalk, by simp, fun _ => hdir⟩, rfl⟩

theorem uriText_ne_nil (h : Scannable a es) {x : List Bytes × Bool} (hx : x ∈ treeLinks es) :
    uriText x ≠ [] := by
  obtain ⟨ps, b⟩ := x
  obtain ⟨n, -, hnil, -⟩ := h.mem_treeLinks.mp hx
  cases b with
  | false =>
    rw [uriText, pathOf_eq_pathText (hnil rfl)]
    simp [pathText]
  | true => simp [uriText]

/-- `scan_item` for the base directory goes through and links the whole tree. -/
theorem Scannable.scan (h : Scannable a es) (base : Bytes) (magic : Bytes → Bytes) {depth : ℕ}
    (hdepth : es.height < depth) :
    ∃ r, scanItem (treeFs base magic (.dir a es)) depth (webrootNew base) [] [] = .ok (some r) ∧
      Adds base magic (.dir a es) (webrootNew base) r (treeLinks es) := by
  have hs : Sound base magic (.dir a es) (webrootNew base) := ⟨rfl, by simp [webrootNew]⟩
  have hn : (DirNode.dir a es).walk [] = some (.dir a es) := rfl
  have hnode : nodeAt base (.dir a es) (webrootLookup (webrootNew base) []) = some (.dir a es) :=
    nodeAt_base
  obtain ⟨d, rfl⟩ := Nat.exists_eq_succ_of_ne_zero (show depth ≠ 0 by omega)
  obtain ⟨r₁, hindex, hadds₁⟩ := addIndex_adds h.inodes hs hn (by simp) hnode
  have hbelow : ∀ x ∈ es.toList, (DirNode.dir a es).walk ([] ++ [x.1]) = some x.2 := by
    intro x hx
    rw [DirNode.walk_snoc hn, h.named.find_iff]
    exact hx
  obtain ⟨r₂, hloop, hadds₂⟩ := scanEntries_adds h.inodes h.named (show es.height ≤ d by omega)
    hadds₁.sound (by simp) hbelow
  refine ⟨r₂, ?_, hadds₁.append hadds₂⟩
  unfold scanItem
  simp only [lstat_treeFs hnode, treeStat, Attrs.stat, pathSplice_slash]
  simp only [Attrs.stat, pathOf_nil] at hindex hloop
  simp only [hindex, if_true, scanDir_treeFs hnode, hloop]

theorem Adds.map_uri (h : Adds base magic t (webrootNew base) r links) :
    r.rUri.map Uri.uUri = links.map uriText := by
  obtain ⟨new, huris, hnew⟩ := h.uris
  rw [huris, webrootNew, List.nil_append]
  clear huris h
  induction hnew with
  | nil => rfl
  | cons hx _ ih => rw [List.map_cons, List.map_cons, hx.1, ih]

theorem Adds.serves (h : Adds base magic t (webrootNew base) r links) {u : Uri}
    (hu : u ∈ r.rUri) : ∃ x ∈ links, u.uUri = uriText x ∧ Serves base magic t r x u.uObj := by
  obtain ⟨new, huris, hnew⟩ := h.uris
  rw [huris, webrootNew, List.nil_append] at hu
  clear huris h
  induction hnew with
  | nil => exact nomatch hu
  | @cons x v links new hx _ ih =>
    cases hu with
    | head => exact ⟨x, List.mem_cons_self, hx⟩
    | tail _ hu =>
      obtain ⟨y, hy, huy⟩ := ih hu
      exact ⟨y, List.mem_cons_of_mem _ hy, huy⟩

theorem strcmp_comm (s t : Bytes) : strcmp t s = -strcmp s t := by
  induction s generalizing t with
  | nil =>
    cases t with
    | nil => rfl
    | cons b t => simp [strcmp]
  | cons a s ih =>
    cases t with
    | nil => simp [strcmp]
    | cons b t =>
      by_cases hab : a = b
      · simp [strcmp, hab, ih]
      · have hba : b ≠ a := fun h => hab h.symm
        simp [strcmp, hab, hba]

theorem strcmp_nonpos_iff {s t : Bytes} (hs : 0 ∉ s) : strcmp s t ≤ 0 ↔ s ≤ t := by
  rw [← List.not_lt, ← strcmp_neg_iff hs, strcmp_comm s t]
  omega

/-- `sort_uris` puts different C strings in strictly increasing order. -/
theorem sortUris_sorted (hcount : r.rNumUri.toNat = r.rUri.length)
    (hnodup : (r.rUri.map Uri.uUri).Nodup) (hnul : ∀ u ∈ r.rUri, 0 ∉ u.uUri) :
    ∃ r', sortUris r = .ok r' ∧ r'.rUri.Perm r.rUri ∧ r'.rRedirect = r.rRedirect ∧
      r'.rFile = r.rFile ∧ r'.rUri.Pairwise fun u v => strcmp u.uUri v.uUri < 0 := by
  unfold sortUris
  rw [if_neg (by omega), if_neg (by omega)]
  have hperm := List.mergeSort_perm r.rUri fun u v => strcmp u.uUri v.uUri ≤ 0
  refine ⟨_, rfl, hperm, rfl, rfl, ?_⟩
  have hmap : (r.rUri.mergeSort fun u v => strcmp u.uUri v.uUri ≤ 0).map Uri.uUri =
      (r.rUri.map Uri.uUri).mergeSort fun s t => s ≤ t := by
    apply List.map_mergeSort
    intro u hu v hv
    simp only [strcmp_nonpos_iff (hnul u hu)]
  have hsorted : ((r.rUri.map Uri.uUri).mergeSort fun s t => s ≤ t).Pairwise fun s t => s ≤ t := by
    have h : ((r.rUri.map Uri.uUri).mergeSort fun s t => s ≤ t).Pairwise
        fun s t => decide (s ≤ t) = true := by
      apply List.pairwise_mergeSort
      · intro s t u h h'
        simpa using List.le_trans (by simpa using h) (by simpa using h')
      · intro s t
        simpa using List.le_total s t
    simpa using h
  rw [← hmap, List.pairwise_map] at hsorted
  have hdistinct : (r.rUri.mergeSort fun u v => strcmp u.uUri v.uUri ≤ 0).Pairwise
      fun u v => u.uUri ≠ v.uUri := by
    rw [← List.pairwise_map (R := fun s t : Bytes => s ≠ t)]
    exact (hperm.map Uri.uUri).nodup_iff.mpr hnodup
  refine (hsorted.and hdistinct).imp_of_mem ?_
  intro u v hu hv ⟨hle, hne⟩
  rw [strcmp_neg_iff (hnul v (hperm.mem_iff.mp hv))]
  by_contra hlt
  exact hne (List.le_antisymm hle (List.not_lt.mp hlt))

/-- Without a slot for every URI `sort_uris` writes behind its array. -/
theorem sortUris_overflow (h : r.rNumUri.toNat < r.rUri.length) :
    sortUris r = .error .outOfRange := by
  rw [sortUris, if_pos h]

theorem Adds.length (h : Adds base magic t (webrootNew base) r links) :
    r.rUri.length = links.length := by
  simpa using congrArg List.length h.map_uri

/-- `r_num_uri` is the number of links as far as it can be counted. -/
theorem Adds.rNumUri (h : Adds base magic t (webrootNew base) r links) :
    r.rNumUri.toNat = links.length % 2 ^ 32 := by
  rw [h.count]
  simp [webrootNew]

/-- With fewer than `2 ^ 32` links the list can be sorted, and is fit for `trie_new`. -/
theorem Adds.sorted_list (h : Scannable a es) (hadds : Adds base magic (.dir a es) (webrootNew base) r (treeLinks es))
    (hfew : (treeLinks es).length < 2 ^ 32) : ∃ r', sortUris r = .ok r' ∧ r'.rUri.Perm r.rUri ∧
      r'.rRedirect = r.rRedirect ∧ r'.rFile = r.rFile ∧ UriList (trieEntries r') ∧ trieEntries r' ≠ [] := by
  have hcount : r.rNumUri.toNat = r.rUri.length := by
    rw [hadds.rNumUri, hadds.length, Nat.mod_eq_of_lt hfew]
  have hnodup : (r.rUri.map Uri.uUri).Nodup := by
    rw [hadds.map_uri]
    exact h.nodup_uris
  have htext : ∀ u ∈ r.rUri, ∃ x ∈ treeLinks es, u.uUri = uriText x := by
    intro u hu
    obtain ⟨x, hx, hux, -⟩ := hadds.serves hu
    exact ⟨x, hx, hux⟩
  obtain ⟨r', hsort, hperm, hredirect, hfile, hsorted⟩ := sortUris_sorted hcount hnodup fun u hu => by
    obtain ⟨x, hx, hux⟩ := htext u hu
    rw [hux]
    exact nul_not_mem_uriText (h.names_of_mem hx)
  refine ⟨r', hsort, hperm, hredirect, hfile, ⟨?_, ?_, ?_⟩, ?_⟩
  · intro e he
    obtain ⟨u, hu, rfl⟩ := List.mem_map.mp he
    obtain ⟨x, hx, hux⟩ := htext u (hperm.mem_iff.mp hu)
    exact hux ▸ uriText_ne_nil h hx
  · intro e he
    obtain ⟨u, hu, rfl⟩ := List.mem_map.mp he
    obtain ⟨x, hx, hux⟩ := htext u (hperm.mem_iff.mp hu)
    exact hux ▸ nul_not_mem_uriText (h.names_of_mem hx)
  · rw [trieEntries, List.pairwise_map]
    exact hsorted
  · have hlen : 0 < r'.rUri.length := by
      rw [hperm.length_eq, hadds.length]
      exact Nat.succ_pos _
    simpa [trieEntries] using List.length_pos_iff.mp hlen

/-- Each path of a tree is linked once and leads where it should: that of a file to the object with
its device, inode, size and time, that of a directory to a redirect, and that with a last slash to
the index page or the listing. With fewer than `2 ^ 32` of them the sorted list is fit for
`trie_new`. -/
theorem mkroot_links_once (h : Scannable a es) (base : Bytes) (magic : Bytes → Bytes) (depth : ℕ)
    (hdepth : es.height < depth) :
    ∃ r, scanItem (treeFs base magic (.dir a es)) depth (webrootNew base) [] [] = .ok (some r) ∧
      (r.rUri.map Uri.uUri).Nodup ∧
      (∀ u, u ∈ r.rUri.map Uri.uUri ↔ IsUri (.dir a es) u) ∧
      (∀ u ∈ r.rUri, ∃ x, u.uUri = uriText x ∧ Serves base magic (.dir a es) r x u.uObj) ∧
      ((treeLinks es).length < 2 ^ 32 → ∃ r', sortUris r = .ok r' ∧ r'.rUri.Perm r.rUri ∧
        r'.rRedirect = r.rRedirect ∧ r'.rFile = r.rFile ∧
        UriList (trieEntries r') ∧ trieEntries r' ≠ []) := by
  obtain ⟨r, hscan, hadds⟩ := h.scan base magic hdepth
  have hnodup : (r.rUri.map Uri.uUri).Nodup := by
    rw [hadds.map_uri]
    exact h.nodup_uris
  refine ⟨r, hscan, hnodup, fun u => by rw [hadds.map_uri, h.mem_uris], fun u hu => ?_,
    hadds.sorted_list h⟩
  obtain ⟨x, -, hx⟩ := hadds.serves hu
  exact ⟨x, hx⟩

/-- What is linked is what a client can ask for: names between slashes. -/
theorem IsUri.published (h : Scannable a es) {u : Bytes} (hu : IsUri (.dir a es) u) :
    ∃ names, Published u names := by
  obtain ⟨ps, n, hwalk, hu⟩ := hu
  have hnames := (h.named.walk hwalk).1
  refine ⟨ps, ?_, fun s hs => ?_⟩
  · obtain ⟨hnil, rfl⟩ | ⟨-, rfl⟩ := hu
    · exact .inl (pathOf_eq_pathText hnil)
    · by_cases hnil : ps = []
      · subst hnil
        exact .inl rfl
      · right
        rw [← pathOf_eq_pathText (by simp), pathOf_snoc]
  · have hname := hnames s hs
    refine ⟨hname.nonempty, hname.noNul, hname.noSlash, ?_, ?_⟩
    · rintro rfl
      exact hname.noDot rfl
    · rintro rfl
      exact hname.noDot rfl

/-- A name of eight letters that tells a number below `2 ^ 32`. -/
def flatName (k : ℕ) : Bytes := (List.range 8).map fun i => UInt8.ofNat (97 + k / 16 ^ i % 16)

/-- The last `n` files of a directory without directories. -/
def flatEntries : ℕ → DirEntries Attrs
  | 0 => .nil
  | k + 1 => .file (flatName k) ⟨0, UInt64.ofNat (k + 1), 0, 0⟩ (flatEntries k)

def flatRoot : Attrs := ⟨0, 0, 0, 0⟩

private theorem mod_pow_eq_of_digits {b n j k : ℕ} (h : ∀ i < n, j / b ^ i % b = k / b ^ i % b) : j % b ^ n = k % b ^ n := by
  induction n with
  | zero => rw [Nat.pow_zero, Nat.mod_one, Nat.mod_one]
  | succ n ih =>
    have hlow := ih fun i hi => h i (Nat.lt_succ_of_lt hi)
    rw [Nat.mod_pow_succ, Nat.mod_pow_succ, hlow, h n (Nat.lt_succ_self n)]

theorem flatName_injective {j k : ℕ} (hj : j < 2 ^ 32) (hk : k < 2 ^ 32)
    (h : flatName j = flatName k) : j = k := by
  have hdigit : ∀ i < 8, j / 16 ^ i % 16 = k / 16 ^ i % 16 := by
    intro i hi
    have hbyte := congrArg (fun l : Bytes => l[i]?) h
    simp only [flatName, List.getElem?_map, List.getElem?_range hi, Option.map_some,
      Option.some.injEq] at hbyte
    have hnat := congrArg UInt8.toNat hbyte
    simp only [UInt8.toNat_ofNat'] at hnat
    omega
  have hmod := mod_pow_eq_of_digits hdigit
  have hsize : 16 ^ 8 = 2 ^ 32 := by decide
  rwa [hsize, Nat.mod_eq_of_lt hj, Nat.mod_eq_of_lt hk] at hmod

theorem nameOk_flatName (k : ℕ) : NameOk (flatName k) := by
  have hletter : ∀ c ∈ flatName k, 97 ≤ c.toNat := by
    intro c hc
    obtain ⟨i, -, rfl⟩ := List.mem_map.mp hc
    simp only [UInt8.toNat_ofNat']
    omega
  refine ⟨by simp [flatName], fun h => ?_, fun h => ?_, fun h => ?_⟩
  · exact absurd (hletter _ h) (by decide)
  · exact absurd (hletter _ h) (by decide)
  · exact absurd (hletter _ (List.mem_of_mem_head? h)) (by decide)

theorem mem_flatEntries {n : ℕ} {name : Bytes} {m : Tree} (h : (name, m) ∈ (flatEntries n).toList) :
    ∃ k < n, name = flatName k ∧ m = .file ⟨0, UInt64.ofNat (k + 1), 0, 0⟩ := by
  induction n with
  | zero => exact nomatch h
  | succ n ih =>
    rw [flatEntries, DirEntries.toList, List.mem_cons, Prod.mk.injEq] at h
    obtain ⟨rfl, rfl⟩ | h := h
    · exact ⟨n, Nat.lt_succ_self n, rfl, rfl⟩
    · obtain ⟨k, hk, hname⟩ := ih h
      exact ⟨k, Nat.lt_succ_of_lt hk, hname⟩

theorem length_links_flatEntries (n : ℕ) : ((flatEntries n).links []).length = n := by
  induction n with
  | zero => rfl
  | succ n ih => simp [flatEntries, DirEntries.links, ih]

theorem height_flatEntries (n : ℕ) : (flatEntries n).height ≤ 1 := by
  induction n with
  | zero => exact Nat.zero_le 1
  | succ n ih => simpa [flatEntries, DirEntries.height] using ih

theorem flatEntries_named {n : ℕ} (hn : n < 2 ^ 32) : (flatEntries n).WellNamed NameOk := by
  induction n with
  | zero => trivial
  | succ n ih =>
    refine ⟨nameOk_flatName n, fun hmem => ?_, ih (by omega)⟩
    obtain ⟨⟨name, m⟩, hin, hname⟩ := List.mem_map.mp hmem
    obtain ⟨k, hk, rfl, -⟩ := mem_flatEntries hin
    have heq := flatName_injective (by omega) (by omega) hname
    omega

theorem mem_stats_flatEntries {n : ℕ} (hn : n < 2 ^ 32) {s : Attrs} (h : s ∈ (flatEntries n).stats) :
    0 < s.ino.toNat ∧ s.ino.toNat ≤ n := by
  induction n with
  | zero => cases h
  | succ n ih =>
    rcases List.mem_cons.mp h with rfl | h
    · simp only [UInt64.toNat_ofNat']
      omega
    · obtain ⟨hpos, hle⟩ := ih (by omega) h
      exact ⟨hpos, hle.trans (Nat.le_succ n)⟩

theorem flatEntries_scannable {n : ℕ} (hn : n < 2 ^ 32) : Scannable flatRoot (flatEntries n) := by
  refine scannable_of_nodup (flatEntries_named hn) (List.Nodup.of_map (fun s => s.2.toNat) ?_)
  rw [List.map_map, List.map_cons, List.nodup_cons]
  constructor
  · intro hmem
    obtain ⟨s, hs, hzero⟩ := List.mem_map.mp hmem
    exact absurd hzero (mem_stats_flatEntries hn hs).1.ne'
  · induction n with
    | zero => exact List.nodup_nil
    | succ n ih =>
      rw [flatEntries, DirEntries.stats, List.map_cons, List.nodup_cons]
      refine ⟨fun hmem => ?_, ih (by omega)⟩
      obtain ⟨s, hs, heq⟩ := List.mem_map.mp hmem
      have hle := (mem_stats_flatEntries (by omega) hs).2
      simp only [Function.comp_apply, UInt64.toNat_ofNat'] at heq
      omega

/-- With `2 ^ 32` URIs the counter has gone round to zero and the array has no slots. -/
theorem flat_uncounted {n : ℕ} (hn : n + 1 = 2 ^ 32) (base : Bytes) (magic : Bytes → Bytes) :
    ∃ r, scanItem (treeFs base magic (.dir flatRoot (flatEntries n))) 2 (webrootNew base) [] [] =
      .ok (some r) ∧ sortUris r = .error .outOfRange := by
  have h := flatEntries_scannable (show n < 2 ^ 32 by omega)
  have hdepth : (flatEntries n).height < 2 := Nat.lt_succ_of_le (height_flatEntries n)
  obtain ⟨r, hscan, hadds⟩ := h.scan base magic hdepth
  have hlinks : (treeLinks (flatEntries n)).length = 2 ^ 32 := by
    rw [treeLinks, List.length_cons, length_links_flatEntries, hn]
  refine ⟨r, hscan, sortUris_overflow ?_⟩
  rw [hadds.rNumUri, hadds.length, hlinks]
  decide

/-- A file, and a directory with an index page and another file. -/
def nestedEntries : DirEntries Attrs :=
  .dir [100] ⟨0, 2, 0, 0⟩
    (.file (ascii "index.html") ⟨0, 3, 7, 5⟩ (.file [98] ⟨0, 4, 0, 1⟩ .nil))
    (.file [97] ⟨0, 5, 0, 2⟩ .nil)

def nestedRoot : Attrs := ⟨0, 1, 0, 0⟩

theorem nestedEntries_scannable : Scannable nestedRoot nestedEntries := by
  refine scannable_of_nodup ?_ (by decide)
  have hok : ∀ name ∈ [[97], [98], [100], ascii "index.html"], NameOk name := by
    simp only [List.forall_mem_cons]
    exact ⟨⟨by decide, by decide, by decide, by decide⟩, ⟨by decide, by decide, by decide, by decide⟩,
      ⟨by decide, by decide, by decide, by decide⟩, ⟨by decide, by decide, by decide, by decide⟩, by simp⟩
  exact ⟨hok _ (by decide), by decide, ⟨hok _ (by decide), by decide, hok _ (by decide), by decide, trivial⟩,
    hok _ (by decide), by decide, trivial⟩

/-- There the URI of the inner directory is linked to its index page. -/
theorem mkroot_links_once_nested : ∃ r r', scanItem (treeFs [] id (.dir nestedRoot nestedEntries)) 3
    (webrootNew []) [] [] = .ok (some r) ∧ (r.rUri.map Uri.uUri).Nodup ∧
    (∃ u i o, u ∈ r.rUri ∧ u.uUri = ascii "/d/" ∧ u.uObj = .file i ∧ r.rFile[i]? = some o ∧
      o.content = .path (some (ascii "/d/index.html"))) ∧
    sortUris r = .ok r' ∧ UriList (trieEntries r') ∧ trieEntries r' ≠ [] := by
  obtain ⟨r, hscan, hnodup, huris, hserves, hsort⟩ := mkroot_links_once nestedEntries_scannable [] id 3 (by decide)
  obtain ⟨r', hr', -, -, -, hlist, hne⟩ := hsort (by decide)
  refine ⟨r, r', hscan, hnodup, ?_, hr', hlist, hne⟩
  have hinner : ascii "/d/" ∈ r.rUri.map Uri.uUri := (huris _).mpr ⟨[[100]], _, rfl, .inr ⟨trivial, by decide⟩⟩
  obtain ⟨u, hu, huri⟩ := List.mem_map.mp hinner
  obtain ⟨x, hx, hobj⟩ := hserves u hu
  obtain ⟨n, hn⟩ := hobj.walk
  have hnames := (nestedEntries_scannable.named.walk hn).1
  have hd : (DirNode.dir nestedRoot nestedEntries).walk [[100]] = some (.dir ⟨0, 2, 0, 0⟩
      (.file (ascii "index.html") ⟨0, 3, 7, 5⟩ (.file [98] ⟨0, 4, 0, 1⟩ .nil))) := rfl
  obtain rfl : x = ([[100]], true) :=
    uriText_injective hnames (nestedEntries_scannable.named.walk hd).1 (hx.symm.trans (huri.trans (by decide)))
  generalize hobjEq : u.uObj = obj at hobj
  cases hobj with
  | page h hpage hi ho =>
    obtain ⟨-, rfl⟩ := DirNode.dir.inj (Option.some.inj (hd.symm.trans h))
    obtain ⟨rfl, rfl⟩ := Prod.mk.inj (Option.some.inj hpage)
    obtain ⟨-, -, -, -, hcontent, -⟩ := ho
    exact ⟨u, _, _, hu, huri, hobjEq, hi, hcontent.trans (by decide)⟩
  | listing h hpage =>
    obtain ⟨-, rfl⟩ := DirNode.dir.inj (Option.some.inj (hd.symm.trans h))
    cases hpage

/-- A directory of `2 ^ 32 - 1` files, all in order, cannot be sorted. -/
theorem mkroot_uncounted : Scannable flatRoot (flatEntries (2 ^ 32 - 1)) ∧
    ∃ r, scanItem (treeFs [] id (.dir flatRoot (flatEntries (2 ^ 32 - 1)))) 2 (webrootNew []) [] [] =
      .ok (some r) ∧ sortUris r = .error .outOfRange :=
  ⟨flatEntries_scannable (by decide), flat_uncounted (by decide) [] id⟩

end Ashttpd.Mkroot
