import Ashttpd.Mkroot
import Ashttpd.Outcomes

/-!
# What holds of the objects after any scan

Whatever the file system answers, the counters tell how long the lists are, a file has one of the
types of the mime table, a redirect has a target that is not empty, and a URI refers to an object.
-/
namespace Ashttpd.Mkroot

variable {fs : FileSystem} {r r' r'' : Webroot} {obj : ObjRef} {i : ℕ}

/-- The object is in the lists. -/
def ObjRef.In (r : Webroot) : ObjRef → Prop
  | .redirect i => i < r.rRedirect.length
  | .file i => i < r.rFile.length

instance (r : Webroot) : (obj : ObjRef) → Decidable (obj.In r)
  | .redirect i => inferInstanceAs (Decidable (i < r.rRedirect.length))
  | .file i => inferInstanceAs (Decidable (i < r.rFile.length))

/-- The counters tell how long the lists are. -/
structure Counted (r : Webroot) : Prop where
  numUri : r.rNumUri = UInt32.ofNat r.rUri.length
  numRedirect : r.rNumRedirect = UInt32.ofNat r.rRedirect.length
  numFile : r.rNumFile = UInt32.ofNat r.rFile.length

/-- The type of every file is in the table. -/
def Typed (r : Webroot) : Prop := ∀ o ∈ r.rFile, ∃ t ∈ r.rMimeType, o.type = some t

/-- The invariant, but for the type of the file object that is being made. -/
structure ConsistentBut (r : Webroot) (made : Option ℕ) : Prop extends Counted r where
  typed : ∀ i o, r.rFile[i]? = some o → made ≠ some i → ∃ t ∈ r.rMimeType, o.type = some t
  targets : ∀ o ∈ r.rRedirect, o.uri ≠ some []
  refs : ∀ u ∈ r.rUri, u.uObj.In r

abbrev Consistent (r : Webroot) : Prop := ConsistentBut r none

theorem Consistent.allTyped (h : Consistent r) : Typed r := by
  intro o ho
  obtain ⟨i, hi⟩ := List.mem_iff_getElem?.mp ho
  exact h.typed i o hi nofun

/-- Objects stay where they are. -/
structure Grows (r r' : Webroot) : Prop where
  redirects : r.rRedirect.length ≤ r'.rRedirect.length
  files : r.rFile.length ≤ r'.rFile.length

theorem Grows.refl (r : Webroot) : Grows r r := ⟨Nat.le_refl _, Nat.le_refl _⟩

theorem Grows.trans (h : Grows r r') (h' : Grows r' r'') : Grows r r'' :=
  ⟨h.redirects.trans h'.redirects, h.files.trans h'.files⟩

theorem ObjRef.In.grows (h : obj.In r) (hg : Grows r r') : obj.In r' := by
  cases obj with
  | redirect i => exact Nat.lt_of_lt_of_le h hg.redirects
  | file i => exact Nat.lt_of_lt_of_le h hg.files

private theorem ofNat_succ (n : ℕ) : UInt32.ofNat n + 1 = UInt32.ofNat (n + 1) := (UInt32.ofNat_add n 1).symm

theorem webrootNew_counted (base : Bytes) : Counted (webrootNew base) := ⟨rfl, rfl, rfl⟩

namespace Counted

theorem link (h : Counted r) (link : Bytes) (obj : ObjRef) : Counted (webrootLink r link obj) := by
  refine ⟨?_, h.numRedirect, h.numFile⟩
  show r.rNumUri + 1 = UInt32.ofNat (r.rUri ++ [_]).length
  rw [h.numUri, ofNat_succ, List.length_append]
  rfl

theorem redirect (h : Counted r) (o : RedirectObject) :
    Counted { r with rRedirect := r.rRedirect ++ [o], rNumRedirect := r.rNumRedirect + 1 } := by
  refine ⟨h.numUri, ?_, h.numFile⟩
  show r.rNumRedirect + 1 = UInt32.ofNat (r.rRedirect ++ [o]).length
  rw [h.numRedirect, ofNat_succ, List.length_append]
  rfl

theorem objFile (h : Counted r) (dev ino : UInt64) (mtime : ℤ) (size : ℕ) :
    Counted (Mkroot.objFile r dev ino mtime size).1 := by
  unfold Mkroot.objFile
  split
  · exact h
  · refine ⟨h.numUri, h.numRedirect, ?_⟩
    show r.rNumFile + 1 = UInt32.ofNat (r.rFile ++ [_]).length
    rw [h.numFile, ofNat_succ, List.length_append]
    rfl

theorem setFile (h : Counted r) (i : ℕ) (f : FileObject → FileObject) : Counted (r.setFile i f) := by
  refine ⟨h.numUri, h.numRedirect, ?_⟩
  show r.rNumFile = UInt32.ofNat (r.rFile.modify i f).length
  rw [List.length_modify, h.numFile]

theorem mimeAdd (h : Counted r) (mime : Bytes) : Counted (Mkroot.mimeAdd r mime) := by
  unfold Mkroot.mimeAdd
  split
  · exact h
  · exact ⟨h.numUri, h.numRedirect, h.numFile⟩

theorem tcPrintf (h : Counted r) (text : Bytes) : Counted (Mkroot.tcPrintf r text) :=
  ⟨h.numUri, h.numRedirect, h.numFile⟩

end Counted

theorem webrootNew_consistent (base : Bytes) : Consistent (webrootNew base) := by
  refine ⟨webrootNew_counted base, ?_, ?_, ?_⟩
  · intro i o h
    cases h
  · intro o h
    cases h
  · intro u h
    cases h

theorem Consistent.link (h : Consistent r) (link : Bytes) (hobj : obj.In r) : Consistent (webrootLink r link obj) := by
  refine ⟨h.toCounted.link link obj, h.typed, h.targets, ?_⟩
  intro u hu
  rcases List.mem_append.mp hu with hu | hu
  · exact h.refs u hu
  · rw [List.mem_singleton] at hu
    rw [hu]
    exact hobj

/-- One more redirect or code. -/
theorem Consistent.redirect (h : Consistent r) {o : RedirectObject} (ho : o.uri ≠ some []) :
    let r' := { r with rRedirect := r.rRedirect ++ [o], rNumRedirect := r.rNumRedirect + 1 }
    Consistent r' ∧ Grows r r' ∧ (ObjRef.redirect r.rRedirect.length).In r' := by
  have hlen : (r.rRedirect ++ [o]).length = r.rRedirect.length + 1 := List.length_append
  have hgrows : Grows r { r with rRedirect := r.rRedirect ++ [o], rNumRedirect := r.rNumRedirect + 1 } :=
    ⟨hlen ▸ Nat.le_succ _, Nat.le_refl _⟩
  refine ⟨⟨h.toCounted.redirect o, h.typed, ?_, fun u hu => (h.refs u hu).grows hgrows⟩, hgrows, ?_⟩
  · intro x hx
    rcases List.mem_append.mp hx with hx | hx
    · exact h.targets x hx
    · rw [List.mem_singleton] at hx
      rwa [hx]
  · show r.rRedirect.length < (r.rRedirect ++ [o]).length
    omega

theorem objFile_consistent (h : Consistent r) (dev ino : UInt64) (mtime : ℤ) (size : ℕ) :
    ConsistentBut (objFile r dev ino mtime size).1 (some (objFile r dev ino mtime size).2) ∧
      Grows r (objFile r dev ino mtime size).1 ∧
      (objFile r dev ino mtime size).2 < (objFile r dev ino mtime size).1.rFile.length := by
  have hcounted := h.toCounted.objFile dev ino mtime size
  unfold objFile at hcounted ⊢
  cases hfind : r.rFile.findIdx? fun o => dev = o.dev ∧ ino = o.ino with
  | some i =>
    refine ⟨⟨h.toCounted, fun j o ho _ => h.typed j o ho nofun, h.targets, h.refs⟩, Grows.refl r, ?_⟩
    exact (List.findIdx?_eq_some_iff_findIdx_eq.mp hfind).1
  | none =>
    rw [hfind] at hcounted
    generalize (⟨none, .path none, size, dev, ino, mtime⟩ : FileObject) = new at hcounted
    have hlen : (r.rFile ++ [new]).length = r.rFile.length + 1 := List.length_append
    have hgrows : Grows r { r with rFile := r.rFile ++ [new], rNumFile := r.rNumFile + 1 } :=
      ⟨Nat.le_refl _, hlen ▸ Nat.le_succ _⟩
    refine ⟨⟨hcounted, ?_, h.targets, fun u hu => (h.refs u hu).grows hgrows⟩, hgrows, ?_⟩
    · intro j o ho hne
      have hj : j ≠ r.rFile.length := fun heq => hne (heq ▸ rfl)
      refine h.typed j o ?_ nofun
      have hlt := (List.getElem?_eq_some_iff.mp ho).1
      rw [hlen] at hlt
      rwa [List.getElem?_append_left (by omega)] at ho
    · show r.rFile.length < (r.rFile ++ [_]).length
      omega

/-- Assigning to the object that is being made. -/
theorem ConsistentBut.setFile (h : ConsistentBut r (some i)) (f : FileObject → FileObject) :
    ConsistentBut (r.setFile i f) (some i) := by
  have hlen : (r.rFile.modify i f).length = r.rFile.length := List.length_modify ..
  refine ⟨h.toCounted.setFile i f, ?_, h.targets, ?_⟩
  · intro j o ho hne
    have hj : i ≠ j := fun heq => hne (heq ▸ rfl)
    refine h.typed j o ?_ hne
    rw [← ho]
    exact (List.getElem?_modify_ne _ _ hj).symm
  · intro u hu
    exact (h.refs u hu).grows ⟨Nat.le_refl _, hlen.ge⟩

theorem mimeAdd_mem (r : Webroot) (mime : Bytes) : mime ∈ (mimeAdd r mime).rMimeType := by
  unfold mimeAdd
  split
  · assumption
  · exact List.mem_cons_self

/-- With its type the object is made. -/
theorem ConsistentBut.setType (h : ConsistentBut r (some i)) (mime : Bytes) :
    Consistent ((mimeAdd r mime).setFile i fun o => { o with type := some mime }) := by
  have hadd : ∃ types, mimeAdd r mime = { r with rMimeType := types } ∧ ∀ t ∈ r.rMimeType, t ∈ types := by
    unfold mimeAdd
    split
    · exact ⟨r.rMimeType, rfl, fun _ => id⟩
    · exact ⟨mime :: r.rMimeType, rfl, fun _ => List.mem_cons_of_mem mime⟩
  have hmem := mimeAdd_mem r mime
  obtain ⟨types, hadd, hsub⟩ := hadd
  rw [hadd] at hmem ⊢
  have hadded : ConsistentBut { r with rMimeType := types } (some i) := by
    refine ⟨⟨h.numUri, h.numRedirect, h.numFile⟩, ?_, h.targets, h.refs⟩
    intro j o ho hne
    obtain ⟨t, ht, hty⟩ := h.typed j o ho hne
    exact ⟨t, hsub t ht, hty⟩
  obtain ⟨hcounted, htyped, htargets, hrefs⟩ := hadded.setFile fun o => { o with type := some mime }
  refine ⟨hcounted, ?_, htargets, hrefs⟩
  intro j o ho _
  by_cases hj : i = j
  · refine ⟨mime, hmem, ?_⟩
    rw [← hj] at ho
    have hget : (r.rFile.modify i fun o => { o with type := some mime })[i]? = some o := ho
    rw [List.getElem?_modify_eq, Option.map_eq_map, Option.map_eq_some_iff] at hget
    obtain ⟨o', -, rfl⟩ := hget
    rfl
  · exact htyped j o ho fun heq => hj (Option.some.inj heq)

theorem setFile_grows (r : Webroot) (i : ℕ) (f : FileObject → FileObject) : Grows r (r.setFile i f) :=
  ⟨Nat.le_refl _, (List.length_modify ..).ge⟩

theorem mimeAdd_grows (r : Webroot) (mime : Bytes) : Grows r (mimeAdd r mime) := by
  unfold mimeAdd
  split
  · exact Grows.refl r
  · exact ⟨Nat.le_refl _, Nat.le_refl _⟩

/-- A step of the scan that makes an object. -/
structure Makes (r r' : Webroot) (obj : ObjRef) : Prop where
  consistent : Consistent r'
  grows : Grows r r'
  isIn : obj.In r'

theorem objFilePath_makes (h : Consistent r) (path : Bytes) (dev ino : UInt64) (mtime : ℤ) (size : ℕ) :
    Makes r (objFilePath fs r path dev ino mtime size).1 (objFilePath fs r path dev ino mtime size).2 := by
  obtain ⟨hmade, hgrows, hlt⟩ := objFile_consistent h dev ino mtime size
  unfold objFilePath
  generalize objFile r dev ino mtime size = x at hmade hgrows hlt
  obtain ⟨r₁, i⟩ := x
  dsimp only at hmade hgrows hlt ⊢
  have hset := setFile_grows r₁ i fun o => { o with content := .path (some path) }
  have hadd := mimeAdd_grows (r₁.setFile i fun o => { o with content := .path (some path) }) (fs.magicFile path)
  have hall := (hset.trans hadd).trans (setFile_grows _ i fun o => { o with type := some (fs.magicFile path) })
  exact ⟨(hmade.setFile _).setType _, hgrows.trans hall, Nat.lt_of_lt_of_le hlt hall.files⟩

theorem tcPrintf_consistent (h : Consistent r) (text : Bytes) : Consistent (tcPrintf r text) :=
  ⟨h.toCounted.tcPrintf text, h.typed, h.targets, h.refs⟩

/-- The size of a listing is assigned when its object is whole. -/
theorem Consistent.setSize (h : Consistent r) (i size : ℕ) :
    Consistent (r.setFile i fun o => { o with size := size }) := by
  have hmade : ConsistentBut r (some i) :=
    ⟨h.toCounted, fun j o ho _ => h.typed j o ho nofun, h.targets, h.refs⟩
  obtain ⟨hcounted, htyped, htargets, hrefs⟩ := hmade.setFile fun o => { o with size := size }
  refine ⟨hcounted, ?_, htargets, hrefs⟩
  intro j o ho _
  by_cases hj : i = j
  · rw [← hj] at ho
    have hget : (r.rFile.modify i fun o => { o with size := size })[i]? = some o := ho
    rw [List.getElem?_modify_eq, Option.map_eq_map, Option.map_eq_some_iff] at hget
    obtain ⟨o', ho', rfl⟩ := hget
    exact h.typed i o' ho' nofun
  · exact htyped j o ho fun heq => hj (Option.some.inj heq)

/-- A step of the scan that leaves no object to be linked. -/
structure Scans (r r' : Webroot) : Prop where
  consistent : Consistent r'
  grows : Grows r r'

theorem Scans.trans (h : Scans r r') (h' : Scans r' r'') : Scans r r'' := ⟨h'.consistent, h.grows.trans h'.grows⟩

theorem Makes.link (h : Makes r r' obj) (link : Bytes) : Scans r (webrootLink r' link obj) :=
  ⟨h.consistent.link link h.isIn, h.grows.trans ⟨Nat.le_refl _, Nat.le_refl _⟩⟩

theorem objFileTmpchunks_makes (h : Consistent r) (mime : Bytes) (dev ino : UInt64) (mtime : ℤ) :
    Makes r (objFileTmpchunks r mime dev ino mtime).1 (.file (objFileTmpchunks r mime dev ino mtime).2) := by
  obtain ⟨hmade, hgrows, hlt⟩ := objFile_consistent h dev ino mtime 0
  unfold objFileTmpchunks
  generalize objFile r dev ino mtime 0 = x at hmade hgrows hlt
  obtain ⟨r₁, i⟩ := x
  dsimp only at hmade hgrows hlt ⊢
  have hset := setFile_grows r₁ i fun o => { o with content := .tmpchunk r₁.rTmpoff }
  have hadd := mimeAdd_grows (r₁.setFile i fun o => { o with content := .tmpchunk r₁.rTmpoff }) mime
  have hall := (hset.trans hadd).trans (setFile_grows _ i fun o => { o with type := some mime })
  exact ⟨(hmade.setFile _).setType _, hgrows.trans hall, Nat.lt_of_lt_of_le hlt hall.files⟩

private theorem chunks_makes (h : Makes r r' obj) (f : Bytes → Bytes) (names : List Bytes) :
    Makes r (names.foldl (fun r name => tcPrintf r (f name)) r') obj := by
  induction names generalizing r' with
  | nil => exact h
  | cons name names ih =>
    have hgrows : Grows r' (tcPrintf r' (f name)) := ⟨Nat.le_refl _, Nat.le_refl _⟩
    exact ih ⟨tcPrintf_consistent h.consistent _, h.grows.trans hgrows, h.isIn.grows hgrows⟩

theorem indexDir_makes (h : Consistent r) {st : Stat} {path u : Bytes} (hrun : indexDir fs r st path u = some (r', obj)) :
    Makes r r' obj := by
  have hmade := objFileTmpchunks_makes h (ascii "text/html") st.stDev st.stIno st.stMtime
  unfold indexDir at hrun
  generalize objFileTmpchunks r (ascii "text/html") st.stDev st.stIno st.stMtime = x at hmade hrun
  obtain ⟨r₁, i⟩ := x
  dsimp only at hmade hrun
  cases hnames : fs.readdir path with
  | none =>
    rw [hnames] at hrun
    cases hrun
  | some names =>
    rw [hnames] at hrun
    have hhead := chunks_makes hmade listingHead [u]
    have hlisted := chunks_makes hhead (listingEntry u) (names.filter fun name => !skipped name)
    cases hrun
    have hgrows := setFile_grows ((names.filter fun name => !skipped name).foldl
      (fun r name => tcPrintf r (listingEntry u name)) (tcPrintf r₁ (listingHead u))) i
    exact ⟨hlisted.consistent.setSize _ _, hlisted.grows.trans (hgrows _), hlisted.isIn.grows (hgrows _)⟩

/-- What the search for an index page leaves. -/
def Tried (r r' : Webroot) : Option ObjRef → Prop
  | none => r' = r
  | some obj => Makes r r' obj

theorem tryPages_tried (h : Consistent r) {u : Bytes} {pages : List Bytes} {found : Option ObjRef}
    (hrun : tryPages fs u r pages = some (r', found)) : Tried r r' found := by
  induction pages with
  | nil =>
    cases hrun
    rfl
  | cons page pages ih =>
    rw [tryPages] at hrun
    unfold tryIndex at hrun
    dsimp only at hrun
    cases hst : fs.stat (webrootLookup r (pathSplice u page)) with
    | error e =>
      rw [hst] at hrun
      cases e with
      | enoent => exact ih hrun
      | other => cases hrun
    | ok st =>
      rw [hst] at hrun
      dsimp only at hrun
      cases hmode : st.stMode with
      | reg =>
        rw [hmode] at hrun
        cases hrun
        exact objFilePath_makes h _ _ _ _ _
      | dir =>
        rw [hmode] at hrun
        exact ih hrun
      | lnk =>
        rw [hmode] at hrun
        exact ih hrun
      | other =>
        rw [hmode] at hrun
        exact ih hrun

theorem addIndex_scans (h : Consistent r) {st : Stat} {path u : Bytes} (hrun : addIndex fs r st path u = some r') :
    Scans r r' := by
  unfold addIndex at hrun
  cases htry : tryPages fs u r indexPages with
  | none =>
    rw [htry] at hrun
    cases hrun
  | some x =>
    obtain ⟨r₁, found⟩ := x
    have htried := tryPages_tried h htry
    rw [htry] at hrun
    cases found with
    | some obj =>
      cases hrun
      exact Makes.link htried u
    | none =>
      obtain rfl : r₁ = r := htried
      rw [indexdirs] at hrun
      dsimp only at hrun
      rw [if_pos rfl, Option.map_eq_some_iff] at hrun
      obtain ⟨⟨r₂, obj⟩, hindex, rfl⟩ := hrun
      exact (indexDir_makes h hindex).link u

theorem pathSplice_ne_nil (dir path : Bytes) : pathSplice dir path ≠ [] := by
  unfold pathSplice
  split
  · next hslash =>
    rcases hslash with hslash | hslash
    · cases dir with
      | nil => cases hslash
      | cons c dir => exact nofun
    · cases path with
      | nil => cases hslash
      | cons c path => exact fun heq => nomatch (List.append_eq_nil_iff.mp heq).2
  · exact fun heq => nomatch (List.append_eq_nil_iff.mp heq).2

theorem objRedirect_makes (h : Consistent r) {path : Bytes} (hpath : path ≠ []) :
    Makes r (objRedirect r path).1 (objRedirect r path).2 := by
  obtain ⟨hconsistent, hgrows, hin⟩ := h.redirect (o := ⟨some path, 0⟩) fun heq => hpath (Option.some.inj heq)
  exact ⟨hconsistent, hgrows, hin⟩

/-- The rule for the loop of `scan_dir`. -/
theorem scanEntries_scans {item : Webroot → Bytes → Bytes → Except Fault (Option Webroot)} {dir : Bytes}
    (hitem : ∀ r r' u, Consistent r → item r dir u = .ok (some r') → Scans r r') {names : List Bytes}
    (h : Consistent r) (hrun : scanEntries item dir r names = .ok (some r')) : Scans r r' := by
  induction names generalizing r with
  | nil =>
    cases hrun
    exact ⟨h, Grows.refl _⟩
  | cons name names ih =>
    rw [scanEntries] at hrun
    by_cases hskip : skipped name
    · rw [if_pos hskip] at hrun
      exact ih h hrun
    · rw [if_neg hskip] at hrun
      cases hone : item r dir (pathSplice dir name) with
      | error f =>
        rw [hone] at hrun
        cases hrun
      | ok res =>
        rw [hone] at hrun
        cases res with
        | none => cases hrun
        | some r₁ =>
          have hfirst := hitem _ _ _ h hone
          exact hfirst.trans (ih hfirst.consistent hrun)

theorem scanDir_scans {item : Webroot → Bytes → Bytes → Except Fault (Option Webroot)} {dir path : Bytes}
    (hitem : ∀ r r' u, Consistent r → item r dir u = .ok (some r') → Scans r r')
    (h : Consistent r) (hrun : scanDir fs item r dir path = .ok (some r')) : Scans r r' := by
  unfold scanDir at hrun
  cases hnames : fs.readdir path with
  | none =>
    rw [hnames] at hrun
    cases hrun
  | some names =>
    rw [hnames] at hrun
    exact scanEntries_scans hitem h hrun

/-- `scan_item` keeps the invariant, whatever it finds. -/
theorem scanItem_scans (depth : ℕ) (r r' : Webroot) (dir u : Bytes) (h : Consistent r)
    (hrun : scanItem fs depth r dir u = .ok (some r')) : Scans r r' := by
  induction depth generalizing r r' dir u with
  | zero => cases hrun
  | succ depth ih =>
    rw [scanItem] at hrun
    dsimp only at hrun
    cases hst : fs.lstat (webrootLookup r u) with
    | error e =>
      rw [hst] at hrun
      cases hrun
    | ok st =>
      rw [hst] at hrun
      dsimp only at hrun
      cases hmode : st.stMode with
      | other =>
        rw [hmode] at hrun
        cases hrun
        exact ⟨h, Grows.refl r⟩
      | reg =>
        rw [hmode] at hrun
        cases hrun
        exact (objFilePath_makes h _ _ _ _ _).link u
      | lnk =>
        rw [hmode] at hrun
        cases hlink : fs.readlink (webrootLookup r u) with
        | none =>
          rw [hlink] at hrun
          cases hrun
        | some buf =>
          rw [hlink] at hrun
          cases hrun
          exact (objRedirect_makes h (pathSplice_ne_nil dir buf)).link u
      | dir =>
        rw [hmode] at hrun
        dsimp only at hrun
        cases hindex : addIndex fs r st (webrootLookup r u) (pathSplice u [SLASH]) with
        | none =>
          rw [hindex] at hrun
          cases hrun
        | some r₁ =>
          rw [hindex] at hrun
          dsimp only at hrun
          have hindexed := addIndex_scans h hindex
          by_cases hroot : u = []
          · rw [if_pos hroot] at hrun
            exact hindexed.trans (scanDir_scans (fun r r' v => ih r r' u v) hindexed.consistent hrun)
          · rw [if_neg hroot] at hrun
            have hmade := objRedirect_makes hindexed.consistent (pathSplice_ne_nil u [SLASH])
            obtain ⟨res, hscan, hres⟩ := map_eq_ok_iff.mp hrun
            rw [Option.map_eq_some_iff] at hres
            obtain ⟨r₂, rfl, rfl⟩ := hres
            have hscanned := scanDir_scans (fun r r' v => ih r r' u v) hmade.consistent hscan
            have hlinked : Makes r r₂ (objRedirect r₁ (pathSplice u [SLASH])).2 :=
              ⟨hscanned.consistent, (hindexed.grows.trans hmade.grows).trans hscanned.grows,
                hmade.isIn.grows hscanned.grows⟩
            exact hlinked.link u

end Ashttpd.Mkroot
