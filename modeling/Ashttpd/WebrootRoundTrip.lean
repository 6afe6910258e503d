import Ashttpd.PublishedTrees

/-!
# Any webroot that can be built in a webroot file

The functions that make objects and link URIs to them, called in any order and with anything: what
`webroot_write` puts out is read back, but for a redirect to nowhere at the offset that stands for
no redirect.
-/
namespace Ashttpd.Mkroot

variable {base : Bytes} {r r' : Webroot} {t : Trie} {p : Prepared} {k : Kernel} {image : Bytes}

/-- A webroot as calls can leave it; the fields of a file object are assigned at will. -/
inductive Made (base : Bytes) : Webroot → Prop
  | new : Made base (webrootNew base)
  | link {r : Webroot} (h : Made base r) (link : Bytes) (obj : ObjRef) (hobj : obj.In r) :
      Made base (webrootLink r link obj)
  | redirect {r : Webroot} (h : Made base r) (path : Bytes) : Made base (objRedirect r path).1
  | code {r : Webroot} (h : Made base r) (code : ℤ) : Made base (objCode r code).1
  | file {r : Webroot} (h : Made base r) (dev ino : UInt64) (mtime : ℤ) (size : ℕ) :
      Made base (objFile r dev ino mtime size).1
  | setFile {r : Webroot} (h : Made base r) (i : ℕ) (f : FileObject → FileObject) : Made base (r.setFile i f)
  | mimeAdd {r : Webroot} (h : Made base r) (mime : Bytes) : Made base (mimeAdd r mime)
  | tcPrintf {r : Webroot} (h : Made base r) (text : Bytes) : Made base (tcPrintf r text)

theorem Made.counted (h : Made base r) : Counted r := by
  induction h with
  | new => exact webrootNew_counted base
  | link _ link obj _ ih => exact ih.link link obj
  | redirect _ path ih => exact ih.redirect _
  | code _ code ih => exact ih.redirect _
  | file _ dev ino mtime size ih => exact ih.objFile dev ino mtime size
  | setFile _ i f ih => exact ih.setFile i f
  | mimeAdd _ mime ih => exact ih.mimeAdd mime
  | tcPrintf _ text ih => exact ih.tcPrintf text

theorem Made.filePath (h : Made base r) (fs : FileSystem) (path : Bytes) (dev ino : UInt64) (mtime : ℤ) (size : ℕ) :
    Made base (objFilePath fs r path dev ino mtime size).1 :=
  (((h.file dev ino mtime size).setFile _ _).mimeAdd (fs.magicFile path)).setFile _ _

/-- A redirect that is lost is read as a code. -/
theorem buildImage_lost (hr : Counted r) {buf : Mem} {answers : List WriteAnswer}
    (hbuild : buildImage k r buf answers = .ok (some (p, image))) (hsmall : indexSize r p.rTrie < 2 ^ 32)
    {x : RedirectObject × UInt32} (hx : x ∈ p.redirects) (hlost : Lost x) : ¬ ∃ w off, Holds k r image w off := by
  rintro ⟨w, off, hholds⟩
  obtain ⟨r', t, hpreps, rfl, hwrite⟩ := buildImage_preps hbuild
  have hindexed := hpreps.indexed hr hsmall
  obtain ⟨uris, -, rfl⟩ := sortUris_eq hpreps.sorted
  obtain ⟨hfits, -, wfs, hrecords, rfl⟩ := webrootWrite_image hindexed hwrite
  have hcount : wfs.length = r.rFile.length := by
    rw [← hrecords.length_eq, layOut_files_length]
  obtain rfl := Option.some.inj ((webrootOpen_image k.pad hindexed hfits hcount _).symm.trans hholds.opened)
  obtain ⟨i, hget⟩ := List.mem_iff_getElem?.mp hx
  have hi : r.rRedirect[i]? = some x.1 := by
    show ({ r with rUri := uris } : Webroot).rRedirect[i]? = some x.1
    rw [← layOut_redirects { r with rUri := uris } t, List.getElem?_map, hget]
    rfl
  have hread : webrootObject (imageWebroot { r with rUri := uris } t k.pad wfs) (oid r (.redirect i)) =
      .ok (some ⟨none, .moved none, 0⟩) := redirect_lost hindexed k.pad hget hlost
  have hname := hholds.redirect i x.1 hi
  rw [RedirectObject.name, hlost.1] at hname
  cases hread.symm.trans hname

theorem buildImage_length (hr : Counted r) {buf : Mem} {answers : List WriteAnswer}
    (hbuild : buildImage k r buf answers = .ok (some (p, image))) (hsmall : indexSize r p.rTrie < 2 ^ 32) :
    image.length = indexSize r p.rTrie + (r.rFile.map FileObject.size).sum := by
  obtain ⟨r', t, hpreps, rfl, hwrite⟩ := buildImage_preps hbuild
  exact hpreps.image_length hr hsmall hwrite

/-- What is built with an index smaller than 4 GiB is read back as it was made, unless a redirect to
nowhere stands at the offset that means none. -/
theorem webroot_roundTrip {buf : Mem} {answers : List WriteAnswer} (hmade : Made base r)
    (hbuild : buildImage k r buf answers = .ok (some (p, image))) (hsmall : indexSize r p.rTrie < 2 ^ 32)
    (hlength : image.length < 2 ^ 64) :
    image.length = (webrootOutputSize p).toNat ∧
      ((∃ w off, Holds k r image w off) ↔ ∀ x ∈ p.redirects, ¬ Lost x) := by
  obtain ⟨r', t, hpreps, rfl, hwrite⟩ := buildImage_preps hbuild
  refine ⟨hpreps.outputSize hmade.counted hsmall hwrite hlength, ?_, ?_⟩
  · intro hholds x hx hlost
    exact buildImage_lost hmade.counted hbuild hsmall hx hlost hholds
  · intro hkept
    obtain ⟨-, wfs, off, -, hholds⟩ := hpreps.holds hmade.counted hkept hsmall hwrite hlength
    exact ⟨_, off, hholds⟩

section sample

/-- A file, a redirect and a code. -/
def sampleRoot : Webroot :=
  webrootLink (webrootLink (webrootLink
    (objCode (objRedirect (objFilePath shelfFs (webrootNew (ascii "/www")) (ascii "/www/a") 1 2 5000000 3).1
      (ascii "/x")).1 403).1
    (ascii "/") (.file 0)) (ascii "/a") (.redirect 0)) (ascii "/b") (.redirect 1)

theorem sampleRoot_made : Made (ascii "/www") sampleRoot := by
  have hobjects := (((.new : Made (ascii "/www") _).filePath shelfFs (ascii "/www/a") 1 2 5000000 3).redirect
    (ascii "/x")).code 403
  have hfile := hobjects.link (ascii "/") (.file 0) (by decide)
  have hredirect := hfile.link (ascii "/a") (.redirect 0) (by decide)
  exact hredirect.link (ascii "/b") (.redirect 1) (by decide)

def sampleTrie : Trie :=
  trieOf (.cons 1 [47] (some ⟨[47], 2⟩) (.cons 2 [97] (some ⟨[47, 97], 0⟩) .nil
    (.cons 3 [98] (some ⟨[47, 98], 1⟩) .nil .nil)) .nil)

theorem sampleRoot_preps : Preps sampleRoot sampleRoot sampleTrie :=
  preps_of_sorted [⟨[47], 2⟩, ⟨[47, 97], 0⟩, ⟨[47, 98], 1⟩] (by decide) (by decide) (by decide) (by decide)
    (by decide)

theorem sampleRoot_willing : shelfKernel.Willing sampleRoot := by
  have hfiles : ∀ o ∈ sampleRoot.rFile, o.content = .path (some (ascii "/www/a")) ∧ o.size = 3 := by decide
  refine ⟨rfl, rfl, rfl, ?_, ?_⟩
  · intro o ho
    obtain ⟨hcontent, hsize⟩ := hfiles o ho
    refine ⟨ascii "abc", ?_, hsize.le⟩
    rw [source, hcontent]
    decide
  · intro i o hi
    obtain ⟨-, hsize⟩ := hfiles o (List.mem_of_getElem? hi)
    refine ⟨?_, ?_⟩
    · intro a ha
      exact ⟨1000, by decide, List.eq_of_mem_replicate ha⟩
    · rw [shelfKernel, List.length_replicate, hsize]
      decide

theorem ones_willing (n : ℕ) : Willing n (List.replicate n (.wrote 1)) := by
  refine ⟨?_, ?_⟩
  · intro a ha
    rw [List.eq_of_mem_replicate ha]
    exact Nat.one_pos
  · rw [List.countP_replicate]
    exact Nat.le_refl _

theorem sampleRoot_builds : ∃ image, buildImage shelfKernel sampleRoot 0
    (List.replicate (writtenSize sampleRoot sampleTrie) (.wrote 1)) = .ok (some (layOut sampleRoot sampleTrie, image)) :=
  buildImage_succeeds (show ∀ o ∈ sampleRoot.rFile, ∃ type ∈ sampleRoot.rMimeType, o.type = some type by decide)
    sampleRoot_preps (by decide) sampleRoot_willing (ones_willing _)

theorem webroot_roundTrip_sample : ∃ image,
    buildImage shelfKernel sampleRoot 0 (List.replicate (writtenSize sampleRoot sampleTrie) (.wrote 1)) =
      .ok (some (layOut sampleRoot sampleTrie, image)) ∧
    image.length = (webrootOutputSize (layOut sampleRoot sampleTrie)).toNat ∧
    ∃ w off, Holds shelfKernel sampleRoot image w off := by
  obtain ⟨image, hbuild⟩ := sampleRoot_builds
  have hsmall : indexSize sampleRoot (layOut sampleRoot sampleTrie).rTrie < 2 ^ 32 := by decide +kernel
  have hsize : indexSize sampleRoot (layOut sampleRoot sampleTrie).rTrie +
      (sampleRoot.rFile.map FileObject.size).sum < 2 ^ 64 := by decide +kernel
  have hlength := buildImage_length sampleRoot_made.counted hbuild hsmall
  obtain ⟨houtput, hholds⟩ := webroot_roundTrip sampleRoot_made hbuild hsmall (hlength ▸ hsize)
  exact ⟨image, hbuild, houtput, hholds.mpr (by decide +kernel)⟩

end sample

section crowded

/-- A redirect with a long target, and behind it one to nowhere. -/
def crowdedRoot (text : Bytes) : Webroot :=
  webrootLink (webrootLink (objRedirect (objRedirect (webrootNew (ascii "/www")) text).1 []).1
    (ascii "/") (.redirect 0)) (ascii "/a") (.redirect 1)

variable (text : Bytes)

theorem crowdedRoot_made : Made (ascii "/www") (crowdedRoot text) := by
  have hobjects := ((.new : Made (ascii "/www") _).redirect text).redirect []
  have hlong := hobjects.link (ascii "/") (.redirect 0) (Nat.zero_lt_two)
  exact hlong.link (ascii "/a") (.redirect 1) (Nat.one_lt_two)

theorem crowdedRoot_preps : Preps (crowdedRoot text) (crowdedRoot text) indexTrie := by
  have huris : (crowdedRoot text).rUri = [⟨.redirect 0, [47]⟩, ⟨.redirect 1, [47, 97]⟩] := rfl
  refine preps_of_sorted [⟨[47], 0⟩, ⟨[47, 97], 1⟩] rfl ?_ ?_ rfl (by decide)
  · rw [huris]
    decide
  · rw [huris]
    decide

theorem crowdedRoot_size : indexSize (crowdedRoot text) indexTrie = 102 + text.length := by
  have htext : redirectText (crowdedRoot text) = text ++ ([] ++ []) := rfl
  rw [indexSize, htext, List.append_nil, List.append_nil]
  rfl

theorem crowdedRoot_builds : ∃ image, buildImage shelfKernel (crowdedRoot text) 0
    (List.replicate (writtenSize (crowdedRoot text) indexTrie) (.wrote 1)) =
      .ok (some (layOut (crowdedRoot text) indexTrie, image)) := by
  have hnone : ∀ o, o ∉ (crowdedRoot text).rFile := fun o => List.not_mem_nil
  refine buildImage_succeeds (fun o ho => absurd ho (hnone o)) (crowdedRoot_preps text) (by decide)
    ⟨rfl, rfl, rfl, fun o ho => absurd ho (hnone o), ?_⟩ (ones_willing _)
  intro i o hi
  exact absurd (List.mem_of_getElem? hi) (hnone o)

variable {text}

/-- The second redirect is at offset `0xffffffff`. -/
theorem crowdedRoot_lost (hlen : text.length = 4294967193) :
    ∃ x ∈ (layOut (crowdedRoot text) indexTrie).redirects, Lost x := by
  refine ⟨(⟨some [], 0⟩, (102 + UInt64.ofNat text.length).toUInt32), List.mem_cons_of_mem _ List.mem_cons_self, rfl, ?_⟩
  rw [hlen]
  decide

theorem crowdedRoot_not_held (hlen : text.length = 4294967193) : ∃ image,
    Made (ascii "/www") (crowdedRoot text) ∧
    buildImage shelfKernel (crowdedRoot text) 0 (List.replicate (writtenSize (crowdedRoot text) indexTrie) (.wrote 1)) =
      .ok (some (layOut (crowdedRoot text) indexTrie, image)) ∧
    indexSize (crowdedRoot text) indexTrie < 2 ^ 32 ∧ image.length < 2 ^ 64 ∧
    ¬ ∃ w off, Holds shelfKernel (crowdedRoot text) image w off := by
  have hmade := crowdedRoot_made text
  have hsize := crowdedRoot_size text
  have hsmall : indexSize (crowdedRoot text) indexTrie < 2 ^ 32 := by omega
  obtain ⟨image, hbuild⟩ := crowdedRoot_builds text
  have hlength := buildImage_length hmade.counted hbuild hsmall
  have hfiles : ((crowdedRoot text).rFile.map FileObject.size).sum = 0 := rfl
  refine ⟨image, hmade, hbuild, hsmall, ?_, ?_⟩
  · change image.length = indexSize (crowdedRoot text) indexTrie + _ at hlength
    omega
  · obtain ⟨x, hx, hlost⟩ := crowdedRoot_lost hlen
    exact buildImage_lost hmade.counted hbuild hsmall hx hlost

theorem webroot_roundTrip_crowded : ∃ image,
    Made (ascii "/www") (crowdedRoot (List.replicate 4294967193 97)) ∧
    buildImage shelfKernel (crowdedRoot (List.replicate 4294967193 97)) 0
        (List.replicate (writtenSize (crowdedRoot (List.replicate 4294967193 97)) indexTrie) (.wrote 1)) =
      .ok (some (layOut (crowdedRoot (List.replicate 4294967193 97)) indexTrie, image)) ∧
    indexSize (crowdedRoot (List.replicate 4294967193 97)) indexTrie < 2 ^ 32 ∧ image.length < 2 ^ 64 ∧
    ¬ ∃ w off, Holds shelfKernel (crowdedRoot (List.replicate 4294967193 97)) image w off :=
  crowdedRoot_not_held List.length_replicate

end crowded

end Ashttpd.Mkroot
