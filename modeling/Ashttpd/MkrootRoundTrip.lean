import Ashttpd.WebrootReading

/-!
# The objects of a scan in a webroot file

`do_mkroot` behind any scan, on any file system and with a kernel that cuts reads and writes as it
likes: if it succeeds, then the file it closes holds every object.
-/
namespace Ashttpd.Mkroot

variable {fs : FileSystem} {r r' : Webroot} {p : Prepared} {k : Kernel} {image : Bytes}

/-- `sort_uris` only puts the URIs in another order. -/
theorem sortUris_eq (h : sortUris r = .ok r') : ∃ uris, uris.Perm r.rUri ∧ r' = { r with rUri := uris } := by
  unfold sortUris at h
  split_ifs at h
  cases h
  exact ⟨_, List.mergeSort_perm _ _, rfl⟩

theorem Counted.sort (h : Counted r) {uris : List Uri} (hperm : uris.Perm r.rUri) : Counted { r with rUri := uris } :=
  ⟨by rw [hperm.length_eq]; exact h.numUri, h.numRedirect, h.numFile⟩

/-- What `webroot_prep` has done when it returns 1. -/
structure Preps (r r' : Webroot) (t : Trie) : Prop where
  sorted : sortUris r = .ok r'
  trie : trieNew allocOk (trieEntries r') = .ok (some t)

/-- In order as they are, the URIs are what the trie is made of. -/
theorem preps_of_sorted {t : Trie} (ents : List TrieEntry) (hcount : r.rNumUri = UInt32.ofNat r.rUri.length)
    (hfew : r.rUri.length < 2 ^ 32) (hsorted : r.rUri.Pairwise fun u v => decide (strcmp u.uUri v.uUri ≤ 0))
    (hents : trieEntries r = ents) (htrie : trieNew allocOk ents = .ok (some t)) : Preps r r t := by
  refine ⟨?_, hents ▸ htrie⟩
  have hnum : r.rNumUri.toNat = r.rUri.length := by
    rw [hcount, UInt32.toNat_ofNat', Nat.mod_eq_of_lt (by omega)]
  rw [sortUris, if_neg (by omega), if_neg (by omega), List.mergeSort_of_pairwise hsorted]

theorem buildImage_preps {buf : Mem} {answers : List WriteAnswer}
    (h : buildImage k r buf answers = .ok (some (p, image))) :
    ∃ r' t, Preps r r' t ∧ p = layOut r' t ∧
      webrootWrite k (layOut r' t) (fobufNew buf BUFFER_SIZE answers) = .ok (some image) := by
  unfold buildImage at h
  obtain ⟨prepared, hprep, h⟩ := bind_eq_ok_iff.mp h
  unfold webrootPrep at hprep
  cases hsort : sortUris r with
  | error f =>
    rw [hsort] at hprep
    cases hprep
  | ok r' =>
    rw [hsort] at hprep
    dsimp only at hprep
    cases htrie : trieNew allocOk (trieEntries r') with
    | error f =>
      rw [htrie] at hprep
      cases hprep
    | ok t =>
      rw [htrie] at hprep
      cases t with
      | none =>
        cases hprep
        cases h
      | some t =>
        cases hprep
        dsimp only at h
        obtain ⟨written, hwrite, h⟩ := bind_eq_ok_iff.mp h
        cases written with
        | none => cases h
        | some written =>
          cases h
          exact ⟨r', t, ⟨hsort, htrie⟩, rfl, hwrite⟩

theorem Preps.indexed {t : Trie} (h : Preps r r' t) (hr : Counted r) (hsmall : indexSize r t < 2 ^ 32) :
    Indexed r' t := by
  obtain ⟨uris, hperm, rfl⟩ := sortUris_eq h.sorted
  exact ⟨hr.sort hperm, trieNew_counts h.trie, hsmall⟩

/-- A scan makes no redirect to nowhere. -/
theorem Preps.kept {t : Trie} (h : Preps r r' t) (hr : Consistent r) : ∀ x ∈ (layOut r' t).redirects, ¬ Lost x := by
  intro x hx hlost
  obtain ⟨uris, -, rfl⟩ := sortUris_eq h.sorted
  have hmem : x.1 ∈ r.rRedirect := by
    rw [← layOut_redirects { r with rUri := uris } t]
    exact List.mem_map_of_mem hx
  exact hr.targets x.1 hmem hlost.1

/-- A file with the objects of a scan in it. -/
structure Holds (k : Kernel) (r : Webroot) (image : Bytes) (w : Ashttpd.Webroot) (off : ℕ → ℕ) : Prop where
  opened : webrootOpen image = some w
  redirect : ∀ i o, r.rRedirect[i]? = some o → webrootObject w (oid r (.redirect i)) = .ok (some o.name)
  file : ∀ i o, r.rFile[i]? = some o → ∃ type, o.type = some type ∧
    webrootObject w (oid r (.file i)) = .ok (some ⟨some type,
      .data (off i) o.size (UInt32.ofInt o.mtime) (Fips180.sha1 (fileContent k r o)), HTTP_FOUND⟩) ∧
    Readable k r o ∧ (image.drop (off i)).take o.size = fileContent k r o
  apart : ∀ i j o, i < j → j < r.rFile.length → r.rFile[i]? = some o → off i + o.size ≤ off j

theorem contents_length (h : ∀ o ∈ r.rFile, Readable k r o) :
    (r.rFile.flatMap (fileContent k r)).length = (r.rFile.map FileObject.size).sum := by
  rw [List.length_flatMap]
  exact congrArg List.sum (List.map_congr_left fun o ho => (h o ho).length)

/-- The file that is written is the index and the contents, one behind the other. -/
theorem Preps.image_length {t : Trie} (h : Preps r r' t) (hr : Counted r) (hsmall : indexSize r t < 2 ^ 32) {buf : Mem}
    {answers : List WriteAnswer}
    (hwrite : webrootWrite k (layOut r' t) (fobufNew buf BUFFER_SIZE answers) = .ok (some image)) :
    image.length = indexSize r t + (r.rFile.map FileObject.size).sum := by
  have hindexed := h.indexed hr hsmall
  obtain ⟨uris, -, rfl⟩ := sortUris_eq h.sorted
  obtain ⟨hfits, hreadable, wfs, hrecords, rfl⟩ := webrootWrite_image hindexed hwrite
  have hcount : wfs.length = r.rFile.length := by
    rw [← hrecords.length_eq, layOut_files_length]
  rw [List.length_append, indexBytes_length hfits, contents_length hreadable]
  · rfl
  · rw [length_flatMap_of_length fun wf _ => fileBytes_length wf, hcount, WEBROOT_FILE_SZ, Nat.mul_comm]

theorem Preps.outputSize {t : Trie} (h : Preps r r' t) (hr : Counted r) (hsmall : indexSize r t < 2 ^ 32) {buf : Mem}
    {answers : List WriteAnswer}
    (hwrite : webrootWrite k (layOut r' t) (fobufNew buf BUFFER_SIZE answers) = .ok (some image))
    (hlength : image.length < 2 ^ 64) : image.length = (webrootOutputSize (layOut r' t)).toNat := by
  have hlen := h.image_length hr hsmall hwrite
  have hindexed := h.indexed hr hsmall
  obtain ⟨uris, -, rfl⟩ := sortUris_eq h.sorted
  exact hlen.trans (hindexed.outputSize (hlen ▸ hlength)).symm

/-- A file that is written for a webroot with the right counts holds its objects. -/
theorem Preps.holds {t : Trie} (h : Preps r r' t) (hr : Counted r)
    (hkept : ∀ x ∈ (layOut r' t).redirects, ¬ Lost x) (hsmall : indexSize r t < 2 ^ 32)
    {buf : Mem} {answers : List WriteAnswer}
    (hwrite : webrootWrite k (layOut r' t) (fobufNew buf BUFFER_SIZE answers) = .ok (some image))
    (hlength : image.length < 2 ^ 64) :
    (∀ e ∈ t.rBfsOrder, Fits e) ∧
      ∃ wfs off, webrootOpen image = some (imageWebroot r' t k.pad wfs) ∧
        Holds k r image (imageWebroot r' t k.pad wfs) off := by
  have hindexed := h.indexed hr hsmall
  have hlen := h.image_length hr hsmall hwrite
  obtain ⟨uris, hperm, rfl⟩ := sortUris_eq h.sorted
  obtain ⟨hfits, hreadable, wfs, hrecords, rfl⟩ := webrootWrite_image hindexed hwrite
  have hsizes : ∀ o ∈ r.rFile, (fileContent k r o).length = o.size := fun o ho => (hreadable o ho).length
  have hcontents := contents_length (r := r) hreadable
  have hcount : wfs.length = r.rFile.length := by
    rw [← hrecords.length_eq, layOut_files_length]
  have hopen := webrootOpen_image k.pad hindexed hfits hcount
    (r.rFile.flatMap (fileContent k { r with rUri := uris }))
  have htotal' : indexSize { r with rUri := uris } t +
      (r.rFile.flatMap (fileContent k { r with rUri := uris })).length < 2 ^ 64 := by
    show indexSize r t + (r.rFile.flatMap (fileContent k r)).length < 2 ^ 64
    rw [hcontents, ← hlen]
    exact hlength
  refine ⟨hfits, wfs,
    fun i => (((layOut { r with rUri := uris } t).files[i]?).map fun f => f.off.toNat).getD 0, hopen, hopen, ?_, ?_, ?_⟩
  · intro i o hi
    obtain ⟨x, hget, rfl⟩ := layOut_redirect_get t hi
    exact redirect_found hindexed hfits hrecords k.pad hget (hkept x (List.mem_of_getElem? hget))
  · intro i o hi
    obtain ⟨type, f, htype, hget, hobject, hbytes⟩ := file_found hindexed hfits hrecords k.pad hsizes htotal' hi
    refine ⟨type, htype, ?_, hreadable o (List.mem_of_getElem? hi), ?_⟩
    · rw [hget]
      exact hobject
    · rw [hget]
      exact hbytes
  · intro i j o hij hj hi
    have hpairs := (hindexed.files_placed hsizes htotal').2
    have hfiles := layOut_files_length { r with rUri := uris } t
    have hj' : j < (layOut { r with rUri := uris } t).files.length := hfiles ▸ hj
    have hi' : i < (layOut { r with rUri := uris } t).files.length := by omega
    have hobj : (layOut { r with rUri := uris } t).files[i].obj = o := by
      have hget : ((layOut { r with rUri := uris } t).files.map PlacedFile.obj)[i]? = some o := by
        rw [layOut_files]
        exact hi
      rw [List.getElem?_map, List.getElem?_eq_getElem hi'] at hget
      exact Option.some.inj hget
    have hpair := List.pairwise_iff_getElem.mp hpairs i j hi' hj' hij
    rw [List.getElem?_eq_getElem hi', List.getElem?_eq_getElem hj']
    rwa [hobj] at hpair

end Ashttpd.Mkroot
