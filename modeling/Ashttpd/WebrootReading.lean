import Ashttpd.DamagedWebroots
import Ashttpd.WebrootImage

/-!
# A webroot file is read as it was written

`webroot_open` finds the sections by adding up sizes in the order in which `webroot_write` puts them
out, and what `webroot_find` makes of an object's number is the object that was given the number.
-/
namespace Ashttpd.Mkroot

variable {r : Webroot} {t : Trie} {k : Kernel} {pad : UInt32} {wfs : List WebrootFile} {contents : Bytes}

/-- The tables that were written, over the bytes of the index. -/
def imageWebroot (r : Webroot) (t : Trie) (pad : UInt32) (wfs : List WebrootFile) : Ashttpd.Webroot where
  rMap := indexBytes r t pad wfs
  rNumEdges := t.rNumEdges
  rNumRedirect := r.rNumRedirect
  rNumOid := r.rNumRedirect + r.rNumFile
  rTrie := dedges t
  rRedir := redirectRecords r t
  rFile := wfs

/-- The sections stand one behind the other. -/
theorem indexBytes_sections (hfits : ∀ e ∈ t.rBfsOrder, Fits e) (pad : UInt32) (wfs : List WebrootFile) {bs : Bytes}
    (h : (bytesAt bs).slice 0 (indexBytes r t pad wfs).length = indexBytes r t pad wfs) :
    (bytesAt bs).slice 0 WEBROOT_HDR_SZ = hdrBytes (header (layOut r t)) pad ∧
    (bytesAt bs).slice 32 ((dedges t).flatMap dedgeBytes).length = (dedges t).flatMap dedgeBytes ∧
    (bytesAt bs).slice (32 + 18 * t.rBfsOrder.length) ((redirectRecords r t).flatMap redirectBytes).length =
      (redirectRecords r t).flatMap redirectBytes ∧
    (bytesAt bs).slice (32 + 18 * t.rBfsOrder.length + 8 * r.rRedirect.length) (wfs.flatMap fileBytes).length =
      wfs.flatMap fileBytes := by
  unfold indexBytes indexHead at h
  obtain ⟨h, -⟩ := slice_append_iff.mp h
  obtain ⟨h, hfiles⟩ := slice_append_iff.mp h
  obtain ⟨h, hredirects⟩ := slice_append_iff.mp h
  obtain ⟨hheader, htrie⟩ := slice_append_iff.mp h
  have hhead := indexHead_length (r := r) hfits pad
  rw [indexHead] at hhead
  rw [hhead, Nat.zero_add] at hfiles
  rw [List.length_append, hdrBytes_length, (dedges_length hfits).2, Nat.zero_add] at hredirects
  rw [hdrBytes_length] at hheader htrie
  exact ⟨hheader, htrie, hredirects, hfiles⟩

/-- The index in front of some contents is accepted, and its tables are read back. -/
theorem webrootOpen_image (pad : UInt32) (hindexed : Indexed r t) (hfits : ∀ e ∈ t.rBfsOrder, Fits e)
    (hcount : wfs.length = r.rFile.length) (contents : Bytes) :
    webrootOpen (indexBytes r t pad wfs ++ contents) = some (imageWebroot r t pad wfs) := by
  have hfiles : (wfs.flatMap fileBytes).length = 48 * r.rFile.length := by
    rw [length_flatMap_of_length fun wf _ => fileBytes_length wf, hcount, WEBROOT_FILE_SZ, Nat.mul_comm]
  have hlen := indexBytes_length (r := r) hfits pad hfiles
  have hbound := hindexed.bound
  have hsize : indexSize r t = 32 + 18 * t.rBfsOrder.length + 8 * r.rRedirect.length + 48 * r.rFile.length +
    (mimeText r).length + (redirectText r).length := rfl
  have hhdr : readHdr (bytesAt (indexBytes r t pad wfs ++ contents)) = header (layOut r t) := by
    refine readHdr_eq (indexBytes_sections hfits pad wfs ?_).1
    rw [bytesAt_slice (by rw [List.length_append]; omega), List.drop_zero, List.take_left]
  have hmap : mapWebroot (indexBytes r t pad wfs ++ contents) (header (layOut r t)).hFilesBegin =
      some (indexBytes r t pad wfs) := by
    have hbegin := hindexed.hFilesBegin
    have hne : (header (layOut r t)).hFilesBegin ≠ 0 := by
      intro hzero
      rw [hzero] at hbegin
      change 0 = indexSize r t at hbegin
      omega
    rw [mapWebroot, hbegin, if_neg (by rw [List.length_append]; omega), if_neg hne, ← hlen, List.take_left]
  have hend : (header (layOut r t)).indexEnd = indexSize r t := by
    have hstrtab := hindexed.hStrtabSz
    have hedges : (header (layOut r t)).hNumEdges.toNat = t.rBfsOrder.length := hindexed.numEdges
    have hredirects : (header (layOut r t)).hNumRedirect.toNat = r.rRedirect.length := hindexed.numRedirect
    have hnumFiles : (header (layOut r t)).hNumFile.toNat = r.rFile.length := hindexed.numFile
    rw [WebrootHdr.indexEnd, hstrtab, hedges, hredirects, hnumFiles, hsize, WEBROOT_HDR_SZ, TRIE_DEDGE_SZ,
      WEBROOT_REDIRECT_SZ, WEBROOT_FILE_SZ]
    omega
  have hself : (bytesAt (indexBytes r t pad wfs)).slice 0 (indexBytes r t pad wfs).length = indexBytes r t pad wfs := by
    rw [bytesAt_slice (by omega), List.drop_zero, List.take_length]
  obtain ⟨-, htrie, hredirects, hfileRecords⟩ := indexBytes_sections (r := r) hfits pad wfs hself
  have htrieTable := tableAt_eq (fun d hd => dedgeBytes_length ((dedges_length hfits).1 d hd))
    (fun d hd q => dedgeAt_eq ((dedges_length hfits).1 d hd)) htrie
  have hredirTable := tableAt_eq (fun wr _ => redirectBytes_length wr) (fun wr _ q => redirectAt_eq) hredirects
  have hfileTable := tableAt_eq (fun wf _ => fileBytes_length wf) (fun wf _ q => fileAt_eq) hfileRecords
  have hnumEdges : (header (layOut r t)).hNumEdges.toNat = (dedges t).length := by
    rw [dedges, List.length_map]
    exact hindexed.numEdges
  have hnumRedirect : (header (layOut r t)).hNumRedirect.toNat = (redirectRecords r t).length := by
    rw [(redirectRecords_length r t).1]
    exact hindexed.numRedirect
  have hnumFile : (header (layOut r t)).hNumFile.toNat = wfs.length := by
    rw [hcount]
    exact hindexed.numFile
  have hdedges : (dedges t).length = t.rBfsOrder.length := List.length_map _
  have hredirs := (redirectRecords_length r t).1
  rw [TRIE_DEDGE_SZ, hdedges] at htrieTable
  rw [WEBROOT_REDIRECT_SZ, hredirs] at hredirTable
  have hwebroot : (header (layOut r t)).webroot (indexBytes r t pad wfs) = imageWebroot r t pad wfs := by
    unfold WebrootHdr.webroot imageWebroot
    dsimp only
    rw [hnumEdges, hnumRedirect, hnumFile, hdedges, hredirs, WEBROOT_HDR_SZ, TRIE_DEDGE_SZ, WEBROOT_REDIRECT_SZ,
      Nat.mul_comm _ 18, Nat.mul_comm _ 8, htrieTable, hredirTable, hfileTable]
    rfl
  have hlong : ¬ (indexBytes r t pad wfs ++ contents).length < WEBROOT_HDR_SZ := by
    rw [List.length_append, WEBROOT_HDR_SZ]
    omega
  rw [← hhdr] at hmap hend
  rw [webrootOpen_eq hlong (by rw [hhdr]; rfl) (by rw [hhdr]; rfl) hmap (by rw [hend]; omega), hhdr, hwebroot]

theorem drop_take_middle {pre bs post : Bytes} : ((pre ++ bs ++ post).drop pre.length).take bs.length = bs := by
  rw [List.append_assoc, List.drop_left, List.take_left]

/-- What `webroot_find` answers for a redirect or a code. -/
def RedirectObject.name (o : RedirectObject) : WebrootName :=
  match o.uri with
  | some uri => ⟨none, .moved (some uri), HTTP_MOVED_PERMANENTLY⟩
  | none => ⟨none, .moved none, (UInt32.ofInt o.code).toNat⟩

/-- A redirect to nowhere, at the offset that stands for no redirect. -/
def Lost (x : RedirectObject × UInt32) : Prop := x.1.uri = some [] ∧ x.2 = WEBROOT_INVALID_REDIRECT

instance (x : RedirectObject × UInt32) : Decidable (Lost x) := inferInstanceAs (Decidable (_ ∧ _))

theorem layOut_redirect_get {r : Webroot} (t : Trie) {i : ℕ} {o : RedirectObject} (hi : r.rRedirect[i]? = some o) :
    ∃ x, (layOut r t).redirects[i]? = some x ∧ x.1 = o := by
  rw [← layOut_redirects r t, List.getElem?_map, Option.map_eq_some_iff] at hi
  exact hi

section objects

variable (hindexed : Indexed r t) (hfits : ∀ e ∈ t.rBfsOrder, Fits e)
  (hrecords : List.Forall₂ (fun f wf => fileRecord (layOut r t) (f.hashed k r) = .ok wf) (layOut r t).files wfs)

include hindexed

private theorem toNat_oid (pad : UInt32) (wfs : List WebrootFile) {n : ℕ} (h : n < r.rRedirect.length + r.rFile.length) :
    (UInt32.ofNat n).toNat = n ∧ UInt32.ofNat n ≠ GIDX_INVALID_OID ∧
      UInt32.ofNat n < (imageWebroot r t pad wfs).rNumOid := by
  have hbound := hindexed.bound
  have htoNat : (UInt32.ofNat n).toNat = n := by
    rw [UInt32.toNat_ofNat', Nat.mod_eq_of_lt (by omega)]
  refine ⟨htoNat, ?_, ?_⟩
  · intro heq
    rw [heq] at htoNat
    change 0xffffffff = n at htoNat
    omega
  · show UInt32.ofNat n < r.rNumRedirect + r.rNumFile
    rw [UInt32.lt_iff_toNat_lt, htoNat, UInt32.toNat_add, hindexed.numRedirect, hindexed.numFile]
    omega

include hfits hrecords

omit hindexed hfits in
private theorem records_bytes : (wfs.flatMap fileBytes).length = 48 * r.rFile.length := by
  have hhashed : List.Forall₂ (fun f wf => fileRecord (layOut r t) f = .ok wf)
      ((layOut r t).files.map (PlacedFile.hashed k r)) wfs := List.forall₂_map_left_iff.mpr hrecords
  have hlen := fileRecords_length hhashed
  rwa [List.length_map, layOut_files_length] at hlen

/-- A text of the string tables is read where it was placed. -/
private theorem str_eq (pad : UInt32) {pre s post : Bytes} (hsplit : mimeText r ++ redirectText r = pre ++ s ++ post)
    {off : UInt32} (hoff : off.toNat = recordsSize r t + pre.length) :
    (imageWebroot r t pad wfs).str off (UInt32.ofNat s.length) = s := by
  have hbound := hindexed.small
  have hlen := congrArg List.length hsplit
  rw [List.length_append, List.length_append, List.length_append] at hlen
  rw [indexSize] at hbound
  have hs : (UInt32.ofNat s.length).toNat = s.length := by
    rw [UInt32.toNat_ofNat', Nat.mod_eq_of_lt (by omega)]
  have hfront : (indexHead r t pad ++ wfs.flatMap fileBytes ++ pre).length = off.toNat := by
    rw [List.length_append, List.length_append, indexHead_length hfits, records_bytes hrecords, hoff,
      recordsSize]
  show ((indexBytes r t pad wfs).drop off.toNat).take (UInt32.ofNat s.length).toNat = s
  have hparts : indexBytes r t pad wfs = indexHead r t pad ++ wfs.flatMap fileBytes ++ pre ++ s ++ post := by
    rw [indexBytes, hsplit]
    simp only [List.append_assoc]
  rw [hparts, ← hfront, hs, drop_take_middle]

omit k hfits hrecords in
/-- What is found by the number of a redirect is what its record says. -/
private theorem redirect_read (pad : UInt32) {i : ℕ} {x : RedirectObject × UInt32}
    (hget : (layOut r t).redirects[i]? = some x) :
    webrootObject (imageWebroot r t pad wfs) (oid r (.redirect i)) =
      .ok (some (if (redirectRecord x).rOff = WEBROOT_INVALID_REDIRECT then
        ⟨none, .moved none, (redirectRecord x).rLen.toNat⟩
      else ⟨none, .moved (some ((imageWebroot r t pad wfs).str (redirectRecord x).rOff (redirectRecord x).rLen)),
        HTTP_MOVED_PERMANENTLY⟩)) := by
  have hbound := hindexed.bound
  have hlt : i < r.rRedirect.length := by
    rw [← layOut_redirects r t, List.length_map]
    exact (List.getElem?_eq_some_iff.mp hget).1
  obtain ⟨htoNat, hvalid, hoid⟩ := toNat_oid hindexed pad wfs (n := i) (by omega)
  have hrecord : (imageWebroot r t pad wfs).rRedir[(UInt32.ofNat i).toNat]? = some (redirectRecord x) := by
    show (redirectRecords r t)[(UInt32.ofNat i).toNat]? = _
    rw [htoNat, redirectRecords, List.getElem?_map, hget]
    rfl
  have hredirect : UInt32.ofNat i < (imageWebroot r t pad wfs).rNumRedirect := by
    show UInt32.ofNat i < r.rNumRedirect
    rw [UInt32.lt_iff_toNat_lt, htoNat, hindexed.numRedirect]
    exact hlt
  unfold webrootObject
  rw [oid, if_neg hvalid, if_neg (not_not_intro hoid), if_pos hredirect, hrecord]
  dsimp only
  split_ifs <;> rfl

/-- A redirect is found by its number, unless its place is the offset that stands for none. -/
theorem redirect_found (pad : UInt32) {i : ℕ} {x : RedirectObject × UInt32}
    (hget : (layOut r t).redirects[i]? = some x) (hkept : ¬ Lost x) :
    webrootObject (imageWebroot r t pad wfs) (oid r (.redirect i)) = .ok (some x.1.name) := by
  have hbound := hindexed.bound
  obtain ⟨pre, post, hsplit, hoff⟩ := hindexed.redirectsEnd.2 _ (List.mem_of_getElem? hget)
  rw [redirect_read hindexed pad hget]
  obtain ⟨o, off⟩ := x
  dsimp only at hsplit hoff ⊢
  unfold redirectRecord RedirectObject.name
  cases huri : o.uri with
  | none => rfl
  | some uri =>
    dsimp only
    have htext : o.text = uri := by rw [RedirectObject.text, huri, Option.getD_some]
    rw [htext] at hsplit
    have hlen := congrArg List.length hsplit
    rw [List.length_append, List.length_append] at hlen
    have hinside : off ≠ WEBROOT_INVALID_REDIRECT := by
      intro heq
      cases uri with
      | nil => exact hkept ⟨huri, heq⟩
      | cons c uri =>
        rw [heq] at hoff
        change 0xffffffff = _ at hoff
        rw [recordsSize] at hoff
        rw [List.length_cons] at hlen
        omega
    have hpart : mimeText r ++ redirectText r = mimeText r ++ pre ++ uri ++ post := by
      rw [hsplit]
      simp only [List.append_assoc]
    have hplace : off.toNat = recordsSize r t + (mimeText r ++ pre).length := by
      rw [hoff, List.length_append, Nat.add_assoc]
    have hstr := str_eq hindexed hfits hrecords pad hpart hplace
    rw [if_neg hinside, hstr]

omit k hfits hrecords in
theorem redirect_lost (pad : UInt32) {i : ℕ} {x : RedirectObject × UInt32}
    (hget : (layOut r t).redirects[i]? = some x) (hlost : Lost x) :
    webrootObject (imageWebroot r t pad wfs) (oid r (.redirect i)) = .ok (some ⟨none, .moved none, 0⟩) := by
  obtain ⟨hempty, hoff⟩ := hlost
  have hrecord : redirectRecord x = ⟨WEBROOT_INVALID_REDIRECT, 0⟩ := by
    rw [redirectRecord, hempty, hoff]
    rfl
  rw [redirect_read hindexed pad hget, hrecord]
  rfl

omit hindexed hfits hrecords in
theorem fileRecord_ok {p : Prepared} {f : PlacedFile} {wf : WebrootFile} (h : fileRecord p f = .ok wf) :
    ∃ type, f.obj.type = some type ∧ ∃ off, (type, off) ∈ p.mimes ∧ ∃ hlen,
      wf = ⟨f.off, UInt64.ofNat f.obj.size, off, UInt32.ofNat type.length, UInt32.ofInt f.obj.mtime, f.digest, hlen⟩ := by
  unfold fileRecord at h
  cases htype : f.obj.type with
  | none =>
    rw [htype] at h
    cases h
  | some type =>
    rw [htype] at h
    dsimp only at h
    cases hfind : p.mimes.find? fun m => m.1 = type with
    | none =>
      rw [hfind] at h
      cases h
    | some m =>
      rw [hfind] at h
      dsimp only at h
      obtain ⟨name, off⟩ := m
      have hname : name = type := by simpa using List.find?_some hfind
      subst hname
      by_cases hlen : f.digest.length = ETAG_SZ
      · rw [dif_pos hlen] at h
        exact ⟨name, rfl, off, List.mem_of_find?_eq_some hfind, hlen, (Except.ok.inj h).symm⟩
      · rw [dif_neg hlen] at h
        cases h

theorem file_found (pad : UInt32) (hsizes : ∀ o ∈ r.rFile, (fileContent k r o).length = o.size)
    (htotal : indexSize r t + (r.rFile.flatMap (fileContent k r)).length < 2 ^ 64) {i : ℕ} {o : FileObject}
    (hi : r.rFile[i]? = some o) :
    ∃ type f, o.type = some type ∧ (layOut r t).files[i]? = some f ∧
      webrootObject (imageWebroot r t pad wfs) (oid r (.file i)) = .ok (some ⟨some type,
        .data f.off.toNat o.size (UInt32.ofInt o.mtime) (Fips180.sha1 (fileContent k r o)), HTTP_FOUND⟩) ∧
      ((indexBytes r t pad wfs ++ r.rFile.flatMap (fileContent k r)).drop f.off.toNat).take o.size =
        fileContent k r o := by
  have hbound := hindexed.bound
  have hlt := (List.getElem?_eq_some_iff.mp hi).1
  have ho := List.mem_of_getElem? hi
  obtain ⟨htoNat, hvalid, hoid⟩ := toNat_oid hindexed pad wfs (n := r.rRedirect.length + i) (by omega)
  obtain ⟨f, hget, rfl⟩ : ∃ f, (layOut r t).files[i]? = some f ∧ f.obj = o := by
    rw [← layOut_files r t, List.getElem?_map, Option.map_eq_some_iff] at hi
    exact hi
  obtain ⟨pre, post, hsplit, hoff⟩ := (hindexed.files_placed hsizes htotal).1 f (List.mem_of_getElem? hget)
  obtain ⟨wf, hwf, hrecord⟩ : ∃ wf, wfs[i]? = some wf ∧ fileRecord (layOut r t) (f.hashed k r) = .ok wf := by
    obtain ⟨hlen, hall⟩ := List.forall₂_iff_get.mp hrecords
    obtain ⟨hf, rfl⟩ := List.getElem?_eq_some_iff.mp hget
    exact ⟨wfs[i], List.getElem?_eq_getElem (hlen ▸ hf), hall i hf (hlen ▸ hf)⟩
  obtain ⟨type, htype, moff, hmime, hdigest, rfl⟩ := fileRecord_ok hrecord
  have hsize : (UInt64.ofNat f.obj.size).toNat = f.obj.size := by
    have hlen := congrArg List.length hsplit
    rw [List.length_append, List.length_append, hsizes f.obj ho] at hlen
    rw [UInt64.toNat_ofNat', Nat.mod_eq_of_lt (by omega)]
  have hindex : (UInt32.ofNat (r.rRedirect.length + i) - r.rNumRedirect).toNat = i := by
    have hle : r.rNumRedirect ≤ UInt32.ofNat (r.rRedirect.length + i) := by
      rw [UInt32.le_iff_toNat_le, htoNat, hindexed.numRedirect]
      omega
    rw [UInt32.toNat_sub_of_le _ _ hle, htoNat, hindexed.numRedirect]
    omega
  have hnot : ¬ UInt32.ofNat (r.rRedirect.length + i) < (imageWebroot r t pad wfs).rNumRedirect := by
    show ¬ UInt32.ofNat (r.rRedirect.length + i) < r.rNumRedirect
    rw [UInt32.lt_iff_toNat_lt, htoNat, hindexed.numRedirect]
    omega
  obtain ⟨mpre, mpost, hmsplit, hmoff⟩ := hindexed.mimesEnd.2 _ hmime
  dsimp only at hmsplit hmoff
  have hpart : mimeText r ++ redirectText r = mpre ++ type ++ (mpost ++ redirectText r) := by
    rw [hmsplit]
    simp only [List.append_assoc]
  have hstr := str_eq hindexed hfits hrecords pad hpart hmoff
  refine ⟨type, f, htype, hget, ?_, ?_⟩
  · unfold webrootObject
    have hfile : (imageWebroot r t pad wfs).rFile[(UInt32.ofNat (r.rRedirect.length + i) -
        (imageWebroot r t pad wfs).rNumRedirect).toNat]? = some ⟨f.off, UInt64.ofNat f.obj.size, moff,
          UInt32.ofNat type.length, UInt32.ofInt f.obj.mtime, Fips180.sha1 (fileContent k r f.obj), hdigest⟩ := by
      show wfs[(UInt32.ofNat (r.rRedirect.length + i) - r.rNumRedirect).toNat]? = _
      rw [hindex]
      exact hwf
    rw [oid, if_neg hvalid, if_neg (not_not_intro hoid), if_neg hnot, hfile]
    dsimp only
    rw [hstr, hsize]
  · have hfront : (indexBytes r t pad wfs ++ pre).length = f.off.toNat := by
      rw [List.length_append, indexBytes_length hfits pad (records_bytes hrecords), hoff]
    rw [hsplit, ← hfront, ← hsizes f.obj ho, ← List.append_assoc, ← List.append_assoc, drop_take_middle]

end objects

end Ashttpd.Mkroot
