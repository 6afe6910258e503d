import Ashttpd.MkrootRoundTrip
import Ashttpd.WriterProgress

/-!
# `do_mkroot` comes to an end

Where the trie can be written at all and the kernel is willing, a scan ends in a file.
-/
namespace Ashttpd.Mkroot

variable {r r' : Webroot} {t : Trie} {k : Kernel} {out : Fobuf} {n : ℕ}

theorem thenWrite_open {x : Except Fault (Bool × Fobuf)} {f : Fobuf → Except Fault (Bool × Fobuf)} {n m : ℕ}
    (hx : ∃ out, x = .ok (true, out) ∧ out.Open m)
    (hf : ∀ out, out.Open m → ∃ out', f out = .ok (true, out') ∧ out'.Open n) :
    ∃ out', thenWrite x f = .ok (true, out') ∧ out'.Open n := by
  obtain ⟨out, rfl, hopen⟩ := hx
  exact hf out hopen

private theorem sum_alike {α : Type} (size : ℕ) (xs : List α) : (xs.map fun _ => size).sum = size * xs.length := by
  induction xs with
  | nil => rfl
  | cons x xs ih => rw [List.map_cons, List.sum_cons, ih, List.length_cons, Nat.mul_succ, Nat.add_comm]

theorem writeTrie_open (hfits : ∀ e ∈ t.rBfsOrder, Fits e) (h : out.Open (18 * t.rBfsOrder.length + n)) :
    ∃ out', writeTrie (layOut r t) out = .ok (true, out') ∧ out'.Open n := by
  refine writeEach_open (fun _ => 18) ?_ ?_
  · intro e he
    refine ⟨dedgeBytes (dedgeOf t.rBfsOrder e), ?_, ?_⟩
    · show (nodeToDisk e (firstChildIdx t.rBfsOrder e)).map dedgeBytes = _
      rw [nodeToDisk_eq, if_pos (hfits e he)]
      rfl
    · exact dedgeBytes_length ((dedges_length hfits).1 _ (List.mem_map_of_mem he))
  · rwa [sum_alike]

theorem writeRedirectObjs_open (h : out.Open (8 * r.rRedirect.length + n)) :
    ∃ out', writeRedirectObjs (layOut r t) out = .ok (true, out') ∧ out'.Open n := by
  refine writeEach_open (fun _ => 8) (fun x _ => ⟨_, rfl, redirectBytes_length _⟩) ?_
  have hlen : (layOut r t).redirects.length = r.rRedirect.length := by
    rw [← List.length_map Prod.fst, layOut_redirects]
  rwa [sum_alike, hlen]

/-- A file of a type that is in the table has a record. -/
theorem Typed.fileRecord (hr : Typed r) {f : PlacedFile} (hf : f.obj ∈ r.rFile)
    (hdigest : f.digest.length = ETAG_SZ) : ∃ wf, fileRecord (layOut r t) f = .ok wf := by
  obtain ⟨type, hmem, htype⟩ := hr f.obj hf
  rw [← layOut_mimes r t, List.mem_map] at hmem
  obtain ⟨m, hm, hname⟩ := hmem
  have hfound : ((layOut r t).mimes.find? fun m => m.1 = type).isSome := by
    rw [List.find?_isSome]
    exact ⟨m, hm, by simpa using hname⟩
  obtain ⟨m', hfind⟩ := Option.isSome_iff_exists.mp hfound
  refine ⟨⟨f.off, UInt64.ofNat f.obj.size, m'.2, UInt32.ofNat type.length, UInt32.ofInt f.obj.mtime, f.digest,
    hdigest⟩, ?_⟩
  rw [Mkroot.fileRecord, htype]
  dsimp only
  rw [hfind]
  dsimp only
  rw [dif_pos hdigest]

theorem writeFileObjs_open (hr : Typed r) {files : List PlacedFile}
    (hfiles : ∀ f ∈ files, f.obj ∈ r.rFile ∧ f.digest.length = ETAG_SZ)
    (h : out.Open (48 * files.length + n)) :
    ∃ out', writeFileObjs (layOut r t) files out = .ok (true, out') ∧ out'.Open n := by
  refine writeEach_open (fun _ => 48) ?_ ?_
  · intro f hf
    obtain ⟨hobj, hdigest⟩ := hfiles f hf
    obtain ⟨wf, hwf⟩ := hr.fileRecord (t := t) hobj hdigest
    exact ⟨fileBytes wf, by rw [hwf]; rfl, fileBytes_length wf⟩
  · rwa [sum_alike]

theorem writeMimetab_open (h : out.Open ((mimeText r).length + n)) :
    ∃ out', writeMimetab (layOut r t) out = .ok (true, out') ∧ out'.Open n := by
  refine writeEach_open (fun m => m.1.length) (fun m _ => ⟨m.1, rfl, rfl⟩) ?_
  have hsum : ((layOut r t).mimes.map fun m => m.1.length).sum = (mimeText r).length := by
    rw [mimeText, ← layOut_mimes r t, List.length_flatten, List.map_map]
    rfl
  rwa [hsum]

theorem writeRedirtab_open (h : out.Open ((redirectText r).length + n)) :
    ∃ out', writeRedirtab (layOut r t) out = .ok (true, out') ∧ out'.Open n := by
  refine writeEach_open List.length (fun uri _ => ⟨uri, rfl, rfl⟩) ?_
  have huris : (layOut r t).redirects.filterMap (fun x => x.1.uri) = r.rRedirect.filterMap RedirectObject.uri := by
    rw [← layOut_redirects r t, List.filterMap_map]
    rfl
  rw [huris, ← List.length_flatten, filterMap_uri]
  exact h

theorem layOut_file_mem {f : PlacedFile} (hf : f ∈ (layOut r t).files) :
    f.obj ∈ r.rFile ∧ f.digest.length = ETAG_SZ := by
  constructor
  · rw [← layOut_files r t]
    exact List.mem_map_of_mem hf
  · obtain ⟨x, -, rfl⟩ := List.mem_map.mp hf
    exact List.length_replicate

theorem writeIndex_open (hr : Typed r) (hfits : ∀ e ∈ t.rBfsOrder, Fits e) (h : out.Open (indexSize r t + n)) :
    ∃ out', writeIndex k (layOut r t) out = .ok (true, out') ∧ out'.Open n := by
  have hsize : indexSize r t + n = 32 + (18 * t.rBfsOrder.length + (8 * r.rRedirect.length + (48 * r.rFile.length +
      ((mimeText r).length + ((redirectText r).length + n))))) := by
    rw [indexSize, recordsSize]
    omega
  rw [hsize] at h
  have hheader : ∃ out', writeHeader (layOut r t) k.pad out = .ok (true, out') ∧ out'.Open (18 * t.rBfsOrder.length +
      (8 * r.rRedirect.length + (48 * r.rFile.length + ((mimeText r).length + ((redirectText r).length + n))))) := by
    rw [← show (hdrBytes (header (layOut r t)) k.pad).length = 32 from hdrBytes_length ..] at h
    obtain ⟨out', hrun, hopen, -⟩ := h.write
    exact ⟨out', hrun, hopen⟩
  refine thenWrite_open hheader fun _ h => thenWrite_open (writeTrie_open hfits h) fun _ h =>
    thenWrite_open (writeRedirectObjs_open h) fun _ h => thenWrite_open ?_ fun _ h =>
    thenWrite_open (writeMimetab_open h) fun _ h => writeRedirtab_open h
  refine writeFileObjs_open hr (fun f hf => layOut_file_mem hf) ?_
  rw [layOut_files_length]
  exact h

/-- `webroot_write` returns 1, and the file is closed. -/
theorem webrootWrite_succeeds (hr : Typed r) (hfits : ∀ e ∈ t.rBfsOrder, Fits e) (hk : k.Willing r)
    (hopen : out.Open (indexSize r t + (r.rFile.map FileObject.size).sum + 48 * r.rFile.length)) :
    ∃ image, webrootWrite k (layOut r t) out = .ok (some image) := by
  rw [Nat.add_assoc] at hopen
  obtain ⟨out₁, hindex, h₁⟩ := writeIndex_open (k := k) hr hfits hopen
  have hmap : ((layOut r t).files.map fun f => f.obj.size) = r.rFile.map FileObject.size := by
    rw [← layOut_files r t, List.map_map]
    rfl
  have hfiles : ∃ fs out', writeFiles k (layOut r t) out₁ = .ok (some (fs, out')) ∧
      out'.Open (48 * r.rFile.length) := by
    unfold writeFiles
    rw [hk.flushed, if_pos rfl]
    refine writeFilesFrom_open (r := r) ?_ ?_ ?_
    · intro f hf
      exact hk.contents f.obj (layOut_file_mem hf).1
    · intro j f hj
      rw [Nat.zero_add]
      refine hk.reads j f.obj ?_
      rw [← layOut_files r t, List.getElem?_map, hj]
      rfl
    · rw [hmap]
      exact h₁
  obtain ⟨files, out₂, hwritten, h₂⟩ := hfiles
  obtain ⟨out₃, hflush, h₃⟩ := h₂.flush
  have hhashed : files = (layOut r t).files.map (PlacedFile.hashed k r) := by
    unfold writeFiles at hwritten
    rw [hk.flushed, if_pos rfl] at hwritten
    exact (writeFilesFrom_takes h₁.ready hwritten).2.1
  have h₃' : ({ out₃ with written := [] } : Fobuf).Open (48 * files.length + 0) := by
    rw [hhashed, List.length_map, layOut_files_length]
    exact ⟨⟨h₃.ready.bufLen_pos, h₃.ready.bufLen_le, h₃.ready.ptr_eq⟩, h₃.willing⟩
  obtain ⟨out₄, hetags, h₄⟩ := writeFileObjs_open (t := t) hr (by
    intro f hf
    rw [hhashed] at hf
    obtain ⟨g, hg, rfl⟩ := List.mem_map.mp hf
    exact ⟨(layOut_file_mem hg).1, Fips180.sha1_length _⟩) h₃'
  obtain ⟨out₅, hclose, -⟩ := h₄.flush
  refine ⟨overwrite (overwrite (List.replicate (webrootOutputSize (layOut r t)).toNat 0) 0 out₃.written)
    (fileObjsOff (layOut r t)).toNat out₅.written, ?_⟩
  unfold webrootWrite
  dsimp only
  rw [hindex]
  show (writeFiles k (layOut r t) out₁ >>= _) = _
  rw [hwritten]
  show (fobufFlush out₂ >>= _) = _
  rw [hflush, hk.seeked, hk.closed]
  show (writeFileObjs (layOut r t) files { out₃ with written := [] } >>= _) = _
  rw [hetags]
  show (fobufFlush out₄ >>= _) = _
  rw [hclose]
  rfl

/-- The bytes that `do_mkroot` hands to the kernel: file records are written twice. -/
def writtenSize (r : Webroot) (t : Trie) : ℕ :=
  indexSize r t + (r.rFile.map FileObject.size).sum + 48 * r.rFile.length

/-- Where `webroot_prep` goes through and no assertion on the trie fails, a file is built. -/
theorem buildImage_succeeds (hr : Typed r) (hpreps : Preps r r' t) (hfits : ∀ e ∈ t.rBfsOrder, Fits e)
    (hk : k.Willing r) {buf : Mem} {answers : List WriteAnswer} (hanswers : Ashttpd.Willing (writtenSize r t) answers) :
    ∃ image, buildImage k r buf answers = .ok (some (layOut r' t, image)) := by
  have hprep : webrootPrep r = .ok (some (layOut r' t)) := by
    rw [webrootPrep, hpreps.sorted]
    dsimp only
    rw [hpreps.trie]
  obtain ⟨uris, -, rfl⟩ := sortUris_eq hpreps.sorted
  have hopen : (fobufNew buf BUFFER_SIZE answers).Open (writtenSize r t) := by
    refine ⟨fobufNew_ready buf BUFFER_SIZE answers, ?_⟩
    show Ashttpd.Willing (0 + writtenSize r t) answers
    rwa [Nat.zero_add]
  have htyped : Typed { r with rUri := uris } := hr
  obtain ⟨image, hwrite⟩ := webrootWrite_succeeds htyped hfits (k := k)
    ⟨hk.flushed, hk.seeked, hk.closed, hk.contents, hk.reads⟩ hopen
  refine ⟨image, ?_⟩
  unfold buildImage
  rw [hprep]
  show (webrootWrite k (layOut _ t) _ >>= _) = _
  rw [hwrite]
  rfl

end Ashttpd.Mkroot
