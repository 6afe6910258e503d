import Ashttpd.ScanInvariant
import Ashttpd.TrieRecords
import Ashttpd.WrittenRecords

/-!
# The bytes of a webroot file

A file that `do_mkroot` closes is the index and the contents of the files, one behind the other. As
long as the index is smaller than 4 GiB, all that counts and refers to it in 32 bits is exact.
-/
namespace Ashttpd

/-- The counter of a trie goes up with every edge. -/
theorem doRadix_counts {alloc : ℕ → Bool} {fuel ofs : ℕ} {ents : List TrieEntry} {st st' : RadixState} {l : EdgeList}
    {ret : Bool} (h : doRadix alloc fuel ents ofs st = .ok (l, ret, st')) :
    st'.rNumEdges = st.rNumEdges + UInt32.ofNat l.size := by
  induction fuel generalizing ents ofs st st' l ret with
  | zero => cases h
  | succ fuel ih =>
    cases ents with
    | nil =>
      cases h
      exact (UInt32.add_zero _).symm
    | cons v rest =>
      rw [doRadix] at h
      generalize radixGroup v ofs (v.tStr.length - ofs) 0 0 (v :: rest) = group at h
      obtain ⟨len, last⟩ := group
      dsimp only at h
      cases ha : alloc st.nAlloc with
      | false =>
        simp only [edgeNew, ha, Bool.false_eq_true, if_false] at h
        cases h
        exact (UInt32.add_zero _).symm
      | true =>
        simp only [edgeNew, ha, if_true] at h
        by_cases hshort : v.tStr.length < ofs + len
        · rw [if_pos hshort] at h
          cases h
        · rw [if_neg hshort] at h
          generalize (if ofs + len = v.tStr.length then rest.take last else v :: rest.take last) = sub at h
          cases hsub : doRadix alloc fuel sub (ofs + len) ⟨st.nAlloc + 1, st.rNumEdges + 1⟩ with
          | error f =>
            rw [hsub] at h
            cases h
          | ok x =>
            obtain ⟨kids, ret₁, st₁⟩ := x
            rw [hsub] at h
            dsimp only at h
            cases hnext : doRadix alloc fuel (rest.drop last) ofs st₁ with
            | error f =>
              rw [hnext] at h
              cases h
            | ok y =>
              obtain ⟨next, ret₂, st₂⟩ := y
              rw [hnext] at h
              cases h
              have hone : kids.size + 1 + next.size = 1 + (kids.size + next.size) := by omega
              rw [ih hnext, ih hsub, EdgeList.size, hone, UInt32.ofNat_add, UInt32.ofNat_add, ← UInt32.add_assoc,
                ← UInt32.add_assoc]
              rfl

/-- `r_num_edges` is the number of the edges in order. -/
theorem trieNew_counts {alloc : ℕ → Bool} {ents : List TrieEntry} {t : Trie} (h : trieNew alloc ents = .ok (some t)) :
    t.rNumEdges = UInt32.ofNat t.rBfsOrder.length := by
  cases ha : alloc 0 with
  | false => simp [trieNew, constructRadix, edgeNew, ha] at h
  | true =>
    have hone : edgeNew alloc ⟨0, 0⟩ = (some 0, ⟨1, 1⟩) := by simp [edgeNew, ha]
    simp only [trieNew, constructRadix, hone] at h
    split at h
    · cases h
    · cases h
    · rename_i root st hc
      obtain rfl := Option.some.inj (Except.ok.inj h)
      split at hc
      · cases hc
      · split at hc
        · cases hc
        · cases hc
        · rename_i edges st' hradix
          obtain ⟨rfl, rfl⟩ := Prod.mk.inj (Option.some.inj (Except.ok.inj hc))
          show st'.rNumEdges = UInt32.ofNat (doLayoutBfs ⟨0, [], none, edges⟩).length
          rw [doRadix_counts hradix, doLayoutBfs_length, Nat.add_comm, UInt32.ofNat_add]
          rfl

namespace Mkroot

def recordsSize (r : Webroot) (t : Trie) : ℕ :=
  32 + 18 * t.rBfsOrder.length + 8 * r.rRedirect.length + 48 * r.rFile.length

def mimeText (r : Webroot) : Bytes := r.rMimeType.flatten

def redirectText (r : Webroot) : Bytes := r.rRedirect.flatMap RedirectObject.text

def indexSize (r : Webroot) (t : Trie) : ℕ := recordsSize r t + (mimeText r).length + (redirectText r).length

/-- The tables and texts that are counted in 32 bits fit them. -/
structure Indexed (r : Webroot) (t : Trie) : Prop where
  sizes : Counted r
  counted : t.rNumEdges = UInt32.ofNat t.rBfsOrder.length
  small : indexSize r t < 2 ^ 32

section sizes

variable {r : Webroot} {t : Trie}

theorem Indexed.bound (h : Indexed r t) :
    32 + 18 * t.rBfsOrder.length + 8 * r.rRedirect.length + 48 * r.rFile.length + (mimeText r).length +
      (redirectText r).length < 2 ^ 32 := h.small

theorem Indexed.numEdges (h : Indexed r t) : t.rNumEdges.toNat = t.rBfsOrder.length := by
  have hbound := h.bound
  rw [h.counted, UInt32.toNat_ofNat', Nat.mod_eq_of_lt (by omega)]

theorem Indexed.numRedirect (h : Indexed r t) : r.rNumRedirect.toNat = r.rRedirect.length := by
  have hbound := h.bound
  rw [h.sizes.numRedirect, UInt32.toNat_ofNat', Nat.mod_eq_of_lt (by omega)]

theorem Indexed.numFile (h : Indexed r t) : r.rNumFile.toNat = r.rFile.length := by
  have hbound := h.bound
  rw [h.sizes.numFile, UInt32.toNat_ofNat', Nat.mod_eq_of_lt (by omega)]

theorem sum_ofNat32 {α : Type} (len : α → ℕ) (xs : List α) :
    (xs.map fun x => UInt32.ofNat (len x)).sum = UInt32.ofNat (xs.map len).sum := by
  induction xs with
  | nil => rfl
  | cons x xs ih => rw [List.map_cons, List.map_cons, List.sum_cons, List.sum_cons, ih, UInt32.ofNat_add]

theorem sum_ofNat64 {α : Type} (len : α → ℕ) (xs : List α) :
    (xs.map fun x => UInt64.ofNat (len x)).sum = UInt64.ofNat (xs.map len).sum := by
  induction xs with
  | nil => rfl
  | cons x xs ih => rw [List.map_cons, List.map_cons, List.sum_cons, List.sum_cons, ih, UInt64.ofNat_add]

theorem Indexed.mimetabSz (h : Indexed r t) : (layOut r t).rMimetabSz.toNat = (mimeText r).length := by
  have hbound := h.bound
  have hsum : (r.rMimeType.map List.length).sum = (mimeText r).length := List.length_flatten.symm
  show ((r.rMimeType.map fun m => UInt32.ofNat m.length).sum).toNat = _
  rw [sum_ofNat32, hsum, UInt32.toNat_ofNat', Nat.mod_eq_of_lt (by omega)]

theorem Indexed.redirtabSz (h : Indexed r t) : (layOut r t).rRedirtabSz.toNat = (redirectText r).length := by
  have hbound := h.bound
  have hsum : (r.rRedirect.map fun o => o.text.length).sum = (redirectText r).length := List.length_flatMap.symm
  show ((r.rRedirect.map fun o => UInt32.ofNat o.text.length).sum).toNat = _
  rw [sum_ofNat32, hsum, UInt32.toNat_ofNat', Nat.mod_eq_of_lt (by omega)]

theorem Indexed.trieTrieSize (h : Indexed r t) : (trieTrieSize t).toNat = 18 * t.rBfsOrder.length := by
  have hbound := h.bound
  rw [Mkroot.trieTrieSize, UInt64.toNat_mul, UInt32.toNat_toUInt64, h.numEdges]
  exact Nat.mod_eq_of_lt (by show 18 * t.rBfsOrder.length < 2 ^ 64; omega)

theorem Indexed.fileObjsOff (h : Indexed r t) :
    (fileObjsOff (layOut r t)).toNat = 32 + 18 * t.rBfsOrder.length + 8 * r.rRedirect.length := by
  have hbound := h.bound
  show (32 + Mkroot.trieTrieSize t + 8 * r.rNumRedirect.toUInt64).toNat = _
  rw [UInt64.toNat_add, UInt64.toNat_add, UInt64.toNat_mul, UInt32.toNat_toUInt64, h.numRedirect, h.trieTrieSize]
  show ((32 + 18 * t.rBfsOrder.length) % 2 ^ 64 + 8 * r.rRedirect.length % 2 ^ 64) % 2 ^ 64 = _
  omega

theorem Indexed.recordsSize (h : Indexed r t) :
    (32 + Mkroot.trieTrieSize t + 8 * r.rNumRedirect.toUInt64 + 48 * r.rNumFile.toUInt64).toNat = recordsSize r t := by
  have hbound := h.bound
  have hoff := h.fileObjsOff
  change (32 + Mkroot.trieTrieSize t + 8 * r.rNumRedirect.toUInt64).toNat = _ at hoff
  rw [UInt64.toNat_add, hoff, UInt64.toNat_mul, UInt32.toNat_toUInt64, h.numFile]
  show (32 + 18 * t.rBfsOrder.length + 8 * r.rRedirect.length + 48 * r.rFile.length % 2 ^ 64) % 2 ^ 64 = _
  rw [Mkroot.recordsSize]
  omega

theorem Indexed.indexSize (h : Indexed r t) :
    (32 + Mkroot.trieTrieSize t + 8 * r.rNumRedirect.toUInt64 + 48 * r.rNumFile.toUInt64 +
      (layOut r t).rMimetabSz.toUInt64 + (layOut r t).rRedirtabSz.toUInt64).toNat = indexSize r t := by
  have hbound := h.bound
  rw [UInt64.toNat_add, UInt64.toNat_add, h.recordsSize, UInt32.toNat_toUInt64, UInt32.toNat_toUInt64, h.mimetabSz,
    h.redirtabSz, Mkroot.indexSize, Mkroot.recordsSize]
  omega

theorem Indexed.hFilesBegin (h : Indexed r t) : (header (layOut r t)).hFilesBegin.toNat = Mkroot.indexSize r t := by
  have hsmall := h.small
  have hsize := h.indexSize
  show ((32 + Mkroot.trieTrieSize t + 8 * r.rNumRedirect.toUInt64 + 48 * r.rNumFile.toUInt64 +
    (layOut r t).rMimetabSz.toUInt64 + (layOut r t).rRedirtabSz.toUInt64).toUInt32).toNat = _
  rw [UInt64.toNat_toUInt32, hsize]
  exact Nat.mod_eq_of_lt hsmall

theorem Indexed.hStrtabSz (h : Indexed r t) :
    (header (layOut r t)).hStrtabSz.toNat = (mimeText r).length + (redirectText r).length := by
  have hbound := h.bound
  show ((layOut r t).rMimetabSz + (layOut r t).rRedirtabSz).toNat = _
  rw [UInt32.toNat_add, h.mimetabSz, h.redirtabSz]
  omega

theorem Indexed.outputSize_mod (h : Indexed r t) : (webrootOutputSize (layOut r t)).toNat =
    (Mkroot.indexSize r t + (r.rFile.map FileObject.size).sum) % 2 ^ 64 := by
  have hsize := h.indexSize
  show (_ + (r.rFile.map fun o => UInt64.ofNat o.size).sum).toNat = _
  rw [UInt64.toNat_add, sum_ofNat64, UInt64.toNat_ofNat']
  change (32 + Mkroot.trieTrieSize t + 8 * r.rNumRedirect.toUInt64 + 48 * r.rNumFile.toUInt64 +
      (layOut r t).rMimetabSz.toUInt64 + (layOut r t).rRedirtabSz.toUInt64).toNat = _ at hsize
  rw [show (32 + Mkroot.trieTrieSize (layOut r t).rTrie + 8 * (layOut r t).root.rNumRedirect.toUInt64 +
    48 * (layOut r t).root.rNumFile.toUInt64 + (layOut r t).rMimetabSz.toUInt64 +
    (layOut r t).rRedirtabSz.toUInt64).toNat = Mkroot.indexSize r t from hsize, Nat.add_mod_mod]

theorem Indexed.outputSize (h : Indexed r t)
    (htotal : Mkroot.indexSize r t + (r.rFile.map FileObject.size).sum < 2 ^ 64) :
    (webrootOutputSize (layOut r t)).toNat = Mkroot.indexSize r t + (r.rFile.map FileObject.size).sum :=
  h.outputSize_mod.trans (Nat.mod_eq_of_lt htotal)

theorem layOut_mimes (r : Webroot) (t : Trie) : (layOut r t).mimes.map Prod.fst = r.rMimeType := by
  show List.map Prod.fst (List.map _ _) = _
  rw [List.map_map]
  exact placeAll_items ..

theorem layOut_redirects (r : Webroot) (t : Trie) : (layOut r t).redirects.map Prod.fst = r.rRedirect := by
  show List.map Prod.fst (List.map _ _) = _
  rw [List.map_map]
  exact placeAll_items ..

theorem layOut_files (r : Webroot) (t : Trie) : (layOut r t).files.map PlacedFile.obj = r.rFile := by
  show List.map PlacedFile.obj (List.map _ _) = _
  rw [List.map_map]
  exact placeAll_items ..

theorem Indexed.mimesEnd (h : Indexed r t) :
    (placeAll List.length (32 + Mkroot.trieTrieSize t + 8 * r.rNumRedirect.toUInt64 + 48 * r.rNumFile.toUInt64)
        r.rMimeType).2.toNat = Mkroot.recordsSize r t + (mimeText r).length ∧
      ∀ x ∈ (layOut r t).mimes, ∃ pre post, mimeText r = pre ++ x.1 ++ post ∧
        x.2.toNat = Mkroot.recordsSize r t + pre.length := by
  have hbound := h.small
  rw [Mkroot.indexSize] at hbound
  have htext : r.rMimeType.flatMap id = mimeText r := List.flatMap_id
  obtain ⟨hlast, hplaced⟩ := placeAll_located List.length id
    (32 + Mkroot.trieTrieSize t + 8 * r.rNumRedirect.toUInt64 + 48 * r.rNumFile.toUInt64) r.rMimeType
    (fun _ _ => rfl) (by rw [h.recordsSize, htext]; omega)
  rw [h.recordsSize, htext] at hlast hplaced
  refine ⟨hlast, ?_⟩
  intro x hx
  obtain ⟨y, hy, rfl⟩ := List.mem_map.mp hx
  obtain ⟨pre, post, hsplit, hoff⟩ := hplaced y hy
  refine ⟨pre, post, hsplit, ?_⟩
  have hlen := congrArg List.length hsplit
  rw [List.length_append, List.length_append] at hlen
  rw [UInt64.toNat_toUInt32, hoff]
  exact Nat.mod_eq_of_lt (by omega)

theorem Indexed.redirectsEnd (h : Indexed r t) :
    (placeAll (fun o => o.text.length) (placeAll List.length
        (32 + Mkroot.trieTrieSize t + 8 * r.rNumRedirect.toUInt64 + 48 * r.rNumFile.toUInt64) r.rMimeType).2
        r.rRedirect).2.toNat = Mkroot.indexSize r t ∧
      ∀ x ∈ (layOut r t).redirects, ∃ pre post, redirectText r = pre ++ x.1.text ++ post ∧
        x.2.toNat = Mkroot.recordsSize r t + (mimeText r).length + pre.length := by
  have hbound := h.small
  rw [Mkroot.indexSize] at hbound
  have hstart := h.mimesEnd.1
  obtain ⟨hlast, hplaced⟩ := placeAll_located (fun o : RedirectObject => o.text.length) RedirectObject.text
    (placeAll List.length (32 + Mkroot.trieTrieSize t + 8 * r.rNumRedirect.toUInt64 + 48 * r.rNumFile.toUInt64)
      r.rMimeType).2 r.rRedirect (fun _ _ => rfl) (by rw [hstart]; show _ + (redirectText r).length < _; omega)
  rw [hstart] at hlast hplaced
  refine ⟨hlast, ?_⟩
  intro x hx
  obtain ⟨y, hy, rfl⟩ := List.mem_map.mp hx
  obtain ⟨pre, post, hsplit, hoff⟩ := hplaced y hy
  refine ⟨pre, post, hsplit, ?_⟩
  have hlen : (redirectText r).length = (pre ++ y.1.text ++ post).length := congrArg List.length hsplit
  rw [List.length_append, List.length_append] at hlen
  rw [UInt64.toNat_toUInt32, hoff]
  exact Nat.mod_eq_of_lt (by omega)

/-- The contents follow the index. -/
theorem Indexed.files_placed (h : Indexed r t) {text : FileObject → Bytes}
    (htext : ∀ o ∈ r.rFile, (text o).length = o.size)
    (htotal : Mkroot.indexSize r t + (r.rFile.flatMap text).length < 2 ^ 64) :
    (∀ f ∈ (layOut r t).files, ∃ pre post, r.rFile.flatMap text = pre ++ text f.obj ++ post ∧
        f.off.toNat = Mkroot.indexSize r t + pre.length) ∧
      (layOut r t).files.Pairwise fun f g => f.off.toNat + f.obj.size ≤ g.off.toNat := by
  have hstart := h.redirectsEnd.1
  have hfit : (placeAll (fun o => o.text.length) (placeAll List.length
        (32 + Mkroot.trieTrieSize t + 8 * r.rNumRedirect.toUInt64 + 48 * r.rNumFile.toUInt64) r.rMimeType).2
        r.rRedirect).2.toNat + (r.rFile.flatMap text).length < 2 ^ 64 := by
    rw [hstart]
    exact htotal
  constructor
  · intro f hf
    obtain ⟨y, hy, rfl⟩ := List.mem_map.mp hf
    obtain ⟨pre, post, hsplit, hoff⟩ := (placeAll_located _ _ _ _ htext hfit).2 y hy
    rw [hstart] at hoff
    exact ⟨pre, post, hsplit, hoff⟩
  · exact List.pairwise_map.mpr (placeAll_disjoint htext hfit)

end sizes

section image

variable {ε α β : Type}

theorem mapM_ok {f : α → Except ε β} {xs : List α} {ys : List β} (h : xs.mapM f = .ok ys) :
    List.Forall₂ (fun x y => f x = .ok y) xs ys := by
  induction xs generalizing ys with
  | nil =>
    cases h
    exact .nil
  | cons x xs ih =>
    rw [List.mapM_cons] at h
    obtain ⟨y, hy, h⟩ := bind_eq_ok_iff.mp h
    obtain ⟨ys, hys, h⟩ := bind_eq_ok_iff.mp h
    cases h
    exact .cons hy (ih hys)

theorem mapM_eq_map {f : α → Except ε β} {g : α → β} {P : α → Prop} (hf : ∀ x y, f x = .ok y → P x ∧ y = g x)
    {xs : List α} {ys : List β} (h : xs.mapM f = .ok ys) : (∀ x ∈ xs, P x) ∧ ys = xs.map g := by
  have hall := mapM_ok h
  clear h
  induction hall with
  | nil => exact ⟨by simp, rfl⟩
  | cons hxy _ ih =>
    obtain ⟨hP, rfl⟩ := hf _ _ hxy
    obtain ⟨hPs, rfl⟩ := ih
    exact ⟨List.forall_mem_cons.mpr ⟨hP, hPs⟩, rfl⟩

variable {r : Webroot} {t : Trie} {k : Kernel} {out out' : Fobuf}

def dedges (t : Trie) : List TrieDedge := t.rBfsOrder.map (dedgeOf t.rBfsOrder)

def redirectRecords (r : Webroot) (t : Trie) : List WebrootRedirect := (layOut r t).redirects.map redirectRecord

def indexHead (r : Webroot) (t : Trie) (pad : UInt32) : Bytes :=
  hdrBytes (header (layOut r t)) pad ++ (dedges t).flatMap dedgeBytes ++ (redirectRecords r t).flatMap redirectBytes

def indexBytes (r : Webroot) (t : Trie) (pad : UInt32) (wfs : List WebrootFile) : Bytes :=
  indexHead r t pad ++ wfs.flatMap fileBytes ++ (mimeText r ++ redirectText r)

theorem filterMap_uri (os : List RedirectObject) :
    (os.filterMap RedirectObject.uri).flatten = os.flatMap RedirectObject.text := by
  induction os with
  | nil => rfl
  | cons o os ih =>
    rw [List.flatMap_cons, ← ih, RedirectObject.text]
    cases huri : o.uri with
    | none => rw [List.filterMap_cons_none huri, Option.getD_none, List.nil_append]
    | some uri => rw [List.filterMap_cons_some huri, List.flatten_cons, Option.getD_some]

theorem writeTrie_takes (hready : out.Ready) (h : writeTrie (layOut r t) out = .ok (true, out')) :
    (∀ e ∈ t.rBfsOrder, Fits e) ∧ out.Takes ((dedges t).flatMap dedgeBytes) out' := by
  obtain ⟨bufs, hbufs, htakes⟩ := writeEach_takes hready h
  obtain ⟨hfits, rfl⟩ := mapM_eq_map (P := Fits) (g := fun e => dedgeBytes (dedgeOf t.rBfsOrder e)) (by
    intro e y hy
    change (nodeToDisk e (firstChildIdx t.rBfsOrder e)).map dedgeBytes = .ok y at hy
    rw [nodeToDisk_eq] at hy
    by_cases hf : Fits e
    · rw [if_pos hf] at hy
      cases hy
      exact ⟨hf, rfl⟩
    · rw [if_neg hf] at hy
      cases hy) hbufs
  refine ⟨hfits, ?_⟩
  have hbytes : (t.rBfsOrder.map fun e => dedgeBytes (dedgeOf t.rBfsOrder e)).flatten = (dedges t).flatMap dedgeBytes := by
    rw [dedges, List.flatMap_map, List.flatMap_def]
  rw [← hbytes]
  exact htakes

theorem writeRedirectObjs_takes (hready : out.Ready) (h : writeRedirectObjs (layOut r t) out = .ok (true, out')) :
    out.Takes ((redirectRecords r t).flatMap redirectBytes) out' := by
  obtain ⟨bufs, hbufs, htakes⟩ := writeEach_takes hready h
  obtain ⟨-, rfl⟩ := mapM_eq_map (P := fun _ => True) (g := fun x => redirectBytes (redirectRecord x)) (by
    intro x y hy
    cases hy
    exact ⟨trivial, rfl⟩) hbufs
  rwa [redirectRecords, List.flatMap_map, List.flatMap_def]

theorem writeFileObjs_takes {p : Prepared} {files : List PlacedFile} (hready : out.Ready)
    (h : writeFileObjs p files out = .ok (true, out')) :
    ∃ wfs, List.Forall₂ (fun f wf => fileRecord p f = .ok wf) files wfs ∧ out.Takes (wfs.flatMap fileBytes) out' := by
  obtain ⟨bufs, hbufs, htakes⟩ := writeEach_takes hready h
  have hall := mapM_ok hbufs
  suffices hwfs : ∃ wfs, List.Forall₂ (fun f wf => fileRecord p f = .ok wf) files wfs ∧ bufs = wfs.map fileBytes by
    obtain ⟨wfs, hrecords, rfl⟩ := hwfs
    rw [← List.flatMap_def] at htakes
    exact ⟨wfs, hrecords, htakes⟩
  clear h hbufs htakes
  induction hall with
  | nil => exact ⟨[], .nil, rfl⟩
  | cons hone _ ih =>
    obtain ⟨wf, hwf, rfl⟩ := map_eq_ok_iff.mp hone
    obtain ⟨wfs, hrecords, rfl⟩ := ih
    exact ⟨wf :: wfs, .cons hwf hrecords, rfl⟩

theorem writeMimetab_takes (hready : out.Ready) (h : writeMimetab (layOut r t) out = .ok (true, out')) :
    out.Takes (mimeText r) out' := by
  obtain ⟨bufs, hbufs, htakes⟩ := writeEach_takes hready h
  obtain ⟨-, rfl⟩ := mapM_eq_map (P := fun _ => True) (g := Prod.fst) (by
    intro x y hy
    cases hy
    exact ⟨trivial, rfl⟩) hbufs
  rwa [layOut_mimes] at htakes

theorem writeRedirtab_takes (hready : out.Ready) (h : writeRedirtab (layOut r t) out = .ok (true, out')) :
    out.Takes (redirectText r) out' := by
  obtain ⟨bufs, hbufs, htakes⟩ := writeEach_takes hready h
  obtain ⟨-, rfl⟩ := mapM_eq_map (P := fun _ => True) (g := id) (by
    intro x y hy
    cases hy
    exact ⟨trivial, rfl⟩) hbufs
  have huris : (layOut r t).redirects.filterMap (fun x => x.1.uri) = r.rRedirect.filterMap RedirectObject.uri := by
    rw [← layOut_redirects r t, List.filterMap_map]
    rfl
  rwa [List.map_id, huris, filterMap_uri] at htakes

/-- The part in front of the contents goes out whole. -/
theorem writeIndex_takes (hready : out.Ready) (h : writeIndex k (layOut r t) out = .ok (true, out')) :
    (∀ e ∈ t.rBfsOrder, Fits e) ∧ ∃ wfs,
      List.Forall₂ (fun f wf => fileRecord (layOut r t) f = .ok wf) (layOut r t).files wfs ∧
      out.Takes (indexBytes r t k.pad wfs) out' := by
  obtain ⟨out₁, hheader, h⟩ := thenWrite_takes h
  obtain ⟨out₂, htrie, h⟩ := thenWrite_takes h
  obtain ⟨out₃, hredirects, h⟩ := thenWrite_takes h
  obtain ⟨out₄, hfiles, h⟩ := thenWrite_takes h
  obtain ⟨out₅, hmimes, hredirtab⟩ := thenWrite_takes h
  have h₁ := hready.wrote hheader
  obtain ⟨hfits, h₂⟩ := writeTrie_takes h₁.ready htrie
  have h₃ := writeRedirectObjs_takes h₂.ready hredirects
  obtain ⟨wfs, hrecords, h₄⟩ := writeFileObjs_takes h₃.ready hfiles
  have h₅ := writeMimetab_takes h₄.ready hmimes
  have h₆ := writeRedirtab_takes h₅.ready hredirtab
  exact ⟨hfits, wfs, hrecords, (((h₁.trans h₂).trans h₃).trans h₄).trans (h₅.trans h₆)⟩

theorem overwrite_start {file bs : Bytes} (h : file.length ≤ bs.length) : overwrite file 0 bs = bs := by
  rw [overwrite, List.drop_of_length_le (by omega), Nat.zero_sub]
  simp

theorem overwrite_middle {pre old bs post : Bytes} (h : old.length = bs.length) :
    overwrite (pre ++ old ++ post) pre.length bs = pre ++ bs ++ post := by
  have hdrop : (pre ++ old ++ post).drop (pre.length + bs.length) = post := by
    rw [← h, ← List.length_append, List.drop_left]
  have hfill : pre.length - (pre ++ old ++ post).length = 0 := by
    rw [List.length_append, List.length_append]
    omega
  rw [overwrite, hdrop, hfill, List.replicate_zero, List.append_nil, List.append_assoc pre old post, List.take_left]

theorem fileRecords_length {p : Prepared} {files : List PlacedFile} {wfs : List WebrootFile}
    (h : List.Forall₂ (fun f wf => fileRecord p f = .ok wf) files wfs) :
    (wfs.flatMap fileBytes).length = 48 * files.length := by
  rw [length_flatMap_of_length fun wf _ => fileBytes_length wf, h.length_eq, WEBROOT_FILE_SZ, Nat.mul_comm]

theorem dedges_length (hfits : ∀ e ∈ t.rBfsOrder, Fits e) :
    (∀ d ∈ dedges t, d.reStr.length = RE_EDGE_MAX) ∧
      ((dedges t).flatMap dedgeBytes).length = 18 * t.rBfsOrder.length := by
  have hstr : ∀ d ∈ dedges t, d.reStr.length = RE_EDGE_MAX := by
    intro d hd
    obtain ⟨e, he, rfl⟩ := List.mem_map.mp hd
    have hcap := (hfits e he).2
    rw [dedgeOf, List.length_append, List.length_replicate]
    omega
  refine ⟨hstr, ?_⟩
  rw [length_flatMap_of_length fun d hd => dedgeBytes_length (hstr d hd), dedges, List.length_map, TRIE_DEDGE_SZ,
    Nat.mul_comm]

theorem redirectRecords_length (r : Webroot) (t : Trie) :
    (redirectRecords r t).length = r.rRedirect.length ∧
      ((redirectRecords r t).flatMap redirectBytes).length = 8 * r.rRedirect.length := by
  have hlen : (redirectRecords r t).length = r.rRedirect.length := by
    rw [redirectRecords, List.length_map, ← List.length_map Prod.fst, layOut_redirects]
  refine ⟨hlen, ?_⟩
  rw [length_flatMap_of_length fun wr _ => redirectBytes_length wr, hlen, WEBROOT_REDIRECT_SZ, Nat.mul_comm]

theorem layOut_files_length (r : Webroot) (t : Trie) : (layOut r t).files.length = r.rFile.length := by
  rw [← List.length_map PlacedFile.obj, layOut_files]

theorem indexHead_length (hfits : ∀ e ∈ t.rBfsOrder, Fits e) (pad : UInt32) :
    (indexHead r t pad).length = 32 + 18 * t.rBfsOrder.length + 8 * r.rRedirect.length := by
  rw [indexHead, List.length_append, List.length_append, hdrBytes_length, (dedges_length hfits).2,
    (redirectRecords_length r t).2]
  rfl

theorem indexBytes_length (hfits : ∀ e ∈ t.rBfsOrder, Fits e) (pad : UInt32) {wfs : List WebrootFile}
    (hwfs : (wfs.flatMap fileBytes).length = 48 * r.rFile.length) :
    (indexBytes r t pad wfs).length = indexSize r t := by
  rw [indexBytes, List.length_append, List.length_append, indexHead_length hfits, hwfs, List.length_append, indexSize,
    recordsSize]
  omega

/-- What `do_mkroot` closes when all has gone well. -/
theorem webrootWrite_image {buf : Mem} {answers : List WriteAnswer} {image : Bytes} (hindexed : Indexed r t)
    (h : webrootWrite k (layOut r t) (fobufNew buf BUFFER_SIZE answers) = .ok (some image)) :
    (∀ e ∈ t.rBfsOrder, Fits e) ∧ (∀ o ∈ r.rFile, Readable k r o) ∧
      ∃ wfs, List.Forall₂ (fun f wf => fileRecord (layOut r t) (f.hashed k r) = .ok wf) (layOut r t).files wfs ∧
        image = indexBytes r t k.pad wfs ++ r.rFile.flatMap (fileContent k r) := by
  have hready := fobufNew_ready buf BUFFER_SIZE answers
  have hempty : (fobufNew buf BUFFER_SIZE answers).written ++ (fobufNew buf BUFFER_SIZE answers).buffered = [] := rfl
  generalize fobufNew buf BUFFER_SIZE answers = out at h hready hempty
  unfold webrootWrite at h
  dsimp only at h
  obtain ⟨⟨ret, out₁⟩, hindex, h⟩ := bind_eq_ok_iff.mp h
  cases ret with
  | false => cases h
  | true =>
  obtain ⟨hfits, wfs₀, hrecords₀, h₁⟩ := writeIndex_takes hready hindex
  obtain ⟨files, hfiles, h⟩ := bind_eq_ok_iff.mp h
  cases files with
  | none => cases h
  | some files =>
  obtain ⟨files, out₂⟩ := files
  unfold writeFiles at hfiles
  cases hflushed : k.flushed with
  | false =>
    rw [hflushed] at hfiles
    cases hfiles
  | true =>
  rw [hflushed, if_pos rfl] at hfiles
  obtain ⟨hsizes, rfl, h₂⟩ := writeFilesFrom_takes h₁.ready hfiles
  obtain ⟨⟨ret, out₃⟩, hflush, h⟩ := bind_eq_ok_iff.mp h
  cases ret with
  | false => cases h
  | true =>
  obtain ⟨hready₃, hnone₃, hwritten₃⟩ := h₂.ready.flushed hflush
  cases hseeked : k.seeked with
  | false =>
    rw [hseeked] at h
    cases h
  | true =>
  rw [hseeked] at h
  change (writeFileObjs _ _ { out₃ with written := [] } >>= _) = _ at h
  obtain ⟨⟨ret, out₄⟩, hetags, h⟩ := bind_eq_ok_iff.mp h
  cases ret with
  | false => cases h
  | true =>
  have hready' : ({ out₃ with written := [] } : Fobuf).Ready := ⟨hready₃.bufLen_pos, hready₃.bufLen_le, hready₃.ptr_eq⟩
  obtain ⟨wfs, hrecords, h₄⟩ := writeFileObjs_takes hready' hetags
  obtain ⟨⟨ret, out₅⟩, hclose, h⟩ := bind_eq_ok_iff.mp h
  cases ret with
  | false => cases h
  | true =>
  cases hclosed : k.closed with
  | false =>
    rw [hclosed] at h
    cases h
  | true =>
  rw [hclosed] at h
  obtain ⟨-, -, hwritten₅⟩ := h₄.ready.flushed hclose
  have himage : image = overwrite (overwrite (List.replicate (webrootOutputSize (layOut r t)).toNat 0) 0 out₃.written)
      (fileObjsOff (layOut r t)).toNat out₅.written := (Option.some.inj (Except.ok.inj h)).symm
  have hcontents : ((layOut r t).files.flatMap fun f => fileContent k r f.obj) = r.rFile.flatMap (fileContent k r) := by
    rw [← layOut_files r t, List.flatMap_map]
  have hall : ∀ o ∈ r.rFile, Readable k r o := by
    intro o ho
    rw [← layOut_files r t] at ho
    obtain ⟨f, hf, rfl⟩ := List.mem_map.mp ho
    exact hsizes f hf
  have hfirst : out₃.written = indexBytes r t k.pad wfs₀ ++ r.rFile.flatMap (fileContent k r) := by
    rw [hwritten₃, h₂.content, h₁.content, hempty, List.nil_append]
    exact congrArg (indexBytes r t k.pad wfs₀ ++ ·) hcontents
  have hsecond : out₅.written = wfs.flatMap fileBytes := by
    rw [hwritten₅, h₄.content]
    show [] ++ out₃.buffered ++ _ = _
    rw [hnone₃]
    rfl
  have hlen₀ : (wfs₀.flatMap fileBytes).length = 48 * r.rFile.length := by
    rw [fileRecords_length hrecords₀, layOut_files_length]
  have hlen : (wfs.flatMap fileBytes).length = 48 * r.rFile.length := by
    rw [fileRecords_length hrecords]
    show 48 * ((layOut r t).files.map (PlacedFile.hashed k r)).length = _
    rw [List.length_map, layOut_files_length]
  have hsum : (r.rFile.flatMap (fileContent k r)).length = (r.rFile.map FileObject.size).sum := by
    rw [List.length_flatMap]
    exact congrArg List.sum (List.map_congr_left fun o ho => (hall o ho).length)
  refine ⟨hfits, hall, wfs, List.forall₂_map_left_iff.mp hrecords, ?_⟩
  rw [himage, hfirst, hsecond, overwrite_start, hindexed.fileObjsOff, ← indexHead_length hfits k.pad]
  · unfold indexBytes
    rw [List.append_assoc _ (mimeText r ++ redirectText r), overwrite_middle (hlen₀.trans hlen.symm), ← List.append_assoc]
  · rw [List.length_replicate, hindexed.outputSize_mod, List.length_append, indexBytes_length hfits k.pad hlen₀, hsum]
    exact Nat.mod_le _ _

end image

end Mkroot
end Ashttpd
