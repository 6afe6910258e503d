import Ashttpd.WebrootOpen

/-!
# What is found in the bytes of a file

Records of fixed sizes are laid out one behind the other. What was put at a place is read there
again, whatever is put before and behind it.
-/
namespace Ashttpd

variable {bs pre post : Bytes}

theorem bytesAt_slice {p n : ℕ} (h : p + n ≤ bs.length) : (bytesAt bs).slice p n = (bs.drop p).take n := by
  apply List.ext_getElem?
  intro i
  by_cases hi : i < n
  · rw [Mem.slice_getElem? _ _ _ _ hi, List.getElem?_take_of_lt hi, List.getElem?_drop, bytesAt,
      List.getD_eq_getElem?_getD, List.getElem?_eq_getElem (by omega)]
    rfl
  · rw [List.getElem?_eq_none (by simpa using hi), List.getElem?_eq_none]
    rw [List.length_take]
    omega

/-- A number in `n` bytes, the low one first. -/
def leBytes : ℕ → ℕ → Bytes
  | 0, _ => []
  | n + 1, x => UInt8.ofNat x :: leBytes n (x / 256)

@[simp] theorem leBytes_length (n x : ℕ) : (leBytes n x).length = n := by
  induction n generalizing x with
  | zero => rfl
  | succ n ih => rw [leBytes, List.length_cons, ih]

theorem leNat_leBytes (n x : ℕ) : leNat (leBytes n x) = x % 256 ^ n := by
  induction n generalizing x with
  | zero => rw [leBytes, leNat, Nat.pow_zero, Nat.mod_one]
  | succ n ih =>
    have hpow : 256 ^ (n + 1) = 256 * 256 ^ n := by rw [Nat.pow_succ, Nat.mul_comm]
    rw [leBytes, leNat, ih, UInt8.toNat_ofNat', hpow, Nat.mod_mul]

theorem le32_of_slice {m : Mem} {p : ℕ} {x : UInt32} (h : m.slice p 4 = leBytes 4 x.toNat) : le32 m p = x := by
  have hlt : x.toNat < 256 ^ 4 := x.toNat_lt
  rw [le32, h, leNat_leBytes, Nat.mod_eq_of_lt hlt, UInt32.ofNat_toNat]

theorem le64_of_slice {m : Mem} {p : ℕ} {x : UInt64} (h : m.slice p 8 = leBytes 8 x.toNat) : le64 m p = x := by
  have hlt : x.toNat < 256 ^ 8 := x.toNat_lt
  rw [le64, h, leNat_leBytes, Nat.mod_eq_of_lt hlt, UInt64.ofNat_toNat]

theorem slice_append_iff {m : Mem} {p : ℕ} {x y : Bytes} :
    m.slice p (x ++ y).length = x ++ y ↔ m.slice p x.length = x ∧ m.slice (p + x.length) y.length = y := by
  rw [List.length_append, Mem.slice_add]
  constructor
  · intro h
    exact List.append_inj h (m.slice_length p x.length)
  · rintro ⟨hx, hy⟩
    rw [hx, hy]

/-- A table of records is read as it was laid out. -/
theorem tableAt_eq {α : Type} {read : ℕ → α} {encode : α → Bytes} {size : ℕ} {m : Mem} {records : List α}
    (hsize : ∀ r ∈ records, (encode r).length = size)
    (hread : ∀ r ∈ records, ∀ q, m.slice q size = encode r → read q = r) {p : ℕ}
    (h : m.slice p (records.flatMap encode).length = records.flatMap encode) :
    tableAt read size p records.length = records := by
  induction records generalizing p with
  | nil => rfl
  | cons r records ih =>
    have hr := hsize r List.mem_cons_self
    rw [List.flatMap_cons, slice_append_iff, hr] at h
    have hfirst : read p = r := hread r List.mem_cons_self p h.1
    have hrest := ih (fun r hr => hsize r (List.mem_cons_of_mem _ hr))
      (fun r hr => hread r (List.mem_cons_of_mem _ hr)) h.2
    rw [tableAt, List.length_cons, List.range_succ_eq_map, List.map_cons, List.map_map, Nat.zero_mul, Nat.add_zero,
      hfirst]
    congr 1
    refine Eq.trans ?_ hrest
    apply List.map_congr_left
    intro i _
    show read (p + (i + 1) * size) = read (p + size + i * size)
    congr 1
    rw [Nat.succ_mul]
    omega

theorem length_flatMap_of_length {α : Type} {encode : α → Bytes} {size : ℕ} {records : List α}
    (h : ∀ r ∈ records, (encode r).length = size) : (records.flatMap encode).length = records.length * size := by
  induction records with
  | nil => exact (Nat.zero_mul size).symm
  | cons r records ih =>
    rw [List.flatMap_cons, List.length_append, h r List.mem_cons_self,
      ih fun r hr => h r (List.mem_cons_of_mem _ hr), List.length_cons, Nat.succ_mul, Nat.add_comm]

/-- `struct trie_dedge` in memory. -/
def dedgeBytes (d : TrieDedge) : Bytes :=
  leBytes 4 d.reOid.toNat ++ (leBytes 4 d.reEdgesIdx.toNat ++ ([d.reNumEdges] ++ ([d.reStrlen] ++ d.reStr)))

def redirectBytes (wr : WebrootRedirect) : Bytes := leBytes 4 wr.rOff.toNat ++ leBytes 4 wr.rLen.toNat

def fileBytes (wf : WebrootFile) : Bytes :=
  leBytes 8 wf.fOff.toNat ++ (leBytes 8 wf.fLen.toNat ++ (leBytes 4 wf.fType.toNat ++ (leBytes 4 wf.fTypeLen.toNat ++
    (leBytes 4 wf.fModified.toNat ++ wf.fDigest))))

/-- `struct webroot_hdr` in memory, where nobody assigns to the padding. -/
def hdrBytes (hdr : WebrootHdr) (pad : UInt32) : Bytes :=
  leBytes 4 hdr.hNumEdges.toNat ++ (leBytes 4 hdr.hNumRedirect.toNat ++ (leBytes 4 hdr.hNumFile.toNat ++
    (leBytes 4 hdr.hStrtabSz.toNat ++ (leBytes 4 hdr.hMagic.toNat ++ (leBytes 4 hdr.hVers.toNat ++
      (leBytes 4 hdr.hFilesBegin.toNat ++ leBytes 4 pad.toNat))))))

section records

variable {m : Mem} {p : ℕ}

theorem dedgeBytes_length {d : TrieDedge} (h : d.reStr.length = RE_EDGE_MAX) : (dedgeBytes d).length = TRIE_DEDGE_SZ := by
  simp [dedgeBytes, h, RE_EDGE_MAX, TRIE_DEDGE_SZ]

theorem redirectBytes_length (wr : WebrootRedirect) : (redirectBytes wr).length = WEBROOT_REDIRECT_SZ := by
  simp [redirectBytes, WEBROOT_REDIRECT_SZ]

theorem fileBytes_length (wf : WebrootFile) : (fileBytes wf).length = WEBROOT_FILE_SZ := by
  simp [fileBytes, wf.digestLen, ETAG_SZ, WEBROOT_FILE_SZ]

theorem hdrBytes_length (hdr : WebrootHdr) (pad : UInt32) : (hdrBytes hdr pad).length = WEBROOT_HDR_SZ := by
  simp [hdrBytes, WEBROOT_HDR_SZ]

theorem dedgeAt_eq {d : TrieDedge} (hstr : d.reStr.length = RE_EDGE_MAX)
    (h : m.slice p TRIE_DEDGE_SZ = dedgeBytes d) : dedgeAt m p = d := by
  rw [← dedgeBytes_length hstr, dedgeBytes] at h
  simp only [slice_append_iff, leBytes_length, List.length_singleton, hstr, Nat.add_assoc] at h
  obtain ⟨hoid, hidx, hnum, hlen, hstr⟩ := h
  have hone : ∀ q b, m.slice q 1 = [b] → m q = b := by
    intro q b hb
    simpa [Mem.slice_succ] using hb
  unfold dedgeAt
  rw [le32_of_slice hoid, le32_of_slice hidx, hone _ _ hnum, hone _ _ hlen, hstr]

theorem redirectAt_eq {wr : WebrootRedirect} (h : m.slice p WEBROOT_REDIRECT_SZ = redirectBytes wr) :
    redirectAt m p = wr := by
  rw [← redirectBytes_length wr, redirectBytes] at h
  simp only [slice_append_iff, leBytes_length] at h
  obtain ⟨hoff, hlen⟩ := h
  unfold redirectAt
  rw [le32_of_slice hoff, le32_of_slice hlen]

theorem fileAt_eq {wf : WebrootFile} (h : m.slice p WEBROOT_FILE_SZ = fileBytes wf) : fileAt m p = wf := by
  rw [← fileBytes_length wf, fileBytes] at h
  simp only [slice_append_iff, leBytes_length, wf.digestLen, Nat.add_assoc] at h
  obtain ⟨hoff, hlen, htype, htypeLen, hmodified, hdigest⟩ := h
  unfold fileAt
  cases wf
  simp only [WebrootFile.mk.injEq]
  exact ⟨le64_of_slice hoff, le64_of_slice hlen, le32_of_slice htype, le32_of_slice htypeLen,
    le32_of_slice hmodified, hdigest⟩

theorem readHdr_eq {hdr : WebrootHdr} {pad : UInt32} (h : m.slice 0 WEBROOT_HDR_SZ = hdrBytes hdr pad) :
    readHdr m = hdr := by
  rw [← hdrBytes_length hdr pad, hdrBytes] at h
  simp only [slice_append_iff, leBytes_length, Nat.zero_add, Nat.add_assoc] at h
  obtain ⟨h0, h4, h8, h12, h16, h20, h24, -⟩ := h
  unfold readHdr
  rw [le32_of_slice h0, le32_of_slice h4, le32_of_slice h8, le32_of_slice h12, le32_of_slice h16,
    le32_of_slice h20, le32_of_slice h24]

end records

end Ashttpd
