import Ashttpd.Webroot
import Ashttpd.FiniteCalls
import Mathlib.Data.Finite.Prod

/-!
# Opening a webroot file (`map_webroot`, `webroot_open`)

The tables are read out of the mapped index as it stands, so that they hold whatever the file
holds. Integers are in the order of the machine, the low byte first.

The length of a query is a machine word here: taking more away than is left goes round, and the
query reads on behind the text.
-/
namespace Ashttpd

def WEBROOT_MAGIC : UInt32 := 0x37135777
def WEBROOT_CURRENT_VER : UInt32 := 3
def WEBROOT_HDR_SZ : ℕ := 32
def TRIE_DEDGE_SZ : ℕ := 18
def WEBROOT_REDIRECT_SZ : ℕ := 8
def WEBROOT_FILE_SZ : ℕ := 48

/-- The number that bytes stand for, the low one first. -/
def leNat : Bytes → ℕ
  | [] => 0
  | b :: bs => b.toNat + 256 * leNat bs

def le32 (m : Mem) (p : ℕ) : UInt32 := UInt32.ofNat (leNat (m.slice p 4))
def le64 (m : Mem) (p : ℕ) : UInt64 := UInt64.ofNat (leNat (m.slice p 8))

/-- `struct webroot_hdr`, less its padding. -/
structure WebrootHdr where
  hNumEdges : UInt32
  hNumRedirect : UInt32
  hNumFile : UInt32
  hStrtabSz : UInt32
  hMagic : UInt32
  hVers : UInt32
  hFilesBegin : UInt32
  deriving DecidableEq, Repr

def bytesAt (bs : Bytes) : Mem := fun i => bs.getD i 0

def readHdr (m : Mem) : WebrootHdr where
  hNumEdges := le32 m 0
  hNumRedirect := le32 m 4
  hNumFile := le32 m 8
  hStrtabSz := le32 m 12
  hMagic := le32 m 16
  hVers := le32 m 20
  hFilesBegin := le32 m 24

def dedgeAt (m : Mem) (p : ℕ) : TrieDedge where
  reOid := le32 m p
  reEdgesIdx := le32 m (p + 4)
  reNumEdges := m (p + 8)
  reStrlen := m (p + 9)
  reStr := m.slice (p + 10) RE_EDGE_MAX

def redirectAt (m : Mem) (p : ℕ) : WebrootRedirect where
  rOff := le32 m p
  rLen := le32 m (p + 4)

def fileAt (m : Mem) (p : ℕ) : WebrootFile where
  fOff := le64 m p
  fLen := le64 m (p + 8)
  fType := le32 m (p + 16)
  fTypeLen := le32 m (p + 20)
  fModified := le32 m (p + 24)
  fDigest := m.slice (p + 28) ETAG_SZ
  digestLen := m.slice_length _ _

/-- An array of `n` records of one size. -/
def tableAt {α : Type} (read : ℕ → α) (size p n : ℕ) : List α :=
  (List.range n).map fun i => read (p + i * size)

@[simp] theorem tableAt_length {α : Type} (read : ℕ → α) (size p n : ℕ) :
    (tableAt read size p n).length = n := by
  simp [tableAt]

/-- `map_webroot` for a file of these bytes. A mapping of no bytes is refused. -/
def mapWebroot (content : Bytes) (sz : UInt32) : Option Bytes :=
  if content.length < sz.toNat then none
  else if sz = 0 then none
  else some (content.take sz.toNat)

/-- Where the string table ends, as `webroot_open` adds up the sections. -/
def WebrootHdr.indexEnd (hdr : WebrootHdr) : ℕ :=
  WEBROOT_HDR_SZ + hdr.hNumEdges.toNat * TRIE_DEDGE_SZ +
    hdr.hNumRedirect.toNat * WEBROOT_REDIRECT_SZ + hdr.hNumFile.toNat * WEBROOT_FILE_SZ +
    hdr.hStrtabSz.toNat

/-- The webroot that the header describes over the mapped bytes. -/
def WebrootHdr.webroot (hdr : WebrootHdr) (map : Bytes) : Webroot :=
  let rTrie := WEBROOT_HDR_SZ
  let rRedir := rTrie + hdr.hNumEdges.toNat * TRIE_DEDGE_SZ
  let rFile := rRedir + hdr.hNumRedirect.toNat * WEBROOT_REDIRECT_SZ
  { rMap := map
    rNumEdges := hdr.hNumEdges
    rNumRedirect := hdr.hNumRedirect
    rNumOid := hdr.hNumRedirect + hdr.hNumFile
    rTrie := tableAt (dedgeAt (bytesAt map)) TRIE_DEDGE_SZ rTrie hdr.hNumEdges.toNat
    rRedir := tableAt (redirectAt (bytesAt map)) WEBROOT_REDIRECT_SZ rRedir hdr.hNumRedirect.toNat
    rFile := tableAt (fileAt (bytesAt map)) WEBROOT_FILE_SZ rFile hdr.hNumFile.toNat }

/-- `webroot_open` on a file of these bytes, where the system calls succeed. -/
def webrootOpen (content : Bytes) : Option Webroot :=
  if content.length < WEBROOT_HDR_SZ then none
  else
    let hdr := readHdr (bytesAt content)
    if hdr.hMagic ≠ WEBROOT_MAGIC then none
    else if hdr.hVers ≠ WEBROOT_CURRENT_VER then none
    else match mapWebroot content hdr.hFilesBegin with
      | none => none
      | some map => if map.length < hdr.indexEnd then none else some (hdr.webroot map)

/-- The arguments of a call of `trie_query`: the records and the text it is given. -/
structure QueryCall where
  re : UInt32
  numEdges : UInt8
  ptr : UInt64
  len : UInt64
  deriving DecidableEq, Repr

instance : Finite QueryCall := by
  apply Finite.of_injective fun c : QueryCall =>
    (c.re.toFin, c.numEdges.toFin, c.ptr.toFin, c.len.toFin)
  rintro ⟨re, numEdges, ptr, len⟩ ⟨re', numEdges', ptr', len'⟩ h
  simp only [Prod.mk.injEq, UInt32.toFin_inj, UInt8.toFin_inj, UInt64.toFin_inj] at h
  simp [h]

/-- The call `webroot_find` makes. -/
def firstCall (ptr len : UInt64) : QueryCall := ⟨0, 1, ptr, len⟩

/-- What a call does with the record its search has found. -/
def trieHit (r : Webroot) (c : QueryCall) (d : TrieDedge) : Except Fault (UInt32 ⊕ QueryCall) :=
  let matchLen := d.reStrlen.toUInt64
  if c.len - matchLen = 0 then .ok (.inl d.reOid)
  else if d.reEdgesIdx < r.rNumEdges then
    .ok (.inr ⟨d.reEdgesIdx, d.reNumEdges, c.ptr + matchLen, c.len - matchLen⟩)
  else .error .assertion

/-- `trie_query` up to its own call. -/
def trieQueryCall (r : Webroot) (m : Mem) (c : QueryCall) : Except Fault (UInt32 ⊕ QueryCall) :=
  match bisect (trieCmp r m c.ptr.toNat) c.numEdges.toNat c.re.toNat c.numEdges.toNat with
  | .error f => .error f
  | .ok none => .ok (.inl GIDX_INVALID_OID)
  | .ok (some i) =>
    match readDedge r i with
    | .error f => .error f
    | .ok d => trieHit r c d

/-- Where no length is taken below zero, both readings of the query agree. -/
theorem trieQueryFrom_returns {r : Webroot} {m : Mem} {fuel : ℕ} {oid : UInt32} {c : QueryCall}
    (hend : c.ptr.toNat + c.len.toNat < 2 ^ 64)
    (h : trieQueryFrom r m fuel c.re.toNat c.numEdges.toNat c.ptr.toNat c.len.toNat = .ok oid) :
    Returns (trieQueryCall r m) oid c := by
  induction fuel generalizing c with
  | zero => exact nomatch h
  | succ fuel ih =>
    unfold trieQueryFrom at h
    cases hb : bisect (trieCmp r m c.ptr.toNat) c.numEdges.toNat c.re.toNat c.numEdges.toNat with
    | error f => simp [hb] at h
    | ok found =>
      cases found with
      | none =>
        obtain rfl : GIDX_INVALID_OID = oid := by simpa [hb] using h
        exact .here (by simp [trieQueryCall, hb])
      | some i =>
        cases hd : readDedge r i with
        | error f => simp [hb, hd] at h
        | ok d =>
          simp only [hb, hd] at h
          split_ifs at h with hshort hnothing hlinked
          · -- the whole text is matched
            obtain rfl : d.reOid = oid := by simpa using h
            have hlen : c.len = d.reStrlen.toUInt64 := by
              rw [← UInt64.toNat_inj, UInt8.toNat_toUInt64]
              omega
            exact .here (by simp [trieQueryCall, hb, hd, trieHit, hlen])
          · have hle : d.reStrlen.toUInt64 ≤ c.len := by
              rw [UInt64.le_iff_toNat_le, UInt8.toNat_toUInt64]
              omega
            have hsub : (c.len - d.reStrlen.toUInt64).toNat = c.len.toNat - d.reStrlen.toNat := by
              rw [UInt64.toNat_sub_of_le _ _ hle, UInt8.toNat_toUInt64]
            have hadd : (c.ptr + d.reStrlen.toUInt64).toNat = c.ptr.toNat + d.reStrlen.toNat := by
              rw [UInt64.toNat_add, UInt8.toNat_toUInt64]
              exact Nat.mod_eq_of_lt (by omega)
            have hne : c.len - d.reStrlen.toUInt64 ≠ 0 := by
              rw [ne_eq, ← UInt64.toNat_inj, hsub]
              exact hnothing
            rw [← hsub, ← hadd] at h
            have hcall : TailCalls (trieQueryCall r m) c ⟨d.reEdgesIdx, d.reNumEdges,
                c.ptr + d.reStrlen.toUInt64, c.len - d.reStrlen.toUInt64⟩ := by
              rw [TailCalls]
              simp [trieQueryCall, hb, hd, trieHit, hne, hlinked]
            refine .through hcall (ih ?_ h)
            rw [hsub, hadd]
            omega

/-- The rest of `webroot_find`, once `trie_query` has returned. -/
def webrootObject (r : Webroot) (idx : UInt32) : Except Fault (Option WebrootName) :=
  if idx = GIDX_INVALID_OID then .ok none
  else if ¬ idx < r.rNumOid then .error .assertion
  else if idx < r.rNumRedirect then
    match r.rRedir[idx.toNat]? with
    | none => .error .outOfRange
    | some redir =>
      if redir.rOff = WEBROOT_INVALID_REDIRECT then
        .ok (some ⟨none, .moved none, redir.rLen.toNat⟩)
      else .ok (some ⟨none, .moved (some (r.str redir.rOff redir.rLen)),
        HTTP_MOVED_PERMANENTLY⟩)
  else
    match r.rFile[(idx - r.rNumRedirect).toNat]? with
    | none => .error .outOfRange
    | some file =>
      .ok (some ⟨some (r.str file.fType file.fTypeLen),
        .data file.fOff.toNat file.fLen.toNat file.fModified file.fDigest, HTTP_FOUND⟩)

theorem webrootFind_eq (r : Webroot) (m : Mem) (ptr len : ℕ) :
    webrootFind r m ptr len = trieQuery r m ptr len >>= webrootObject r := by
  unfold webrootFind
  cases trieQuery r m ptr len with
  | error f => rfl
  | ok idx => rfl

theorem webrootFind_returns {r : Webroot} {m : Mem} {ptr len : UInt64} {name : Option WebrootName}
    (hend : ptr.toNat + len.toNat < 2 ^ 64)
    (h : webrootFind r m ptr.toNat len.toNat = .ok name) :
    ∃ idx, Returns (trieQueryCall r m) idx (firstCall ptr len) ∧ webrootObject r idx = .ok name := by
  rw [webrootFind_eq] at h
  cases hquery : trieQuery r m ptr.toNat len.toNat with
  | error f =>
    rw [hquery] at h
    exact nomatch h
  | ok idx =>
    rw [hquery] at h
    exact ⟨idx, trieQueryFrom_returns hend hquery, h⟩

/-- The offset and length of the slice of the index that an object is answered with. -/
def objectSlice (r : Webroot) (idx : UInt32) : Option (UInt32 × UInt32) :=
  if idx = GIDX_INVALID_OID then none
  else if idx < r.rNumRedirect then
    match r.rRedir[idx.toNat]? with
    | none => none
    | some redir =>
      if redir.rOff = WEBROOT_INVALID_REDIRECT then none else some (redir.rOff, redir.rLen)
  else
    match r.rFile[(idx - r.rNumRedirect).toNat]? with
    | none => none
    | some file => some (file.fType, file.fTypeLen)

/-- The answer's bytes are those of the slice. -/
theorem webrootObject_slice {r : Webroot} {idx : UInt32} {name : WebrootName}
    (h : webrootObject r idx = .ok (some name)) :
    (objectSlice r idx).map (fun s => r.str s.1 s.2) =
      match name.u with
      | .moved target => target
      | .data .. => name.mimeType := by
  unfold webrootObject at h
  unfold objectSlice
  by_cases hnone : idx = GIDX_INVALID_OID
  · simp [hnone] at h
  by_cases hoid : idx < r.rNumOid
  swap
  · simp [hnone, hoid] at h
  by_cases hredir : idx < r.rNumRedirect
  · simp only [hnone, hoid, hredir, not_true_eq_false, if_true, if_false] at h ⊢
    cases hr : r.rRedir[idx.toNat]? with
    | none => simp [hr] at h
    | some redir =>
      by_cases hcode : redir.rOff = WEBROOT_INVALID_REDIRECT
      · simp only [hr, hcode, if_true, Except.ok.injEq, Option.some.injEq] at h ⊢
        subst h
        rfl
      · simp only [hr, hcode, if_false, Except.ok.injEq, Option.some.injEq] at h ⊢
        subst h
        rfl
  · simp only [hnone, hoid, hredir, not_true_eq_false, if_false] at h ⊢
    cases hf : r.rFile[(idx - r.rNumRedirect).toNat]? with
    | none => simp [hf] at h
    | some file =>
      simp only [hf, Except.ok.injEq, Option.some.injEq] at h ⊢
      subst h
      rfl

end Ashttpd
