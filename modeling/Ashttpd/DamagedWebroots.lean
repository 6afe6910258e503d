import Ashttpd.WebrootOpen

/-!
# Looking up URIs in a damaged webroot

What `webroot_open` checks is where the sections of the index end. The records themselves are
taken as they are, and a lookup goes well exactly when the records on its way do.
-/
namespace Ashttpd

open Relation

variable {content : Bytes} {r : Webroot} {m : Mem} {c c' : QueryCall} {d : TrieDedge}
  {ptr len : UInt64} {idx : UInt32} {i : ℕ}

/-- The tables have the sizes that the counts of the webroot tell. -/
structure Tabled (r : Webroot) : Prop where
  trie : r.rTrie.length = r.rNumEdges.toNat
  redirects : r.rRedir.length = r.rNumRedirect.toNat
  oids : r.rNumOid.toNat = r.rRedir.length + r.rFile.length
  labels : ∀ d ∈ r.rTrie, d.reStr.length = RE_EDGE_MAX

/-- The sections of an accepted file end within the mapping, so that the count of objects,
a sum of two words, cannot go round. -/
theorem webrootOpen_tabled (h : webrootOpen content = some r) : Tabled r := by
  unfold webrootOpen at h
  by_cases hlen : content.length < WEBROOT_HDR_SZ
  · simp [hlen] at h
  by_cases hmagic : (readHdr (bytesAt content)).hMagic = WEBROOT_MAGIC
  swap
  · simp [hlen, hmagic] at h
  by_cases hvers : (readHdr (bytesAt content)).hVers = WEBROOT_CURRENT_VER
  swap
  · simp [hlen, hmagic, hvers] at h
  simp only [hlen, hmagic, hvers, ne_eq, not_true_eq_false, if_false] at h
  generalize readHdr (bytesAt content) = hdr at h
  cases hmap : mapWebroot content hdr.hFilesBegin with
  | none => simp [hmap] at h
  | some map =>
    by_cases hend : map.length < hdr.indexEnd
    · simp [hmap, hend] at h
    simp only [hmap, hend, if_false, Option.some.injEq] at h
    subst h
    have hbound : map.length < 2 ^ 32 := by
      unfold mapWebroot at hmap
      split_ifs at hmap with hsize hzero
      obtain rfl := Option.some.inj hmap
      have := hdr.hFilesBegin.toNat_lt
      simp only [List.length_take]
      omega
    have hsum : hdr.hNumRedirect.toNat + hdr.hNumFile.toNat < 2 ^ 32 := by
      simp only [WebrootHdr.indexEnd, WEBROOT_HDR_SZ, TRIE_DEDGE_SZ, WEBROOT_REDIRECT_SZ,
        WEBROOT_FILE_SZ] at hend
      omega
    refine ⟨tableAt_length .., tableAt_length .., ?_, ?_⟩
    · simp only [WebrootHdr.webroot, tableAt_length, UInt32.toNat_add]
      exact Nat.mod_eq_of_lt hsum
    · intro d hd
      obtain ⟨i, -, rfl⟩ := List.mem_map.mp hd
      exact Mem.slice_length ..

/-- `webroot_find` is contained on the text at `ptr`: it returns, none of its reads leaves a
table or a label, none of its assertions fails, and the slice it returns is mapped. -/
def Contained (r : Webroot) (m : Mem) (ptr len : UInt64) : Prop :=
  ∃ idx name, Returns (trieQueryCall r m) idx (firstCall ptr len) ∧
    webrootObject r idx = .ok name ∧
    ∀ s ∈ objectSlice r idx, s.1.toNat + s.2.toNat ≤ r.rMap.length

def Readable (r : Webroot) (i : ℕ) : Prop :=
  ∃ d, r.rTrie[i]? = some d ∧ d.reStrlen.toNat ≤ RE_EDGE_MAX

def LooksAt (r : Webroot) (m : Mem) (c : QueryCall) (i : ℕ) : Prop :=
  Probes (trieCmp r m c.ptr.toNat) c.re.toNat c.numEdges.toNat i

def StopsAt (r : Webroot) (m : Mem) (c : QueryCall) (d : TrieDedge) : Prop :=
  ∃ i, LooksAt r m c i ∧ trieCmp r m c.ptr.toNat i = .ok 0 ∧ r.rTrie[i]? = some d

/-- The record it stops at leaves the rest of the text to the records below. -/
def Descends (r : Webroot) (m : Mem) (c c' : QueryCall) : Prop :=
  ∃ d, StopsAt r m c d ∧ c.len ≠ d.reStrlen.toUInt64 ∧
    c' = ⟨d.reEdgesIdx, d.reNumEdges, c.ptr + d.reStrlen.toUInt64, c.len - d.reStrlen.toUInt64⟩

/-- The object is none, or it is in its table and the slice it refers to is mapped. -/
inductive Answerable (r : Webroot) (idx : UInt32) : Prop
  | invalid (h : idx = GIDX_INVALID_OID)
  | code {redir : WebrootRedirect} (h : r.rRedir[idx.toNat]? = some redir)
      (hcode : redir.rOff = WEBROOT_INVALID_REDIRECT)
  | redirect {redir : WebrootRedirect} (h : r.rRedir[idx.toNat]? = some redir)
      (hin : redir.rOff.toNat + redir.rLen.toNat ≤ r.rMap.length)
  | file {file : WebrootFile} (hidx : r.rRedir.length ≤ idx.toNat)
      (h : r.rFile[idx.toNat - r.rRedir.length]? = some file)
      (hin : file.fType.toNat + file.fTypeLen.toNat ≤ r.rMap.length)

/-- The records on the way of a lookup are sound, and the way does not come back to itself. -/
structure Undamaged (r : Webroot) (m : Mem) (c : QueryCall) : Prop where
  readable : ∀ c', ReflTransGen (Descends r m) c c' → ∀ i, LooksAt r m c' i → Readable r i
  linked : ∀ c', ReflTransGen (Descends r m) c c' → ∀ d, StopsAt r m c' d →
    c'.len ≠ d.reStrlen.toUInt64 → d.reEdgesIdx < r.rNumEdges
  answerable : ∀ c', ReflTransGen (Descends r m) c c' → ∀ d, StopsAt r m c' d →
    c'.len = d.reStrlen.toUInt64 → Answerable r d.reOid
  acyclic : ∀ c', ReflTransGen (Descends r m) c c' → ¬ TransGen (Descends r m) c' c'

theorem readDedge_ok_iff (ht : Tabled r) : readDedge r i = .ok d ↔ r.rTrie[i]? = some d := by
  unfold readDedge
  rw [← ht.trie]
  by_cases hi : i < r.rTrie.length
  · simp [hi]
  · simp [hi]

theorem trieCmp_ok_iff (ht : Tabled r) {p : ℕ} :
    (∃ x, trieCmp r m p i = .ok x) ↔ Readable r i := by
  unfold trieCmp Readable
  cases hd : readDedge r i with
  | error f =>
    refine iff_of_false (by simp) fun ⟨d, hrec, _⟩ => ?_
    exact nomatch hd.symm.trans ((readDedge_ok_iff ht).mpr hrec)
  | ok d =>
    have hrec := (readDedge_ok_iff ht).mp hd
    by_cases hlen : RE_EDGE_MAX < d.reStrlen.toNat
    · refine iff_of_false (by simp [hlen]) fun ⟨d', hrec', hle⟩ => ?_
      obtain rfl : d = d' := Option.some.inj (hrec.symm.trans hrec')
      omega
    · exact iff_of_true (by simp [hlen]) ⟨d, hrec, by omega⟩

theorem StopsAt.call_eq (ht : Tabled r) (h : StopsAt r m c d) :
    trieQueryCall r m c = trieHit r c d := by
  obtain ⟨i, hlook, hzero, hrec⟩ := h
  simp [trieQueryCall, Probes.found hlook hzero (Nat.le_refl _), (readDedge_ok_iff ht).mpr hrec]

/-- A call goes well when the records it looks at do and the one it stops at leads on. -/
theorem trieQueryCall_ok_iff (ht : Tabled r) :
    (∃ x, trieQueryCall r m c = .ok x) ↔ (∀ i, LooksAt r m c i → Readable r i) ∧
      ∀ d, StopsAt r m c d → c.len ≠ d.reStrlen.toUInt64 → d.reEdgesIdx < r.rNumEdges := by
  have hlooks : (∃ x, bisect (trieCmp r m c.ptr.toNat) c.numEdges.toNat c.re.toNat
      c.numEdges.toNat = .ok x) ↔ ∀ i, LooksAt r m c i → Readable r i := by
    rw [bisect_ok_iff (Nat.le_refl _)]
    simp only [trieCmp_ok_iff ht, LooksAt]
  constructor
  · rintro ⟨x, hx⟩
    refine ⟨hlooks.mp ?_, fun d hstop hlen => ?_⟩
    · cases hb : bisect (trieCmp r m c.ptr.toNat) c.numEdges.toNat c.re.toNat
          c.numEdges.toNat with
      | error f => simp [trieQueryCall, hb] at hx
      | ok found => exact ⟨found, rfl⟩
    · rw [hstop.call_eq ht] at hx
      by_contra hunlinked
      simp [trieHit, sub_eq_zero, hlen, hunlinked] at hx
  · rintro ⟨hread, hlinked⟩
    obtain ⟨found, hb⟩ := hlooks.mpr hread
    cases found with
    | none => exact ⟨_, by simp [trieQueryCall, hb]; rfl⟩
    | some i =>
      obtain ⟨hlook, hzero⟩ := bisect_some hb
      obtain ⟨d, hrec, -⟩ := hread i hlook
      have hstop : StopsAt r m c d := ⟨i, hlook, hzero, hrec⟩
      rw [hstop.call_eq ht]
      by_cases hlen : c.len = d.reStrlen.toUInt64
      · exact ⟨.inl d.reOid, by simp [trieHit, hlen]⟩
      · exact ⟨.inr _, by simp [trieHit, sub_eq_zero, hlen, hlinked d hstop hlen]; rfl⟩

/-- What a call returns is no object, or the one of the record it stops at with nothing left. -/
theorem trieQueryCall_returns (ht : Tabled r) (h : trieQueryCall r m c = .ok (.inl idx)) :
    idx = GIDX_INVALID_OID ∨
      ∃ d, StopsAt r m c d ∧ c.len = d.reStrlen.toUInt64 ∧ idx = d.reOid := by
  obtain ⟨hread, -⟩ := (trieQueryCall_ok_iff ht).mp ⟨_, h⟩
  cases hb : bisect (trieCmp r m c.ptr.toNat) c.numEdges.toNat c.re.toNat c.numEdges.toNat with
  | error f => simp [trieQueryCall, hb] at h
  | ok found =>
    cases found with
    | none =>
      left
      simpa [trieQueryCall, hb] using h.symm
    | some i =>
      right
      obtain ⟨hlook, hzero⟩ := bisect_some hb
      obtain ⟨d, hrec, -⟩ := hread i hlook
      have hstop : StopsAt r m c d := ⟨i, hlook, hzero, hrec⟩
      rw [hstop.call_eq ht, trieHit] at h
      split_ifs at h with hlen hlinked
      · exact ⟨d, hstop, sub_eq_zero.mp hlen, by simpa using h.symm⟩
      · cases h

theorem StopsAt.returns (ht : Tabled r) (h : StopsAt r m c d) (hlen : c.len = d.reStrlen.toUInt64) :
    trieQueryCall r m c = .ok (.inl d.reOid) := by
  rw [h.call_eq ht]
  simp [trieHit, hlen]

/-- A call that goes well leads to another exactly when it descends there. -/
theorem tailCalls_iff (ht : Tabled r) (hok : ∃ x, trieQueryCall r m c = .ok x) :
    TailCalls (trieQueryCall r m) c c' ↔ Descends r m c c' := by
  obtain ⟨hread, hlinked⟩ := (trieQueryCall_ok_iff ht).mp hok
  constructor
  · intro h
    have hcall : trieQueryCall r m c = .ok (.inr c') := h
    cases hb : bisect (trieCmp r m c.ptr.toNat) c.numEdges.toNat c.re.toNat c.numEdges.toNat with
    | error f => simp [trieQueryCall, hb] at hcall
    | ok found =>
      cases found with
      | none => simp [trieQueryCall, hb] at hcall
      | some i =>
        obtain ⟨hlook, hzero⟩ := bisect_some hb
        obtain ⟨d, hrec, -⟩ := hread i hlook
        have hstop : StopsAt r m c d := ⟨i, hlook, hzero, hrec⟩
        rw [hstop.call_eq ht, trieHit] at hcall
        split_ifs at hcall with hlen hlt
        · cases hcall
        · exact ⟨d, hstop, fun he => hlen (sub_eq_zero.mpr he), by simpa using hcall.symm⟩
  · rintro ⟨d, hstop, hlen, rfl⟩
    have hlt := hlinked d hstop hlen
    rw [TailCalls, hstop.call_eq ht]
    simp [trieHit, sub_eq_zero, hlen, hlt]

/-- Where the calls go well, the ways down are the ways of the calls. -/
theorem reaches_iff (ht : Tabled r)
    (hok : ∀ c', ReflTransGen (TailCalls (trieQueryCall r m)) c c' →
      ∃ x, trieQueryCall r m c' = .ok x) :
    ReflTransGen (TailCalls (trieQueryCall r m)) c c' ↔ ReflTransGen (Descends r m) c c' := by
  constructor
  · intro h
    induction h with
    | refl => exact .refl
    | tail hway hlast ih => exact ih.tail ((tailCalls_iff ht (hok _ hway)).mp hlast)
  · intro h
    induction h with
    | refl => exact .refl
    | tail _ hlast ih => exact ih.tail ((tailCalls_iff ht (hok _ ih)).mpr hlast)

theorem comesBack_iff (ht : Tabled r)
    (hok : ∀ c', ReflTransGen (TailCalls (trieQueryCall r m)) c c' →
      ∃ x, trieQueryCall r m c' = .ok x) :
    TransGen (TailCalls (trieQueryCall r m)) c c ↔ TransGen (Descends r m) c c := by
  rw [TransGen.head'_iff, TransGen.head'_iff]
  apply exists_congr
  intro c'
  rw [tailCalls_iff ht (hok c .refl)]
  apply and_congr_right
  intro hdown
  exact reaches_iff ht fun c'' hway =>
    hok c'' (hway.head ((tailCalls_iff ht (hok c .refl)).mpr hdown))

theorem straight_iff (ht : Tabled r) : Straight (trieQueryCall r m) c ↔
    (∀ c', ReflTransGen (Descends r m) c c' → ∀ i, LooksAt r m c' i → Readable r i) ∧
    (∀ c', ReflTransGen (Descends r m) c c' → ∀ d, StopsAt r m c' d →
      c'.len ≠ d.reStrlen.toUInt64 → d.reEdgesIdx < r.rNumEdges) ∧
    ∀ c', ReflTransGen (Descends r m) c c' → ¬ TransGen (Descends r m) c' c' := by
  constructor
  · rintro ⟨hok, hacyclic⟩
    have hcalls := fun c' hway => (trieQueryCall_ok_iff ht).mp (hok c' hway)
    refine ⟨fun c' hdown => (hcalls c' ((reaches_iff ht hok).mpr hdown)).1,
      fun c' hdown => (hcalls c' ((reaches_iff ht hok).mpr hdown)).2, fun c' hdown hback => ?_⟩
    have hway := (reaches_iff ht hok).mpr hdown
    exact hacyclic c' hway ((comesBack_iff ht fun c'' hc'' => hok c'' (hway.trans hc'')).mpr hback)
  · rintro ⟨hread, hlinked, hacyclic⟩
    have hgood : ∀ c', ReflTransGen (Descends r m) c c' → ∃ x, trieQueryCall r m c' = .ok x :=
      fun c' hdown => (trieQueryCall_ok_iff ht).mpr ⟨hread c' hdown, hlinked c' hdown⟩
    have hdown : ∀ c', ReflTransGen (TailCalls (trieQueryCall r m)) c c' →
        ReflTransGen (Descends r m) c c' := by
      intro c' hway
      induction hway with
      | refl => exact .refl
      | tail _ hlast ih => exact ih.tail ((tailCalls_iff ht (hgood _ ih)).mp hlast)
    have hok := fun c' hway => hgood c' (hdown c' hway)
    refine ⟨hok, fun c' hway hback => hacyclic c' (hdown c' hway) ?_⟩
    exact (comesBack_iff ht fun c'' hc'' => hok c'' (hway.trans hc'')).mp hback

/-- The assertion on the object and the reads of its record come to one condition. -/
theorem answerable_iff (ht : Tabled r) : Answerable r idx ↔
    ∃ name, webrootObject r idx = .ok name ∧
      ∀ s ∈ objectSlice r idx, s.1.toNat + s.2.toNat ≤ r.rMap.length := by
  by_cases hnone : idx = GIDX_INVALID_OID
  · exact iff_of_true (.invalid hnone) ⟨none, by simp [webrootObject, hnone],
      by simp [objectSlice, hnone]⟩
  have hredirs := ht.redirects
  have hoids := ht.oids
  by_cases hredir : idx < r.rNumRedirect
  · have hlt : idx.toNat < r.rRedir.length := by
      rw [hredirs]
      exact UInt32.lt_iff_toNat_lt.mp hredir
    have hoid : idx < r.rNumOid := UInt32.lt_iff_toNat_lt.mpr (by omega)
    have hrec := List.getElem?_eq_getElem hlt
    generalize r.rRedir[idx.toNat] = redir at hrec
    constructor
    · intro h
      cases h with
      | invalid h => exact absurd h hnone
      | code h hcode =>
        obtain rfl : redir = _ := Option.some.inj (hrec.symm.trans h)
        exact ⟨_, by simp [webrootObject, hnone, hoid, hredir, hrec, hcode]; rfl,
          by simp [objectSlice, hnone, hredir, hrec, hcode]⟩
      | redirect h hin =>
        obtain rfl : redir = _ := Option.some.inj (hrec.symm.trans h)
        by_cases hcode : redir.rOff = WEBROOT_INVALID_REDIRECT
        · exact ⟨_, by simp [webrootObject, hnone, hoid, hredir, hrec, hcode]; rfl,
            by simp [objectSlice, hnone, hredir, hrec, hcode]⟩
        · exact ⟨_, by simp [webrootObject, hnone, hoid, hredir, hrec, hcode]; rfl,
            by simpa [objectSlice, hnone, hredir, hrec, hcode] using hin⟩
      | file hidx => omega
    · rintro ⟨name, -, hin⟩
      by_cases hcode : redir.rOff = WEBROOT_INVALID_REDIRECT
      · exact .code hrec hcode
      · exact .redirect hrec (hin (redir.rOff, redir.rLen)
          (by simp [objectSlice, hnone, hredir, hrec, hcode]))
  · have hge : r.rRedir.length ≤ idx.toNat := by
      rw [hredirs]
      exact UInt32.le_iff_toNat_le.mp (UInt32.not_lt.mp hredir)
    have hsub : (idx - r.rNumRedirect).toNat = idx.toNat - r.rRedir.length := by
      rw [hredirs]
      exact UInt32.toNat_sub_of_le _ _ (UInt32.not_lt.mp hredir)
    constructor
    · intro h
      cases h with
      | invalid h => exact absurd h hnone
      | code h => exact absurd (List.getElem?_eq_some_iff.mp h).1 (by omega)
      | redirect h => exact absurd (List.getElem?_eq_some_iff.mp h).1 (by omega)
      | file hidx h hin =>
        have hlt := (List.getElem?_eq_some_iff.mp h).1
        have hoid : idx < r.rNumOid := UInt32.lt_iff_toNat_lt.mpr (by omega)
        exact ⟨_, by simp [webrootObject, hnone, hoid, hredir, hsub, h]; rfl,
          by simpa [objectSlice, hnone, hredir, hsub, h] using hin⟩
    · rintro ⟨name, hname, hin⟩
      cases hrec : r.rFile[idx.toNat - r.rRedir.length]? with
      | none =>
        unfold webrootObject at hname
        split_ifs at hname
        simp [hsub, hrec] at hname
      | some file =>
        exact .file hge hrec (hin (file.fType, file.fTypeLen)
          (by simp [objectSlice, hnone, hredir, hsub, hrec]))

theorem undamaged_of_contained (ht : Tabled r) (h : Contained r m ptr len) :
    Undamaged r m (firstCall ptr len) := by
  obtain ⟨idx, name, hreturns, hobj⟩ := h
  have hstraight := straight_of_returns hreturns
  obtain ⟨hread, hlinked, hacyclic⟩ := (straight_iff ht).mp hstraight
  refine ⟨hread, hlinked, fun c' hdown d hstop hlen => ?_, hacyclic⟩
  have hthere := hreturns.follow ((reaches_iff ht hstraight.ok).mpr hdown)
  obtain rfl := hthere.unique (.here (hstop.returns ht hlen))
  exact (answerable_iff ht).mpr ⟨name, hobj⟩

theorem Undamaged.contained (h : Undamaged r m (firstCall ptr len)) (ht : Tabled r) :
    Contained r m ptr len := by
  have hstraight := (straight_iff ht).mpr ⟨h.readable, h.linked, h.acyclic⟩
  obtain ⟨idx, hreturns⟩ := hstraight.returns
  obtain ⟨c', hway, hlast⟩ := hreturns.last
  have hanswer : Answerable r idx := by
    rcases trieQueryCall_returns ht hlast with hnone | ⟨d, hstop, hlen, rfl⟩
    · exact .invalid hnone
    · exact h.answerable c' ((reaches_iff ht hstraight.ok).mp hway) d hstop hlen
  obtain ⟨name, hobj, hin⟩ := (answerable_iff ht).mp hanswer
  exact ⟨idx, name, hreturns, hobj, hin⟩

/-- For every accepted file and every text, terminated or not: the lookup is contained exactly
when it meets no damage. -/
theorem webrootFind_contained_iff (h : webrootOpen content = some r) :
    Contained r m ptr len ↔ Undamaged r m (firstCall ptr len) :=
  ⟨undamaged_of_contained (webrootOpen_tabled h), fun hu => hu.contained (webrootOpen_tabled h)⟩

/-- `webroot_open` goes through when none of its checks fails. -/
theorem webrootOpen_eq {map : Bytes} (hlen : ¬ content.length < WEBROOT_HDR_SZ)
    (hmagic : (readHdr (bytesAt content)).hMagic = WEBROOT_MAGIC)
    (hvers : (readHdr (bytesAt content)).hVers = WEBROOT_CURRENT_VER)
    (hmap : mapWebroot content (readHdr (bytesAt content)).hFilesBegin = some map)
    (hend : ¬ map.length < (readHdr (bytesAt content)).indexEnd) :
    webrootOpen content = some ((readHdr (bytesAt content)).webroot map) := by
  unfold webrootOpen
  simp only [hlen, hmagic, hvers, ne_eq, not_true_eq_false, if_false, hmap, hend]

/-- An index of one record, for `/` and the first object, before the redirects given. -/
def indexOfSlash (numRedirect : UInt8) (redirects : Bytes) : Bytes :=
  [1, 0, 0, 0, numRedirect, 0, 0, 0, 0, 0, 0, 0, 0, 0, 0, 0, 0x77, 0x57, 0x13, 0x37, 3, 0, 0, 0,
    50 + 8 * numRedirect, 0, 0, 0, 0, 0, 0, 0] ++
  [0, 0, 0, 0, 0, 0, 0, 0, 0, 1, 0x2f, 0, 0, 0, 0, 0, 0, 0] ++ redirects

/-- The webroot of such an index. -/
def webrootOfSlash (numRedirect : UInt8) (redirects : Bytes) : Webroot :=
  (readHdr (bytesAt (indexOfSlash numRedirect redirects))).webroot
    (indexOfSlash numRedirect redirects)

/-- `/` is a code object. -/
theorem webrootFind_contained_iff_code : ∃ r,
    webrootOpen (indexOfSlash 1 [255, 255, 255, 255, 147, 1, 0, 0]) = some r ∧
    Contained r (bytesAt [0x2f]) 0 1 ∧ Undamaged r (bytesAt [0x2f]) (firstCall 0 1) := by
  have hopen : webrootOpen (indexOfSlash 1 [255, 255, 255, 255, 147, 1, 0, 0]) =
      some (webrootOfSlash 1 [255, 255, 255, 255, 147, 1, 0, 0]) :=
    webrootOpen_eq (by decide) (by decide) (by decide) (by decide)
      (by decide)
  have hslice : objectSlice (webrootOfSlash 1 [255, 255, 255, 255, 147, 1, 0, 0]) 0 = none := by
    decide
  have hcontained : Contained (webrootOfSlash 1 [255, 255, 255, 255, 147, 1, 0, 0])
      (bytesAt [0x2f]) 0 1 :=
    ⟨0, some ⟨none, .moved none, 403⟩, .here (by decide), by decide, by simp [hslice]⟩
  exact ⟨_, hopen, hcontained, (webrootFind_contained_iff hopen).mp hcontained⟩

/-- The object of the record does not exist, and the assertion on it fails. -/
theorem accepted_uncontained : ∃ r, webrootOpen (indexOfSlash 0 []) = some r ∧
    (bytesAt [0x2f]).HoldsStr 0 [0x2f] ∧ ¬ Contained r (bytesAt [0x2f]) 0 1 := by
  have hopen : webrootOpen (indexOfSlash 0 []) = some (webrootOfSlash 0 []) :=
    webrootOpen_eq (by decide) (by decide) (by decide) (by decide)
      (by decide)
  have hcall : trieQueryCall (webrootOfSlash 0 []) (bytesAt [0x2f]) (firstCall 0 1) =
      .ok (.inl 0) := by decide
  have hfault : webrootObject (webrootOfSlash 0 []) 0 = .error .assertion := by decide
  refine ⟨_, hopen, ⟨by decide, by decide, by decide⟩, ?_⟩
  rintro ⟨idx, name, hreturns, hobj, -⟩
  obtain rfl := hreturns.unique (.here hcall)
  exact nomatch hfault.symm.trans hobj

end Ashttpd
