import Ashttpd.TrieBuilder
import Ashttpd.Bisection

/-!
# Looking up URIs in a webroot (`webroot.c`)

A webroot keeps the tables its file maps: trie records, redirects and files. The query of
`trie_query` is a text in memory, and what stands behind the text may be anything.
-/
namespace Ashttpd

def WEBROOT_INVALID_REDIRECT : UInt32 := 0xffffffff
def HTTP_FOUND : ℕ := 200
def HTTP_MOVED_PERMANENTLY : ℕ := 301
def HTTP_FORBIDDEN : ℕ := 403
def HTTP_NOT_MODIFIED : ℕ := 304
def ETAG_SZ : ℕ := 20

structure WebrootRedirect where
  rOff : UInt32
  rLen : UInt32
  deriving DecidableEq, Repr

structure WebrootFile where
  fOff : UInt64
  fLen : UInt64
  fType : UInt32
  fTypeLen : UInt32
  fModified : UInt32
  fDigest : Bytes
  digestLen : fDigest.length = ETAG_SZ
  deriving DecidableEq

/-- `struct _webroot`: the mapped bytes and the tables found in them. -/
structure Webroot where
  rMap : Bytes
  rNumEdges : UInt32
  rNumRedirect : UInt32
  rNumOid : UInt32
  rTrie : List TrieDedge
  rRedir : List WebrootRedirect
  rFile : List WebrootFile

/-- `memcmp` on runs of one length. -/
def memcmp : Bytes → Bytes → ℤ
  | a :: as, b :: bs => if a = b then memcmp as bs else a.toNat - b.toNat
  | _, _ => 0

/-- The record at an index of the trie table, if the table has that many. -/
def readDedge (r : Webroot) (i : ℕ) : Except Fault TrieDedge :=
  if i < r.rNumEdges.toNat then
    match r.rTrie[i]? with
    | some d => .ok d
    | none => .error .outOfRange
  else .error .outOfRange

/-- The comparison of `trie_query`: the text at `ptr` against the label of a record. -/
def trieCmp (r : Webroot) (m : Mem) (ptr i : ℕ) : Except Fault ℤ :=
  match readDedge r i with
  | .error f => .error f
  | .ok d =>
    if RE_EDGE_MAX < d.reStrlen.toNat then .error .outOfRange
    else .ok (memcmp (m.slice ptr d.reStrlen.toNat) (d.reStr.take d.reStrlen.toNat))

/-- `trie_query` on the `numEdges` records from `re` on and the `len` bytes at `ptr`. -/
def trieQueryFrom (r : Webroot) (m : Mem) : ℕ → ℕ → ℕ → ℕ → ℕ → Except Fault UInt32
  | 0, _, _, _, _ => .error .nontermination
  | fuel + 1, re, numEdges, ptr, len =>
    match bisect (trieCmp r m ptr) numEdges re numEdges with
    | .error f => .error f
    | .ok none => .ok GIDX_INVALID_OID
    | .ok (some i) =>
      match readDedge r i with
      | .error f => .error f
      | .ok d =>
        if len < d.reStrlen.toNat then .error .underflow
        else if len - d.reStrlen.toNat = 0 then .ok d.reOid
        else if d.reEdgesIdx < r.rNumEdges then
          trieQueryFrom r m fuel d.reEdgesIdx.toNat d.reNumEdges.toNat
            (ptr + d.reStrlen.toNat) (len - d.reStrlen.toNat)
        else .error .assertion

/-- `trie_query` as `webroot_find` calls it. A run of more calls than there are pairs of a
record and a remaining length comes back to one of them and goes on for ever. -/
def trieQuery (r : Webroot) (m : Mem) (ptr len : ℕ) : Except Fault UInt32 :=
  trieQueryFrom r m ((r.rNumEdges.toNat + 1) * (len + 1) + 1) 0 1 ptr len

/-- The union in `struct webroot_name`. A `moved` without a target has only its length set. -/
inductive WebrootBody where
  | data (fOfs fLen : ℕ) (fMtime : UInt32) (fEtag : Bytes)
  | moved (target : Option Bytes)
  deriving DecidableEq, Repr

/-- `struct webroot_name`; the type is only assigned for files. -/
structure WebrootName where
  mimeType : Option Bytes
  u : WebrootBody
  code : ℕ
  deriving DecidableEq, Repr

def Webroot.str (r : Webroot) (off len : UInt32) : Bytes :=
  (r.rMap.drop off.toNat).take len.toNat

/-- `webroot_find`: `none` is the return value zero. -/
def webrootFind (r : Webroot) (m : Mem) (ptr len : ℕ) : Except Fault (Option WebrootName) :=
  match trieQuery r m ptr len with
  | .error f => .error f
  | .ok idx =>
    if idx = GIDX_INVALID_OID then .ok none
    else if ¬ idx < r.rNumOid then .error .assertion
    else if idx < r.rNumRedirect then
      match r.rRedir[idx.toNat]? with
      | none => .error .outOfRange
      | some redir =>
        if redir.rOff = WEBROOT_INVALID_REDIRECT then
          .ok (some ⟨none, .moved none, redir.rLen.toNat⟩)
        else .ok (some ⟨none, .moved (some (r.str redir.rOff redir.rLen)),
          HTTP_MOVED_PERMANENTLY⟩)
    else
      match r.rFile[(idx - r.rNumRedirect).toNat]? with
      | none => .error .outOfRange
      | some file =>
        .ok (some ⟨some (r.str file.fType file.fTypeLen),
          .data file.fOff.toNat file.fLen.toNat file.fModified file.fDigest, HTTP_FOUND⟩)

theorem memcmp_cons_of_lt {a b : UInt8} (h : a < b) (s t : Bytes) :
    memcmp (a :: s) (b :: t) < 0 := by
  have hne : a ≠ b := fun he => absurd h (he ▸ UInt8.lt_irrefl a)
  have hlt := UInt8.lt_iff_toNat_lt.mp h
  simp only [memcmp, hne, if_false]
  omega

theorem le_of_memcmp_cons {a b : UInt8} {s t : Bytes} (h : memcmp (a :: s) (b :: t) ≤ 0) :
    a ≤ b := by
  by_contra hlt
  have hba : b < a := UInt8.not_le.mp hlt
  have hne : a ≠ b := fun he => absurd hba (he ▸ UInt8.lt_irrefl a)
  have hnat := UInt8.lt_iff_toNat_lt.mp hba
  simp only [memcmp, hne, if_false] at h
  omega

theorem memcmp_eq_zero_iff {s t : Bytes} (h : s.length = t.length) : memcmp s t = 0 ↔ s = t := by
  induction s generalizing t with
  | nil =>
    cases t with
    | nil => simp [memcmp]
    | cons b t => simp at h
  | cons a s ih =>
    cases t with
    | nil => simp at h
    | cons b t =>
      rw [memcmp, List.cons.injEq]
      split_ifs with heq
      · rw [ih (by simpa using h)]
        exact ⟨fun hs => ⟨heq, hs⟩, And.right⟩
      · constructor
        · intro hd
          exact absurd (UInt8.toNat_inj.mp (by omega)) heq
        · rintro ⟨rfl, -⟩
          exact absurd rfl heq

/-- Against a NUL-free label a terminated text compares equal exactly when it starts with it. -/
theorem Mem.HoldsStr.memcmp_eq_zero_iff {m : Mem} {p : ℕ} {q : Bytes} (h : m.HoldsStr p q)
    {label : Bytes} (h0 : 0 ∉ label) :
    memcmp (m.slice p label.length) label = 0 ↔ label <+: q := by
  rw [Ashttpd.memcmp_eq_zero_iff (Mem.slice_length m p _)]
  induction label generalizing p q with
  | nil => simp
  | cons b label ih =>
    rw [List.mem_cons, not_or] at h0
    rw [List.length_cons, Mem.slice_succ]
    cases q with
    | nil =>
      have hz := Mem.holdsStr_nil_iff.mp h
      simp only [hz, List.cons.injEq, List.prefix_nil, List.cons_ne_nil, iff_false]
      exact fun hc => h0.1 hc.1
    | cons c q =>
      obtain ⟨hc, -, hq⟩ := Mem.holdsStr_cons.mp h
      rw [hc, List.cons.injEq, ih hq h0.2, List.cons_prefix_cons]
      exact and_congr_left' eq_comm

theorem Mem.HoldsStr.drop {m : Mem} {p : ℕ} {s t : Bytes} (h : m.HoldsStr p (s ++ t)) :
    m.HoldsStr (p + s.length) t := by
  induction s generalizing p with
  | nil => exact h
  | cons c s ih =>
    obtain ⟨-, -, hs⟩ := Mem.holdsStr_cons.mp h
    have := ih hs
    rwa [List.length_cons, Nat.add_comm s.length, ← Nat.add_assoc]

def Webroot.TextLabels (r : Webroot) : Prop := ∀ d ∈ r.rTrie, 0 ∉ d.reStr.take d.reStrlen.toNat

instance (r : Webroot) : Decidable r.TextLabels := inferInstanceAs (Decidable (∀ d ∈ r.rTrie, _))

theorem Mem.HoldsStr.drop_of_le {m : Mem} {p n : ℕ} {q : Bytes} (h : m.HoldsStr p q) (hn : n ≤ q.length) :
    m.HoldsStr (p + n) (q.drop n) := by
  rw [← List.take_append_drop n q] at h
  have hdrop := h.drop
  rwa [List.length_take, Nat.min_eq_left hn] at hdrop

theorem memcmp_nil (s : Bytes) : memcmp s [] = 0 := by
  cases s with
  | nil => rfl
  | cons => rfl

/-- A label without NUL is compared with the text, and not with what is behind it. -/
theorem Mem.HoldsStr.memcmp_alike {m m' : Mem} {p p' n : ℕ} {q label : Bytes} (h : m.HoldsStr p q)
    (h' : m'.HoldsStr p' q) (h0 : 0 ∉ label) : memcmp (m.slice p n) label = memcmp (m'.slice p' n) label := by
  induction label generalizing p p' n q with
  | nil => rw [memcmp_nil, memcmp_nil]
  | cons b label ih =>
    rw [List.mem_cons, not_or] at h0
    cases n with
    | zero => rfl
    | succ n =>
      rw [Mem.slice_succ, Mem.slice_succ, memcmp, memcmp]
      cases q with
      | nil =>
        rw [Mem.holdsStr_nil_iff.mp h, Mem.holdsStr_nil_iff.mp h', if_neg h0.1, if_neg h0.1]
      | cons c q =>
        obtain ⟨hc, -, hq⟩ := Mem.holdsStr_cons.mp h
        obtain ⟨hc', -, hq'⟩ := Mem.holdsStr_cons.mp h'
        rw [hc, hc', ih hq hq' h0.2]

variable {r : Webroot} {m m' : Mem} {p p' len : ℕ} {q : Bytes}

theorem trieCmp_alike (hr : r.TextLabels) (h : m.HoldsStr p q) (h' : m'.HoldsStr p' q) :
    trieCmp r m p = trieCmp r m' p' := by
  funext i
  unfold trieCmp
  cases hd : readDedge r i with
  | error f => rfl
  | ok d =>
    have hmem : d ∈ r.rTrie := by
      unfold readDedge at hd
      split at hd
      · split at hd
        · next d' hat =>
          cases hd
          exact List.mem_of_getElem? hat
        · cases hd
      · cases hd
    dsimp only
    rw [h.memcmp_alike h' (hr d hmem)]

theorem trieQueryFrom_alike (hr : r.TextLabels) {fuel re numEdges : ℕ} (h : m.HoldsStr p q) (h' : m'.HoldsStr p' q)
    (hlen : q.length = len) : trieQueryFrom r m fuel re numEdges p len = trieQueryFrom r m' fuel re numEdges p' len := by
  induction fuel generalizing re numEdges p p' q len with
  | zero => rfl
  | succ fuel ih =>
    rw [trieQueryFrom, trieQueryFrom, trieCmp_alike hr h h']
    cases bisect (trieCmp r m' p') numEdges re numEdges with
    | error f => rfl
    | ok found =>
      cases found with
      | none => rfl
      | some i =>
        dsimp only
        cases readDedge r i with
        | error f => rfl
        | ok d =>
          dsimp only
          by_cases hshort : len < d.reStrlen.toNat
          · rw [if_pos hshort, if_pos hshort]
          · have hle : d.reStrlen.toNat ≤ q.length := by omega
            rw [if_neg hshort, if_neg hshort,
              ih (h.drop_of_le hle) (h'.drop_of_le hle) (by rw [List.length_drop, hlen])]

theorem webrootFind_alike (hr : r.TextLabels) (h : m.HoldsStr p q) (h' : m'.HoldsStr p' q) :
    webrootFind r m p q.length = webrootFind r m' p' q.length := by
  unfold webrootFind trieQuery
  rw [trieQueryFrom_alike hr h h' rfl]

end Ashttpd
