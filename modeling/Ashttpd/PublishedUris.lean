import Ashttpd.CanonicalPath
import Mathlib.Data.Nat.Digits.Defs

/-!
# URIs that can be asked for

A client asks for a URI by its percent-encoding. `nads_normalize` gives back the URI that was
encoded, if it has no backslash, which would be read as a slash, and if the bytes outside of
ASCII are sequences that `n_utf8` leaves alone.
-/
namespace Ashttpd

def isAlnum (c : UInt8) : Bool :=
  (48 ≤ c && c ≤ 57) || (65 ≤ c && c ≤ 90) || (97 ≤ c && c ≤ 122)

def hexDigit (d : UInt8) : UInt8 := if d < 10 then 48 + d else 55 + d

def encodeByte (c : UInt8) : Bytes :=
  if isAlnum c || c == SLASH then [c] else [PERCENT, hexDigit (c >>> 4), hexDigit (c &&& 15)]

def percentEncode (u : Bytes) : Bytes := u.flatMap encodeByte

/-- The URIs that stand for files and directories: names between slashes, and a last slash or
none. -/
structure Published (u : Bytes) (names : List Bytes) : Prop where
  text : u = pathText names ∨ u = pathText (names ++ [[]])
  name : ∀ s ∈ names, s ≠ [] ∧ 0 ∉ s ∧ SLASH ∉ s ∧ s ≠ [DOT] ∧ s ≠ [DOT, DOT]

/-- The number a sequence stands for: six bits of each byte behind the first, and those bits of
the first that do not tell the length. -/
def utf8Value : Bytes → ℕ
  | [] => 0
  | c :: rest =>
    Nat.ofDigits 64 ((rest.map (·.toNat % 64)).reverse ++ [c.toNat % 2 ^ (6 - rest.length)])

/-- The bytes outside of ASCII stand in sequences of numbers above `0xff`. -/
inductive WideUtf8 : Bytes → Prop where
  | nil : WideUtf8 []
  | ascii {c : UInt8} {u : Bytes} (hc : c < 0x80) (hu : WideUtf8 u) : WideUtf8 (c :: u)
  | sequence {c : UInt8} {rest u : Bytes} (hlow : 0xC0 ≤ c) (hhigh : c < 0xFE)
      (hlen : rest.length + 1 = leadLen c) (hval : 0xFF < utf8Value (c :: rest))
      (hu : WideUtf8 u) : WideUtf8 (c :: rest ++ u)

theorem hexDigits_spec (c : UInt8) : isHex (hexDigit (c >>> 4)) = true ∧
    isHex (hexDigit (c &&& 15)) = true ∧
      (hexchar (hexDigit (c >>> 4)) <<< 4 ||| hexchar (hexDigit (c &&& 15))) = c := by
  apply forall_byte (P := fun c => isHex (hexDigit (c >>> 4)) = true ∧
    isHex (hexDigit (c &&& 15)) = true ∧
      (hexchar (hexDigit (c >>> 4)) <<< 4 ||| hexchar (hexDigit (c &&& 15))) = c)
  decide +kernel

theorem encodeByte_reserved (c : UInt8) : QMARK ∉ encodeByte c ∧ (c ≠ 0 → 0 ∉ encodeByte c) := by
  apply forall_byte (P := fun c => QMARK ∉ encodeByte c ∧ (c ≠ 0 → 0 ∉ encodeByte c))
  decide +kernel

theorem high_bit_iff (c : UInt8) : c &&& 0x80 ≠ 0 ↔ 0x80 ≤ c := by
  apply forall_byte (P := fun c => c &&& 0x80 ≠ 0 ↔ 0x80 ≤ c)
  decide +kernel

theorem leadLen_bounds (c : UInt8) : 0xC0 ≤ c ∧ c < 0xFE → 2 ≤ leadLen c ∧ leadLen c ≤ 6 := by
  apply forall_byte (P := fun c => 0xC0 ≤ c ∧ c < 0xFE → 2 ≤ leadLen c ∧ leadLen c ≤ 6)
  decide +kernel

theorem runSteps_plain {c : UInt8} (hc : c ≠ PERCENT) (rest : Bytes) :
    runSteps hexStep .plain (c :: rest) = (runSteps hexStep .plain rest).map fun r => (r.1, c :: r.2) := by
  have hstep : hexStep .plain c = .ok (.plain, c, [c]) := if_neg hc
  rw [runSteps_cons_ok hstep]
  cases runSteps hexStep .plain rest with
  | error e => rfl
  | ok r => rfl

theorem hexStep_percent {c : UInt8} (hc : isHex c) : hexStep .percent c = .ok (.digit c, c, []) := if_pos hc

theorem runSteps_triple {hi lo d : UInt8} (hhi : isHex hi) (hlo : isHex lo)
    (hd : (hexchar hi <<< 4 ||| hexchar lo) = d) (hd0 : d ≠ 0) (rest : Bytes) :
    runSteps hexStep .plain (PERCENT :: hi :: lo :: rest) =
      (runSteps hexStep .plain rest).map fun r => (r.1, d :: r.2) := by
  have hpercent : hexStep .plain PERCENT = .ok (.percent, PERCENT, []) := rfl
  have hsecond : hexStep (.digit hi) lo = .ok (.plain, lo, [d]) := by
    simp only [hexStep]
    rw [if_pos hlo, hd, if_neg hd0]
  rw [runSteps_cons_ok hpercent, runSteps_cons_ok (hexStep_percent hhi), runSteps_cons_ok hsecond]
  cases runSteps hexStep .plain rest with
  | error e => rfl
  | ok r => rfl

theorem runSteps_encodeByte {c : UInt8} (hc : c ≠ 0) (rest : Bytes) :
    runSteps hexStep .plain (encodeByte c ++ rest) =
      (runSteps hexStep .plain rest).map fun r => (r.1, c :: r.2) := by
  unfold encodeByte
  split
  · next hplain =>
    apply runSteps_plain
    rintro rfl
    cases hplain
  · obtain ⟨hhigh, hlow, hval⟩ := hexDigits_spec c
    exact runSteps_triple hhigh hlow hval hc rest

theorem runSteps_percentEncode {u : Bytes} (hu : 0 ∉ u) :
    runSteps hexStep .plain (percentEncode u) = .ok (.plain, u) := by
  induction u with
  | nil => rfl
  | cons c u ih =>
    rw [List.mem_cons, not_or] at hu
    have hc : c ≠ 0 := fun h => hu.1 h.symm
    unfold percentEncode at ih ⊢
    rw [List.flatMap_cons, runSteps_encodeByte hc, ih hu.2]
    rfl

theorem percentEncode_reserved {u : Bytes} (hu : 0 ∉ u) :
    QMARK ∉ percentEncode u ∧ 0 ∉ percentEncode u := by
  constructor
  · intro h
    obtain ⟨c, -, hc⟩ := List.mem_flatMap.mp h
    exact (encodeByte_reserved c).1 hc
  · intro h
    obtain ⟨c, hcu, hc⟩ := List.mem_flatMap.mp h
    have hc0 : c ≠ 0 := fun h0 => hu (h0 ▸ hcu)
    exact (encodeByte_reserved c).2 hc0 hc

theorem hexText_percentEncode {u : Bytes} (hu : 0 ∉ u) :
    hexText (uriPath (percentEncode u)) = .ok u := by
  obtain ⟨hq, h0⟩ := percentEncode_reserved hu
  have hpath : uriPath (percentEncode u) = percentEncode u := by
    unfold uriPath
    rw [List.takeWhile_eq_self_iff.mpr, untilNul_of_nulFree h0]
    intro c hc
    have hne : c ≠ QMARK := fun h => hq (h ▸ hc)
    simpa using hne
  unfold hexText passText
  rw [hpath, runSteps_percentEncode hu]
  simp [untilNul_of_nulFree hu]

theorem or_charToInt_shiftLeft {n s : UInt32} {y : UInt8} (hy : y.toNat < 128) (hs : s.toNat < 32)
    (hn : n.toNat < 2 ^ s.toNat) (hfit : y.toNat * 2 ^ s.toNat < 2 ^ 32) :
    (n ||| (charToInt y <<< s)).toNat = n.toNat + y.toNat * 2 ^ s.toNat := by
  have hint : (charToInt y).toNat = y.toNat := by
    unfold charToInt
    rw [if_neg, UInt8.toNat_toUInt32]
    rw [UInt8.le_iff_toNat_le]
    exact Nat.not_le.mpr hy
  have hshift : (charToInt y <<< s).toNat = y.toNat * 2 ^ s.toNat := by
    rw [UInt32.toNat_shiftLeft, hint, Nat.mod_eq_of_lt hs, Nat.shiftLeft_eq, Nat.mod_eq_of_lt hfit]
  rw [UInt32.toNat_or, hshift, Nat.or_comm, ← Nat.shiftLeft_eq, ← Nat.shiftLeft_add_eq_or_of_lt hn,
    Nat.add_comm]

/-- What `n_ucs4` takes of byte `i`. -/
def payload (buf : Bytes) (mask : UInt8) (i : ℕ) : ℕ :=
  (buf.getD i 0 &&& (if i = 0 then mask else 0x3f)).toNat

theorem ucs4Loop_spec (buf : Bytes) {mask : UInt8} {len : ℕ} (hlen : 2 ≤ len ∧ len ≤ 6)
    (hmask : mask.toNat < 2 ^ (7 - len)) {i j : ℕ} {s n : UInt32} (hij : i + j = len)
    (hs : s.toNat = 6 * j) (hn : n.toNat < 2 ^ (6 * j)) :
    (ucs4Loop buf mask i s n).toNat =
      n.toNat + 2 ^ (6 * j) * Nat.ofDigits 64 ((List.range i).map (payload buf mask)).reverse := by
  induction i generalizing j s n with
  | zero => simp [ucs4Loop]
  | succ i ih =>
    have hpow : (2 : ℕ) ^ (6 * (j + 1)) = 64 * 2 ^ (6 * j) := by
      rw [Nat.mul_add, Nat.pow_add, Nat.mul_comm]
    have hsmall : payload buf mask i < 64 ∧ payload buf mask i * 2 ^ (6 * j) < 2 ^ 32 := by
      unfold payload
      rw [UInt8.toNat_and]
      by_cases hi : i = 0
      · rw [if_pos hi]
        have hle : (buf.getD i 0).toNat &&& mask.toNat ≤ mask.toNat := Nat.and_le_right
        have hle' : (buf.getD i 0).toNat &&& mask.toNat < 2 ^ (7 - len) := Nat.lt_of_le_of_lt hle hmask
        have htop : 2 ^ (7 - len) * 2 ^ (6 * j) ≤ 2 ^ 31 := by
          rw [← Nat.pow_add]
          exact Nat.pow_le_pow_right (by omega) (by omega)
        have hbits : 2 ^ (7 - len) ≤ 2 ^ 5 := Nat.pow_le_pow_right (by omega) (by omega)
        constructor
        · omega
        · have h := Nat.mul_lt_mul_of_pos_right hle' (Nat.two_pow_pos (6 * j))
          omega
      · rw [if_neg hi]
        have hle' : (buf.getD i 0).toNat &&& (0x3f : UInt8).toNat < 64 :=
          Nat.lt_of_le_of_lt Nat.and_le_right (by decide)
        have htop : 64 * 2 ^ (6 * j) ≤ 2 ^ 30 := by
          rw [← hpow]
          exact Nat.pow_le_pow_right (by omega) (by omega)
        refine ⟨hle', ?_⟩
        have h := Nat.mul_lt_mul_of_pos_right hle' (Nat.two_pow_pos (6 * j))
        omega
    have hor := or_charToInt_shiftLeft (n := n) (s := s) (y := buf.getD i 0 &&& (if i = 0 then mask else 0x3f))
      (by unfold payload at hsmall; omega) (by omega : s.toNat < 32) (by rw [hs]; exact hn)
      (by rw [hs]; exact hsmall.2)
    rw [hs] at hor
    have hor' : (n ||| (charToInt (buf.getD i 0 &&& (if i = 0 then mask else 0x3f)) <<< s)).toNat =
        n.toNat + payload buf mask i * 2 ^ (6 * j) := hor
    have hs' : (s + 6).toNat = 6 * (j + 1) := by
      rw [UInt32.toNat_add, hs]
      have h6 : (6 : UInt32).toNat = 6 := rfl
      omega
    have hn' : n.toNat + payload buf mask i * 2 ^ (6 * j) < 2 ^ (6 * (j + 1)) := by
      rw [hpow]
      have h := Nat.mul_le_mul_right (2 ^ (6 * j)) (Nat.le_of_lt_succ hsmall.1)
      omega
    have hrec := ih (by omega : i + (j + 1) = len) hs' (by rw [hor']; exact hn')
    rw [ucs4Loop, hrec, hor', List.range_succ, List.map_append, List.reverse_append, List.map_singleton,
      List.reverse_singleton, List.singleton_append, Nat.ofDigits_cons, hpow]
    ring

theorem nUcs4_spec (before c : UInt8) {rest : Bytes} (hne : rest ≠ []) (hlen : rest.length ≤ 5) :
    (nUcs4 before (c :: rest) (rest.length + 1)).toNat = utf8Value (c :: rest) := by
  have hpos : 1 ≤ rest.length := List.length_pos_iff.mpr hne
  have hmask : (fmask before (rest.length + 1)).toNat = 2 ^ (6 - rest.length) - 1 := by
    obtain h | h | h | h | h : rest.length = 1 ∨ rest.length = 2 ∨ rest.length = 3 ∨
        rest.length = 4 ∨ rest.length = 5 := by omega
    all_goals rw [h]; rfl
  have hbits := Nat.two_pow_pos (6 - rest.length)
  have hmask' : (fmask before (rest.length + 1)).toNat < 2 ^ (7 - (rest.length + 1)) := by
    rw [hmask, show 7 - (rest.length + 1) = 6 - rest.length by omega]
    omega
  have hspec := ucs4Loop_spec (c :: rest) (s := 0) (n := 0) (j := 0) ⟨by omega, by omega⟩ hmask'
    (Nat.add_zero _) rfl (by simp)
  have hpay : (List.range (rest.length + 1)).map (payload (c :: rest) (fmask before (rest.length + 1))) =
      c.toNat % 2 ^ (6 - rest.length) :: rest.map (·.toNat % 64) := by
    rw [List.range_succ_eq_map, List.map_cons, List.map_map]
    congr 1
    · show (c &&& fmask before (rest.length + 1)).toNat = _
      rw [UInt8.toNat_and, hmask, Nat.and_two_pow_sub_one_eq_mod]
    · apply List.ext_getElem
      · simp
      · intro i h1 h2
        have hi : i < rest.length := by simpa using h2
        simp only [List.getElem_map, List.getElem_range, Function.comp_apply]
        unfold payload
        rw [if_neg (by omega), List.getD_cons_succ, List.getD_eq_getElem?_getD,
          List.getElem?_eq_getElem hi, Option.getD_some, UInt8.toNat_and]
        exact Nat.and_two_pow_sub_one_eq_mod _ 6
  unfold nUcs4
  rw [hspec, hpay]
  simp [utf8Value]

theorem high_bits_iff (n : UInt32) (h : 0xFF < n.toNat) : n &&& 0xffffff00 ≠ 0 := by
  intro h0
  have hnat : n.toNat &&& 0xffffff00 = 0 := by
    have h1 := congrArg UInt32.toNat h0
    rwa [UInt32.toNat_and] at h1
  have hshift : (n.toNat >>> 8) &&& (2 ^ 24 - 1) = 0 := by
    have h1 := congrArg (· >>> 8) hnat
    simpa [Nat.shiftRight_and_distrib] using h1
  rw [Nat.and_two_pow_sub_one_eq_mod, Nat.shiftRight_eq_div_pow] at hshift
  have hlt := n.toNat_lt
  omega

/-- What `n_utf8` makes of a sequence with a first byte that tells the length. -/
def sequenceOut (before : UInt8) (chr : Bytes) (len : ℕ) : Bytes :=
  if nUcs4 before chr len &&& 0xffffff00 ≠ 0 then chr.take len else [(nUcs4 before chr len).toUInt8]

/-- Inside of a sequence, up to its last byte. At least one byte is read behind the first, whatever length
that one tells. -/
theorem runSteps_sequence {before : UInt8} {pre rest : Bytes} {len : ℕ} (hpre : pre ≠ []) (hne : rest ≠ [])
    (hlen : pre.length + rest.length = max 2 len) (hfit : pre.length + rest.length ≤ 6) (u : Bytes) :
    runSteps (utf8Step before) (.seq pre len) (rest ++ u) =
      (runSteps (utf8Step before) .plain u).map fun r => (r.1, sequenceOut before (pre ++ rest) len ++ r.2) := by
  have hpos := List.length_pos_iff.mpr hpre
  induction rest generalizing pre with
  | nil => exact absurd rfl hne
  | cons c rest ih =>
    rw [List.length_cons] at hlen hfit
    cases rest with
    | nil =>
      have hstep : utf8Step before (.seq pre len) c = .ok (.plain, c, sequenceOut before (pre ++ [c]) len) := by
        simp only [utf8Step, sequenceOut]
        rw [if_neg (by simp at hfit; omega), if_pos (by simp at hlen ⊢; omega)]
        split
        · rfl
        · rfl
      rw [List.singleton_append, runSteps_cons_ok hstep]
    | cons d rest =>
      have hstep : utf8Step before (.seq pre len) c = .ok (.seq (pre ++ [c]) len, c, []) := by
        simp only [utf8Step]
        rw [if_neg (by simp at hfit; omega), if_neg (by simp at hlen ⊢; omega)]
      have htext : pre ++ c :: d :: rest = (pre ++ [c]) ++ d :: rest := by simp
      rw [List.cons_append, runSteps_cons_ok hstep, htext]
      have hmore : pre ++ [c] ≠ [] := by simp
      have hlong : (pre ++ [c]).length = pre.length + 1 := List.length_append
      have hrec := ih hmore (List.cons_ne_nil d rest) (by omega) (by omega) (by omega)
      rw [hrec]
      cases runSteps (utf8Step before) .plain u with
      | error e => rfl
      | ok r => rfl

theorem runSteps_wideUtf8 (before : UInt8) {u : Bytes} (hu : WideUtf8 u) :
    runSteps (utf8Step before) .plain u = .ok (.plain, u) := by
  induction hu with
  | nil => rfl
  | @ascii c u hc _ ih =>
    have hlow : ¬ c &&& 0x80 ≠ 0 := fun h =>
      absurd ((high_bit_iff c).mp h) (UInt8.not_le.mpr hc)
    have hstep : utf8Step before .plain c = .ok (.plain, c, [c]) := if_neg hlow
    rw [runSteps_cons_ok hstep, ih]
    rfl
  | @sequence c rest u hlow hhigh hlen hval _ ih =>
    obtain ⟨h2, h6⟩ := leadLen_bounds c ⟨hlow, hhigh⟩
    have hne : rest ≠ [] := by
      rintro rfl
      simp at hlen
      omega
    have hhigh : c &&& 0x80 ≠ 0 := (high_bit_iff c).mpr (UInt8.le_trans (by decide) hlow)
    have hstep : utf8Step before .plain c = .ok (.seq [c] (leadLen c), c, []) := if_pos hhigh
    have hbits : nUcs4 before ([c] ++ rest) (leadLen c) &&& 0xffffff00 ≠ 0 := by
      apply high_bits_iff
      have hspec := nUcs4_spec before c hne (by omega)
      rw [List.singleton_append, ← hlen, hspec]
      exact hval
    have hout : sequenceOut before ([c] ++ rest) (leadLen c) = c :: rest := by
      unfold sequenceOut
      rw [if_pos hbits, List.take_of_length_le (by simp; omega)]
      rfl
    have hrun := @runSteps_sequence before [c] rest (leadLen c) (List.cons_ne_nil c []) hne
      (by simp; omega) (by simp; omega) u
    rw [List.cons_append, runSteps_cons_ok hstep, hrun, ih, hout]
    rfl

theorem utf8Text_wideUtf8 (before : UInt8) {u : Bytes} (hu : WideUtf8 u) (h0 : 0 ∉ u) :
    utf8Text before u = .ok u := by
  unfold utf8Text passText
  rw [runSteps_wideUtf8 before hu]
  simp [untilNul_of_nulFree h0]

theorem Published.nulFree {u : Bytes} {names : List Bytes} (h : Published u names) : 0 ∉ u := by
  intro hmem
  have hname : ∀ s ∈ names, 0 ∉ s := fun s hs => (h.name s hs).2.1
  obtain hu | hu := h.text
  · rw [hu] at hmem
    obtain h0 | ⟨s, hs, hc⟩ := mem_of_mem_pathText hmem
    · cases h0
    · exact hname s hs hc
  · rw [hu] at hmem
    obtain h0 | ⟨s, hs, hc⟩ := mem_of_mem_pathText hmem
    · cases h0
    · obtain hs | hs := List.mem_append.mp hs
      · exact hname s hs hc
      · rw [List.mem_singleton] at hs
        rw [hs] at hc
        cases hc

theorem Published.canonical {u : Bytes} {names : List Bytes} (h : Published u names)
    (hback : BACKSLASH ∉ u) : Canonical u := by
  have hempty : [] ∉ names := fun hmem => (h.name [] hmem).1 rfl
  obtain hu | hu := h.text
  · rw [hu] at hback ⊢
    refine canonical_of_names ?_ ?_ ?_ hback
    · exact fun s hs => (h.name s hs).2.2.1
    · exact fun s hs => (h.name s hs).2.2.2
    · exact fun hmem => hempty (List.mem_of_mem_dropLast hmem)
  · rw [hu] at hback ⊢
    refine canonical_of_names ?_ ?_ ?_ hback
    · intro s hs
      obtain hs | hs := List.mem_append.mp hs
      · exact (h.name s hs).2.2.1
      · rw [List.mem_singleton] at hs
        simp [hs]
    · intro s hs
      obtain hs | hs := List.mem_append.mp hs
      · exact (h.name s hs).2.2.2
      · rw [List.mem_singleton] at hs
        simp [hs]
    · rwa [List.dropLast_concat]

/-- A published URI without backslashes whose bytes outside of ASCII are wide sequences is what
its percent-encoding is normalised to. -/
theorem nadsNormalize_percentEncode (before : UInt8) (m : Mem) {u : Bytes} {names : List Bytes}
    (hu : Published u names) (hback : BACKSLASH ∉ u) (hwide : WideUtf8 u)
    (hfit : (percentEncode u).length < NADS_MAX_URI) :
    ∃ n, nadsNormalize before m (percentEncode u) = .ok n ∧ n.ret = NADS_OK ∧
      n.uri.HoldsStr 0 u := by
  have hdec : decodedPath before (percentEncode u) = .ok u := by
    unfold decodedPath
    rw [hexText_percentEncode hu.nulFree]
    exact utf8Text_wideUtf8 before hwide hu.nulFree
  obtain ⟨stack, hres, htext⟩ := (hu.canonical hback).resolve_segments
  have hspec := nadsNormalize_spec before m hfit hdec
  rw [hres] at hspec
  obtain ⟨n, hn, -, hret, hholds⟩ := hspec
  have hok := hret (percentEncode_reserved hu.nulFree).1
  refine ⟨n, hn, hok, ?_⟩
  rw [← htext]
  exact (hholds hok).1

/-- `/a €`, which is asked for as `/a%20%E2%82%AC`. -/
theorem nadsNormalize_percentEncode_euro :
    ∃ n, nadsNormalize 0 (fun _ => 0)
        [47, 97, 37, 50, 48, 37, 69, 50, 37, 56, 50, 37, 65, 67] = .ok n ∧
      n.ret = NADS_OK ∧ n.uri.HoldsStr 0 [47, 97, 32, 0xE2, 0x82, 0xAC] := by
  have hu : Published [47, 97, 32, 0xE2, 0x82, 0xAC] [[97, 32, 0xE2, 0x82, 0xAC]] :=
    ⟨Or.inl rfl, by decide⟩
  have heuro : WideUtf8 ([0xE2, 0x82, 0xAC] ++ []) :=
    .sequence (by decide) (by decide) (by decide) (by decide) .nil
  have hwide : WideUtf8 [47, 97, 32, 0xE2, 0x82, 0xAC] :=
    .ascii (by decide) (.ascii (by decide) (.ascii (by decide) heuro))
  exact nadsNormalize_percentEncode 0 (fun _ => 0) hu (by decide) hwide (by decide)

/-- `/a\b` is read as `/a/b`, and the last byte of `/` and a stray lead byte is an error. -/
theorem nadsNormalize_not_published :
    (Published [47, 97, 92, 98] [[97, 92, 98]] ∧
      ¬ ∃ n, nadsNormalize 0 (fun _ => 0) (percentEncode [47, 97, 92, 98]) = .ok n ∧
        n.ret = NADS_OK ∧ n.uri.HoldsStr 0 [47, 97, 92, 98]) ∧
    (Published [47, 0xC3] [[0xC3]] ∧
      ¬ ∃ n, nadsNormalize 0 (fun _ => 0) (percentEncode [47, 0xC3]) = .ok n ∧
        n.ret = NADS_OK ∧ n.uri.HoldsStr 0 [47, 0xC3]) := by
  refine ⟨⟨⟨Or.inl rfl, by decide⟩, ?_⟩, ⟨⟨Or.inl rfl, by decide⟩, ?_⟩⟩
  · rintro ⟨n, hn, hok, hholds⟩
    have hspec := nadsNormalize_spec 0 (fun _ => 0) (by decide)
      (show decodedPath 0 (percentEncode [47, 97, 92, 98]) = .ok [47, 97, 92, 98] from rfl)
    rw [show resolve [] (segments [47, 97, 92, 98]) = some [[97], [98]] by decide] at hspec
    obtain ⟨n', hn', -, -, hholds'⟩ := hspec
    rw [hn] at hn'
    cases hn'
    cases hholds.unique (hholds' hok).1
  · rintro ⟨n, hn, hok, -⟩
    obtain ⟨path, hpath⟩ := decodedPath_of_ok 0 (fun _ => 0) (by decide) hn hok
    cases hpath

end Ashttpd
