import Ashttpd.Normalize
import Mathlib.Data.List.TakeWhile

/-!
# What the decoding passes do to a URI

Each pass over `uribuf` computes a function of the string it finds there. A pass is described
by that function, by how long its result is, and by the cells it leaves alone.
-/
namespace Ashttpd

def untilNul (s : Bytes) : Bytes := s.takeWhile (· ≠ 0)

theorem length_untilNul_le (s : Bytes) : (untilNul s).length ≤ s.length :=
  (List.takeWhile_prefix _).length_le

theorem untilNul_nulFree (s : Bytes) : 0 ∉ untilNul s := by
  intro h
  have h0 := List.mem_takeWhile_imp h
  simp at h0

theorem untilNul_of_nulFree {s : Bytes} (h : 0 ∉ s) : untilNul s = s := by
  apply List.takeWhile_eq_self_iff.mpr
  intro c hc
  have hc0 : c ≠ 0 := fun h0 => h (h0 ▸ hc)
  simpa using hc0

/-- What is stored with a NUL behind it is read up to its first NUL. -/
theorem Mem.holdsStr_untilNul {m : Mem} {p : ℕ} {s : Bytes} (hs : m.slice p s.length = s)
    (h0 : m (p + s.length) = 0) : m.HoldsStr p (untilNul s) := by
  induction s generalizing p with
  | nil => exact Mem.HoldsStr.nil (by simpa using h0)
  | cons c s ih =>
    rw [List.length_cons, Mem.slice_succ, List.cons.injEq] at hs
    have h0' : m (p + 1 + s.length) = 0 := by
      rw [← h0, List.length_cons]
      congr 1
      omega
    unfold untilNul at ih ⊢
    by_cases hc : c = 0
    · rw [List.takeWhile_cons_of_neg (by simp [hc])]
      exact Mem.HoldsStr.nil (by rw [hs.1, hc])
    · rw [List.takeWhile_cons_of_pos (by simpa using hc)]
      exact Mem.holdsStr_cons.mpr ⟨hs.1, hc, ih hs.2 h0'⟩

section Passes

variable {σ : Type} [DecidableEq σ] {step : σ → UInt8 → Except NadsStop (σ × UInt8 × Bytes)}
  {pending : σ → ℕ} {s0 : σ} {code : ℕ}

/-- A pass over a string in a buffer of any size. The passes of `nads_normalize` are over `uribuf`. -/
def runPassIn (size : ℕ) (step : σ → UInt8 → Except NadsStop (σ × UInt8 × Bytes)) (s0 : σ) (code : ℕ)
    (m : Mem) (buf : ℕ) : Except NadsFail Mem :=
  match rewritePass step (size - buf) m buf buf s0 with
  | .overrun => .error (.fault .outOfRange)
  | .failed (.err code) m => .error (.err code m)
  | .failed (.fault f) _ => .error (.fault f)
  | .done m out s => if s = s0 then .ok (m.store out [0]) else .error (.err code m)

/-- The function on strings that a pass computes. -/
def passText (step : σ → UInt8 → Except NadsStop (σ × UInt8 × Bytes)) (s0 : σ) (code : ℕ)
    (text : Bytes) : Except NadsStop Bytes :=
  match runSteps step s0 text with
  | .error e => .error e
  | .ok (s, out) => if s = s0 then .ok (untilNul out) else .error (.err code)

/-- The memory `m'` holds `out` where `m` held `text`; only the cells of `text` were written. -/
structure Rewritten (m m' : Mem) (buf : ℕ) (text out : Bytes) : Prop where
  holds : m'.HoldsStr buf out
  length_le : out.length ≤ text.length
  before : ∀ i < buf, m' i = m i
  after : ∀ i, buf + text.length < i → m' i = m i

/-- A pass over the string `text` at `buf` ends as `t` says. -/
def Passes (m : Mem) (buf : ℕ) (text : Bytes) :
    Except NadsFail Mem → Except NadsStop Bytes → Prop
  | r, .error (.err code) => ∃ m', r = .error (.err code m')
  | r, .error (.fault f) => r = .error (.fault f)
  | r, .ok out => ∃ m', r = .ok m' ∧ Rewritten m m' buf text out

theorem runPassIn_spec {size : ℕ} (hlag : Lagging step pending) (hs0 : pending s0 = 0) {text : Bytes} {m : Mem}
    {buf : ℕ} (hm : m.HoldsStr buf text) (hfit : buf + text.length < size) :
    Passes m buf text (runPassIn size step s0 code m buf) (passText step s0 code text) := by
  have hfuel : text.length < size - buf := by omega
  have hout : buf + pending s0 ≤ buf := by omega
  have hpass := rewritePass_spec hlag hm hfuel hout
  unfold passText runPassIn
  cases hrun : runSteps step s0 text with
  | error e =>
    rw [hrun] at hpass
    obtain ⟨m', hm'⟩ := hpass
    rw [hm']
    cases e with
    | err code => exact ⟨m', rfl⟩
    | fault f => rfl
  | ok r =>
    obtain ⟨s, out⟩ := r
    rw [hrun] at hpass
    obtain ⟨m', hdone, hslice, hlen, hbefore, hafter⟩ := hpass
    rw [hdone]
    dsimp only
    by_cases hs : s = s0
    · rw [if_pos hs, if_pos hs]
      have hslice' : (m'.store (buf + out.length) [0]).slice buf out.length = out :=
        (Mem.slice_store_before m' _ _ _ _ (Nat.le_refl _)).trans hslice
      have hnul : m'.store (buf + out.length) [0] (buf + out.length) = 0 :=
        Mem.store_inside m' _ [0] (by simp : 0 < [(0 : UInt8)].length)
      have hcut := length_untilNul_le out
      refine ⟨m'.store (buf + out.length) [0], rfl, Mem.holdsStr_untilNul hslice' hnul, by omega, ?_, ?_⟩
      · intro i hi
        rw [Mem.store_before _ _ _ (by omega), hbefore i hi]
      · intro i hi
        rw [Mem.store_after _ _ _ (by simp; omega), hafter i (by omega)]
    · rw [if_neg hs, if_neg hs]
      exact ⟨m', rfl⟩

theorem runPass_spec (hlag : Lagging step pending) (hs0 : pending s0 = 0) {text : Bytes} {m : Mem}
    {buf : ℕ} (hm : m.HoldsStr buf text) (hfit : buf + text.length < NADS_MAX_URI) :
    Passes m buf text (runPass step s0 code m buf) (passText step s0 code text) :=
  runPassIn_spec hlag hs0 hm hfit

end Passes

def HexState.pending : HexState → ℕ
  | .plain => 0
  | .percent => 1
  | .digit _ => 2

theorem hexStep_lagging : Lagging hexStep HexState.pending := by
  intro s c s' b bs h
  cases s with
  | plain =>
    simp only [hexStep] at h
    split at h <;> simp only [Except.ok.injEq, Prod.mk.injEq] at h <;> obtain ⟨rfl, rfl, rfl⟩ := h
    · simp [HexState.pending]
    · simp [HexState.pending]
  | percent =>
    simp only [hexStep] at h
    split at h
    · simp only [Except.ok.injEq, Prod.mk.injEq] at h
      obtain ⟨rfl, rfl, rfl⟩ := h
      simp [HexState.pending]
    · cases h
  | digit d =>
    simp only [hexStep] at h
    split at h
    · split at h
      · cases h
      · simp only [Except.ok.injEq, Prod.mk.injEq] at h
        obtain ⟨rfl, rfl, rfl⟩ := h
        simp [HexState.pending]
    · cases h

def Utf8State.pending : Utf8State → ℕ
  | .plain => 0
  | .seq chr _ => chr.length

theorem utf8Step_lagging (before : UInt8) : Lagging (utf8Step before) Utf8State.pending := by
  intro s c s' b bs h
  cases s with
  | plain =>
    simp only [utf8Step] at h
    split at h <;> simp only [Except.ok.injEq, Prod.mk.injEq] at h <;> obtain ⟨rfl, rfl, rfl⟩ := h
    · simp [Utf8State.pending]
    · simp [Utf8State.pending]
  | seq chr len =>
    simp only [utf8Step] at h
    split at h
    · cases h
    split at h
    · split at h <;> simp only [Except.ok.injEq, Prod.mk.injEq] at h <;> obtain ⟨rfl, rfl, rfl⟩ := h
      · simp only [Utf8State.pending, List.length_take, List.length_append, List.length_singleton]
        omega
      · simp only [Utf8State.pending, List.length_singleton]
        omega
    · simp only [Except.ok.injEq, Prod.mk.injEq] at h
      obtain ⟨rfl, rfl, rfl⟩ := h
      simp [Utf8State.pending]

/-- What `n_hex` makes of a string. -/
def hexText (text : Bytes) : Except NadsStop Bytes := passText hexStep .plain NADS_ERR_BAD_HEX text

/-- What `n_utf8` makes of a string. -/
def utf8Text (before : UInt8) (text : Bytes) : Except NadsStop Bytes :=
  passText (utf8Step before) .plain NADS_ERR_BAD_UTF8 text

theorem nHex_spec {text : Bytes} {m : Mem} {buf : ℕ} (hm : m.HoldsStr buf text)
    (hfit : buf + text.length < NADS_MAX_URI) :
    Passes m buf text (nHex m buf) (hexText text) :=
  runPass_spec hexStep_lagging rfl hm hfit

theorem nUtf8_spec (before : UInt8) {text : Bytes} {m : Mem} {buf : ℕ} (hm : m.HoldsStr buf text)
    (hfit : buf + text.length < NADS_MAX_URI) :
    Passes m buf text (nUtf8 before m buf) (utf8Text before text) :=
  runPass_spec (utf8Step_lagging before) rfl hm hfit

theorem Rewritten.trans {m m' m'' : Mem} {buf : ℕ} {text mid out : Bytes}
    (h : Rewritten m m' buf text mid) (h' : Rewritten m' m'' buf mid out) :
    Rewritten m m'' buf text out := by
  have hlen := h.length_le
  refine ⟨h'.holds, Nat.le_trans h'.length_le hlen, ?_, ?_⟩
  · intro i hi
    rw [h'.before i hi, h.before i hi]
  · intro i hi
    rw [h'.after i (by omega), h.after i hi]

def uriPath (uri : Bytes) : Bytes := untilNul (uri.takeWhile (· ≠ QMARK))

def decodedPath (before : UInt8) (uri : Bytes) : Except NadsStop Bytes :=
  (hexText (uriPath uri)).bind (utf8Text before)

theorem nadsDecode_spec (before : UInt8) {text : Bytes} {m : Mem} (hm : m.HoldsStr 0 text)
    (hfit : text.length < NADS_MAX_URI) :
    Passes m 0 text (nadsDecode before m) ((hexText text).bind (utf8Text before)) := by
  have hhex := nHex_spec hm (by omega)
  unfold nadsDecode
  cases hh : hexText text with
  | error e =>
    rw [hh] at hhex
    cases e with
    | err code =>
      obtain ⟨m', hm'⟩ := hhex
      exact ⟨m', by rw [hm']; rfl⟩
    | fault f =>
      rw [show nHex m 0 = _ from hhex]
      rfl
  | ok mid =>
    rw [hh] at hhex
    obtain ⟨m', hm', hre⟩ := hhex
    have hlen := hre.length_le
    have hutf := nUtf8_spec before hre.holds (by omega)
    rw [hm']
    show Passes m 0 text (nUtf8 before m' 0) (utf8Text before mid)
    cases hu : utf8Text before mid with
    | error e =>
      rw [hu] at hutf
      cases e with
      | err code => exact hutf
      | fault f => exact hutf
    | ok out =>
      rw [hu] at hutf
      obtain ⟨m'', hm'', hre'⟩ := hutf
      exact ⟨m'', hm'', hre.trans hre'⟩

def queryAt (uri : Bytes) : Option ℕ := if QMARK ∈ uri then some ((uri.takeWhile (· ≠ QMARK)).length + 1) else none

theorem mem_queryAt_iff {uri : Bytes} {q : ℕ} :
    q ∈ queryAt uri ↔ QMARK ∈ uri ∧ q = (uri.takeWhile (· ≠ QMARK)).length + 1 := by
  unfold queryAt
  by_cases hmem : QMARK ∈ uri
  · simp [hmem, eq_comm]
  · simp [hmem]

def uriQuery (uri : Bytes) : Bytes := untilNul (uri.dropWhile (· ≠ QMARK)).tail

/-- The buffer holds the path, and behind it the query. -/
theorem nSplit_spec (m : Mem) {uri : Bytes} (hfit : uri.length < NADS_MAX_URI) :
    ∃ m', nSplit m uri = .ok (m', queryAt uri) ∧ m'.HoldsStr 0 (uriPath uri) ∧
      (uriPath uri).length < NADS_MAX_URI ∧ ∀ q ∈ queryAt uri, m'.HoldsStr q (uriQuery uri) ∧
        (uriPath uri).length < q ∧ q + (uriQuery uri).length < NADS_MAX_URI := by
  have hpath : (uriPath uri).length ≤ uri.length :=
    Nat.le_trans (length_untilNul_le _) (List.takeWhile_prefix _).length_le
  unfold nSplit
  rw [if_neg (by omega)]
  cases hq : uri.findIdx? (· == QMARK) with
  | none =>
    have hne : ∀ c ∈ uri, decide (c ≠ QMARK) = true := by
      intro c hc
      have h := List.findIdx?_eq_none_iff.mp hq c hc
      simpa using h
    have hnone : uri.takeWhile (· ≠ QMARK) = uri := List.takeWhile_eq_self_iff.mpr hne
    have hmem : QMARK ∉ uri := fun h => by simpa using hne QMARK h
    have hstr : (m.store 0 (uri ++ [0])).HoldsStr 0 (untilNul uri) := by
      have hs := Mem.slice_store_same m 0 (uri ++ [0])
      rw [List.length_append, List.length_singleton, Mem.slice_add] at hs
      obtain ⟨h1, h2⟩ := List.append_inj hs (by simp)
      exact Mem.holdsStr_untilNul h1 (List.cons.inj h2).1
    unfold queryAt
    rw [if_neg hmem]
    refine ⟨_, rfl, ?_, by omega, by simp⟩
    unfold uriPath
    rwa [hnone]
  | some i =>
    obtain ⟨hi, hqi, hbefore⟩ := List.findIdx?_eq_some_iff_getElem.mp hq
    have htake : uri.takeWhile (· ≠ QMARK) = uri.take i := by
      have hsplit : uri = uri.take i ++ uri[i] :: uri.drop (i + 1) := by simp
      have hpre : ∀ c ∈ uri.take i, decide (c ≠ QMARK) = true := by
        intro c hc
        obtain ⟨j, hj, rfl⟩ := List.mem_take_iff_getElem.mp hc
        have h := hbefore j (by omega)
        simpa using h
      conv_lhs => rw [hsplit]
      rw [List.takeWhile_append_of_pos hpre, List.takeWhile_cons_of_neg (by simpa using hqi), List.append_nil]
    have hti : (uri.take i).length = i := by
      rw [List.length_take]
      omega
    have hdrop : (uri.dropWhile (· ≠ QMARK)).tail = uri.drop (i + 1) := by
      have happ : uri.take i ++ uri.dropWhile (· ≠ QMARK) = uri.take i ++ uri.drop i := by
        rw [← htake, List.takeWhile_append_dropWhile, htake, List.take_append_drop]
      rw [List.append_cancel_left happ, List.tail_drop]
    have hs := Mem.slice_store_same m 0 (uri.take i ++ 0 :: (uri.drop (i + 1) ++ [0]))
    have hlen : (uri.take i ++ 0 :: (uri.drop (i + 1) ++ [0])).length =
        (uri.take i).length + (((uri.drop (i + 1)).length + 1) + 1) := by simp
    rw [hlen, Mem.slice_add, Mem.slice_succ, Mem.slice_add] at hs
    obtain ⟨h1, h2⟩ := List.append_inj hs (by simp)
    obtain ⟨h2, h3⟩ := List.cons.inj h2
    obtain ⟨h3, h4⟩ := List.append_inj h3 (by simp)
    have hpathlen : (uriPath uri).length ≤ i := by
      have h := length_untilNul_le (uri.takeWhile (· ≠ QMARK))
      rw [htake] at h
      unfold uriPath
      rw [htake]
      omega
    have hmem : QMARK ∈ uri := by
      have h := List.getElem_mem hi
      rwa [show uri[i] = QMARK by simpa using hqi] at h
    have hat : queryAt uri = some (i + 1) := by
      unfold queryAt
      rw [if_pos hmem, htake, hti]
    rw [hat]
    refine ⟨_, rfl, ?_, by omega, ?_⟩
    · unfold uriPath
      rw [htake]
      exact Mem.holdsStr_untilNul h1 h2
    · intro q hq'
      cases hq'
      rw [hti] at h3 h4
      have hrest := length_untilNul_le (uri.drop (i + 1))
      rw [List.length_drop] at hrest
      unfold uriQuery
      rw [hdrop]
      have h4' := (List.cons.inj h4).1
      exact ⟨Mem.holdsStr_untilNul (by simpa using h3) (by simpa using h4'), by omega, by omega⟩

end Ashttpd
