import Ashttpd.NulBytes

/-!
# What a rejected URI leaves

A pass that fails leaves what it has emitted in front of what it has not written over. Each of the stages of
`nads_normalize` that can fail leaves a text of its own, which the URI determines.
-/
namespace Ashttpd

section Rewriting

variable {σ ε : Type*} {step : σ → UInt8 → Except ε (σ × UInt8 × Bytes)} {pending : σ → ℕ} {s s' : σ} {m m' : Mem}

/-- What the steps emit, up to the one that fails. -/
def emitted (step : σ → UInt8 → Except ε (σ × UInt8 × Bytes)) : σ → Bytes → Bytes
  | _, [] => []
  | s, c :: cs =>
    match step s c with
    | .error _ => []
    | .ok (s, _, bs) => bs ++ emitted step s cs

def KeepsInput (step : σ → UInt8 → Except ε (σ × UInt8 × Bytes)) : Prop :=
  ∀ s c s' b bs, step s c = .ok (s', b, bs) → b = c

theorem emitted_append {x out : Bytes} (h : runSteps step s x = .ok (s', out)) (y : Bytes) :
    emitted step s (x ++ y) = out ++ emitted step s' y := by
  induction x generalizing s out with
  | nil =>
    cases h
    rfl
  | cons c x ih =>
    rw [List.cons_append, emitted]
    cases hstep : step s c with
    | error e =>
      rw [runSteps, hstep] at h
      cases h
    | ok r =>
      obtain ⟨s₁, b, bs⟩ := r
      rw [runSteps_cons_ok hstep] at h
      cases hrun : runSteps step s₁ x with
      | error e =>
        rw [hrun] at h
        cases h
      | ok r =>
        rw [hrun] at h
        cases h
        dsimp only
        rw [ih hrun, List.append_assoc]

theorem Mem.store_append (m : Mem) (p : ℕ) (x y : Bytes) : (m.store p x).store (p + x.length) y = m.store p (x ++ y) := by
  funext i
  unfold Mem.store
  by_cases hlow : i < p
  · rw [if_pos (by omega), if_pos hlow, if_pos hlow]
  · by_cases hmid : i < p + x.length
    · rw [if_pos hmid, if_neg hlow, if_neg hlow, List.getElem?_append_left (by omega)]
    · rw [if_neg hmid, if_neg hlow, if_neg hlow, List.getElem?_append_right (by omega),
        List.getElem?_eq_none (l := x) (by omega), Nat.sub_sub]
      rfl

theorem Mem.store_self {p : ℕ} {c : UInt8} (h : m p = c) : m.store p [c] = m := by
  funext i
  by_cases hi : i = p
  · rw [hi, h]
    exact Mem.store_inside m p [c] (by simp : 0 < [c].length)
  · by_cases hlow : i < p
    · exact Mem.store_before m p [c] hlow
    · exact Mem.store_after m p [c] (by simp; omega)

/-- The memory that a pass leaves. -/
def PassEnd.left : PassEnd σ ε → Option Mem
  | .done m _ _ => some m
  | .failed _ m => some m
  | .overrun => none

/-- However a pass ends, it has written what it emitted and nothing else. -/
theorem rewritePass_left (hlag : Lagging step pending) (hkeeps : KeepsInput step) {text : Bytes} {fuel inp out : ℕ}
    (hm : m.HoldsStr inp text) (hout : out + pending s ≤ inp)
    (hleft : (rewritePass step fuel m inp out s).left = some m') : m' = m.store out (emitted step s text) := by
  induction text generalizing fuel m inp out s with
  | nil =>
    cases fuel with
    | zero => cases hleft
    | succ fuel =>
      rw [rewritePass, if_pos (Mem.holdsStr_nil_iff.mp hm)] at hleft
      cases hleft
      exact (Mem.store_nil _ _).symm
  | cons c text ih =>
    obtain ⟨hc, hc0, htext⟩ := Mem.holdsStr_cons.mp hm
    cases fuel with
    | zero => cases hleft
    | succ fuel =>
      rw [rewritePass, if_neg (by rwa [hc]), hc] at hleft
      rw [emitted]
      cases hstep : step s c with
      | error e =>
        rw [hstep] at hleft
        cases hleft
        exact (Mem.store_nil _ _).symm
      | ok r =>
        obtain ⟨s₁, b, bs⟩ := r
        have hb := hlag s c s₁ b bs hstep
        rw [hstep, hkeeps s c s₁ b bs hstep] at hleft
        dsimp only at hleft ⊢
        rw [Mem.store_self hc] at hleft
        have hlater : (m.store out bs).HoldsStr (inp + 1) text :=
          htext.congr fun i hi _ => (Mem.store_after m out bs (by omega)).symm
        rw [ih hlater (by omega) hleft, Mem.store_append]

end Rewriting

/-- A pass that ends with an error leaves what it emitted in front of the rest of the string. -/
theorem runPass_left {σ : Type} [DecidableEq σ] {step : σ → UInt8 → Except NadsStop (σ × UInt8 × Bytes)}
    {pending : σ → ℕ} {s0 : σ} {code code' buf : ℕ} {m m' : Mem} {text : Bytes} (hlag : Lagging step pending)
    (hs0 : pending s0 = 0) (hkeeps : KeepsInput step) (hm : m.HoldsStr buf text)
    (herr : runPass step s0 code m buf = .error (.err code' m')) : m' = m.store buf (emitted step s0 text) := by
  suffices hleft : (rewritePass step (NADS_MAX_URI - buf) m buf buf s0).left = some m' from
    rewritePass_left hlag hkeeps hm (by omega : buf + pending s0 ≤ buf) hleft
  unfold runPass at herr
  cases hpass : rewritePass step (NADS_MAX_URI - buf) m buf buf s0 with
  | overrun =>
    rw [hpass] at herr
    cases herr
  | failed e m₁ =>
    rw [hpass] at herr
    cases e with
    | err code₁ =>
      cases herr
      rfl
    | fault f => cases herr
  | done m₁ out s =>
    rw [hpass] at herr
    dsimp only at herr
    split at herr
    · cases herr
    · cases herr
      rfl

theorem hexStep_keepsInput : KeepsInput hexStep := by
  intro s c s' b bs h
  cases s with
  | plain =>
    simp only [hexStep] at h
    split at h
    · cases h
      rfl
    · cases h
      rfl
  | percent =>
    simp only [hexStep] at h
    split at h
    · cases h
      rfl
    · cases h
  | digit d =>
    simp only [hexStep] at h
    split at h
    · split at h
      · cases h
      · cases h
        rfl
    · cases h

theorem utf8Step_keepsInput (before : UInt8) : KeepsInput (utf8Step before) := by
  intro s c s' b bs h
  cases s with
  | plain =>
    simp only [utf8Step] at h
    split at h
    · cases h
      rfl
    · cases h
      rfl
  | seq chr len =>
    simp only [utf8Step] at h
    split at h
    · cases h
    · split at h
      · split at h
        · cases h
          rfl
        · cases h
          rfl
      · cases h
        rfl

/-- What a string is that begins with `out` and goes on with what it had there. -/
def overlaid (out text : Bytes) : Bytes := untilNul (out ++ text.drop out.length)

theorem length_overlaid_le {out text : Bytes} (hle : out.length ≤ text.length) : (overlaid out text).length ≤ text.length := by
  refine (length_untilNul_le _).trans ?_
  rw [List.length_append, List.length_drop]
  omega

theorem Mem.HoldsStr.overlaid {m : Mem} {p : ℕ} {text out : Bytes} (hm : m.HoldsStr p text)
    (hle : out.length ≤ text.length) : (m.store p out).HoldsStr p (overlaid out text) := by
  have hlen : (out ++ text.drop out.length).length = out.length + (text.length - out.length) := by
    rw [List.length_append, List.length_drop]
  apply Mem.holdsStr_untilNul
  · have hsplit : m.slice p text.length = text.take out.length ++ text.drop out.length := by
      rw [hm.content, List.take_append_drop]
    rw [← Nat.add_sub_cancel' hle, Mem.slice_add] at hsplit
    obtain ⟨-, hrest⟩ := List.append_inj hsplit (by rw [Mem.slice_length, List.length_take]; omega)
    rw [hlen, Mem.slice_add, Mem.slice_store_same, Mem.slice_store_after _ _ _ _ _ (Nat.le_refl _), hrest]
  · rw [hlen, Nat.add_sub_cancel' hle, Mem.store_after _ _ _ (by omega)]
    exact hm.terminated

/-- A sequence that is not whole. -/
inductive Cut : Bytes → Prop
  | mk {c : UInt8} {rest : Bytes} (hc : 0x80 ≤ c) (hlen : rest.length + 1 < sequenceLen c) : Cut (c :: rest)

/-- The text that is left of a URI where a stage fails, and the error. `n_hex` has decoded what comes before the
triple that it refuses, `n_utf8` has rewritten what comes before the sequence that is cut off; for `n_path` the
text is what stands before the first slash; and before the query is refused, the path is complete. -/
inductive Leaves (before : UInt8) (uri : Bytes) : ℕ → Bytes → Prop
  | hex {pre bad s : Bytes} {code : ℕ} (hpath : uriPath uri = pre ++ bad) (hpre : Decodes pre s)
      (hbad : Offends code bad) : Leaves before uri code (overlaid s (uriPath uri))
  | utf8 {pre bad t : Bytes} (hs : Decodes (uriPath uri) (pre ++ bad)) (hpre : Collapses before pre t) (hbad : Cut bad) :
      Leaves before uri NADS_ERR_BAD_UTF8 (overlaid t (pre ++ bad))
  | traversal {s t : Bytes} (hs : Decodes (uriPath uri) s) (ht : Collapses before s t)
      (hout : resolve [] (segments (untilNul t)) = none) :
      Leaves before uri NADS_ERR_TRAVERSAL ((collapse (untilNul t)).takeWhile (· ≠ SLASH))
  | query {s t : Bytes} {stack : List Bytes} {code : ℕ} (hs : Decodes (uriPath uri) s) (ht : Collapses before s t)
      (hin : resolve [] (segments (untilNul t)) = some stack) (hquery : FirstOffends code (askedQuery uri)) :
      Leaves before uri code (pathText stack)

variable {before : UInt8} {uri s t pre bad u : Bytes} {code : ℕ} {m m' : Mem}

theorem Offends.emitted (h : Offends code bad) : emitted hexStep .plain bad = [] := by
  have hfirst : hexStep .plain PERCENT = .ok (.percent, PERCENT, []) := rfl
  cases h with
  | null s => rfl
  | @badHex s hs =>
    rw [Ashttpd.emitted, hfirst]
    dsimp only
    cases s with
    | nil => rfl
    | cons hi s =>
      rw [Ashttpd.emitted]
      cases hhi : isHex hi with
      | false =>
        rw [hexStep, hhi]
        rfl
      | true =>
        rw [hexStep_percent hhi]
        dsimp only
        cases s with
        | nil => rfl
        | cons lo s =>
          have hlo : isHex lo = false := by
            rw [← Bool.not_eq_true]
            exact fun hlo => hs hi lo s rfl ⟨hhi, hlo⟩
          rw [Ashttpd.emitted, hexStep, hlo]
          rfl

theorem Decodes.emitted (hpre : Decodes pre s) (hbad : Offends code bad) : emitted hexStep .plain (pre ++ bad) = s := by
  have hrun := hpre.runSteps []
  rw [List.append_nil] at hrun
  have hrun : Ashttpd.runSteps hexStep .plain pre = .ok (.plain, s ++ []) := hrun
  rw [emitted_append hrun, hbad.emitted, List.append_nil, List.append_nil]

theorem Cut.emitted (h : Cut bad) : emitted (utf8Step before) .plain bad = [] := by
  cases h with
  | @mk c rest hc hlen =>
    have hcut := @runSteps_cut before c rest hc hlen
    have hall := emitted_append hcut []
    rwa [List.append_nil] at hall

theorem Collapses.emitted (hpre : Collapses before pre t) (hbad : Cut bad) :
    emitted (utf8Step before) .plain (pre ++ bad) = t := by
  rw [emitted_append hpre.runSteps, hbad.emitted, List.append_nil]

theorem Collapses.length_le (h : Collapses before s t) : t.length ≤ s.length := by
  induction h with
  | nil => exact Nat.le_refl 0
  | ascii hc _ ih => exact Nat.succ_le_succ ih
  | @sequence c rest s t hc hc' hlen _ ih =>
    have hout : (sequenceOut before (c :: rest) (leadLen c)).length ≤ (c :: rest).length := by
      unfold sequenceOut
      split
      · exact List.length_take_le' _ _
      · simp
    rw [List.length_append, List.length_append]
    omega

theorem EndsCut.exists_cut (before : UInt8) (h : EndsCut s) : ∃ pre bad t, s = pre ++ bad ∧ Collapses before pre t ∧ Cut bad := by
  induction h with
  | cut hc hlen => exact ⟨[], _, [], rfl, .nil, .mk hc hlen⟩
  | @ascii c s hc _ ih =>
    obtain ⟨pre, bad, t, rfl, hpre, hbad⟩ := ih
    exact ⟨c :: pre, bad, c :: t, rfl, .ascii hc hpre, hbad⟩
  | @sequence c rest s hc hc' hlen _ ih =>
    obtain ⟨pre, bad, t, rfl, hpre, hbad⟩ := ih
    exact ⟨c :: rest ++ pre, bad, _, (List.append_assoc _ _ _).symm, .sequence hc hc' hlen hpre, hbad⟩

theorem Cut.endsCut (hpre : Collapses before pre t) (hbad : Cut bad) : EndsCut (pre ++ bad) := by
  induction hpre with
  | nil =>
    cases hbad with
    | mk hc hlen => exact .cut hc hlen
  | ascii hc _ ih => exact .ascii hc ih
  | sequence hc hc' hlen _ ih =>
    rw [List.append_assoc]
    exact .sequence hc hc' hlen ih

/-- `n_hex` is refused a string: what it leaves. -/
theorem nHex_failed {buf : ℕ} (hm : m.HoldsStr buf (pre ++ bad)) (hfit : buf + (pre ++ bad).length < NADS_MAX_URI)
    (hpre : Decodes pre s) (hbad : Offends code bad) : nHex m buf = .error (.err code (m.store buf s)) := by
  have hspec := nHex_spec hm hfit
  have htext : hexText (pre ++ bad) = .error (.err code) := hbad.passText hpre
  rw [htext] at hspec
  obtain ⟨m', hm'⟩ := hspec
  have hleft : m' = m.store buf (emitted hexStep .plain (pre ++ bad)) :=
    runPass_left hexStep_lagging rfl hexStep_keepsInput hm hm'
  rw [hm', hleft, hpre.emitted hbad]

theorem nUtf8_failed (hm : m.HoldsStr 0 (pre ++ bad)) (hfit : (pre ++ bad).length < NADS_MAX_URI)
    (hpre : Collapses before pre t) (hbad : Cut bad) :
    nUtf8 before m 0 = .error (.err NADS_ERR_BAD_UTF8 (m.store 0 t)) := by
  have hspec := nUtf8_spec before hm (by omega)
  rw [(hbad.endsCut hpre).utf8Text] at hspec
  obtain ⟨m', hm'⟩ := hspec
  have hleft : m' = m.store 0 (emitted (utf8Step before) .plain (pre ++ bad)) :=
    runPass_left (utf8Step_lagging before) rfl (utf8Step_keepsInput before) hm hm'
  rw [hm', hleft, hpre.emitted hbad]

theorem nHex_decoded (hm : m.HoldsStr 0 t) (hfit : t.length < NADS_MAX_URI) (hs : Decodes t s) :
    ∃ m', nHex m 0 = .ok m' ∧ Rewritten m m' 0 t s := by
  have hspec := nHex_spec hm (by omega)
  rwa [hs.hexText hm.nulFree] at hspec

theorem nUtf8_collapsed (hm : m.HoldsStr 0 s) (hfit : s.length < NADS_MAX_URI) (ht : Collapses before s t) :
    ∃ m', nUtf8 before m 0 = .ok m' ∧ Rewritten m m' 0 s (untilNul t) := by
  have hspec := nUtf8_spec before hm (by omega)
  rwa [ht.utf8Text] at hspec

theorem nadsNormalize_failed {m₁ : Mem} {query : Option ℕ} (hsplit : nSplit m uri = .ok (m₁, query))
    (hfail : ((nadsDecode before m₁).bind fun m => (nPath m 0).bind fun m => nadsQuery m query) =
      .error (.err code m')) : nadsNormalize before m uri = .ok ⟨NADS_FAIL, code, m', query⟩ := by
  unfold nadsNormalize
  rw [hsplit]
  dsimp only
  rw [hfail]

theorem FirstOffends.ne_nil (h : FirstOffends code s) : s ≠ [] := by
  obtain ⟨pre, t, bad, rfl, -, hbad⟩ := h
  cases hbad with
  | null => simp
  | badHex => simp

/-- The query is refused behind a path that is complete. -/
theorem nadsQuery_failed {q : ℕ} (hu : m.HoldsStr 0 u) (hq : m.HoldsStr q s) (hbehind : u.length ≤ q)
    (hfit : q + s.length < NADS_MAX_URI) (hbad : FirstOffends code s) :
    ∃ m', nadsQuery m (some q) = .error (.err code m') ∧ m'.HoldsStr 0 u := by
  have hne := hbad.ne_nil
  obtain ⟨pre, t, bad, rfl, hpre, hbad⟩ := hbad
  refine ⟨m.store q t, nHex_failed hq hfit hpre hbad, hu.congr fun i _ hi => ?_⟩
  have hlt : i ≠ q := by
    rintro rfl
    have hend : i = u.length := by omega
    have hzero : m i = 0 := by
      have h := hu.terminated
      rwa [Nat.zero_add, ← hend] at h
    exact hne (hq.unique (Mem.HoldsStr.nil hzero))
  exact (Mem.store_before m q t (by omega)).symm

/-- `nads_normalize` refuses the URI and leaves the text, whatever lies in the buffer. -/
theorem Leaves.nadsNormalize (h : Leaves before uri code u) (m : Mem) (hfit : uri.length < NADS_MAX_URI) :
    ∃ m', Ashttpd.nadsNormalize before m uri = .ok ⟨NADS_FAIL, code, m', queryAt uri⟩ ∧ m'.HoldsStr 0 u ∧
      u.length < NADS_MAX_URI := by
  obtain ⟨m₁, hsplit, hhold, hpfit, hquery⟩ := nSplit_spec m hfit
  cases h with
  | @hex pre bad s code hpath hpre hbad =>
    rw [hpath] at hhold hpfit ⊢
    have hlen := hpre.length_le
    have hle : s.length ≤ (pre ++ bad).length := by
      rw [List.length_append]
      omega
    have hhex := nHex_failed hhold (by omega) hpre hbad
    refine ⟨m₁.store 0 s, nadsNormalize_failed hsplit ?_, hhold.overlaid hle, (length_overlaid_le hle).trans_lt hpfit⟩
    simp only [nadsDecode, hhex, Except.bind]
  | @utf8 pre bad t hs hpre hbad =>
    obtain ⟨m₂, hhex, hre⟩ := nHex_decoded hhold hpfit hs
    have hshort := hre.length_le
    have hlen := hpre.length_le
    have hle : t.length ≤ (pre ++ bad).length := by
      rw [List.length_append]
      omega
    have hutf8 := nUtf8_failed hre.holds (by omega) hpre hbad
    have hcut := length_overlaid_le hle
    refine ⟨m₂.store 0 t, nadsNormalize_failed hsplit ?_, hre.holds.overlaid hle, by omega⟩
    simp only [nadsDecode, hhex, hutf8, Except.bind]
  | @traversal s t hs ht hout =>
    obtain ⟨m₂, hhex, hre⟩ := nHex_decoded hhold hpfit hs
    have hshort := hre.length_le
    obtain ⟨m₃, hutf8, hre'⟩ := nUtf8_collapsed hre.holds (by omega) ht
    have hshort' := hre'.length_le
    have hpath := nPath_spec hre'.holds (by omega)
    rw [hout] at hpath
    obtain ⟨m₄, hpath, hholds⟩ := hpath
    have hcut : ((collapse (untilNul t)).takeWhile (· ≠ SLASH)).length ≤ (untilNul t).length :=
      (List.takeWhile_prefix _).length_le.trans (length_collapse_le _)
    refine ⟨m₄, nadsNormalize_failed hsplit ?_, hholds, by omega⟩
    simp only [nadsDecode, hhex, hutf8, hpath, Except.bind]
  | @query s t stack code hs ht hin hbad =>
    obtain ⟨m₂, hhex, hre⟩ := nHex_decoded hhold hpfit hs
    have hshort := hre.length_le
    obtain ⟨m₃, hutf8, hre'⟩ := nUtf8_collapsed hre.holds (by omega) ht
    have hshort' := hre'.length_le
    have hpath := nPath_spec hre'.holds (by omega)
    rw [hin] at hpath
    obtain ⟨m₄, hpath, hholds, hlen, hframe⟩ := hpath
    have hdec : decodedPath before uri = .ok (untilNul t) := by
      unfold decodedPath
      rw [hs.hexText (untilNul_nulFree _)]
      exact ht.utf8Text
    cases hat : queryAt uri with
    | none => exact absurd (askedQuery_of_queryAt_none hat) hbad.ne_nil
    | some q =>
      obtain ⟨htext, hbehind, hqfit⟩ := hquery q hat
      have hsame : ∀ i, max 1 (uriPath uri).length < i → m₄ i = m₁ i := by
        intro i hi
        rw [hframe i (by omega), hre'.after i (by omega), hre.after i (by omega)]
      obtain ⟨hasked, hroom, hafit⟩ := askedQuery_holds hat htext hbehind hqfit hdec hin (by omega) hholds hlen hsame
      obtain ⟨m₅, hrun, hkept⟩ := nadsQuery_failed hholds hasked hroom hafit hbad
      have hone : 1 < NADS_MAX_URI := by decide
      refine ⟨m₅, nadsNormalize_failed (hsplit.trans (by rw [hat])) ?_, hkept, by omega⟩
      simp only [nadsDecode, hhex, hutf8, hpath, Except.bind]
      exact hrun

theorem BadUri.leaves (h : BadUri before uri) : ∃ code u, Leaves before uri code u := by
  rcases h with ⟨code, pre, s, bad, hpath, hpre, hbad⟩ | ⟨s, hs, hcut | ⟨t, ht, hout | ⟨code, hbad⟩⟩⟩
  · exact ⟨code, _, .hex hpath hpre hbad⟩
  · obtain ⟨pre, bad, t, rfl, hpre, hbad⟩ := hcut.exists_cut before
    exact ⟨_, _, .utf8 hs hpre hbad⟩
  · exact ⟨_, _, .traversal hs ht hout⟩
  · cases hin : resolve [] (segments (untilNul t)) with
    | none => exact ⟨_, _, .traversal hs ht hin⟩
    | some stack => exact ⟨code, _, .query hs ht hin hbad⟩

theorem nadsNormalize_fits {n : Nads} (hn : nadsNormalize before m uri = .ok n) : uri.length < NADS_MAX_URI := by
  by_contra hlong
  unfold nadsNormalize nSplit at hn
  rw [if_pos (by omega)] at hn
  cases hn

/-- `nads_normalize` refuses a URI exactly if a stage leaves something of it, and this is what is in the buffer. -/
theorem nadsNormalize_refused_iff {n : Nads} (hn : nadsNormalize before m uri = .ok n) :
    n.ret = NADS_FAIL ↔ ∃ u, Leaves before uri n.errcode u ∧ n.uri.HoldsStr 0 u ∧ u.length < NADS_MAX_URI := by
  have hfit := nadsNormalize_fits hn
  constructor
  · intro hfail
    obtain ⟨code, u, hu⟩ := ((rejected_iff before m hfit).mp ⟨n, hn, hfail⟩).leaves
    obtain ⟨m', hleft, hholds, hlen⟩ := hu.nadsNormalize m hfit
    cases hn.symm.trans hleft
    exact ⟨u, hu, hholds, hlen⟩
  · rintro ⟨u, hu, -⟩
    obtain ⟨m', hleft, -⟩ := hu.nadsNormalize m hfit
    have hsame := Except.ok.inj (hn.symm.trans hleft)
    rw [hsame]

/-- The text that `nads_normalize` leaves of a URI, whether it accepts the URI or refuses it. -/
inductive LeftOf (before : UInt8) (uri : Bytes) : Bytes → Prop
  | path {stack : List Bytes} {query : Bytes} (h : normalized before uri = .ok (stack, query)) :
      LeftOf before uri (pathText stack)
  | failed {code : ℕ} {u : Bytes} (h : Leaves before uri code u) : LeftOf before uri u

theorem LeftOf.nadsNormalize (h : LeftOf before uri u) (m : Mem) (hfit : uri.length < NADS_MAX_URI) :
    ∃ nads, Ashttpd.nadsNormalize before m uri = .ok nads ∧ nads.uri.HoldsStr 0 u ∧ u.length < NADS_MAX_URI := by
  cases h with
  | path hnorm =>
    have hspec := nadsNormalize_normalized before m hfit
    rw [hnorm] at hspec
    obtain ⟨m', hn, hholds, hlen, -⟩ := hspec
    exact ⟨_, hn, hholds, hlen⟩
  | failed hleaves =>
    obtain ⟨m', hn, hholds, hlen⟩ := hleaves.nadsNormalize m hfit
    exact ⟨_, hn, hholds, hlen⟩

/-- A text is left of every URI, unless it has a sequence of more bytes than `n_utf8` has room for. -/
theorem exists_leftOf (hdefined : ∀ f, normalized before uri ≠ .error (.fault f)) : ∃ u, LeftOf before uri u := by
  cases hnorm : normalized before uri with
  | ok out => exact ⟨_, .path hnorm⟩
  | error e =>
    cases e with
    | err code =>
      obtain ⟨code', u, hleaves⟩ := ((badUri_iff uri).mpr ⟨code, hnorm⟩).leaves
      exact ⟨u, .failed hleaves⟩
    | fault f => exact absurd hnorm (hdefined f)

theorem LeftOf.unique {u' : Bytes} (h : LeftOf before uri u) (h' : LeftOf before uri u') (hfit : uri.length < NADS_MAX_URI) :
    u = u' := by
  obtain ⟨nads, hn, hholds, -⟩ := h.nadsNormalize (fun _ => 0) hfit
  obtain ⟨nads', hn', hholds', -⟩ := h'.nadsNormalize (fun _ => 0) hfit
  cases hn.symm.trans hn'
  exact hholds.unique hholds'

example : LeftOf 0 [47, 46, 47, 97, 63, 120] [47, 97] := by
  have hnormalized : normalized 0 [47, 46, 47, 97, 63, 120] = .ok ([[97]], [120]) := by decide
  exact .path hnormalized

theorem Offends.code_ne (h : Offends code bad) : code ≠ NADS_ERR_TRAVERSAL := by
  cases h with
  | null => decide
  | badHex => decide

theorem Leaves.not_rooted (h : Leaves before uri NADS_ERR_TRAVERSAL u) : u.head? ≠ some SLASH := by
  generalize hcode : NADS_ERR_TRAVERSAL = code at h
  cases h with
  | hex hpath hpre hbad => exact absurd hcode.symm hbad.code_ne
  | utf8 => exact absurd hcode (by decide)
  | query hs ht hin hbad =>
    obtain ⟨_, _, _, -, -, hbad⟩ := hbad
    exact absurd hcode.symm hbad.code_ne
  | traversal =>
    intro hhead
    have hmem := List.mem_takeWhile_imp (List.mem_of_mem_head? hhead)
    simp at hmem

end Ashttpd
