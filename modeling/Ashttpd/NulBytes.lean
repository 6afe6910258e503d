import Ashttpd.HexDecoding
import Ashttpd.Utf8Sequences

/-!
# NULs in a path

A NUL ends a string for every pass behind the one that finds or makes it. `n_hex` refuses the NULs that it
would make itself; it does not see those that `n_split` copied, and `n_utf8` makes its own.
-/
namespace Ashttpd

/-- What `n_utf8` makes of sequences that are whole and have six bytes at most. -/
inductive Collapses (before : UInt8) : Bytes → Bytes → Prop
  | nil : Collapses before [] []
  | ascii {c : UInt8} {s t : Bytes} (hc : c < 0x80) (h : Collapses before s t) : Collapses before (c :: s) (c :: t)
  | sequence {c : UInt8} {rest s t : Bytes} (hc : 0x80 ≤ c) (hc' : c < 0xFE) (hlen : rest.length + 1 = sequenceLen c)
      (h : Collapses before s t) : Collapses before (c :: rest ++ s) (sequenceOut before (c :: rest) (leadLen c) ++ t)

/-- The last sequence is not whole. -/
inductive EndsCut : Bytes → Prop
  | cut {c : UInt8} {rest : Bytes} (hc : 0x80 ≤ c) (hlen : rest.length + 1 < sequenceLen c) : EndsCut (c :: rest)
  | ascii {c : UInt8} {s : Bytes} (hc : c < 0x80) (h : EndsCut s) : EndsCut (c :: s)
  | sequence {c : UInt8} {rest s : Bytes} (hc : 0x80 ≤ c) (hc' : c < 0xFE) (hlen : rest.length + 1 = sequenceLen c)
      (h : EndsCut s) : EndsCut (c :: rest ++ s)

/-- There is a whole sequence for which `n_ucs4` gives 0. -/
inductive ZeroSequence (before : UInt8) : Bytes → Prop
  | zero {c : UInt8} {rest s : Bytes} (hc : 0x80 ≤ c) (hc' : c < 0xFE) (hlen : rest.length + 1 = sequenceLen c)
      (h0 : nUcs4 before (c :: rest) (leadLen c) = 0) : ZeroSequence before (c :: rest ++ s)
  | ascii {c : UInt8} {s : Bytes} (hc : c < 0x80) (h : ZeroSequence before s) : ZeroSequence before (c :: s)
  | sequence {c : UInt8} {rest s : Bytes} (hc : 0x80 ≤ c) (hc' : c < 0xFE) (hlen : rest.length + 1 = sequenceLen c)
      (h : ZeroSequence before s) : ZeroSequence before (c :: rest ++ s)

def HasNul (before : UInt8) (path : Bytes) : Prop :=
  0 ∈ path ∨ [PERCENT, 48, 48] <:+: path ∨ ∃ pre s, pre <+: path ∧ Decodes pre s ∧ ZeroSequence before s

/-- The path of a URI is there as a whole, and nothing that it was made into has a NUL. -/
def Uncut (before : UInt8) (uri : Bytes) (n : Nads) : Prop :=
  0 ∉ uri.takeWhile (· ≠ QMARK) ∧ ∃ s t stack, Decodes (uri.takeWhile (· ≠ QMARK)) s ∧ 0 ∉ s ∧ Collapses before s t ∧ 0 ∉ t ∧
    resolve [] (segments t) = some stack ∧ n.uri.HoldsStr 0 (pathText stack)

/-- What is wrong with a URI up to its first NUL: a triple that cannot be decoded, a sequence that is not
whole, a way above the root, or a query that cannot be decoded. -/
def BadUri (before : UInt8) (uri : Bytes) : Prop :=
  (∃ code, FirstOffends code (uriPath uri)) ∨ ∃ s, Decodes (uriPath uri) s ∧ (EndsCut s ∨ ∃ t, Collapses before s t ∧
    (resolve [] (segments (untilNul t)) = none ∨ ∃ code, FirstOffends code (askedQuery uri)))

variable {before : UInt8} {s t : Bytes}

theorem Collapses.runSteps (h : Collapses before s t) : runSteps (utf8Step before) .plain s = .ok (.plain, t) := by
  induction h with
  | nil => rfl
  | ascii hc _ ih =>
    rw [runSteps_ascii hc, ih]
    rfl
  | sequence hc hc' hlen _ ih =>
    rw [runSteps_whole hc hc' hlen, ih]
    rfl

theorem EndsCut.runSteps (h : EndsCut s) :
    ∃ chr len out, runSteps (utf8Step before) .plain s = .ok (.seq chr len, out) := by
  induction h with
  | cut hc hlen => exact ⟨_, _, _, runSteps_cut hc hlen⟩
  | ascii hc _ ih =>
    obtain ⟨chr, len, out, hrun⟩ := ih
    exact ⟨chr, len, _, by rw [runSteps_ascii hc, hrun]; rfl⟩
  | sequence hc hc' hlen _ ih =>
    obtain ⟨chr, len, out, hrun⟩ := ih
    exact ⟨chr, len, _, by rw [runSteps_whole hc hc' hlen, hrun]; rfl⟩

/-- A string is rewritten, is cut off in a sequence, or has a sequence of seven bytes. -/
theorem collapses_or_cut (before : UInt8) (s : Bytes) : (∃ t, Collapses before s t) ∨ EndsCut s ∨
    runSteps (utf8Step before) .plain s = .error (.fault .outOfRange) := by
  induction sequenced s with
  | nil => exact Or.inl ⟨[], .nil⟩
  | ascii hc _ ih =>
    rcases ih with ⟨t, ht⟩ | hcut | hfault
    · exact Or.inl ⟨_, .ascii hc ht⟩
    · exact Or.inr (Or.inl (.ascii hc hcut))
    · exact Or.inr (Or.inr (by rw [runSteps_ascii hc, hfault]; rfl))
  | @whole c rest u hc hlen _ ih =>
    by_cases hc' : c < 0xFE
    · rcases ih with ⟨t, ht⟩ | hcut | hfault
      · exact Or.inl ⟨_, .sequence hc hc' hlen ht⟩
      · exact Or.inr (Or.inl (.sequence hc hc' hlen hcut))
      · exact Or.inr (Or.inr (by rw [runSteps_whole hc hc' hlen, hfault]; rfl))
    · exact Or.inr (Or.inr (runSteps_overlong (UInt8.not_lt.mp hc') hlen u))
  | cut hc hlen => exact Or.inr (Or.inl (.cut hc hlen))

theorem Collapses.utf8Text (h : Collapses before s t) : utf8Text before s = .ok (untilNul t) := by
  unfold Ashttpd.utf8Text passText
  rw [h.runSteps]
  rfl

theorem EndsCut.utf8Text (h : EndsCut s) : utf8Text before s = .error (.err NADS_ERR_BAD_UTF8) := by
  obtain ⟨chr, len, out, hrun⟩ := @EndsCut.runSteps before s h
  unfold Ashttpd.utf8Text passText
  rw [hrun]
  rfl

/-- The only NULs in what `n_utf8` makes of a string without NULs are those of zero sequences. -/
theorem Collapses.nulFree (h : Collapses before s t) (hs : 0 ∉ s) (hzero : ¬ ZeroSequence before s) : 0 ∉ t := by
  induction h with
  | nil => exact hs
  | ascii hc _ ih =>
    rw [List.mem_cons, not_or] at hs ⊢
    exact ⟨hs.1, ih hs.2 fun h => hzero (.ascii hc h)⟩
  | @sequence c rest s t hc hc' hlen _ ih =>
    rw [List.mem_append, not_or] at hs ⊢
    refine ⟨fun h0 => ?_, ih hs.2 fun h => hzero (.sequence hc hc' hlen h)⟩
    unfold sequenceOut at h0
    split at h0
    · exact hs.1 (List.mem_of_mem_take h0)
    · next hlow =>
      apply hzero
      apply ZeroSequence.zero hc hc' hlen
      have hsmall : (nUcs4 before (c :: rest) (leadLen c)).toNat ≤ 0xFF := by
        by_contra hbig
        exact hlow (high_bits_iff _ (by omega))
      have hnat := congrArg UInt8.toNat (List.mem_singleton.mp h0)
      rw [UInt32.toNat_toUInt8] at hnat
      have h00 : (0 : UInt8).toNat = 0 := rfl
      apply UInt32.toNat_inj.mp
      show _ = 0
      omega

theorem ZeroSequence.append (h : ZeroSequence before s) (u : Bytes) : ZeroSequence before (s ++ u) := by
  induction h with
  | zero hc hc' hlen h0 =>
    rw [List.append_assoc]
    exact .zero hc hc' hlen h0
  | ascii hc _ ih => exact .ascii hc ih
  | sequence hc hc' hlen _ ih =>
    rw [List.append_assoc]
    exact .sequence hc hc' hlen ih

theorem Decodes.no_null_triple (h : Decodes s t) : ¬ [PERCENT, 48, 48] <:+: s := by
  induction h with
  | nil =>
    intro h
    cases List.infix_nil.mp h
  | plain hc _ ih =>
    intro h
    rcases List.infix_cons_iff.mp h with hpre | hin
    · exact hc (List.cons_prefix_cons.mp hpre).1.symm
    · exact ih hin
  | @triple hi lo d s t hhi hlo hd hd0 _ ih =>
    intro h
    have hpercent : isHex PERCENT = false := rfl
    rcases List.infix_cons_iff.mp h with hpre | hin
    · have hdigits := List.cons_prefix_cons.mp (List.cons_prefix_cons.mp hpre).2
      have hlast := List.cons_prefix_cons.mp hdigits.2
      rw [← hdigits.1, ← hlast.1] at hd
      exact hd0 (UInt8.toNat_inj.mp hd)
    rcases List.infix_cons_iff.mp hin with hpre | hin
    · rw [← (List.cons_prefix_cons.mp hpre).1, hpercent] at hhi
      cases hhi
    rcases List.infix_cons_iff.mp hin with hpre | hin
    · rw [← (List.cons_prefix_cons.mp hpre).1, hpercent] at hlo
      cases hlo
    · exact ih hin

theorem Decodes.prefix {pre post t' : Bytes} (hpre : Decodes pre t) (h : Decodes (pre ++ post) t') : t <+: t' := by
  have hrun := h.runSteps []
  rw [List.append_nil, hpre.runSteps] at hrun
  cases hpost : Ashttpd.runSteps hexStep .plain post with
  | error e =>
    rw [hpost] at hrun
    cases hrun
  | ok r =>
    rw [hpost] at hrun
    have heq : t ++ r.2 = t' ++ [] := congrArg Prod.snd (Except.ok.inj hrun)
    rw [List.append_nil] at heq
    exact ⟨r.2, heq⟩

theorem askedQuery_nulFree (uri : Bytes) : 0 ∉ askedQuery uri := by
  unfold askedQuery
  split
  · exact List.not_mem_nil
  · exact untilNul_nulFree _

theorem normalized_of_offends {uri : Bytes} {code : ℕ} (h : FirstOffends code (uriPath uri)) :
    normalized before uri = .error (.err code) := by
  unfold normalized decodedPath
  rw [h.hexText]
  rfl

theorem normalized_of_decodes {uri : Bytes} (h : Decodes (uriPath uri) s) : normalized before uri =
    match utf8Text before s with
    | .error e => .error e
    | .ok path =>
      match resolve [] (segments path) with
      | none => .error (.err NADS_ERR_TRAVERSAL)
      | some stack =>
        match hexText (askedQuery uri) with
        | .error e => .error e
        | .ok query => .ok (stack, query) := by
  unfold normalized decodedPath
  rw [h.hexText (untilNul_nulFree _)]
  rfl

/-- What is wrong with a URI is what `nads_normalize` finds wrong with it. -/
theorem badUri_iff (uri : Bytes) : BadUri before uri ↔ ∃ code, normalized before uri = .error (.err code) := by
  rcases decodes_or_offends (uriPath uri) with ⟨s, hs⟩ | ⟨code, hbad⟩
  · have hnorm := @normalized_of_decodes before s uri hs
    have hrefused : BadUri before uri ↔ EndsCut s ∨ ∃ t, Collapses before s t ∧
        (resolve [] (segments (untilNul t)) = none ∨ ∃ code, FirstOffends code (askedQuery uri)) := by
      have hfree := untilNul_nulFree (uri.takeWhile (· ≠ QMARK))
      have hhex := hs.hexText hfree
      constructor
      · rintro (⟨code, hbad⟩ | ⟨s', hs', hrest⟩)
        · cases hhex.symm.trans hbad.hexText
        · cases hhex.symm.trans (hs'.hexText hfree)
          exact hrest
      · exact fun h => Or.inr ⟨s, hs, h⟩
    rw [hrefused, hnorm]
    rcases collapses_or_cut before s with ⟨t, ht⟩ | hcut | hfault
    · have hpart : (EndsCut s ∨ ∃ t, Collapses before s t ∧
          (resolve [] (segments (untilNul t)) = none ∨ ∃ code, FirstOffends code (askedQuery uri))) ↔
          resolve [] (segments (untilNul t)) = none ∨ ∃ code, FirstOffends code (askedQuery uri) := by
        constructor
        · rintro (hcut | ⟨t', ht', hrest⟩)
          · obtain ⟨chr, len, out, hrun⟩ := @EndsCut.runSteps before s hcut
            cases ht.runSteps.symm.trans hrun
          · cases ht.runSteps.symm.trans ht'.runSteps
            exact hrest
        · exact fun h => Or.inr ⟨t, ht, h⟩
      rw [hpart, ht.utf8Text]
      dsimp only
      cases hres : resolve [] (segments (untilNul t)) with
      | none => simp
      | some stack =>
        rcases decodes_or_offends (askedQuery uri) with ⟨q, hq⟩ | ⟨code, hbad⟩
        · have hhex := hq.hexText (askedQuery_nulFree uri)
          dsimp only
          rw [hhex]
          constructor
          · rintro (h | ⟨code, hbad⟩)
            · cases h
            · cases hhex.symm.trans hbad.hexText
          · rintro ⟨code, h⟩
            cases h
        · dsimp only
          rw [hbad.hexText]
          exact ⟨fun _ => ⟨code, rfl⟩, fun _ => Or.inr ⟨code, hbad⟩⟩
    · rw [hcut.utf8Text]
      exact ⟨fun _ => ⟨_, rfl⟩, fun _ => Or.inl hcut⟩
    · have htext : utf8Text before s = .error (.fault .outOfRange) := by
        unfold utf8Text passText
        rw [hfault]
      rw [htext]
      constructor
      · rintro (hcut | ⟨t, ht, -⟩)
        · obtain ⟨chr, len, out, hrun⟩ := @EndsCut.runSteps before s hcut
          cases hfault.symm.trans hrun
        · cases hfault.symm.trans ht.runSteps
      · rintro ⟨code, h⟩
        cases h
  · exact ⟨fun _ => ⟨code, normalized_of_offends hbad⟩, fun _ => Or.inl ⟨code, hbad⟩⟩

/-- A URI is rejected exactly if something is wrong with it up to its first NUL. -/
theorem rejected_iff (before : UInt8) (m : Mem) {uri : Bytes} (hfit : uri.length < NADS_MAX_URI) :
    (∃ n, nadsNormalize before m uri = .ok n ∧ n.ret = NADS_FAIL) ↔ BadUri before uri := by
  have hspec := nadsNormalize_normalized before m hfit
  rw [badUri_iff]
  cases hnorm : normalized before uri with
  | error e =>
    rw [hnorm] at hspec
    cases e with
    | err code =>
      obtain ⟨m', hn⟩ := hspec
      exact ⟨fun _ => ⟨code, rfl⟩, fun _ => ⟨_, hn, rfl⟩⟩
    | fault f =>
      constructor
      · rintro ⟨n, hn, -⟩
        cases hspec.symm.trans hn
      · rintro ⟨code, h⟩
        cases h
  | ok r =>
    rw [hnorm] at hspec
    obtain ⟨m', hn, -⟩ := hspec
    constructor
    · rintro ⟨n, hn', hfail⟩
      cases hn.symm.trans hn'
      exact absurd hfail (by decide : NADS_OK ≠ NADS_FAIL)
    · rintro ⟨code, h⟩
      cases h

/-- What is accepted without a NUL in any of the forms is there as a whole. -/
theorem uncut_of_ok {m : Mem} {uri : Bytes} {n : Nads} (hfit : uri.length < NADS_MAX_URI)
    (hnul : ¬ HasNul before (uri.takeWhile (· ≠ QMARK))) (hn : nadsNormalize before m uri = .ok n)
    (hok : n.ret = NADS_OK) : Uncut before uri n := by
  have hfree : 0 ∉ uri.takeWhile (· ≠ QMARK) := fun h => hnul (Or.inl h)
  obtain ⟨path, stack, hdec, hres, hholds, -, -⟩ := (nadsNormalize_canonical before m uri hfit).1 n hn hok
  have hpath : uriPath uri = uri.takeWhile (· ≠ QMARK) := untilNul_of_nulFree hfree
  unfold decodedPath at hdec
  rw [hpath] at hdec
  cases hhex : hexText (uri.takeWhile (· ≠ QMARK)) with
  | error e =>
    rw [hhex] at hdec
    cases hdec
  | ok s =>
    rw [hhex] at hdec
    have hs := (hexText_eq_ok_iff hfree).mp hhex
    have hdec : utf8Text before s = .ok path := hdec
    have hszero : ¬ ZeroSequence before s := fun h => hnul (Or.inr (Or.inr ⟨_, s, List.prefix_refl _, hs, h⟩))
    rcases collapses_or_cut before s with ⟨t, ht⟩ | hcut | hfault
    · have htfree := ht.nulFree (hs.nulFree hfree) hszero
      rw [ht.utf8Text, untilNul_of_nulFree htfree] at hdec
      cases hdec
      exact ⟨hfree, s, _, stack, hs, hs.nulFree hfree, ht, htfree, hres, hholds⟩
    · cases hcut.utf8Text.symm.trans hdec
    · unfold utf8Text passText at hdec
      rw [hfault] at hdec
      cases hdec

/-- A path with a NUL in one of its forms is rejected, and what is accepted is there as a whole, exactly if the
NUL is neither copied nor made by `n_utf8`, or if something else is wrong with the URI before it. -/
theorem nul_refused_iff (before : UInt8) (m : Mem) (uri : Bytes) (hfit : uri.length < NADS_MAX_URI) :
    ((HasNul before (uri.takeWhile (· ≠ QMARK)) → ∃ n, nadsNormalize before m uri = .ok n ∧ n.ret = NADS_FAIL) ∧
      ∀ n, nadsNormalize before m uri = .ok n → n.ret = NADS_OK → Uncut before uri n) ↔
    (0 ∉ uri.takeWhile (· ≠ QMARK) ∧ ∀ s, Decodes (uri.takeWhile (· ≠ QMARK)) s → ¬ ZeroSequence before s) ∨
      BadUri before uri := by
  rw [rejected_iff before m hfit]
  constructor
  · rintro ⟨hrefused, -⟩
    by_cases hbad : BadUri before uri
    · exact Or.inr hbad
    · refine Or.inl ⟨fun h0 => hbad (hrefused (Or.inl h0)), fun s hs hzero => hbad (hrefused ?_)⟩
      exact Or.inr (Or.inr ⟨_, s, List.prefix_refl _, hs, hzero⟩)
  · rintro (⟨hfree, hzero⟩ | hbad)
    · have hpath : uriPath uri = uri.takeWhile (· ≠ QMARK) := untilNul_of_nulFree hfree
      have hrefused : HasNul before (uri.takeWhile (· ≠ QMARK)) → BadUri before uri := by
        intro hnul
        rcases decodes_or_offends (uri.takeWhile (· ≠ QMARK)) with ⟨s, hs⟩ | hoffends
        · rcases hnul with h0 | htriple | ⟨pre, s', ⟨post, hsplit⟩, hpre, hzero'⟩
          · exact absurd h0 hfree
          · exact absurd htriple hs.no_null_triple
          · rw [← hsplit] at hs hzero
            obtain ⟨u, rfl⟩ := hpre.prefix hs
            exact absurd (hzero'.append u) (hzero _ hs)
        · rw [← hpath] at hoffends
          exact Or.inl hoffends
      refine ⟨hrefused, fun n hn hok => ?_⟩
      by_cases hnul : HasNul before (uri.takeWhile (· ≠ QMARK))
      · obtain ⟨n', hn', hfail⟩ := (rejected_iff before m hfit).mpr (hrefused hnul)
        cases hn.symm.trans hn'
        rw [hok] at hfail
        exact absurd hfail (by decide)
      · exact uncut_of_ok hfit hnul hn hok
    · refine ⟨fun _ => hbad, fun n hn hok => ?_⟩
      obtain ⟨n', hn', hfail⟩ := (rejected_iff before m hfit).mpr hbad
      cases hn.symm.trans hn'
      rw [hok] at hfail
      exact absurd hfail (by decide)

/-- "/%00" is rejected. -/
theorem nul_refused_iff_triple :
    ((HasNul 0 ([47, 37, 48, 48].takeWhile (· ≠ QMARK)) →
        ∃ n, nadsNormalize 0 (fun _ => 0) [47, 37, 48, 48] = .ok n ∧ n.ret = NADS_FAIL) ∧
      ∀ n, nadsNormalize 0 (fun _ => 0) [47, 37, 48, 48] = .ok n → n.ret = NADS_OK → Uncut 0 [47, 37, 48, 48] n) ↔
    (0 ∉ [47, 37, 48, 48].takeWhile (· ≠ QMARK) ∧
        ∀ s, Decodes ([47, 37, 48, 48].takeWhile (· ≠ QMARK)) s → ¬ ZeroSequence 0 s) ∨ BadUri 0 [47, 37, 48, 48] :=
  nul_refused_iff 0 (fun _ => 0) [47, 37, 48, 48] (by decide)

/-- A NUL behind "/a", and "/%C0%80x": both are accepted, and what stands behind the NUL is gone. -/
theorem nul_accepted :
    (HasNul 0 [47, 97, 0, 98] ∧ ∃ n, nadsNormalize 0 (fun _ => 0) [47, 97, 0, 98] = .ok n ∧ n.ret = NADS_OK ∧
      n.uri.HoldsStr 0 [47, 97]) ∧
    HasNul 0 [47, 37, 67, 48, 37, 56, 48, 120] ∧ ∃ n, nadsNormalize 0 (fun _ => 0) [47, 37, 67, 48, 37, 56, 48, 120] = .ok n ∧
      n.ret = NADS_OK ∧ n.uri.HoldsStr 0 [47] := by
  have hraw := @nadsNormalize_spec 0 (fun _ => 0) [47, 97, 0, 98] [47, 97] (by decide) (by decide)
  rw [show resolve [] (segments [47, 97]) = some [[97]] by decide] at hraw
  obtain ⟨n, hn, -, hok, hholds⟩ := hraw
  have hok := hok (by decide)
  refine ⟨⟨Or.inl (by decide), n, hn, hok, (hholds hok).1⟩, ?_⟩
  have hencoded := @nadsNormalize_spec 0 (fun _ => 0) [47, 37, 67, 48, 37, 56, 48, 120] [47] (by decide) (by decide)
  rw [show resolve [] (segments [47]) = some [[]] by decide] at hencoded
  obtain ⟨n', hn', -, hok', hholds'⟩ := hencoded
  have hok' := hok' (by decide)
  have hdecodes : Decodes [47, 37, 67, 48, 37, 56, 48, 120] [47, 0xC0, 0x80, 120] :=
    (hexText_eq_ok_iff (by decide)).mp (by decide)
  have hzero : ZeroSequence 0 (0xC0 :: [0x80] ++ [120]) := .zero (by decide) (by decide) (by decide) (by decide)
  have hnul : HasNul 0 [47, 37, 67, 48, 37, 56, 48, 120] :=
    Or.inr (Or.inr ⟨_, _, List.prefix_refl _, hdecodes, .ascii (by decide) hzero⟩)
  exact ⟨hnul, n', hn', hok', (hholds' hok').1⟩

end Ashttpd
