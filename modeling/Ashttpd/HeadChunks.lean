import Ashttpd.HeadScan

/-!
# Heads that come in chunks

`http_read` gives the scanner the bytes that have come in since it was called last. However they are cut, the
scanner stops on the byte that ends the first empty line, in the chunk that this byte came in.
-/
namespace Ashttpd

def HeadEndsAt (s : Bytes) (i k : ℕ) : Prop :=
  s[i]? = some LF ∧ (s[i + 1]? = some LF ∧ k = i + 1 ∨ s[i + 1]? = some CR ∧ s[i + 2]? = some LF ∧ k = i + 2)

def FirstHeadEnd (s : Bytes) (k : ℕ) : Prop := ∃ i, HeadEndsAt s i k ∧ ∀ j < i, ∀ k', ¬ HeadEndsAt s j k'

variable {s x y : Bytes} {i j k : ℕ}

theorem take_succ_eq {c : UInt8} (hc : s[k]? = some c) : s.take (k + 1) = s.take k ++ [c] := by
  rw [List.take_add_one, hc]
  rfl

theorem lf_suffix_take (hk : k < s.length) : [LF] <:+ s.take (k + 1) ↔ s[k]? = some LF := by
  rw [take_succ_eq (List.getElem?_eq_getElem hk), lf_suffix_concat, List.getElem?_eq_getElem hk, Option.some.injEq,
    eq_comm]

theorem lfcr_suffix_take (hk : k + 1 < s.length) :
    [LF, CR] <:+ s.take (k + 2) ↔ s[k]? = some LF ∧ s[k + 1]? = some CR := by
  rw [take_succ_eq (List.getElem?_eq_getElem hk), lfcr_suffix_concat, lf_suffix_take (by omega),
    List.getElem?_eq_getElem hk, Option.some.injEq, eq_comm, and_comm]

theorem headEndsAt_lt (h : HeadEndsAt s i k) : i < k ∧ k < s.length := by
  obtain ⟨-, ⟨hlf, rfl⟩ | ⟨-, hlf, rfl⟩⟩ := h
  · exact ⟨by omega, (List.getElem?_eq_some_iff.mp hlf).1⟩
  · exact ⟨by omega, (List.getElem?_eq_some_iff.mp hlf).1⟩

/-- A position ends a head if what is read up to it does. -/
theorem exists_headEndsAt_iff (hk : k < s.length) : (∃ i, HeadEndsAt s i k) ↔ EndsHead (s.take (k + 1)) := by
  have hget := List.getElem?_eq_getElem hk
  rw [take_succ_eq hget, endsHead_concat]
  constructor
  · rintro ⟨i, hlf, ⟨hend, rfl⟩ | ⟨hcr, hend, rfl⟩⟩
    · rw [hget] at hend
      exact ⟨(Option.some.inj hend).symm, Or.inl ((lf_suffix_take (by omega)).mpr hlf)⟩
    · rw [hget] at hend
      exact ⟨(Option.some.inj hend).symm, Or.inr ((lfcr_suffix_take (by omega)).mpr ⟨hlf, hcr⟩)⟩
  · rintro ⟨hend, hbefore⟩
    rw [← hend] at hget
    obtain hlf | hlfcr := hbefore
    · cases k with
      | zero => simp at hlf
      | succ i => exact ⟨i, (lf_suffix_take (by omega)).mp hlf, Or.inl ⟨hget, rfl⟩⟩
    · match k, hlfcr with
      | 0, hlfcr => simp at hlfcr
      | 1, hlfcr =>
        have hlen := hlfcr.length_le
        simp at hlen
      | i + 2, hlfcr =>
        obtain ⟨hlf, hcr⟩ := (lfcr_suffix_take (by omega)).mp hlfcr
        exact ⟨i, hlf, Or.inr ⟨hcr, hget, rfl⟩⟩

theorem cr_ne_lf : ¬ some CR = some LF := by decide

/-- What begins later ends later. -/
theorem headEndsAt_mono {k' : ℕ} (h : HeadEndsAt s i k) (h' : HeadEndsAt s j k') : i < j ↔ k < k' := by
  obtain ⟨hi, ⟨hi1, rfl⟩ | ⟨hi1, hi2, rfl⟩⟩ := h
  · obtain ⟨hj, ⟨hj1, rfl⟩ | ⟨hj1, hj2, rfl⟩⟩ := h'
    · omega
    · by_cases heq : i = j + 1
      · subst heq
        rw [hi] at hj1
        exact absurd hj1.symm cr_ne_lf
      · by_cases heq' : i = j
        · subst heq'
          rw [hi1] at hj1
          exact absurd hj1.symm cr_ne_lf
        · omega
  · obtain ⟨hj, ⟨hj1, rfl⟩ | ⟨hj1, hj2, rfl⟩⟩ := h'
    · by_cases heq : j = i + 1
      · subst heq
        rw [hi1] at hj
        exact absurd hj cr_ne_lf
      · by_cases heq' : i = j
        · subst heq'
          rw [hi1] at hj1
          exact absurd hj1 cr_ne_lf
        · omega
    · omega

theorem firstHeadEnd_iff : FirstHeadEnd s k ↔ k < s.length ∧ EndsHead (s.take (k + 1)) ∧ NoHead [] (s.take k) := by
  constructor
  · rintro ⟨i, hi, hfirst⟩
    have hk := (headEndsAt_lt hi).2
    refine ⟨hk, (exists_headEndsAt_iff hk).mp ⟨i, hi⟩, fun z hz hne hends => ?_⟩
    obtain ⟨n, hn⟩ : ∃ n, z.length = n + 1 := Nat.exists_eq_succ_of_ne_zero (mt List.length_eq_zero_iff.mp hne)
    have hzlen := hz.length_le
    rw [List.length_take] at hzlen
    have hzeq : z = s.take (n + 1) := by
      rw [List.prefix_iff_eq_take.mp (hz.trans (List.take_prefix k s)), hn]
    rw [List.nil_append, hzeq] at hends
    obtain ⟨j, hj⟩ := (exists_headEndsAt_iff (by omega)).mpr hends
    have hlt := (headEndsAt_mono hj hi).mpr (by omega)
    exact hfirst j hlt n hj
  · rintro ⟨hk, hends, hno⟩
    obtain ⟨i, hi⟩ := (exists_headEndsAt_iff hk).mpr hends
    refine ⟨i, hi, fun j hj k' hj' => ?_⟩
    have hlt := (headEndsAt_mono hj' hi).mp hj
    have hends' := (exists_headEndsAt_iff (by omega)).mp ⟨j, hj'⟩
    refine hno (s.take (k' + 1)) ?_ ?_ (by rwa [List.nil_append])
    · exact List.take_prefix_take_left (by omega)
    · exact List.ne_nil_of_length_pos (by rw [List.length_take]; omega)

/-- Calls of `http_parse_incremental` for the chunks of a stream, up to one that returns 1: what they return,
and what is left in `state` and `rptr`. `end` is behind the bytes that have come so far. -/
def feedChunks (state : Rstate) (rptr : ℕ) (come : Bytes) : List Bytes → Except Fault (List Bool × Rstate × ℕ)
  | [] => .ok ([], state, rptr)
  | chunk :: chunks => do
    let (ret, state, n) ← httpParseIncremental state ((come ++ chunk).drop rptr)
    if ret then return ([true], state, rptr + n)
    else
      let (rets, state, rptr) ← feedChunks state (rptr + n) (come ++ chunk) chunks
      return (false :: rets, state, rptr)

theorem feedChunks_cons {state st : Rstate} {chunk : Bytes} {chunks : List Bytes} {n : ℕ}
    (hrun : httpParseIncremental state chunk = .ok (false, st, n)) :
    feedChunks state x.length x (chunk :: chunks) =
      (feedChunks st (x.length + n) (x ++ chunk) chunks).map fun r => (false :: r.1, r.2) := by
  rw [feedChunks, List.drop_left, hrun]
  cases hrest : feedChunks st (x.length + n) (x ++ chunk) chunks with
  | error f =>
    show (feedChunks st (x.length + n) (x ++ chunk) chunks >>= _) = _
    rw [hrest]
    rfl
  | ok r =>
    show (feedChunks st (x.length + n) (x ++ chunk) chunks >>= _) = _
    rw [hrest]
    rfl

/-- The bytes that came before have no head in them and were all read. -/
theorem feedChunks_spec {state : Rstate} (htracks : state.Tracks x) (hterm : state.terminal = false)
    (hno : NoHead [] x) (chunks : List Bytes) :
    (∃ before chunk after k st, chunks = before ++ chunk :: after ∧ x.length + before.flatten.length ≤ k ∧
      k < x.length + before.flatten.length + chunk.length ∧ FirstHeadEnd (x ++ chunks.flatten) k ∧
      feedChunks state x.length x chunks = .ok (List.replicate before.length false ++ [true], st, k)) ∨
    NoHead [] (x ++ chunks.flatten) ∧ ∃ st, feedChunks state x.length x chunks =
      .ok (List.replicate chunks.length false, st, x.length + chunks.flatten.length) := by
  induction chunks generalizing state x with
  | nil => exact Or.inr ⟨by simpa using hno, state, rfl⟩
  | cons chunk chunks ih =>
    obtain ⟨st, z, c, rest, rfl, hrun, hnoz, hends⟩ | ⟨st, hrun, htracks', hterm', hnoc⟩ :=
      httpParseIncremental_spec htracks hterm chunk
    · refine Or.inl ⟨[], z ++ c :: rest, chunks, (x ++ z).length, st, rfl, ?_, ?_, ?_, ?_⟩
      · simp
      · simp
      · have hstream : x ++ ((z ++ c :: rest) :: chunks).flatten = x ++ z ++ c :: (rest ++ chunks.flatten) := by
          simp
        have hlong : x ++ z ++ c :: (rest ++ chunks.flatten) = x ++ z ++ [c] ++ (rest ++ chunks.flatten) := by
          simp
        have htake : (x ++ z ++ c :: (rest ++ chunks.flatten)).take ((x ++ z).length + 1) = x ++ z ++ [c] := by
          rw [hlong]
          refine List.take_left' ?_
          rw [List.length_append, List.length_singleton]
        rw [hstream, firstHeadEnd_iff, htake, List.take_left]
        refine ⟨by simp, ?_, Unended.append hno hnoz⟩
        rwa [List.append_assoc]
      · rw [feedChunks, List.drop_left, hrun, List.length_append]
        rfl
    · rw [feedChunks_cons hrun]
      have hlen : x.length + chunk.length = (x ++ chunk).length := List.length_append.symm
      have hflat : x ++ (chunk :: chunks).flatten = x ++ chunk ++ chunks.flatten := by
        rw [List.flatten_cons, List.append_assoc]
      rw [hlen, hflat]
      obtain ⟨before, chunk', after, k, st', rfl, hlow, hhigh, hfirst, hfeed⟩ | ⟨hnone, st', hfeed⟩ :=
        ih htracks' hterm' (Unended.append hno hnoc)
      · refine Or.inl ⟨chunk :: before, chunk', after, k, st', rfl, ?_, ?_, hfirst, by rw [hfeed]; rfl⟩
        · simp only [List.flatten_cons, List.length_append] at hlow ⊢
          omega
        · simp only [List.flatten_cons, List.length_append] at hhigh ⊢
          omega
      · refine Or.inr ⟨hnone, st', ?_⟩
        rw [hfeed, List.flatten_cons, List.length_append, List.length_append, Nat.add_assoc]
        rfl

theorem FirstHeadEnd.unique {k' : ℕ} (h : FirstHeadEnd s k) (h' : FirstHeadEnd s k') : k = k' := by
  obtain ⟨i, hi, hfirst⟩ := h
  obtain ⟨i', hi', hfirst'⟩ := h'
  have hle := Nat.le_of_not_lt fun hlt => hfirst i' hlt k' hi'
  have hle' := Nat.le_of_not_lt fun hlt => hfirst' i hlt k hi
  have hiff := headEndsAt_mono hi hi'
  have hiff' := headEndsAt_mono hi' hi
  omega

/-- However a stream is cut, the scanner returns 1 for the chunk with the byte that ends the first head of the
stream, with the read pointer on it, and 0 for the chunks before; without a head it returns 0 for every chunk. It
meets no assertion. -/
theorem head_found_in_chunks (chunks : List Bytes) :
    (∀ k, FirstHeadEnd chunks.flatten k → ∃ before chunk after st, chunks = before ++ chunk :: after ∧
      before.flatten.length ≤ k ∧ k < before.flatten.length + chunk.length ∧
      feedChunks .initial 0 [] chunks = .ok (List.replicate before.length false ++ [true], st, k)) ∧
    ((∀ k, ¬ FirstHeadEnd chunks.flatten k) → ∃ st, feedChunks .initial 0 [] chunks =
      .ok (List.replicate chunks.length false, st, chunks.flatten.length)) := by
  obtain ⟨before, chunk, after, k, st, hcut, hlow, hhigh, hfirst, hfeed⟩ | ⟨hnone, st, hfeed⟩ :=
    feedChunks_spec Rstate.tracks_initial rfl (noHead_nil []) chunks
  · rw [List.nil_append] at hfirst
    rw [List.length_nil, Nat.zero_add] at hlow hhigh
    refine ⟨fun k' hk' => ?_, fun hnot => absurd hfirst (hnot k)⟩
    rw [hk'.unique hfirst]
    exact ⟨before, chunk, after, st, hcut, hlow, hhigh, hfeed⟩
  · rw [List.nil_append] at hnone
    refine ⟨fun k hk => ?_, fun _ => ⟨st, ?_⟩⟩
    · obtain ⟨hlt, hends, -⟩ := firstHeadEnd_iff.mp hk
      refine absurd hends (hnone (chunks.flatten.take (k + 1)) (List.take_prefix _ _) ?_)
      exact List.ne_nil_of_length_pos (by rw [List.length_take]; omega)
    · rw [List.length_nil, Nat.zero_add] at hfeed
      exact hfeed

/-- An empty chunk, and an empty line that is cut behind its carriage return. -/
example : feedChunks .initial 0 [] [[71, LF], [], [CR], [LF, 72]] = .ok ([false, false, false, true], .lfcrlf, 3) := by
  decide

end Ashttpd
