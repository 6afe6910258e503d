import Ashttpd.Utf8Sequences

/-!
# The tables of `n_utf8`

What is stored into `chr` and what is read of `chr` and `fmask` is written down step by step. It stays
inside of both if no sequence that is taken apart begins with a stray continuation byte, and none has a
seventh byte.
-/
namespace Ashttpd

/-- What is done with `chr` and `fmask`, and with the shifts. `written` cells of `chr` are of this sequence. -/
inductive TableUse where
  | store (i : ℕ)
  | call (len : ℕ)
  | read (i written : ℕ)
  | mask (i : ℤ)
  | shift (s : ℕ)
  deriving DecidableEq, Repr

def TableUse.Inside : TableUse → Prop
  | .store i => i < 6
  | .call len => 2 ≤ len ∧ len ≤ 6
  | .read i written => i < written
  | .mask i => 0 ≤ i ∧ i ≤ 4
  | .shift s => s < 32

/-- The loop of `n_ucs4` with `i` bytes to go and the shift `s`. -/
def ucs4Uses (written len : ℕ) : ℕ → ℕ → List TableUse
  | 0, _ => []
  | i + 1, s => (if i = 0 then [.mask ((len : ℤ) - 2)] else []) ++ .read i written :: .shift s :: ucs4Uses written len i (s + 6)

/-- What the loop body of `n_utf8` does; a sequence that is kept is copied out of `chr`. -/
def utf8Uses (before : UInt8) : Utf8State → UInt8 → List TableUse
  | .plain, c => if c &&& 0x80 ≠ 0 then [.store 0] else []
  | .seq chr len, c =>
    .store chr.length ::
      if len ≤ (chr ++ [c]).length then
        .call len :: ucs4Uses (chr.length + 1) len len 0 ++
          if nUcs4 before (chr ++ [c]) len &&& 0xffffff00 ≠ 0 then (List.range len).map (.read · (chr.length + 1)) else []
      else []

/-- `n_utf8` on a string in a buffer of any size. -/
def nUtf8In (size : ℕ) (before : UInt8) (m : Mem) (buf : ℕ) : Except NadsFail Mem :=
  runPassIn size (utf8Step before) .plain NADS_ERR_BAD_UTF8 m buf

theorem nUtf8_eq (before : UInt8) (m : Mem) (buf : ℕ) : nUtf8 before m buf = nUtf8In NADS_MAX_URI before m buf := rfl

/-- All that `nUtf8In` does with the tables. -/
def nUtf8Uses (size : ℕ) (before : UInt8) (m : Mem) (buf : ℕ) : List TableUse :=
  (passVisits (utf8Step before) (size - buf) m buf buf .plain).flatMap fun v => utf8Uses before v.1 v.2

/-- The sequences that are whole begin with a byte that tells how many they are, six at most. -/
inductive LeadsWell : Bytes → Prop
  | nil : LeadsWell []
  | ascii {c : UInt8} {u : Bytes} (hc : c < 0x80) (hu : LeadsWell u) : LeadsWell (c :: u)
  | whole {c : UInt8} {rest u : Bytes} (hlow : 0xC0 ≤ c) (hhigh : c < 0xFE)
      (hlen : rest.length + 1 = sequenceLen c) (hu : LeadsWell u) : LeadsWell (c :: rest ++ u)
  | cut {c : UInt8} {rest : Bytes} (hc : 0x80 ≤ c) (hlen : rest.length + 1 < sequenceLen c) : LeadsWell (c :: rest)

variable {before c : UInt8} {rest u : Bytes}

theorem ucs4Uses_inside {written len i s : ℕ} (hlen : 2 ≤ len ∧ len ≤ 6) (hi : i ≤ written)
    (hs : s + 6 * i ≤ 36) : ∀ use ∈ ucs4Uses written len i s, use.Inside := by
  induction i generalizing s with
  | zero =>
    intro use huse
    cases huse
  | succ i ih =>
    intro use huse
    rw [ucs4Uses, List.mem_append, List.mem_cons, List.mem_cons] at huse
    rcases huse with hmask | rfl | rfl | hrest
    · split_ifs at hmask
      · rw [List.mem_singleton.mp hmask]
        simp only [TableUse.Inside]
        omega
      · cases hmask
    · exact Nat.lt_of_succ_le hi
    · simp only [TableUse.Inside]
      omega
    · exact ih (by omega) (by omega) use hrest

/-- A step inside of a sequence, if it has room and the length fits where it is the last one. -/
theorem seqUses_inside {chr : Bytes} {len : ℕ} (hroom : chr.length < 6)
    (hlen : len ≤ chr.length + 1 → 2 ≤ len ∧ len ≤ 6) : ∀ use ∈ utf8Uses before (.seq chr len) c, use.Inside := by
  intro use huse
  have hmore : (chr ++ [c]).length = chr.length + 1 := List.length_append
  rw [utf8Uses, hmore, List.mem_cons] at huse
  rcases huse with rfl | huse
  · exact hroom
  · split_ifs at huse with hlast hkeep
    · have hfits := hlen hlast
      rw [List.mem_append, List.mem_cons] at huse
      rcases huse with (rfl | hcall) | hcopy
      · exact hfits
      · exact ucs4Uses_inside hfits hlast (by omega) use hcall
      · obtain ⟨i, hi, rfl⟩ := List.mem_map.mp hcopy
        exact Nat.lt_of_lt_of_le (List.mem_range.mp hi) hlast
    · have hfits := hlen hlast
      rw [List.append_nil, List.mem_cons] at huse
      rcases huse with rfl | hcall
      · exact hfits
      · exact ucs4Uses_inside hfits hlast (by omega) use hcall
    · cases huse

def UsesInside (before : UInt8) (s : Utf8State) (text : Bytes) : Prop :=
  ∀ v ∈ stepVisits (utf8Step before) s text, ∀ use ∈ utf8Uses before v.1 v.2, use.Inside

theorem usesInside_cons_ok {s s' : Utf8State} {b : UInt8} {bs : Bytes} (h : utf8Step before s c = .ok (s', b, bs)) :
    UsesInside before s (c :: rest) ↔ (∀ use ∈ utf8Uses before s c, use.Inside) ∧ UsesInside before s' rest := by
  unfold UsesInside
  rw [stepVisits, h]
  exact List.forall_mem_cons

theorem usesInside_append {s s' : Utf8State} {x out : Bytes} (h : runSteps (utf8Step before) s x = .ok (s', out))
    (y : Bytes) : UsesInside before s (x ++ y) ↔ UsesInside before s x ∧ UsesInside before s' y := by
  unfold UsesInside
  rw [stepVisits_append h]
  exact List.forall_mem_append

theorem usesInside_ascii (hc : c < 0x80) : UsesInside before .plain (c :: u) ↔ UsesInside before .plain u := by
  have huses : utf8Uses before .plain c = [] := if_neg fun h => absurd ((high_bit_iff c).mp h) (UInt8.not_le.mpr hc)
  rw [usesInside_cons_ok (utf8Step_ascii hc), huses]
  simp

theorem usesInside_begin (hc : 0x80 ≤ c) :
    UsesInside before .plain (c :: rest) ↔ UsesInside before (.seq [c] (leadLen c)) rest := by
  have huses : utf8Uses before .plain c = [.store 0] := if_pos ((high_bit_iff c).mpr hc)
  rw [usesInside_cons_ok (utf8Step_begin hc), huses]
  simp [TableUse.Inside]

/-- The bytes of a sequence, up to its last one if it has not more than six. -/
theorem usesInside_seq {pre : Bytes} {len : ℕ} (hfit : pre.length + rest.length ≤ 6) (htwo : 2 ≤ len)
    (hlen : pre.length + rest.length ≤ len) : UsesInside before (.seq pre len) rest := by
  induction rest generalizing pre with
  | nil =>
    intro v hv
    cases hv
  | cons c rest ih =>
    rw [List.length_cons] at hfit hlen
    have hmore : (pre ++ [c]).length = pre.length + 1 := List.length_append
    have huses : ∀ use ∈ utf8Uses before (.seq pre len) c, use.Inside := by
      apply seqUses_inside
      · omega
      · omega
    cases rest with
    | nil =>
      intro v hv
      cases hstep : utf8Step before (.seq pre len) c with
      | error e =>
        rw [stepVisits, hstep, List.mem_singleton] at hv
        rw [hv]
        exact huses
      | ok r =>
        rw [stepVisits, hstep] at hv
        rw [List.mem_singleton.mp hv]
        exact huses
    | cons d rest =>
      rw [List.length_cons] at hfit hlen
      have hstep : utf8Step before (.seq pre len) c = .ok (.seq (pre ++ [c]) len, c, []) := by
        simp only [utf8Step]
        rw [if_neg (by omega), if_neg (by omega)]
      rw [usesInside_cons_ok hstep]
      exact ⟨huses, ih (by rw [List.length_cons]; omega) (by rw [List.length_cons]; omega)⟩

theorem usesInside_cut (hc : 0x80 ≤ c) (hlen : rest.length + 1 < sequenceLen c) : UsesInside before .plain (c :: rest) := by
  obtain ⟨hstray, hlead, -⟩ := leadLen_spec hc
  rw [usesInside_begin hc]
  by_cases hcont : c < 0xC0
  · have hnil : rest = [] := by
      have htwo : sequenceLen c = 2 := if_pos (UInt8.lt_trans hcont (by decide))
      rw [← List.length_eq_zero_iff]
      omega
    subst hnil
    intro v hv
    cases hv
  · have hseven : sequenceLen c ≤ 7 := by
      unfold sequenceLen
      split_ifs <;> decide
    have htwo := two_le_sequenceLen c
    rw [hlead (UInt8.not_lt.mp hcont)]
    apply usesInside_seq
    · rw [List.length_singleton]
      omega
    · exact htwo
    · rw [List.length_singleton]
      omega

/-- A sequence that is whole stays inside if its first byte tells that it has six bytes at most. -/
theorem usesInside_whole (hc : 0x80 ≤ c) (hlen : rest.length + 1 = sequenceLen c) :
    UsesInside before .plain (c :: rest ++ u) ↔ 0xC0 ≤ c ∧ c < 0xFE ∧ UsesInside before .plain u := by
  obtain ⟨hstray, hlead, -⟩ := leadLen_spec hc
  have htwo := two_le_sequenceLen c
  by_cases hhigh : c < 0xFE
  · have hsix := sequenceLen_le hhigh
    have hrun : runSteps (utf8Step before) .plain (c :: rest) = .ok (.plain, sequenceOut before (c :: rest) (leadLen c) ++ []) := by
      have h := @runSteps_whole before c rest hc hhigh hlen []
      rwa [List.append_nil] at h
    rw [usesInside_append hrun, usesInside_begin hc]
    by_cases hlow : 0xC0 ≤ c
    · have hinside : UsesInside before (.seq [c] (leadLen c)) rest := by
        rw [hlead hlow]
        apply usesInside_seq
        · rw [List.length_singleton]
          omega
        · exact htwo
        · rw [List.length_singleton]
          omega
      exact ⟨fun h => ⟨hlow, hhigh, h.2⟩, fun h => ⟨hinside, h.2.2⟩⟩
    · refine ⟨fun h => ?_, fun h => absurd h.1 hlow⟩
      have hone := hstray (UInt8.not_le.mp hlow)
      cases rest with
      | nil =>
        rw [List.length_nil] at hlen
        omega
      | cons d rest =>
        have huse := h.1 (.seq [c] (leadLen c), d) List.mem_cons_self (.call (leadLen c)) (by
          rw [utf8Uses, hone]
          simp)
        rw [hone] at huse
        exact absurd huse.1 (by decide)
  · have hhigh := UInt8.not_lt.mp hhigh
    have hseven := sequenceLen_of_le hhigh
    refine ⟨fun h => ?_, fun h => absurd h.2.1 (UInt8.not_lt.mpr hhigh)⟩
    have hne : rest ≠ [] := by
      rintro rfl
      rw [List.length_nil] at hlen
      omega
    have hdrop : rest.dropLast.length + 1 = 6 := by
      rw [List.length_dropLast]
      omega
    have hsix : runSteps (utf8Step before) .plain (c :: rest.dropLast) =
        .ok (.seq (c :: rest.dropLast) (leadLen c), []) := runSteps_cut hc (by omega)
    have hsplit : c :: rest ++ u = (c :: rest.dropLast) ++ (rest.getLast hne :: u) := by
      conv_lhs => rw [← List.dropLast_append_getLast hne]
      simp
    rw [hsplit, usesInside_append hsix] at h
    have huse := h.2 (.seq (c :: rest.dropLast) (leadLen c), rest.getLast hne) List.mem_cons_self
      (.store (c :: rest.dropLast).length) List.mem_cons_self
    exact absurd huse (by simp only [TableUse.Inside, List.length_cons]; omega)

theorem usesInside_iff (text : Bytes) : UsesInside before .plain text ↔ LeadsWell text := by
  constructor
  · intro h
    induction sequenced text with
    | nil => exact .nil
    | ascii hc _ ih => exact .ascii hc (ih ((usesInside_ascii hc).mp h))
    | whole hc hlen _ ih =>
      obtain ⟨hlow, hhigh, hu⟩ := (usesInside_whole hc hlen).mp h
      exact .whole hlow hhigh hlen (ih hu)
    | cut hc hlen => exact .cut hc hlen
  · intro h
    induction h with
    | nil =>
      intro v hv
      cases hv
    | ascii hc _ ih => exact (usesInside_ascii hc).mpr ih
    | whole hlow hhigh hlen _ ih =>
      exact (usesInside_whole (UInt8.le_trans (by decide) hlow) hlen).mpr ⟨hlow, hhigh, ih⟩
    | cut hc hlen => exact usesInside_cut hc hlen

theorem nUtf8Uses_eq {size buf : ℕ} {m : Mem} {text : Bytes} (hs : m.HoldsStr buf text) (hfit : buf + text.length < size) :
    nUtf8Uses size before m buf =
      (stepVisits (utf8Step before) .plain text).flatMap fun v => utf8Uses before v.1 v.2 := by
  have hfuel : text.length < size - buf := by omega
  unfold nUtf8Uses
  rw [passVisits_eq (utf8Step_lagging before) hs hfuel (Nat.le_refl (buf + Utf8State.plain.pending))]

/-- On any terminated string `n_utf8` stays inside of its tables if and only if the sequences in the string
that are whole begin with a byte that tells a length of two to six. -/
theorem n_utf8_tables_iff (size : ℕ) (before : UInt8) (m : Mem) (buf : ℕ) (text : Bytes)
    (hs : m.HoldsStr buf text) (hfit : buf + text.length < size) :
    (∀ use ∈ nUtf8Uses size before m buf, use.Inside) ↔ LeadsWell text := by
  rw [nUtf8Uses_eq hs hfit, List.forall_mem_flatMap]
  exact usesInside_iff text

/-- "/é€" -/
theorem n_utf8_tables_accented :
    (∀ use ∈ nUtf8Uses NADS_MAX_URI 0 (Mem.store (fun _ => 0) 0 ([47, 0xC3, 0xA9, 0xE2, 0x82, 0xAC] ++ 0 :: [])) 0, use.Inside) ↔
      LeadsWell [47, 0xC3, 0xA9, 0xE2, 0x82, 0xAC] :=
  n_utf8_tables_iff NADS_MAX_URI 0 _ 0 [47, 0xC3, 0xA9, 0xE2, 0x82, 0xAC]
    (Mem.holdsStr_store _ 0 [47, 0xC3, 0xA9, 0xE2, 0x82, 0xAC] [] (by decide)) (by decide)

/-- "/%80A" after `n_hex` is a sequence of the length one, and "/%FF" with six bytes behind it has a seventh. -/
theorem n_utf8_tables_left :
    (∃ m, Mem.HoldsStr m 0 [47, 0x80, 65] ∧ .call 1 ∈ nUtf8Uses NADS_MAX_URI 0 m 0 ∧
      .mask (-1) ∈ nUtf8Uses NADS_MAX_URI 0 m 0 ∧ ¬ ∀ use ∈ nUtf8Uses NADS_MAX_URI 0 m 0, use.Inside) ∧
    ∃ m, Mem.HoldsStr m 0 [47, 0xFF, 65, 65, 65, 65, 65, 65] ∧ .store 6 ∈ nUtf8Uses NADS_MAX_URI 0 m 0 ∧
      ¬ ∀ use ∈ nUtf8Uses NADS_MAX_URI 0 m 0, use.Inside := by
  have hstray := Mem.holdsStr_store (fun _ => 0) 0 [47, 0x80, 65] [] (by decide)
  have hlong := Mem.holdsStr_store (fun _ => 0) 0 [47, 0xFF, 65, 65, 65, 65, 65, 65] [] (by decide)
  refine ⟨⟨_, hstray, ?_, ?_, fun h => ?_⟩, _, hlong, ?_, fun h => ?_⟩
  · rw [nUtf8Uses_eq hstray (by decide)]
    decide
  · rw [nUtf8Uses_eq hstray (by decide)]
    decide
  · have hcall : TableUse.call 1 ∈ nUtf8Uses NADS_MAX_URI 0 (Mem.store (fun _ => 0) 0 ([47, 0x80, 65] ++ 0 :: [])) 0 := by
      rw [nUtf8Uses_eq hstray (by decide)]
      decide
    exact absurd (h _ hcall).1 (by decide)
  · rw [nUtf8Uses_eq hlong (by decide)]
    decide
  · have hstore : TableUse.store 6 ∈
        nUtf8Uses NADS_MAX_URI 0 (Mem.store (fun _ => 0) 0 ([47, 0xFF, 65, 65, 65, 65, 65, 65] ++ 0 :: [])) 0 := by
      rw [nUtf8Uses_eq hlong (by decide)]
      decide
    exact absurd (h _ hstore) (Nat.lt_irrefl 6)

end Ashttpd
