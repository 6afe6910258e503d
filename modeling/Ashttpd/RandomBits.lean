import Ashttpd.Vectors
import Ashttpd.GuardedRuns
import Mathlib.Data.Nat.Bitwise

/-!
# The cache of random bits (`httprape.c`)

The bits of all outputs of `rand` are counted through, the lowest of an output first. A call takes
those behind the ones that the calls before took, whether it has to ask for a new output or not.
-/
namespace Ashttpd

def ASSUME_RAND_MAX_BITS : UInt32 := 31

/-- The static variables of `get_random_bits`, and how often `rand` was called. -/
structure RandCache where
  cachedBits : UInt32
  rbits : UInt32
  drawn : ℕ
  deriving DecidableEq, Repr

def RandCache.init : RandCache := ⟨0, 0, 0⟩

def takeBits (ret bits : UInt32) (s : RandCache) : UInt32 × RandCache :=
  (ret ||| (s.rbits &&& ((1 <<< bits) - 1)), ⟨s.cachedBits - bits, s.rbits >>> bits, s.drawn⟩)

/-- `get_random_bits`, when `rand` returns the numbers of a sequence. -/
def getRandomBits (rand : ℕ → UInt32) (bits : UInt32) (s : RandCache) : Except Fault (UInt32 × RandCache) :=
  if bits ≤ ASSUME_RAND_MAX_BITS then
    if s.cachedBits < bits then
      .ok (takeBits ((s.rbits &&& (s.cachedBits - 1)) <<< s.cachedBits) (bits - s.cachedBits)
        ⟨ASSUME_RAND_MAX_BITS, rand s.drawn, s.drawn + 1⟩)
    else .ok (takeBits 0 bits s)
  else .error .assertion

def streamBit (rand : ℕ → UInt32) (q : ℕ) : Bool := (rand (q / 31)).toNat.testBit (q % 31)

/-- The outputs are those of a `rand` with 31 bits. -/
def RandStream (rand : ℕ → UInt32) : Prop := ∀ k, (rand k).toNat < 2 ^ 31

/-- The cache holds the bits from a place on, up to the end of the last output. -/
structure Caches (rand : ℕ → UInt32) (p : ℕ) (s : RandCache) : Prop where
  le : s.cachedBits.toNat ≤ 31
  place : p + s.cachedBits.toNat = 31 * s.drawn
  rbits : ∀ j, s.rbits.toNat.testBit j = (decide (j < s.cachedBits.toNat) && streamBit rand (p + j))

theorem caches_init (rand : ℕ → UInt32) : Caches rand 0 .init := by
  refine ⟨Nat.zero_le _, rfl, fun j => ?_⟩
  show Nat.testBit 0 j = (decide (j < 0) && streamBit rand (0 + j))
  simp

theorem caches_fresh {rand : ℕ → UInt32} (hrand : RandStream rand) (d : ℕ) :
    Caches rand (31 * d) ⟨ASSUME_RAND_MAX_BITS, rand d, d + 1⟩ := by
  refine ⟨Nat.le_refl 31, rfl, fun j => ?_⟩
  show (rand d).toNat.testBit j = (decide (j < 31) && streamBit rand (31 * d + j))
  by_cases hj : j < 31
  · have hdiv : (31 * d + j) / 31 = d := by omega
    have hmod : (31 * d + j) % 31 = j := by omega
    rw [streamBit, hdiv, hmod]
    simp [hj]
  · have hlt : (rand d).toNat < 2 ^ j := (hrand d).trans_le (Nat.pow_le_pow_right (by decide) (by omega))
    rw [Nat.testBit_lt_two_pow hlt]
    simp [hj]

theorem toNat_mask {bits : UInt32} (h : bits.toNat ≤ 31) : (((1 : UInt32) <<< bits) - 1).toNat = 2 ^ bits.toNat - 1 := by
  have hpow : 2 ^ bits.toNat < 2 ^ 32 := Nat.pow_lt_pow_right (by decide) (by omega)
  have hone : ((1 : UInt32) <<< bits).toNat = 2 ^ bits.toNat := by
    rw [UInt32.toNat_shiftLeft, Nat.mod_eq_of_lt (by omega : bits.toNat < 32), UInt32.toNat_one, Nat.one_shiftLeft,
      Nat.mod_eq_of_lt hpow]
  rw [UInt32.toNat_sub_of_le, hone]
  · rfl
  · rw [UInt32.le_iff_toNat_le, hone]
    exact Nat.one_le_two_pow

/-- Taking bits that are cached takes those at the front. -/
theorem Caches.takeBits {rand : ℕ → UInt32} {p : ℕ} {s : RandCache} (h : Caches rand p s) {bits : UInt32} (ret : UInt32)
    (hbits : bits.toNat ≤ s.cachedBits.toNat) :
    Caches rand (p + bits.toNat) (takeBits ret bits s).2 ∧
      (Ashttpd.takeBits ret bits s).2.cachedBits.toNat + bits.toNat = s.cachedBits.toNat ∧
      ∀ j, (Ashttpd.takeBits ret bits s).1.toNat.testBit j =
        (ret.toNat.testBit j || (decide (j < bits.toNat) && streamBit rand (p + j))) := by
  have hle := h.le
  have hplace := h.place
  have hsub : (s.cachedBits - bits).toNat = s.cachedBits.toNat - bits.toNat :=
    UInt32.toNat_sub_of_le _ _ (UInt32.le_iff_toNat_le.mpr hbits)
  have hshift : (s.rbits >>> bits).toNat = s.rbits.toNat >>> bits.toNat := by
    rw [UInt32.toNat_shiftRight, Nat.mod_eq_of_lt (by omega : bits.toNat < 32)]
  refine ⟨⟨?_, ?_, fun j => ?_⟩, ?_, fun j => ?_⟩
  · show (s.cachedBits - bits).toNat ≤ 31
    omega
  · show p + bits.toNat + (s.cachedBits - bits).toNat = 31 * s.drawn
    omega
  · show (s.rbits >>> bits).toNat.testBit j =
      (decide (j < (s.cachedBits - bits).toNat) && streamBit rand (p + bits.toNat + j))
    have hiff : (bits.toNat + j < s.cachedBits.toNat) ↔ j < (s.cachedBits - bits).toNat := by omega
    rw [hshift, Nat.testBit_shiftRight, h.rbits, Nat.add_assoc, decide_eq_decide.mpr hiff]
  · show (s.cachedBits - bits).toNat + bits.toNat = s.cachedBits.toNat
    omega
  · show (ret ||| (s.rbits &&& ((1 <<< bits) - 1))).toNat.testBit j = _
    rw [UInt32.toNat_or, UInt32.toNat_and, toNat_mask (by omega), Nat.testBit_or, Nat.testBit_and,
      Nat.testBit_two_pow_sub_one, h.rbits]
    by_cases hj : j < bits.toNat
    · have hj' : j < s.cachedBits.toNat := by omega
      simp [hj, hj']
    · simp [hj]

/-- What a call splices in of the bits that are left: those that a wrong mask keeps, in a wrong place. -/
def spliceBit (s : RandCache) (j : ℕ) : Bool :=
  decide (s.cachedBits.toNat ≤ j) && decide (j < 32) && s.rbits.toNat.testBit (j - s.cachedBits.toNat) &&
    (s.cachedBits - 1).toNat.testBit (j - s.cachedBits.toNat)

theorem testBit_splice {s : RandCache} (hle : s.cachedBits.toNat ≤ 31) (j : ℕ) :
    ((s.rbits &&& (s.cachedBits - 1)) <<< s.cachedBits).toNat.testBit j = spliceBit s j := by
  rw [UInt32.toNat_shiftLeft, Nat.mod_eq_of_lt (by omega : s.cachedBits.toNat < 32), Nat.testBit_mod_two_pow,
    Nat.testBit_shiftLeft, UInt32.toNat_and, Nat.testBit_and, spliceBit]
  by_cases h1 : s.cachedBits.toNat ≤ j <;> by_cases h2 : j < 32 <;> simp [h1, h2]

/-- How a call ends: it takes the bits at its place, and no counter wraps. -/
structure Draws (rand : ℕ → UInt32) (p : ℕ) (s : RandCache) (bits ret : UInt32) (s' : RandCache) : Prop where
  caches : Caches rand (p + bits.toNat) s'
  counter : s'.cachedBits.toNat + bits.toNat = s.cachedBits.toNat + if s.cachedBits < bits then 31 else 0
  ret : ∀ j, ret.toNat.testBit j =
    if s.cachedBits < bits then
      spliceBit s j || (decide (j < bits.toNat - s.cachedBits.toNat) && streamBit rand (p + s.cachedBits.toNat + j))
    else decide (j < bits.toNat) && streamBit rand (p + j)

/-- Every call for at most 31 bits returns. -/
theorem Caches.getRandomBits {rand : ℕ → UInt32} (hrand : RandStream rand) {p : ℕ} {s : RandCache} (h : Caches rand p s)
    {bits : UInt32} (hbits : bits ≤ ASSUME_RAND_MAX_BITS) :
    ∃ ret s', getRandomBits rand bits s = .ok (ret, s') ∧ Draws rand p s bits ret s' := by
  have hle := h.le
  have hplace := h.place
  have hbits31 : bits.toNat ≤ 31 := UInt32.le_iff_toNat_le.mp hbits
  by_cases hlt : s.cachedBits < bits
  · have hlt' : s.cachedBits.toNat < bits.toNat := UInt32.lt_iff_toNat_lt.mp hlt
    have hmore : (bits - s.cachedBits).toNat = bits.toNat - s.cachedBits.toNat :=
      UInt32.toNat_sub_of_le _ _ (UInt32.le_iff_toNat_le.mpr (Nat.le_of_lt hlt'))
    have hroom : (bits - s.cachedBits).toNat ≤ ASSUME_RAND_MAX_BITS.toNat := by
      show (bits - s.cachedBits).toNat ≤ 31
      omega
    obtain ⟨hcaches, hcount, hret⟩ := (caches_fresh hrand s.drawn).takeBits
      ((s.rbits &&& (s.cachedBits - 1)) <<< s.cachedBits) hroom
    have hmax : ASSUME_RAND_MAX_BITS.toNat = 31 := rfl
    refine ⟨_, _, by rw [Ashttpd.getRandomBits, if_pos hbits, if_pos hlt], ⟨?_, ?_, fun j => ?_⟩⟩
    · have hnext : 31 * s.drawn + (bits - s.cachedBits).toNat = p + bits.toNat := by omega
      rwa [hnext] at hcaches
    · rw [if_pos hlt]
      dsimp only at hcount
      omega
    · rw [if_pos hlt, hret, testBit_splice hle, hmore, ← hplace]
  · have hge : bits.toNat ≤ s.cachedBits.toNat := by
      rw [UInt32.lt_iff_toNat_lt] at hlt
      omega
    obtain ⟨hcaches, hcount, hret⟩ := h.takeBits 0 hge
    refine ⟨_, _, by rw [Ashttpd.getRandomBits, if_pos hbits, if_neg hlt], ⟨hcaches, ?_, fun j => ?_⟩⟩
    · rw [if_neg hlt]
      exact hcount
    · rw [if_neg hlt, hret, UInt32.toNat_zero, Nat.zero_testBit, Bool.false_or]

/-- Nothing above the bits asked for is spliced in: the call does not need a new output, or at none of
these places do the bits left and the number of them less one both have a one. -/
def SplicesBelow (s : RandCache) (bits : UInt32) : Prop :=
  bits ≤ s.cachedBits ∨ ∀ j, bits.toNat - s.cachedBits.toNat ≤ j → j < 32 - s.cachedBits.toNat →
    ¬ (s.rbits.toNat.testBit j = true ∧ (s.cachedBits - 1).toNat.testBit j = true)

theorem lt_two_pow_iff {n b : ℕ} : n < 2 ^ b ↔ ∀ j, b ≤ j → n.testBit j = false := by
  constructor
  · intro hn j hj
    exact Nat.testBit_lt_two_pow (hn.trans_le (Nat.pow_le_pow_right (by decide) hj))
  · exact Nat.lt_pow_two_of_testBit n

theorem Draws.lt_iff {rand : ℕ → UInt32} {p : ℕ} {s s' : RandCache} {bits ret : UInt32}
    (h : Draws rand p s bits ret s') : ret.toNat < 2 ^ bits.toNat ↔ SplicesBelow s bits := by
  rw [lt_two_pow_iff, SplicesBelow]
  by_cases hlt : s.cachedBits < bits
  · have hlt' : s.cachedBits.toNat < bits.toNat := UInt32.lt_iff_toNat_lt.mp hlt
    have hnot : ¬ bits ≤ s.cachedBits := by
      rw [UInt32.le_iff_toNat_le]
      omega
    simp only [hnot, false_or]
    have habove : ∀ j, bits.toNat ≤ j → ret.toNat.testBit j = spliceBit s j := by
      intro j hj
      have hnone : ¬ j < bits.toNat - s.cachedBits.toNat := by omega
      rw [h.ret, if_pos hlt, decide_eq_false hnone, Bool.false_and, Bool.or_false]
    constructor
    · intro hall j h1 h2 ⟨hleft, hmask⟩
      have hj := hall (s.cachedBits.toNat + j) (by omega)
      rw [habove _ (by omega), spliceBit, Nat.add_sub_cancel_left, hleft, hmask] at hj
      simp at hj
      omega
    · intro hnone j hj
      rw [habove j hj, spliceBit]
      by_cases h32 : j < 32
      · have hbits := hnone (j - s.cachedBits.toNat) (by omega) (by omega)
        rw [Bool.and_assoc, Bool.and_eq_false_iff]
        refine .inr (Bool.eq_false_iff.mpr fun hboth => hbits ?_)
        rwa [Bool.and_eq_true] at hboth
      · simp [h32]
  · have hle : bits ≤ s.cachedBits := UInt32.not_lt.mp hlt
    simp only [hle, true_or, iff_true]
    intro j hj
    have hnone : ¬ j < bits.toNat := by omega
    rw [h.ret, if_neg hlt, decide_eq_false hnone, Bool.false_and]

def DrawStep (rand : ℕ → UInt32) (s : RandCache) (bits : UInt32) (s' : RandCache) : Prop :=
  ∃ ret, getRandomBits rand bits s = .ok (ret, s')

def Gives (rand : ℕ → UInt32) (calls : List UInt32) (bits ret : UInt32) : Prop :=
  ∃ s s', Run (DrawStep rand) .init calls s ∧ getRandomBits rand bits s = .ok (ret, s')

def asked (calls : List UInt32) : ℕ := (calls.map UInt32.toNat).sum

/-- After the calls the cache starts where they end, and it is never full. -/
structure Rests (rand : ℕ → UInt32) (calls : List UInt32) (s : RandCache) : Prop where
  caches : Caches rand (asked calls) s
  lt : s.cachedBits.toNat < 31

theorem getRandomBits_le {rand : ℕ → UInt32} {bits : UInt32} {s : RandCache} {x : UInt32 × RandCache}
    (h : getRandomBits rand bits s = .ok x) : bits ≤ ASSUME_RAND_MAX_BITS := by
  unfold getRandomBits at h
  split at h
  · assumption
  · cases h

variable {rand rand' : ℕ → UInt32} {calls : List UInt32} {s s' : RandCache} {bits ret : UInt32}

theorem Rests.draws (hrand : RandStream rand) (h : Rests rand calls s)
    (hcall : getRandomBits rand bits s = .ok (ret, s')) :
    Draws rand (asked calls) s bits ret s' ∧ Rests rand (calls ++ [bits]) s' := by
  have hbits := getRandomBits_le hcall
  obtain ⟨ret', s'', hcall', hdraws⟩ := h.caches.getRandomBits hrand hbits
  rw [hcall] at hcall'
  cases hcall'
  have hasked : asked (calls ++ [bits]) = asked calls + bits.toNat := by simp [asked]
  refine ⟨hdraws, by rw [hasked]; exact hdraws.caches, ?_⟩
  have hcount := hdraws.counter
  have hlt := h.lt
  by_cases hmore : s.cachedBits < bits
  · have hmore' := UInt32.lt_iff_toNat_lt.mp hmore
    rw [if_pos hmore] at hcount
    omega
  · rw [if_neg hmore] at hcount
    omega

theorem rests_of_run (hrand : RandStream rand) (hrun : Run (DrawStep rand) .init calls s) : Rests rand calls s := by
  refine hrun.invariant (I := Rests rand) ?_ ⟨caches_init rand, by decide⟩
  rintro calls s bits s' hs - ⟨ret, hcall⟩
  exact (hs.draws hrand hcall).2

theorem exists_run (hrand : RandStream rand) (hcalls : ∀ b ∈ calls, b ≤ ASSUME_RAND_MAX_BITS) :
    ∃ s, Run (DrawStep rand) .init calls s := by
  induction calls using List.reverseRecOn with
  | nil => exact ⟨_, .start _⟩
  | append_singleton calls bits ih =>
    obtain ⟨s, hrun⟩ := ih fun b hb => hcalls b (List.mem_append_left _ hb)
    obtain ⟨ret, s', hcall, -⟩ := (rests_of_run hrand hrun).caches.getRandomBits hrand
      (hcalls bits (List.mem_append_right _ List.mem_cons_self))
    exact ⟨s', .step hrun trivial ⟨ret, hcall⟩⟩

theorem Rests.cachedBits_eq {t : RandCache} (h : Rests rand calls s) (h' : Rests rand' calls t) :
    s.cachedBits = t.cachedBits := by
  have h1 := h.lt
  have h2 := h.caches.place
  have h3 := h'.lt
  have h4 := h'.caches.place
  exact UInt32.toNat_inj.mp (by omega)

/-- A result only depends on the bits from where the calls before end, as many as are asked for. -/
theorem gives_congr (hrand : RandStream rand) (hrand' : RandStream rand') {ret' : UInt32}
    (hsame : ∀ q, asked calls ≤ q → q < asked calls + bits.toNat → streamBit rand q = streamBit rand' q)
    (h : Gives rand calls bits ret) (h' : Gives rand' calls bits ret') : ret = ret' := by
  obtain ⟨s, s', hrun, hcall⟩ := h
  obtain ⟨t, t', hrun', hcall'⟩ := h'
  have hs := rests_of_run hrand hrun
  have ht := rests_of_run hrand' hrun'
  have hcached := hs.cachedBits_eq ht
  have hdraws := (hs.draws hrand hcall).1
  have hdraws' := (ht.draws hrand' hcall').1
  apply UInt32.toNat_inj.mp
  apply Nat.eq_of_testBit_eq
  intro j
  rw [hdraws.ret, hdraws'.ret, hcached]
  by_cases hlt : t.cachedBits < bits
  · have hlt' := UInt32.lt_iff_toNat_lt.mp hlt
    rw [if_pos hlt, if_pos hlt]
    congr 1
    · unfold spliceBit
      rw [hs.caches.rbits, ht.caches.rbits, hcached]
      by_cases hj : j - t.cachedBits.toNat < t.cachedBits.toNat
      · rw [hsame _ (by omega) (by omega)]
      · rw [decide_eq_false hj, Bool.false_and, Bool.false_and]
    · by_cases hj : j < bits.toNat - t.cachedBits.toNat
      · rw [hsame _ (by omega) (by omega)]
      · rw [decide_eq_false hj, Bool.false_and, Bool.false_and]
  · rw [if_neg hlt, if_neg hlt]
    by_cases hj : j < bits.toNat
    · rw [hsame _ (by omega) (by omega)]
    · rw [decide_eq_false hj, Bool.false_and, Bool.false_and]

/-- Bit `j` of output `k` contributes to the call after some calls: outputs that differ in nothing
else make it return different numbers. -/
def Contributes (calls : List UInt32) (bits : UInt32) (k j : ℕ) : Prop :=
  ∃ rand rand' ret ret', RandStream rand ∧ RandStream rand' ∧
    (∀ k' j', (k', j') ≠ (k, j) → (rand k').toNat.testBit j' = (rand' k').toNat.testBit j') ∧
    Gives rand calls bits ret ∧ Gives rand' calls bits ret' ∧ ret ≠ ret'

theorem Contributes.place {k j : ℕ} (h : Contributes calls bits k j) :
    asked calls ≤ 31 * k + j ∧ 31 * k + j < asked calls + bits.toNat := by
  obtain ⟨rand, rand', ret, ret', hrand, hrand', hsame, hgives, hgives', hne⟩ := h
  by_contra hplace
  refine hne (gives_congr hrand hrand' (fun q h1 h2 => hsame _ _ ?_) hgives hgives')
  intro hq
  rw [Prod.mk.injEq] at hq
  omega

/-- The property of the cache, for the outputs of `rand` and a sequence of calls. -/
structure DeliversFresh (rand : ℕ → UInt32) (calls : List UInt32) : Prop where
  /-- Every call returns a number of the bits asked for, and the counter neither wraps nor exceeds 31. -/
  returns : ∀ before bits, before ++ [bits] <+: calls → ∃ s ret s', Run (DrawStep rand) .init before s ∧
    getRandomBits rand bits s = .ok (ret, s') ∧ ret.toNat < 2 ^ bits.toNat ∧ s'.cachedBits.toNat ≤ 31 ∧
    s'.cachedBits.toNat + bits.toNat = s.cachedBits.toNat + if s.cachedBits < bits then 31 else 0
  /-- No bit contributes to a call and to a later one. -/
  once : ∀ before bits before' bits', before ++ [bits] <+: before' → before' ++ [bits'] <+: calls →
    ∀ k j, Contributes before bits k j → ¬ Contributes before' bits' k j

theorem asked_le_of_prefix {before : List UInt32} (h : before <+: calls) : asked before ≤ asked calls := by
  obtain ⟨rest, rfl⟩ := h
  simp [asked]

theorem contributes_once {before before' : List UInt32} {bits' : UInt32} (hbefore : before ++ [bits] <+: before')
    {k j : ℕ} (h : Contributes before bits k j) : ¬ Contributes before' bits' k j := by
  intro h'
  have hle := asked_le_of_prefix hbefore
  have hasked : asked (before ++ [bits]) = asked before + bits.toNat := by simp [asked]
  have h1 := h.place
  have h2 := h'.place
  omega

/-- The cache delivers fresh bits exactly if every call that needs a new output finds nothing in the
bits left that would be spliced in above the bits asked for. -/
theorem get_random_bits_fresh_iff (hrand : RandStream rand) (hcalls : ∀ b ∈ calls, b ≤ ASSUME_RAND_MAX_BITS) :
    DeliversFresh rand calls ↔ ∀ before bits s, before ++ [bits] <+: calls →
      Run (DrawStep rand) .init before s → SplicesBelow s bits := by
  constructor
  · intro hfresh before bits s hbefore hrun
    obtain ⟨t, ret, t', hrun', hcall, hlt, -⟩ := hfresh.returns before bits hbefore
    have hs := rests_of_run hrand hrun
    have ht := rests_of_run hrand hrun'
    have hcached := hs.cachedBits_eq ht
    have hrbits : s.rbits = t.rbits := by
      apply UInt32.toNat_inj.mp
      apply Nat.eq_of_testBit_eq
      intro j
      rw [hs.caches.rbits, ht.caches.rbits, hcached]
    have hfits := (ht.draws hrand hcall).1.lt_iff.mp hlt
    unfold SplicesBelow at hfits ⊢
    rwa [hcached, hrbits]
  · intro hfits
    refine ⟨fun before bits hbefore => ?_, fun before bits before' bits' h h' k j => contributes_once h⟩
    have hmem : ∀ b ∈ before ++ [bits], b ≤ ASSUME_RAND_MAX_BITS := fun b hb => hcalls b (hbefore.subset hb)
    obtain ⟨s, hrun⟩ := exists_run hrand fun b hb => hmem b (List.mem_append_left _ hb)
    obtain ⟨ret, s', hcall, hdraws⟩ := (rests_of_run hrand hrun).caches.getRandomBits hrand
      (hmem bits (List.mem_append_right _ List.mem_cons_self))
    exact ⟨s, ret, s', hrun, hcall, hdraws.lt_iff.mpr (hfits before bits s hbefore hrun), hdraws.caches.le,
      hdraws.counter⟩

def oneBit : ℕ → UInt32 := fun k => if k = 0 then 268435456 else 0

theorem oneBit_stream : RandStream oneBit := by
  intro k
  unfold oneBit
  split <;> decide

theorem get_random_bits_fresh_iff_halves : DeliversFresh oneBit [16, 16] ↔ ∀ before bits s, before ++ [bits] <+: [16, 16] →
    Run (DrawStep oneBit) .init before s → SplicesBelow s bits :=
  get_random_bits_fresh_iff oneBit_stream (by simp [ASSUME_RAND_MAX_BITS])

/-- After 26 bits five are left, and a call for six returns 128. -/
theorem get_random_bits_spills : ¬ ∀ rand calls, RandStream rand → (∀ b ∈ calls, b ≤ ASSUME_RAND_MAX_BITS) →
    DeliversFresh rand calls := by
  intro hall
  have hfresh := hall oneBit [26, 6] oneBit_stream (by simp [ASSUME_RAND_MAX_BITS])
  have hfirst : getRandomBits oneBit 26 .init = .ok (0, ⟨5, 4, 1⟩) := by decide
  have hrun : Run (DrawStep oneBit) .init [26] ⟨5, 4, 1⟩ := .step (.start _) trivial ⟨0, hfirst⟩
  have hfits := (get_random_bits_fresh_iff oneBit_stream (by simp [ASSUME_RAND_MAX_BITS])).mp hfresh [26] 6 _ (List.prefix_refl _) hrun
  rcases hfits with hle | hnone
  · exact absurd hle (by decide)
  · exact hnone 2 (by decide) (by decide) (by decide)

end Ashttpd
