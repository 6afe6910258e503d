import Ashttpd.PathSegments

/-!
# `n_path` computes the path that dot segments leave

The pointers `n_path` collects name strings that lie one behind the other in the buffer. They
stay that way when some are dropped, and as `str` never passes the string that is copied next,
copying keeps those to come as they are.
-/
namespace Ashttpd

/-- The loop of `n_pcount`, with `last` whether `a` is a slash. -/
theorem runSteps_pcountStep (a : UInt8) (n : ℕ) (text : Bytes) :
    ∃ out last, (text.map toSlash).destutter' NotBothSlash a = a :: out ∧
      runSteps pcountStep ⟨decide (a = SLASH), n⟩ text = .ok (⟨last, n + out.count SLASH⟩, out) := by
  induction text generalizing a n with
  | nil => exact ⟨[], _, rfl, rfl⟩
  | cons c text ih =>
    by_cases hboth : a = SLASH ∧ toSlash c = SLASH
    · obtain ⟨ha, hc⟩ := hboth
      obtain ⟨out, last, hd, hrun⟩ := ih a n
      refine ⟨out, last, ?_, ?_⟩
      · rw [List.map_cons, List.destutter'_cons_neg _ (fun h => h ⟨ha, hc⟩), hd]
      · have hstep : pcountStep ⟨decide (a = SLASH), n⟩ c =
            .ok (⟨decide (a = SLASH), n⟩, toSlash c, []) := by
          simp [pcountStep, ha, hc]
        rw [runSteps_cons_ok hstep, hrun]
        rfl
    · have hd0 : ((c :: text).map toSlash).destutter' NotBothSlash a =
          a :: (text.map toSlash).destutter' NotBothSlash (toSlash c) := by
        rw [List.map_cons, List.destutter'_cons_pos _ hboth]
      by_cases hc : toSlash c = SLASH
      · have ha : a ≠ SLASH := fun ha => hboth ⟨ha, hc⟩
        obtain ⟨out, last, hd, hrun⟩ := ih (toSlash c) (n + 1)
        have hstep : pcountStep ⟨decide (a = SLASH), n⟩ c =
            .ok (⟨decide (toSlash c = SLASH), n + 1⟩, toSlash c, [toSlash c]) := by
          simp [pcountStep, ha, hc]
        refine ⟨toSlash c :: out, last, by rw [hd0, hd], ?_⟩
        have hcnt : n + 1 + out.count SLASH = n + (toSlash c :: out).count SLASH := by
          rw [hc, List.count_cons_self]
          omega
        rw [runSteps_cons_ok hstep, hrun, hcnt]
        rfl
      · obtain ⟨out, last, hd, hrun⟩ := ih (toSlash c) n
        have hstep : pcountStep ⟨decide (a = SLASH), n⟩ c =
            .ok (⟨decide (toSlash c = SLASH), n⟩, toSlash c, [toSlash c]) := by
          simp [pcountStep, hc]
        refine ⟨toSlash c :: out, last, by rw [hd0, hd], ?_⟩
        rw [runSteps_cons_ok hstep, hrun, List.count_cons_of_ne hc]
        rfl

theorem runSteps_pcount (text : Bytes) :
    ∃ last, runSteps pcountStep ⟨false, 0⟩ text =
      .ok (⟨last, (collapse text).count SLASH⟩, collapse text) := by
  obtain ⟨out, last, hd, hrun⟩ := runSteps_pcountStep 0 0 text
  have hout : collapse text = out := by
    unfold collapse
    cases text with
    | nil =>
      rw [List.map_nil, List.destutter'_nil] at hd
      simpa using (List.cons.inj hd).2
    | cons c text =>
      rw [List.map_cons, List.destutter'_cons_pos _ (fun h => by cases h.1)] at hd
      exact (List.cons.inj hd).2
  refine ⟨last, ?_⟩
  rw [hout, ← Nat.zero_add (out.count SLASH)]
  exact hrun

theorem pcountStep_lagging : Lagging pcountStep fun _ => 0 := by
  intro s c s' b bs h
  unfold pcountStep at h
  split at h
  · split at h <;> simp only [Except.ok.injEq, Prod.mk.injEq] at h <;> obtain ⟨rfl, rfl, rfl⟩ := h
    · simp
    · simp
  · simp only [Except.ok.injEq, Prod.mk.injEq] at h
    obtain ⟨rfl, rfl, rfl⟩ := h
    simp

/-- `n_pcount` collapses the path and counts its segments. -/
theorem nPcount_spec {text : Bytes} {m : Mem} {buf : ℕ} (hm : m.HoldsStr buf text)
    (hfit : buf + text.length < NADS_MAX_URI) :
    ∃ m', nPcount m buf = .ok (m', (segments text).length) ∧
      Rewritten m m' buf text (collapse text) := by
  have hfuel : text.length < NADS_MAX_URI - buf := by omega
  have hpass := rewritePass_spec (s := ⟨false, 0⟩) pcountStep_lagging hm hfuel (Nat.le_refl buf)
  obtain ⟨last, hrun⟩ := runSteps_pcount text
  rw [hrun] at hpass
  obtain ⟨m', hdone, hslice, hlen, hbefore, hafter⟩ := hpass
  have hcount : (segments text).length = (collapse text).count SLASH := by
    unfold segments
    rw [List.length_tail, length_splitOn_slash, Nat.add_sub_cancel]
  have hcut := length_collapse_le text
  refine ⟨m'.store (buf + (collapse text).length) [0], ?_, ⟨?_, ?_, ?_⟩, hcut, ?_, ?_⟩
  · unfold nPcount
    rw [hdone, hcount]
  · exact (Mem.slice_store_before m' _ _ _ _ (Nat.le_refl _)).trans hslice
  · exact Mem.store_inside m' _ [0] (by simp : 0 < [(0 : UInt8)].length)
  · intro h
    obtain ⟨d, hd, hd0⟩ := mem_collapse h
    have hne : d ≠ 0 := fun heq => hm.nulFree (heq ▸ hd)
    exact toSlash_ne_zero hne hd0
  · intro i hi
    rw [Mem.store_before _ _ _ (by omega), hbefore i hi]
  · intro i hi
    rw [Mem.store_after _ _ _ (by simp; omega), hafter i (by omega)]

/-- Strings that lie one behind the other, from `lo` on and ending by `hi`. -/
def Laid (m : Mem) (hi : ℕ) : ℕ → List (ℕ × Bytes) → Prop
  | _, [] => True
  | lo, (p, s) :: cs => lo ≤ p ∧ p + s.length ≤ hi ∧ m.HoldsStr p s ∧ Laid m hi (p + s.length + 1) cs

theorem Laid.mono {m : Mem} {hi lo lo' : ℕ} {cs : List (ℕ × Bytes)} (h : Laid m hi lo cs)
    (hlo : lo' ≤ lo) : Laid m hi lo' cs := by
  cases cs with
  | nil => trivial
  | cons c cs =>
    obtain ⟨h1, h2⟩ := h
    exact ⟨Nat.le_trans hlo h1, h2⟩

theorem Laid.sublist {m : Mem} {hi lo : ℕ} {cs cs' : List (ℕ × Bytes)} (h : Laid m hi lo cs)
    (hsub : cs'.Sublist cs) : Laid m hi lo cs' := by
  induction hsub generalizing lo with
  | slnil => trivial
  | cons c _ ih =>
    obtain ⟨h1, -, -, h4⟩ := h
    exact ih (h4.mono (by omega))
  | cons_cons c _ ih =>
    obtain ⟨h1, h2, h3, h4⟩ := h
    exact ⟨h1, h2, h3, ih h4⟩

theorem Laid.congr {m m' : Mem} {hi lo : ℕ} {cs : List (ℕ × Bytes)} (h : Laid m hi lo cs)
    (hm : ∀ i, lo ≤ i → i ≤ hi → m i = m' i) : Laid m' hi lo cs := by
  induction cs generalizing lo with
  | nil => trivial
  | cons c cs ih =>
    obtain ⟨h1, h2, h3, h4⟩ := h
    refine ⟨h1, h2, h3.congr fun i hi1 hi2 => hm i (by omega) (by omega), ih h4 ?_⟩
    intro i hi1 hi2
    exact hm i (by omega) hi2

theorem Laid.holds {m : Mem} {hi lo : ℕ} {cs : List (ℕ × Bytes)} (h : Laid m hi lo cs)
    {c : ℕ × Bytes} (hc : c ∈ cs) : m.HoldsStr c.1 c.2 := by
  induction cs generalizing lo with
  | nil => cases hc
  | cons d cs ih =>
    obtain ⟨-, -, h3, h4⟩ := h
    cases hc with
    | head => exact h3
    | tail _ hc => exact ih h4 hc

/-- The first loop of `n_path` cuts the buffer at its slashes. -/
theorem grabComponents_spec {t : Bytes} {fuel : ℕ} {m : Mem} {buf : ℕ} (hm : m.HoldsStr buf t)
    (hfuel : t.length < fuel) :
    ∃ m' cs hd, grabComponents fuel m buf = .ok (m', cs.map Prod.fst) ∧
      t.splitOn SLASH = hd :: cs.map Prod.snd ∧ hd.length ≤ t.length ∧ m'.HoldsStr buf hd ∧
      Laid m' (buf + t.length) (buf + hd.length + 1) cs ∧
      ∀ i, (i < buf ∨ buf + t.length ≤ i) → m' i = m i := by
  induction t generalizing fuel m buf with
  | nil =>
    obtain ⟨fuel, rfl⟩ : ∃ n, fuel = n + 1 := ⟨fuel - 1, by omega⟩
    refine ⟨m, [], [], ?_, rfl, Nat.le_refl 0, hm, trivial, fun _ _ => rfl⟩
    rw [grabComponents, if_pos (Mem.holdsStr_nil_iff.mp hm)]
    rfl
  | cons c t ih =>
    obtain ⟨fuel, rfl⟩ : ∃ n, fuel = n + 1 := ⟨fuel - 1, by omega⟩
    rw [List.length_cons] at hfuel
    obtain ⟨hc, hc0, ht⟩ := Mem.holdsStr_cons.mp hm
    have hread : ¬ m buf = 0 := by rwa [hc]
    have hlen : (c :: t).length = t.length + 1 := rfl
    by_cases hsl : c = SLASH
    · have hlater : ∀ i, buf + 1 ≤ i → m i = m.store buf [0] i := by
        intro i hi
        rw [Mem.store_after _ _ _ (by simpa using hi)]
      obtain ⟨m', cs, hd, hgrab, hsplit, hshort, hhd, hlaid, hframe⟩ :=
        ih (ht.congr fun i hi _ => hlater i hi) (by omega : t.length < fuel)
      have hcut : m' buf = 0 := by
        rw [hframe buf (by omega)]
        exact Mem.store_inside m buf [0] (by simp : 0 < [(0 : UInt8)].length)
      refine ⟨m', (buf + 1, hd) :: cs, [], ?_, ?_, Nat.zero_le _, Mem.HoldsStr.nil hcut, ?_, ?_⟩
      · rw [grabComponents, if_neg hread, hc, if_pos hsl, hgrab]
        rfl
      · rw [hsl, splitOn_slash_cons, hsplit]
        rfl
      · refine ⟨by simp, by omega, hhd, ?_⟩
        have h := hlaid
        rw [show buf + 1 + t.length = buf + (c :: t).length by omega] at h
        exact h
      · intro i hi
        rw [hframe i (by omega)]
        obtain hi | hi := hi
        · exact Mem.store_before _ _ _ hi
        · exact (hlater i (by omega)).symm
    · obtain ⟨m', cs, hd, hgrab, hsplit, hshort, hhd, hlaid, hframe⟩ := ih ht (by omega : t.length < fuel)
      refine ⟨m', cs, c :: hd, ?_, ?_, by simpa using hshort, ?_, ?_, ?_⟩
      · rw [grabComponents, if_neg hread, hc, if_neg hsl, hgrab]
      · rw [splitOn_slash_cons_of_ne hsl, hsplit]
        rfl
      · exact Mem.holdsStr_cons.mpr ⟨by rw [hframe buf (by omega), hc], hc0, hhd⟩
      · have h := hlaid
        rw [show buf + 1 + t.length = buf + (c :: t).length by omega,
          show buf + 1 + hd.length + 1 = buf + (c :: hd).length + 1 by simp; omega] at h
        exact h
      · intro i hi
        exact hframe i (by omega)

theorem strEq_iff {m : Mem} {p : ℕ} {s t : Bytes} (hs : m.HoldsStr p s) (ht : 0 ∉ t) :
    strEq m p t = true ↔ s = t := by
  unfold strEq
  rw [Bool.and_eq_true, beq_iff_eq, beq_iff_eq]
  constructor
  · rintro ⟨h1, h2⟩
    exact hs.unique ⟨h1, h2, ht⟩
  · rintro rfl
    exact ⟨hs.content, hs.terminated⟩

/-- The pointers `r` name the strings of the stack, and are among the given ones in their order. -/
def Keeps (cs : List (ℕ × Bytes)) : Option (List Bytes) → Option (List ℕ) → Prop
  | none, r => r = none
  | some stack, r => ∃ out : List (ℕ × Bytes), out.map Prod.snd = stack ∧ out.Sublist cs ∧
      r = some (out.map Prod.fst)

theorem Keeps.mono {cs cs' : List (ℕ × Bytes)} {stack : Option (List Bytes)} {r : Option (List ℕ)}
    (h : Keeps cs stack r) (hsub : cs.Sublist cs') : Keeps cs' stack r := by
  cases stack with
  | none => exact h
  | some stack =>
    obtain ⟨out, h1, h2, h3⟩ := h
    exact ⟨out, h1, h2.trans hsub, h3⟩

/-- The second loop of `n_path` resolves the segments its pointers name. -/
theorem stripDots_spec {m : Mem} {cs kept : List (ℕ × Bytes)} (hcs : ∀ c ∈ cs, m.HoldsStr c.1 c.2) :
    Keeps (kept ++ cs) (resolve (kept.map Prod.snd) (cs.map Prod.snd))
      (stripDots m (kept.map Prod.fst) (cs.map Prod.fst)) := by
  induction cs generalizing kept with
  | nil => exact ⟨kept, rfl, by simp, rfl⟩
  | cons c cs ih =>
    obtain ⟨p, s⟩ := c
    have hp : m.HoldsStr p s := hcs (p, s) List.mem_cons_self
    have hcs' : ∀ c ∈ cs, m.HoldsStr c.1 c.2 := fun c hc => hcs c (List.mem_cons_of_mem _ hc)
    have h1 := strEq_iff hp (by decide : 0 ∉ [DOT])
    have h2 := strEq_iff hp (by decide : 0 ∉ [DOT, DOT])
    rw [List.map_cons, List.map_cons, resolve, stripDots]
    by_cases hdot : s = [DOT]
    · rw [if_pos hdot, if_pos (h1.mpr hdot)]
      exact (ih hcs').mono ((List.sublist_cons_self _ cs).append_left kept)
    · rw [if_neg hdot, if_neg fun h => hdot (h1.mp h)]
      by_cases hdots : s = [DOT, DOT]
      · rw [if_pos hdots, if_pos (h2.mpr hdots)]
        by_cases hkept : kept = []
        · rw [hkept]
          rfl
        · rw [if_neg (by simpa using hkept), if_neg (by simpa using hkept), ← List.map_dropLast,
            ← List.map_dropLast]
          exact (ih hcs').mono ((List.dropLast_sublist kept).append (List.sublist_cons_self _ cs))
      · rw [if_neg hdots, if_neg fun h => hdots (h2.mp h)]
        have hrec : Keeps (kept ++ [(p, s)] ++ cs) _ _ := ih hcs'
        rw [List.map_append, List.map_append] at hrec
        exact hrec.mono (by simp)

theorem copyStep_lagging : Lagging copyStep fun _ => 0 := by
  intro s c s' b bs h
  simp only [copyStep, Except.ok.injEq, Prod.mk.injEq] at h
  obtain ⟨-, rfl, rfl⟩ := h
  simp

theorem runSteps_copyStep (text : Bytes) : runSteps copyStep () text = .ok ((), text) := by
  induction text with
  | nil => rfl
  | cons c text ih =>
    rw [runSteps_cons_ok (show copyStep () c = .ok ((), c, [c]) from rfl), ih]
    rfl

/-- The last loop of `n_path` joins the strings its pointers name. -/
theorem rebuild_spec {cs : List (ℕ × Bytes)} {m : Mem} {hi lo str : ℕ} (hcs : Laid m hi lo cs)
    (hstr : str ≤ lo) (hhi : hi < NADS_MAX_URI) :
    ∃ m', rebuild (cs.map Prod.fst) m str =
        .ok (m', str + ([SLASH].intercalate (cs.map Prod.snd)).length) ∧
      m'.slice str ([SLASH].intercalate (cs.map Prod.snd)).length =
        [SLASH].intercalate (cs.map Prod.snd) ∧
      (cs ≠ [] → str + ([SLASH].intercalate (cs.map Prod.snd)).length ≤ hi) ∧
      (∀ i < str, m' i = m i) ∧ ∀ i, hi ≤ i → m' i = m i := by
  induction cs generalizing m lo str with
  | nil => exact ⟨m, rfl, rfl, by simp, fun _ _ => rfl, fun _ _ => rfl⟩
  | cons c cs ih =>
    obtain ⟨p, s⟩ := c
    obtain ⟨hp, hfit, hs, hlaid⟩ := hcs
    have hp' : lo ≤ p := hp
    have hfit' : p + s.length ≤ hi := hfit
    have hpass := rewritePass_spec copyStep_lagging (s := ()) hs
      (by omega : s.length < NADS_MAX_URI - p) (by omega : str + 0 ≤ p)
    rw [runSteps_copyStep] at hpass
    obtain ⟨m', hdone, hslice, hlen, hbefore, hafter⟩ := hpass
    rw [List.map_cons, List.map_cons, rebuild, hdone]
    dsimp only
    cases cs with
    | nil =>
      rw [List.map_nil, List.map_nil, if_pos rfl, List.intercalate_singleton]
      refine ⟨m', rfl, hslice, ?_, hbefore, ?_⟩
      · intro _
        omega
      · intro i hi'
        exact hafter i (by omega)
    | cons d cs =>
      have hslash : ∀ i, str + s.length + 1 ≤ i → m'.store (str + s.length) [SLASH] i = m' i := by
        intro i hi'
        exact Mem.store_after _ _ _ (by simpa using hi')
      have hlaid' : Laid (m'.store (str + s.length) [SLASH]) hi (p + s.length + 1) (d :: cs) := by
        refine hlaid.congr fun i h1 _ => ?_
        rw [hslash i (by omega), hafter i (by omega)]
      obtain ⟨m'', hre, hslice', hlen', hbefore', hafter'⟩ :=
        ih hlaid' (by omega : str + s.length + 1 ≤ p + s.length + 1)
      have hj : [SLASH].intercalate (s :: (d :: cs).map Prod.snd) =
          s ++ SLASH :: [SLASH].intercalate ((d :: cs).map Prod.snd) := by
        rw [List.map_cons, List.intercalate_cons_cons]
        simp
      have hjlen : ([SLASH].intercalate (s :: (d :: cs).map Prod.snd)).length =
          s.length + (([SLASH].intercalate ((d :: cs).map Prod.snd)).length + 1) := by
        rw [hj]
        simp
      have hlen'' := hlen' (by simp)
      rw [if_neg (by simp), hre]
      refine ⟨m'', ?_, ?_, ?_, ?_, ?_⟩
      · rw [hjlen]
        congr 2
        omega
      · have hfirst : m''.slice str s.length = s := by
          refine (Mem.slice_congr fun i _ h2 => ?_).trans hslice
          rw [hbefore' i (by omega), Mem.store_before _ _ _ h2]
        have hsep : m'' (str + s.length) = SLASH := by
          rw [hbefore' _ (by omega)]
          exact Mem.store_inside m' _ [SLASH] (by simp : 0 < [SLASH].length)
        rw [hjlen, Mem.slice_add, hfirst, Mem.slice_succ, hsep, hslice', hj]
      · intro _
        rw [hjlen]
        omega
      · intro i hi'
        rw [hbefore' i (by omega), Mem.store_before _ _ _ (by omega), hbefore i hi']
      · intro i hi'
        rw [hafter' i hi', hslash i (by omega), hafter i (by omega)]

/-- `n_path` leaves the path that dot segments leave, or finds a traversal. Then the slashes are terminators. -/
theorem nPath_spec {path : Bytes} {m : Mem} (hm : m.HoldsStr 0 path)
    (hfit : path.length < NADS_MAX_URI) :
    match resolve [] (segments path) with
    | none => ∃ m', nPath m 0 = .error (.err NADS_ERR_TRAVERSAL m') ∧
        m'.HoldsStr 0 ((collapse path).takeWhile (· ≠ SLASH))
    | some stack => ∃ m', nPath m 0 = .ok m' ∧ m'.HoldsStr 0 (pathText stack) ∧
        (pathText stack).length ≤ max 1 path.length ∧
        ∀ i, max 1 path.length < i → m' i = m i := by
  obtain ⟨m₁, hcount, hcollapse⟩ := nPcount_spec hm (by omega)
  have hlen := hcollapse.length_le
  obtain ⟨m₂, cs, hd, hgrab, hsplit, hshort, hhd, hlaid, hframe⟩ :=
    grabComponents_spec hcollapse.holds (by omega : (collapse path).length < NADS_MAX_URI - 0)
  have hsegs : segments path = cs.map Prod.snd := by
    unfold segments
    rw [hsplit, List.tail_cons]
  have hstrip : Keeps ([] ++ cs) (resolve [] (cs.map Prod.snd)) (stripDots m₂ [] (cs.map Prod.fst)) :=
    stripDots_spec fun c hc => hlaid.holds hc
  rw [List.nil_append, ← hsegs] at hstrip
  have hsame : ¬ (cs.map Prod.fst).length ≠ (segments path).length := by
    rw [hsegs]
    simp
  unfold nPath
  rw [hcount]
  dsimp only
  rw [hgrab]
  dsimp only
  rw [if_neg hsame]
  cases hres : resolve [] (segments path) with
  | none =>
    rw [hres] at hstrip
    rw [show stripDots m₂ [] (cs.map Prod.fst) = none from hstrip]
    exact ⟨m₂, rfl, by rwa [takeWhile_of_splitOn hsplit]⟩
  | some stack =>
    rw [hres] at hstrip
    obtain ⟨out, hout, hsub, hstrip⟩ := hstrip
    obtain ⟨m₃, hre, hslice, hend, hbefore, hafter⟩ := rebuild_spec (hlaid.sublist hsub)
      (by omega : 0 + 1 ≤ 0 + hd.length + 1) (by omega)
    rw [hstrip]
    dsimp only
    rw [hre]
    dsimp only
    rw [hout] at hslice hend ⊢
    obtain ⟨text, htext⟩ : ∃ text, text = [SLASH].intercalate stack := ⟨_, rfl⟩
    rw [← htext] at hslice hend ⊢
    have hpt : pathText stack = SLASH :: text := by rw [htext]; rfl
    have htlen : 1 + text.length ≤ max 1 path.length := by
      by_cases hnil : out = []
      · rw [hnil] at hout
        rw [htext, ← hout]
        simp
      · have h := hend hnil
        omega
    rw [hpt]
    refine ⟨_, rfl, ?_, ?_, ?_⟩
    · have hnul : 0 ∉ pathText stack := by
        intro h
        obtain h | ⟨s, hs, hc⟩ := mem_of_mem_pathText h
        · cases h
        · rw [← hout] at hs
          obtain ⟨c, hc', rfl⟩ := List.mem_map.mp hs
          exact (hlaid.holds (hsub.subset hc')).nulFree hc
      rw [hpt] at hnul
      rw [List.mem_cons, not_or] at hnul
      refine Mem.holdsStr_cons.mpr ⟨?_, by decide, ?_, ?_, hnul.2⟩
      · rw [Mem.store_before _ _ _ (by omega)]
        exact Mem.store_inside m₃ 0 [SLASH] (by simp : 0 < [SLASH].length)
      · rw [Mem.slice_store_before _ _ _ _ _ (Nat.le_refl _), Mem.slice_store_after _ _ _ _ _ (by simp)]
        exact hslice
      · exact Mem.store_inside _ _ [0] (by simp : 0 < [(0 : UInt8)].length)
    · rw [List.length_cons]
      omega
    · intro i hi
      rw [Mem.store_after _ _ _ (by simp; omega), Mem.store_after _ _ _ (by simp; omega),
        hafter i (by omega), hframe i (by omega), hcollapse.after i (by omega)]

theorem nPath_canonical {u : Bytes} {m : Mem} (hu : Canonical u) (hm : m.HoldsStr 0 u)
    (hfit : u.length < NADS_MAX_URI) : nPath m 0 = .ok m := by
  obtain ⟨stack, hres, htext⟩ := hu.resolve_segments
  have hpath := nPath_spec hm hfit
  rw [hres] at hpath
  obtain ⟨m', hrun, hholds, -, hframe⟩ := hpath
  rw [htext] at hholds
  have hpos : 1 ≤ u.length := by
    obtain ⟨rest, hrest⟩ := hu.rooted
    rw [hrest]
    simp
  have hsame : m' = m := by
    funext i
    by_cases hi : i ≤ u.length
    · exact hholds.agree hm (Nat.zero_le i) (by omega)
    · exact hframe i (by omega)
  rw [hrun, hsame]

theorem hexStep_error {s : HexState} {c : UInt8} {e : NadsStop} (h : hexStep s c = .error e) :
    e = .err NADS_ERR_BAD_HEX ∨ e = .err NADS_ERR_NULL := by
  cases s with
  | plain =>
    simp only [hexStep] at h
    split at h <;> cases h
  | percent =>
    simp only [hexStep] at h
    split at h <;> cases h
    exact Or.inl rfl
  | digit d =>
    simp only [hexStep] at h
    split at h
    · split at h <;> cases h
      exact Or.inr rfl
    · cases h
      exact Or.inl rfl

theorem hexText_error {text : Bytes} {e : NadsStop} (h : hexText text = .error e) :
    e = .err NADS_ERR_BAD_HEX ∨ e = .err NADS_ERR_NULL := by
  unfold hexText passText at h
  split at h
  · next e' hrun =>
    cases h
    obtain ⟨s, c, hstep⟩ := runSteps_error hrun
    exact hexStep_error hstep
  · split at h <;> cases h
    exact Or.inl rfl

/-- Decoding the query ends as its text tells, and leaves the string before it. -/
theorem nadsQuery_spec {m : Mem} {u text : Bytes} {query : Option ℕ} (hm : m.HoldsStr 0 u)
    (hnone : query = none → text = [])
    (hq : ∀ q ∈ query, m.HoldsStr q text ∧ u.length ≤ q ∧ q + text.length < NADS_MAX_URI) :
    match hexText text with
    | .error e => ∃ m' code, e = .err code ∧ nadsQuery m query = .error (.err code m')
    | .ok out => ∃ m', nadsQuery m query = .ok m' ∧ m'.HoldsStr 0 u ∧ ∀ q ∈ query, m'.HoldsStr q out := by
  cases query with
  | none =>
    rw [hnone rfl]
    exact ⟨m, rfl, hm, by simp⟩
  | some q =>
    obtain ⟨htext, hbehind, hfit⟩ := hq q rfl
    have hhex := nHex_spec htext hfit
    unfold nadsQuery
    cases hh : hexText text with
    | error e =>
      rw [hh] at hhex
      obtain rfl | rfl := hexText_error hh
      · obtain ⟨m', hm'⟩ := hhex
        exact ⟨m', _, rfl, hm'⟩
      · obtain ⟨m', hm'⟩ := hhex
        exact ⟨m', _, rfl, hm'⟩
    | ok out =>
      rw [hh] at hhex
      obtain ⟨m', hm', hre⟩ := hhex
      refine ⟨m', hm', ?_, fun q' hq' => ?_⟩
      · by_cases hlt : u.length < q
        · exact hm.congr fun i _ hi => (hre.before i (by omega)).symm
        · -- the query starts at the terminator of the path, and is empty
          have hqeq : q = u.length := by omega
          have hmq : m q = 0 := by
            have h := hm.terminated
            rwa [Nat.zero_add, ← hqeq] at h
          have hnil : text = [] := htext.unique (Mem.HoldsStr.nil hmq)
          have hout : out = [] := by
            have h := hre.length_le
            rw [hnil] at h
            exact List.length_eq_zero_iff.mp (Nat.le_zero.mp h)
          have hmq' : m' q = 0 := by
            have h := hre.holds
            rw [hout] at h
            exact Mem.holdsStr_nil_iff.mp h
          refine hm.congr fun i _ hi => ?_
          by_cases hi' : i < q
          · exact (hre.before i hi').symm
          · have hiq : i = q := by omega
            rw [hiq, hmq, hmq']
      · cases hq'
        exact hre.holds

/-- What `n_hex` finds of the query. Where nothing stands before the question mark, the slash that is put
there and its terminator are written over the query. -/
def askedQuery (uri : Bytes) : Bytes := if uri.head? = some QMARK then [] else uriQuery uri

theorem askedQuery_of_not_mem {uri : Bytes} (h : QMARK ∉ uri) : askedQuery uri = [] := by
  have hall : uri.dropWhile (· ≠ QMARK) = [] := by
    apply List.dropWhile_eq_nil_iff.mpr
    intro c hc
    have hne : c ≠ QMARK := fun heq => h (heq ▸ hc)
    simpa using hne
  unfold askedQuery uriQuery
  rw [hall]
  split
  · rfl
  · rfl

/-- What becomes of a URI: the segments of its path, and its query. -/
def normalized (before : UInt8) (uri : Bytes) : Except NadsStop (List Bytes × Bytes) :=
  match decodedPath before uri with
  | .error e => .error e
  | .ok path =>
    match resolve [] (segments path) with
    | none => .error (.err NADS_ERR_TRAVERSAL)
    | some stack =>
      match hexText (askedQuery uri) with
      | .error e => .error e
      | .ok query => .ok (stack, query)

theorem decodedPath_nil (before : UInt8) {uri path : Bytes} (hhead : uri.head? = some QMARK)
    (hpath : decodedPath before uri = .ok path) : path = [] := by
  cases uri with
  | nil => cases hhead
  | cons c uri =>
    cases hhead
    cases hpath
    rfl

theorem askedQuery_of_queryAt_none {uri : Bytes} (h : queryAt uri = none) : askedQuery uri = [] := by
  apply askedQuery_of_not_mem
  intro hmem
  unfold queryAt at h
  rw [if_pos hmem] at h
  cases h

/-- The path is put together in front of the query, unless it was empty, and then no query is asked for. -/
theorem askedQuery_holds {before : UInt8} {uri path : Bytes} {stack : List Bytes} {m m' : Mem} {q : ℕ}
    (hq : q ∈ queryAt uri) (htext : m.HoldsStr q (uriQuery uri)) (hbehind : (uriPath uri).length < q)
    (hfit : q + (uriQuery uri).length < NADS_MAX_URI) (hpath : decodedPath before uri = .ok path)
    (hres : resolve [] (segments path) = some stack) (hlen : path.length ≤ (uriPath uri).length)
    (hholds : m'.HoldsStr 0 (pathText stack)) (hshort : (pathText stack).length ≤ max 1 path.length)
    (hframe : ∀ i, max 1 (uriPath uri).length < i → m' i = m i) :
    m'.HoldsStr q (askedQuery uri) ∧ (pathText stack).length ≤ q ∧ q + (askedQuery uri).length < NADS_MAX_URI := by
  obtain ⟨hmem, hat⟩ := mem_queryAt_iff.mp hq
  unfold askedQuery
  by_cases hhead : uri.head? = some QMARK
  · -- the path was empty, and the slash written over it ends where the query starts
    have hnil := decodedPath_nil before hhead hpath
    rw [hnil] at hshort hres
    cases hres
    rw [if_pos hhead]
    have hq1 : q = 1 := by
      rw [hat]
      cases uri with
      | nil => cases hhead
      | cons c uri =>
        cases hhead
        rfl
    subst hq1
    exact ⟨Mem.HoldsStr.nil hholds.terminated, Nat.le_refl 1, by decide⟩
  · rw [if_neg hhead]
    have hpos : 1 ≤ (uri.takeWhile (· ≠ QMARK)).length := by
      cases uri with
      | nil => cases hmem
      | cons c uri =>
        have hc : c ≠ QMARK := by
          rintro rfl
          exact hhead rfl
        rw [List.takeWhile_cons_of_pos (by simpa using hc), List.length_cons]
        omega
    exact ⟨htext.congr fun i hi _ => (hframe i (by omega)).symm, by omega, hfit⟩

/-- `nads_normalize` ends as the text of the URI tells, whatever lies in the buffer. -/
theorem nadsNormalize_normalized (before : UInt8) (m : Mem) {uri : Bytes} (hfit : uri.length < NADS_MAX_URI) :
    match normalized before uri with
    | .error (.err code) => ∃ m', nadsNormalize before m uri = .ok ⟨NADS_FAIL, code, m', queryAt uri⟩
    | .error (.fault f) => nadsNormalize before m uri = .error f
    | .ok (stack, query) => ∃ m', nadsNormalize before m uri = .ok ⟨NADS_OK, NADS_ERR_SUCCESS, m', queryAt uri⟩ ∧
        m'.HoldsStr 0 (pathText stack) ∧ (pathText stack).length < NADS_MAX_URI ∧
          ∀ q ∈ queryAt uri, m'.HoldsStr q query := by
  obtain ⟨m₁, hsplit, hhold, hpfit, hquery⟩ := nSplit_spec m hfit
  have hdec : Passes m₁ 0 (uriPath uri) (nadsDecode before m₁) (decodedPath before uri) :=
    nadsDecode_spec before hhold hpfit
  unfold normalized nadsNormalize
  rw [hsplit]
  dsimp only
  cases hpath : decodedPath before uri with
  | error e =>
    rw [hpath] at hdec
    cases e with
    | err code =>
      obtain ⟨m₂, hdec⟩ := hdec
      exact ⟨m₂, by rw [hdec]; rfl⟩
    | fault f =>
      have hdec : nadsDecode before m₁ = .error (.fault f) := hdec
      rw [hdec]
      rfl
  | ok path =>
    rw [hpath] at hdec
    obtain ⟨m₂, hdec, hre⟩ := hdec
    have hlen := hre.length_le
    have hnp := nPath_spec hre.holds (by omega)
    have hrun : ((nadsDecode before m₁).bind fun m => (nPath m 0).bind fun m => nadsQuery m (queryAt uri)) =
        (nPath m₂ 0).bind fun m => nadsQuery m (queryAt uri) := by
      rw [hdec]
      rfl
    rw [hrun]
    dsimp only
    cases hres : resolve [] (segments path) with
    | none =>
      rw [hres] at hnp
      obtain ⟨m₃, hnp, -⟩ := hnp
      exact ⟨m₃, by rw [hnp]; rfl⟩
    | some stack =>
      rw [hres] at hnp
      obtain ⟨m₃, hnp, hholds, hshort, hframe⟩ := hnp
      have hbind : ((nPath m₂ 0).bind fun m => nadsQuery m (queryAt uri)) = nadsQuery m₃ (queryAt uri) := by
        rw [hnp]
        rfl
      have hmax : (pathText stack).length < NADS_MAX_URI := by
        have h1 : 1 < NADS_MAX_URI := by decide
        omega
      have hqueries : ∀ q ∈ queryAt uri, m₃.HoldsStr q (askedQuery uri) ∧ (pathText stack).length ≤ q ∧
          q + (askedQuery uri).length < NADS_MAX_URI := by
        intro q hq
        obtain ⟨htext, hbehind, hqfit⟩ := hquery q hq
        refine askedQuery_holds hq htext hbehind hqfit hpath hres hlen hholds hshort fun i hi => ?_
        rw [hframe i (by omega), hre.after i (by omega)]
      have hquery := nadsQuery_spec hholds askedQuery_of_queryAt_none hqueries
      rw [hbind]
      dsimp only
      cases hhex : hexText (askedQuery uri) with
      | error e =>
        rw [hhex] at hquery
        obtain ⟨m₄, code, rfl, hq⟩ := hquery
        exact ⟨m₄, by rw [hq]⟩
      | ok out =>
        rw [hhex] at hquery
        obtain ⟨m₄, hq, hkept, hdecoded⟩ := hquery
        exact ⟨m₄, by rw [hq], hkept, hmax, hdecoded⟩

/-- What `nads_normalize` does with a URI whose path can be decoded. -/
theorem nadsNormalize_spec (before : UInt8) (m : Mem) {uri path : Bytes}
    (hfit : uri.length < NADS_MAX_URI) (hpath : decodedPath before uri = .ok path) :
    match resolve [] (segments path) with
    | none => ∃ n, nadsNormalize before m uri = .ok n ∧ n.ret = NADS_FAIL ∧
        n.errcode = NADS_ERR_TRAVERSAL
    | some stack => ∃ n, nadsNormalize before m uri = .ok n ∧ n.errcode ≠ NADS_ERR_TRAVERSAL ∧
        (QMARK ∉ uri → n.ret = NADS_OK) ∧
        (n.ret = NADS_OK → n.uri.HoldsStr 0 (pathText stack) ∧ (pathText stack).length < NADS_MAX_URI) := by
  have hspec := nadsNormalize_normalized before m hfit
  unfold normalized at hspec
  rw [hpath] at hspec
  dsimp only at hspec
  cases hres : resolve [] (segments path) with
  | none =>
    rw [hres] at hspec
    obtain ⟨m', hn⟩ := hspec
    exact ⟨_, hn, rfl, rfl⟩
  | some stack =>
    rw [hres] at hspec
    dsimp only at hspec
    cases hhex : hexText (askedQuery uri) with
    | error e =>
      rw [hhex] at hspec
      have hasked : QMARK ∈ uri := by
        by_contra hmem
        rw [askedQuery_of_not_mem hmem] at hhex
        cases hhex
      have hcode : ∃ code, e = .err code ∧ code ≠ NADS_ERR_TRAVERSAL := by
        obtain rfl | rfl := hexText_error hhex
        · exact ⟨_, rfl, by decide⟩
        · exact ⟨_, rfl, by decide⟩
      obtain ⟨code, rfl, hcode⟩ := hcode
      obtain ⟨m', hn⟩ := hspec
      exact ⟨_, hn, hcode, fun h => absurd hasked h, fun h => absurd h (by decide : NADS_FAIL ≠ NADS_OK)⟩
    | ok out =>
      rw [hhex] at hspec
      obtain ⟨m', hn, hholds, hmax, -⟩ := hspec
      exact ⟨_, hn, (by decide : NADS_ERR_SUCCESS ≠ NADS_ERR_TRAVERSAL), fun _ => rfl, fun _ => ⟨hholds, hmax⟩⟩

theorem normalized_ok {before : UInt8} {uri query : Bytes} {stack : List Bytes} (h : normalized before uri = .ok (stack, query)) :
    ∃ path, decodedPath before uri = .ok path ∧ resolve [] (segments path) = some stack ∧
      hexText (askedQuery uri) = .ok query := by
  unfold normalized at h
  cases hpath : decodedPath before uri with
  | error e =>
    rw [hpath] at h
    cases h
  | ok path =>
    rw [hpath] at h
    dsimp only at h
    cases hres : resolve [] (segments path) with
    | none =>
      rw [hres] at h
      cases h
    | some stack' =>
      rw [hres] at h
      dsimp only at h
      cases hhex : hexText (askedQuery uri) with
      | error e =>
        rw [hhex] at h
        cases h
      | ok query' =>
        rw [hhex] at h
        cases h
        exact ⟨path, rfl, hres, rfl⟩

/-- What is left of a URI that is accepted. -/
theorem nadsNormalize_accepted (before : UInt8) (m : Mem) {uri : Bytes} {n : Nads}
    (hfit : uri.length < NADS_MAX_URI) (hn : nadsNormalize before m uri = .ok n)
    (hok : n.ret = NADS_OK) : ∃ stack query, normalized before uri = .ok (stack, query) ∧
      n.uri.HoldsStr 0 (pathText stack) ∧ n.query = queryAt uri ∧ ∀ q ∈ n.query, n.uri.HoldsStr q query := by
  have hspec := nadsNormalize_normalized before m hfit
  cases hnorm : normalized before uri with
  | error e =>
    rw [hnorm, hn] at hspec
    cases e with
    | err code =>
      obtain ⟨m', hfail⟩ := hspec
      cases hfail
      cases hok
    | fault f => cases hspec
  | ok r =>
    obtain ⟨stack, query⟩ := r
    rw [hnorm, hn] at hspec
    obtain ⟨m', hsame, hholds, -, hquery⟩ := hspec
    cases hsame
    exact ⟨stack, query, rfl, hholds, rfl, hquery⟩

theorem decodedPath_of_ok (before : UInt8) (m : Mem) {uri : Bytes} {n : Nads}
    (hfit : uri.length < NADS_MAX_URI) (hn : nadsNormalize before m uri = .ok n)
    (hok : n.ret = NADS_OK) : ∃ path, decodedPath before uri = .ok path := by
  obtain ⟨stack, query, hnorm, -⟩ := nadsNormalize_accepted before m hfit hn hok
  obtain ⟨path, hpath, -⟩ := normalized_ok hnorm
  exact ⟨path, hpath⟩

/-- The path that is left is the stack of segments, and `n_path` leaves it as it is. -/
theorem nadsNormalize_canonical (before : UInt8) (m : Mem) (uri : Bytes)
    (hfit : uri.length < NADS_MAX_URI) :
    (∀ n, nadsNormalize before m uri = .ok n → n.ret = NADS_OK →
      ∃ path stack, decodedPath before uri = .ok path ∧
        resolve [] (segments path) = some stack ∧ n.uri.HoldsStr 0 (pathText stack) ∧
        Canonical (pathText stack) ∧ nPath n.uri 0 = .ok n.uri) ∧
    ∀ path, decodedPath before uri = .ok path →
      ∃ n, nadsNormalize before m uri = .ok n ∧
        (n.ret = NADS_FAIL ∧ n.errcode = NADS_ERR_TRAVERSAL ↔
          resolve [] (segments path) = none) := by
  constructor
  · intro n hn hok
    obtain ⟨path, hpath⟩ := decodedPath_of_ok before m hfit hn hok
    have hspec := nadsNormalize_spec before m hfit hpath
    cases hres : resolve [] (segments path) with
    | none =>
      rw [hres] at hspec
      obtain ⟨n', hn', hfail, -⟩ := hspec
      rw [hn] at hn'
      cases hn'
      rw [hok] at hfail
      cases hfail
    | some stack =>
      rw [hres] at hspec
      obtain ⟨n', hn', -, -, hholds⟩ := hspec
      rw [hn] at hn'
      cases hn'
      obtain ⟨hholds, hmax⟩ := hholds hok
      have hcanon := canonical_pathText hres
      exact ⟨path, stack, hpath, hres, hholds, hcanon, nPath_canonical hcanon hholds hmax⟩
  · intro path hpath
    have hspec := nadsNormalize_spec before m hfit hpath
    cases hres : resolve [] (segments path) with
    | none =>
      rw [hres] at hspec
      obtain ⟨n, hn, hfail⟩ := hspec
      exact ⟨n, hn, fun _ => rfl, fun _ => hfail⟩
    | some stack =>
      rw [hres] at hspec
      obtain ⟨n, hn, hcode, -⟩ := hspec
      exact ⟨n, hn, fun h => absurd h.2 hcode, fun h => by cases h⟩

/-- `/b/../..` climbs out. -/
theorem nadsNormalize_canonical_climb :
    ∃ n, nadsNormalize 0 (fun _ => 0) [47, 98, 47, 46, 46, 47, 46, 46] = .ok n ∧
      n.ret = NADS_FAIL ∧ n.errcode = NADS_ERR_TRAVERSAL := by
  obtain ⟨n, hn, hiff⟩ := (nadsNormalize_canonical 0 (fun _ => 0) [47, 98, 47, 46, 46, 47, 46, 46]
    (by decide)).2 [47, 98, 47, 46, 46, 47, 46, 46] rfl
  exact ⟨n, hn, hiff.mpr (by decide)⟩

end Ashttpd
