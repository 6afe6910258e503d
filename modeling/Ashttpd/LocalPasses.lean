import Ashttpd.HexDecoding

/-!
# What the passes over a path touch

The query lies behind the path in the same buffer. A pass that is local to the cells up to the terminator of
the path neither reads nor writes those of the query: whatever lies there, it ends in the same way and leaves
it as it is.
-/
namespace Ashttpd

/-- The memory with other contents behind the cell `p`. -/
def Mem.over (m : Mem) (p : ℕ) (tail : Mem) : Mem := fun i => if i ≤ p then m i else tail i

def NadsFail.over (p : ℕ) (tail : Mem) : NadsFail → NadsFail
  | .err code m => .err code (m.over p tail)
  | .fault f => .fault f

def PassEnd.over {σ ε : Type*} (p : ℕ) (tail : Mem) : PassEnd σ ε → PassEnd σ ε
  | .done m out s => .done (m.over p tail) out s
  | .failed e m => .failed e (m.over p tail)
  | .overrun => .overrun

/-- With other contents behind the cell `p`, the pass ends in the same way, with these contents behind it. -/
def LocalTo (p : ℕ) (pass : Mem → Except NadsFail Mem) (m : Mem) : Prop :=
  ∀ tail, pass (m.over p tail) = ((pass m).mapError (.over p tail)).map (·.over p tail)

variable {m : Mem} {p : ℕ} {tail : Mem}

theorem Mem.over_of_le {i : ℕ} (h : i ≤ p) : m.over p tail i = m i := if_pos h

theorem Mem.store_over {q : ℕ} {bs : Bytes} (h : q + bs.length ≤ p + 1) :
    (m.over p tail).store q bs = (m.store q bs).over p tail := by
  funext i
  unfold Mem.over Mem.store
  by_cases hi : i ≤ p
  · simp [hi]
  · have hlast : bs[i - q]? = none := List.getElem?_eq_none (by omega)
    simp [hi, hlast]

theorem Mem.HoldsStr.over {q : ℕ} {s : Bytes} (h : m.HoldsStr q s) (hp : q + s.length ≤ p) :
    (m.over p tail).HoldsStr q s :=
  h.congr fun _ _ hi => (Mem.over_of_le (Nat.le_trans hi hp)).symm

section Rewriting

variable {σ ε : Type*} {step : σ → UInt8 → Except ε (σ × UInt8 × Bytes)} {pending : σ → ℕ}

/-- A pass over a string that ends by `p` touches nothing behind `p`. -/
theorem rewritePass_over (hlag : Lagging step pending) {text : Bytes} {fuel inp out : ℕ} {s : σ} {m : Mem}
    (hm : m.HoldsStr inp text) (hp : inp + text.length ≤ p) (hout : out + pending s ≤ inp) :
    rewritePass step fuel (m.over p tail) inp out s = (rewritePass step fuel m inp out s).over p tail := by
  induction text generalizing fuel m inp out s with
  | nil =>
    cases fuel with
    | zero => rfl
    | succ fuel =>
      have h0 := Mem.holdsStr_nil_iff.mp hm
      rw [rewritePass, rewritePass, Mem.over_of_le (by simpa using hp), if_pos h0, if_pos h0]
      rfl
  | cons c text ih =>
    obtain ⟨hc, hc0, htext⟩ := Mem.holdsStr_cons.mp hm
    rw [List.length_cons] at hp
    cases fuel with
    | zero => rfl
    | succ fuel =>
      have hread : ¬ m inp = 0 := by rwa [hc]
      rw [rewritePass, rewritePass, Mem.over_of_le (by omega), if_neg hread, if_neg hread]
      cases hstep : step s (m inp) with
      | error e => rfl
      | ok r =>
        obtain ⟨s', b, bs⟩ := r
        have hb := hlag s (m inp) s' b bs hstep
        have hone : [b].length = 1 := rfl
        have hlater : ((m.store inp [b]).store out bs).HoldsStr (inp + 1) text := by
          apply htext.congr
          intro i hi _
          rw [Mem.store_after _ _ _ (by omega), Mem.store_after _ _ _ (by omega)]
        have hrec : rewritePass step fuel (((m.store inp [b]).store out bs).over p tail) (inp + 1) (out + bs.length) s' = _ :=
          ih hlater (by omega) (by omega)
        dsimp only
        rw [Mem.store_over (by omega), Mem.store_over (by omega), hrec]

/-- A pass ends where it has read, at the latest. -/
theorem rewritePass_out_le (hlag : Lagging step pending) {text : Bytes} {fuel inp out out' : ℕ} {s s' : σ} {m m' : Mem}
    (hm : m.HoldsStr inp text) (hfuel : text.length < fuel) (hout : out + pending s ≤ inp)
    (hdone : rewritePass step fuel m inp out s = .done m' out' s') : out' ≤ inp + text.length := by
  have hpass := rewritePass_spec hlag hm hfuel hout
  cases hrun : runSteps step s text with
  | error e =>
    rw [hrun] at hpass
    obtain ⟨m'', hfailed⟩ := hpass
    cases hdone.symm.trans hfailed
  | ok r =>
    rw [hrun] at hpass
    obtain ⟨m'', hdone', -, hlen, -⟩ := hpass
    cases hdone.symm.trans hdone'
    omega

end Rewriting

theorem runPass_local {σ : Type} [DecidableEq σ] {step : σ → UInt8 → Except NadsStop (σ × UInt8 × Bytes)}
    {pending : σ → ℕ} {s0 : σ} {code buf : ℕ} {text : Bytes} (hlag : Lagging step pending) (hs0 : pending s0 = 0)
    (hm : m.HoldsStr buf text) (hp : buf + text.length ≤ p) (hfit : p < NADS_MAX_URI) :
    LocalTo p (runPass step s0 code · buf) m := by
  intro tail
  have hout : buf + pending s0 ≤ buf := by omega
  dsimp only
  unfold runPass
  rw [rewritePass_over hlag hm hp hout]
  cases hpass : rewritePass step (NADS_MAX_URI - buf) m buf buf s0 with
  | overrun => rfl
  | failed e m' =>
    cases e with
    | err code => rfl
    | fault f => rfl
  | done m' out s =>
    have hend := rewritePass_out_le hlag hm (by omega) hout hpass
    simp only [PassEnd.over]
    by_cases hs : s = s0
    · rw [if_pos hs, if_pos hs, Mem.store_over (by rw [List.length_singleton]; omega)]
      rfl
    · rw [if_neg hs, if_neg hs]
      rfl

theorem nHex_local {text : Bytes} (hm : m.HoldsStr 0 text) (hp : text.length ≤ p) (hfit : p < NADS_MAX_URI) :
    LocalTo p (nHex · 0) m :=
  runPass_local hexStep_lagging rfl hm (by omega) hfit

theorem nUtf8_local (before : UInt8) {text : Bytes} (hm : m.HoldsStr 0 text) (hp : text.length ≤ p)
    (hfit : p < NADS_MAX_URI) : LocalTo p (nUtf8 before · 0) m :=
  runPass_local (utf8Step_lagging before) rfl hm (by omega) hfit

theorem nPcount_over {text : Bytes} {buf : ℕ} (hm : m.HoldsStr buf text) (hp : buf + text.length ≤ p)
    (hfit : p < NADS_MAX_URI) : nPcount (m.over p tail) buf =
      ((nPcount m buf).mapError (.over p tail)).map fun r => (r.1.over p tail, r.2) := by
  unfold nPcount
  rw [rewritePass_over pcountStep_lagging hm hp (Nat.le_refl buf)]
  cases hpass : rewritePass pcountStep (NADS_MAX_URI - buf) m buf buf ⟨false, 0⟩ with
  | overrun => rfl
  | failed e m' =>
    cases e with
    | err code => rfl
    | fault f => rfl
  | done m' out s =>
    have hend := rewritePass_out_le pcountStep_lagging hm (by omega) (Nat.le_refl buf) hpass
    simp only [PassEnd.over]
    rw [Mem.store_over (by rw [List.length_singleton]; omega)]
    rfl

theorem grabComponents_over {text : Bytes} {fuel buf : ℕ} (hm : m.HoldsStr buf text) (hp : buf + text.length ≤ p) :
    grabComponents fuel (m.over p tail) buf =
      ((grabComponents fuel m buf).mapError (.over p tail)).map fun r => (r.1.over p tail, r.2) := by
  induction text generalizing fuel m buf with
  | nil =>
    cases fuel with
    | zero => rfl
    | succ fuel =>
      have h0 := Mem.holdsStr_nil_iff.mp hm
      rw [grabComponents, grabComponents, Mem.over_of_le (by simpa using hp), if_pos h0, if_pos h0]
      rfl
  | cons c text ih =>
    obtain ⟨hc, hc0, htext⟩ := Mem.holdsStr_cons.mp hm
    rw [List.length_cons] at hp
    cases fuel with
    | zero => rfl
    | succ fuel =>
      have hread : ¬ m buf = 0 := by rwa [hc]
      have hone : [(0 : UInt8)].length = 1 := rfl
      rw [grabComponents, grabComponents, Mem.over_of_le (by omega), if_neg hread, if_neg hread]
      by_cases hslash : m buf = SLASH
      · have hlater : (m.store buf [0]).HoldsStr (buf + 1) text := by
          apply htext.congr
          intro i hi _
          rw [Mem.store_after _ _ _ (by omega)]
        rw [if_pos hslash, if_pos hslash, Mem.store_over (by omega), ih hlater (by omega)]
        cases grabComponents fuel (m.store buf [0]) (buf + 1) with
        | error e => rfl
        | ok r => rfl
      · rw [if_neg hslash, if_neg hslash, ih htext (by omega)]

theorem stripDots_over {cs : List (ℕ × Bytes)} {kept : List ℕ}
    (hcs : ∀ c ∈ cs, m.HoldsStr c.1 c.2 ∧ c.1 + c.2.length ≤ p) :
    stripDots (m.over p tail) kept (cs.map Prod.fst) = stripDots m kept (cs.map Prod.fst) := by
  induction cs generalizing kept with
  | nil => rfl
  | cons c cs ih =>
    have hrest : ∀ c ∈ cs, m.HoldsStr c.1 c.2 ∧ c.1 + c.2.length ≤ p := fun d hd => hcs d (List.mem_cons_of_mem _ hd)
    obtain ⟨hc, hend⟩ := hcs c List.mem_cons_self
    have hsame : ∀ t : Bytes, 0 ∉ t → strEq (m.over p tail) c.1 t = strEq m c.1 t := by
      intro t ht
      rw [Bool.eq_iff_iff, strEq_iff (hc.over hend) ht, strEq_iff hc ht]
    rw [List.map_cons, stripDots, stripDots, hsame [DOT] (by decide), hsame [DOT, DOT] (by decide), ih hrest,
      ih hrest, ih hrest]

theorem Laid.end_le {hi lo : ℕ} {cs : List (ℕ × Bytes)} (h : Laid m hi lo cs) :
    ∀ c ∈ cs, m.HoldsStr c.1 c.2 ∧ c.1 + c.2.length ≤ hi := by
  induction cs generalizing lo with
  | nil =>
    intro c hc
    cases hc
  | cons d cs ih =>
    obtain ⟨-, hend, hd, hrest⟩ := h
    intro c hc
    cases hc with
    | head => exact ⟨hd, hend⟩
    | tail _ hc => exact ih hrest c hc

theorem rebuild_over {cs : List (ℕ × Bytes)} {hi lo str : ℕ} (hcs : Laid m hi lo cs) (hstr : str ≤ lo) (hp : hi ≤ p)
    (hfit : p < NADS_MAX_URI) : rebuild (cs.map Prod.fst) (m.over p tail) str =
      ((rebuild (cs.map Prod.fst) m str).mapError (.over p tail)).map fun r => (r.1.over p tail, r.2) := by
  induction cs generalizing m lo str with
  | nil => rfl
  | cons c cs ih =>
    obtain ⟨q, s⟩ := c
    obtain ⟨hq, hend, hs, hlaid⟩ := hcs
    have hq : lo ≤ q := hq
    have hend : q + s.length ≤ hi := hend
    have hout : str + 0 ≤ q := by omega
    have hpass := rewritePass_spec copyStep_lagging (s := ()) hs (by omega : s.length < NADS_MAX_URI - q) hout
    rw [runSteps_copyStep] at hpass
    obtain ⟨m', hdone, -, hlen, -, hafter⟩ := hpass
    rw [List.map_cons, rebuild, rebuild, rewritePass_over copyStep_lagging hs (by omega) hout, hdone]
    simp only [PassEnd.over]
    cases cs with
    | nil => rfl
    | cons d cs =>
      have hone : [SLASH].length = 1 := rfl
      have hlaid' : Laid (m'.store (str + s.length) [SLASH]) hi (q + s.length + 1) (d :: cs) := by
        refine hlaid.congr fun i h1 _ => ?_
        rw [Mem.store_after _ _ _ (by omega), hafter i (by omega)]
      have hnext : q + s.length + 1 ≤ hi := by
        obtain ⟨hd, hdend, -, -⟩ := hlaid
        omega
      rw [if_neg (by simp), if_neg (by simp), Mem.store_over (by omega), ih hlaid' (by omega)]

theorem nPath_local {text : Bytes} (hm : m.HoldsStr 0 text) (hp : text.length ≤ p) (hpos : 0 < p)
    (hfit : p < NADS_MAX_URI) : LocalTo p (nPath · 0) m := by
  intro tail
  obtain ⟨m₁, hcount, hcollapse⟩ := nPcount_spec hm (by omega)
  have hlen := hcollapse.length_le
  obtain ⟨m₂, cs, hd, hgrab, hsplit, hshort, -, hlaid, hframe⟩ :=
    grabComponents_spec hcollapse.holds (by omega : (collapse text).length < NADS_MAX_URI - 0)
  have hends : ∀ c ∈ cs, m₂.HoldsStr c.1 c.2 ∧ c.1 + c.2.length ≤ p := fun c hc =>
    ⟨(hlaid.end_le c hc).1, Nat.le_trans (hlaid.end_le c hc).2 (by omega)⟩
  have hsegs : (cs.map Prod.fst).length = (segments text).length := by
    unfold segments
    rw [hsplit, List.tail_cons, List.length_map, List.length_map]
  dsimp only
  unfold nPath
  rw [nPcount_over hm (by omega) hfit, hcount]
  simp only [Except.mapError, Except.map]
  rw [grabComponents_over hcollapse.holds (by omega), hgrab]
  simp only [Except.mapError, Except.map]
  rw [if_neg (by rw [hsegs]; simp), if_neg (by rw [hsegs]; simp), stripDots_over hends]
  have hstrip : Keeps ([] ++ cs) (resolve [] (cs.map Prod.snd)) (stripDots m₂ [] (cs.map Prod.fst)) :=
    stripDots_spec fun c hc => hlaid.holds hc
  cases hres : resolve [] (cs.map Prod.snd) with
  | none =>
    rw [hres] at hstrip
    rw [show stripDots m₂ [] (cs.map Prod.fst) = none from hstrip]
    rfl
  | some stack =>
    rw [hres] at hstrip
    obtain ⟨out, -, hsub, hstrip⟩ := hstrip
    rw [List.nil_append] at hsub
    have hout := hlaid.sublist hsub
    obtain ⟨m₃, hre, -, hend, -, -⟩ := rebuild_spec hout (by omega : 0 + 1 ≤ 0 + hd.length + 1) (by omega)
    rw [hstrip]
    dsimp only
    rw [rebuild_over hout (by omega) (by omega) hfit, hre]
    simp only [Except.mapError, Except.map]
    have hstr : 0 + 1 + ([SLASH].intercalate (out.map Prod.snd)).length ≤ p := by
      by_cases hnil : out = []
      · rw [hnil]
        exact hpos
      · have h := hend hnil
        omega
    rw [Mem.store_over (by rw [List.length_singleton]; omega), Mem.store_over (by rw [List.length_singleton]; omega)]

/-- On an empty path `n_path` writes its terminator behind the one that is there. -/
theorem nPath_not_local (hm : m.HoldsStr 0 []) : ¬ LocalTo 0 (nPath · 0) m := by
  intro hlocal
  have hpath := nPath_spec hm (by decide)
  have hm' : (m.over 0 fun _ => 1).HoldsStr 0 [] := hm.over (Nat.le_refl 0)
  have hpath' := nPath_spec hm' (by decide)
  rw [show resolve [] (segments []) = some [] by decide] at hpath hpath'
  obtain ⟨m', hrun, -⟩ := hpath
  obtain ⟨m'', hrun', hholds, -⟩ := hpath'
  have hsame := hlocal fun _ => 1
  dsimp only at hsame
  rw [hrun, hrun'] at hsame
  have heq : m'' = m'.over 0 fun _ => 1 := Except.ok.inj hsame
  have hone : m'' 1 = 0 := hholds.terminated
  rw [heq] at hone
  cases hone

/-- The stages that rewrite the path touch nothing behind the terminator that `n_split` put there. -/
def PathStagesLocal (before : UInt8) (m : Mem) (uri : Bytes) : Prop :=
  ∀ m₁ query, nSplit m uri = .ok (m₁, query) → LocalTo (uri.takeWhile (· ≠ QMARK)).length (nHex · 0) m₁ ∧
    ∀ m₂, nHex m₁ 0 = .ok m₂ → LocalTo (uri.takeWhile (· ≠ QMARK)).length (nUtf8 before · 0) m₂ ∧
      ∀ m₃, nUtf8 before m₂ 0 = .ok m₃ → LocalTo (uri.takeWhile (· ≠ QMARK)).length (nPath · 0) m₃

def QueryDecoded (uri : Bytes) (n : Nads) : Prop :=
  ∃ q t, n.query = some q ∧ Decodes (uri.dropWhile (· ≠ QMARK)).tail t ∧ n.uri.HoldsStr q t

variable {before : UInt8} {uri : Bytes}

/-- What a pass has made of a string that ends by `p`. -/
theorem holds_of_passes {f : Mem → Except NadsFail Mem} {text : Bytes} {g : Except NadsStop Bytes} {m' : Mem}
    (hpass : Passes m 0 text (f m) g) (hrun : f m = .ok m') (hp : text.length ≤ p) :
    ∃ out, g = .ok out ∧ m'.HoldsStr 0 out ∧ out.length ≤ p := by
  rw [hrun] at hpass
  cases g with
  | error e =>
    cases e with
    | err code =>
      obtain ⟨m'', h⟩ := hpass
      cases h
    | fault f => cases hpass
  | ok out =>
    obtain ⟨m'', h, hre⟩ := hpass
    cases h
    exact ⟨out, rfl, hre.holds, Nat.le_trans hre.length_le hp⟩

theorem pathStages_local (hpos : 0 < (uri.takeWhile (· ≠ QMARK)).length) (hfit : uri.length < NADS_MAX_URI) :
    PathStagesLocal before m uri := by
  have hlen : (uri.takeWhile (· ≠ QMARK)).length ≤ uri.length := (List.takeWhile_prefix _).length_le
  have hcut : (uriPath uri).length ≤ (uri.takeWhile (· ≠ QMARK)).length := length_untilNul_le _
  intro m₁ query hsplit
  obtain ⟨m', hsplit', hholds, -⟩ := nSplit_spec m hfit
  cases hsplit.symm.trans hsplit'
  refine ⟨nHex_local hholds hcut (by omega), fun m₂ hhex => ?_⟩
  obtain ⟨s, -, hs, hslen⟩ := holds_of_passes (f := (nHex · 0)) (nHex_spec hholds (by omega)) hhex hcut
  refine ⟨nUtf8_local before hs hslen (by omega), fun m₃ hutf8 => ?_⟩
  obtain ⟨t, -, ht, htlen⟩ := holds_of_passes (f := (nUtf8 before · 0)) (nUtf8_spec before hs (by omega)) hutf8 hslen
  exact nPath_local ht htlen hpos (by omega)

theorem not_pathStages_local (hhead : uri.head? = some QMARK) (hfit : uri.length < NADS_MAX_URI) :
    ¬ PathStagesLocal before m uri := by
  intro hstages
  have hempty : uri.takeWhile (· ≠ QMARK) = [] := by
    cases uri with
    | nil => cases hhead
    | cons c uri =>
      cases hhead
      rfl
  obtain ⟨m₁, hsplit, hholds, -⟩ := nSplit_spec m hfit
  have hpath : uriPath uri = [] := by
    unfold uriPath
    rw [hempty]
    rfl
  rw [hpath] at hholds
  obtain ⟨m₂, hhex, hre⟩ := nHex_spec hholds (by decide)
  obtain ⟨m₃, hutf8, hre'⟩ := nUtf8_spec before hre.holds (by decide)
  have hlocal := ((hstages m₁ _ hsplit).2 m₂ hhex).2 m₃ hutf8
  rw [hempty] at hlocal
  exact nPath_not_local hre'.holds hlocal

theorem queryDecoded_of_ok {n : Nads} (h0 : 0 ∉ uri) (hq : QMARK ∈ uri) (hhead : uri.head? ≠ some QMARK)
    (hfit : uri.length < NADS_MAX_URI) (hn : nadsNormalize before m uri = .ok n) (hok : n.ret = NADS_OK) :
    QueryDecoded uri n := by
  have hfree : 0 ∉ (uri.dropWhile (· ≠ QMARK)).tail := fun h =>
    h0 ((List.dropWhile_suffix _).subset (List.mem_of_mem_tail h))
  have hasked : askedQuery uri = (uri.dropWhile (· ≠ QMARK)).tail := by
    unfold askedQuery uriQuery
    rw [if_neg hhead, untilNul_of_nulFree hfree]
  have hat : queryAt uri = some ((uri.takeWhile (· ≠ QMARK)).length + 1) := if_pos hq
  obtain ⟨stack, query, hnorm, -, hquery, hholds⟩ := nadsNormalize_accepted before m hfit hn hok
  obtain ⟨path, -, -, hhex⟩ := normalized_ok hnorm
  rw [hat] at hquery
  rw [hasked] at hhex
  exact ⟨_, query, hquery, (hexText_eq_ok_iff hfree).mp hhex, hholds _ hquery⟩

/-- The stages that rewrite a path touch nothing behind its terminator, and the query of what is accepted is
what was sent, decoded, if and only if the path is not empty. -/
theorem path_leaves_query_iff (before : UInt8) (m : Mem) (uri : Bytes) (h0 : 0 ∉ uri) (hq : QMARK ∈ uri)
    (hfit : uri.length < NADS_MAX_URI) :
    (PathStagesLocal before m uri ∧
      ∀ n, nadsNormalize before m uri = .ok n → n.ret = NADS_OK → QueryDecoded uri n) ↔ uri.head? ≠ some QMARK := by
  constructor
  · rintro ⟨hstages, -⟩ hhead
    exact not_pathStages_local hhead hfit hstages
  · intro hhead
    have hpos : 0 < (uri.takeWhile (· ≠ QMARK)).length := by
      cases uri with
      | nil => cases hq
      | cons c uri =>
        have hc : c ≠ QMARK := by
          rintro rfl
          exact hhead rfl
        rw [List.takeWhile_cons_of_pos (by simpa using hc)]
        exact Nat.succ_pos _
    exact ⟨pathStages_local hpos hfit, fun n hn hok => queryDecoded_of_ok h0 hq hhead hfit hn hok⟩

/-- "/a?b" -/
theorem path_leaves_query_iff_short :
    (PathStagesLocal 0 (fun _ => 0) [47, 97, 63, 98] ∧ ∀ n, nadsNormalize 0 (fun _ => 0) [47, 97, 63, 98] = .ok n →
      n.ret = NADS_OK → QueryDecoded [47, 97, 63, 98] n) ↔ [47, 97, 63, 98].head? ≠ some QMARK :=
  path_leaves_query_iff 0 (fun _ => 0) [47, 97, 63, 98] (by decide) (by decide) (by decide)

/-- "?abc" is accepted, and its query is empty. -/
theorem path_overwrites_query : ∃ n q, nadsNormalize 0 (fun _ => 0) [63, 97, 98, 99] = .ok n ∧ n.ret = NADS_OK ∧
    n.query = some q ∧ n.uri.HoldsStr q [] ∧ ¬ QueryDecoded [63, 97, 98, 99] n := by
  have hspec := @nadsNormalize_normalized 0 (fun _ => 0) [63, 97, 98, 99] (by decide)
  rw [show normalized 0 [63, 97, 98, 99] = .ok ([], []) by decide] at hspec
  obtain ⟨m', hn, -, -, hquery⟩ := hspec
  refine ⟨_, 1, hn, rfl, rfl, hquery 1 rfl, ?_⟩
  rintro ⟨q, t, hq, hdec, hholds⟩
  cases hq
  cases (hquery 1 rfl).unique hholds
  cases hdec

end Ashttpd
