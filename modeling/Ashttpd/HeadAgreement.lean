import Ashttpd.HeadGrammar
import Mathlib.Data.List.GetD

/-!
# Where the two head parsers agree

The scanner ends a head at its first empty line, the decoder at the first line without a
colon behind the request line. They agree on the heads in which that line is the last.
-/
namespace Ashttpd

def ReqSlots.empty : ReqSlots := { method := {}, uri := {}, host := {}, etag := {} }

/-- Whatever is received behind `b`, the decoder takes `b` as the head or nothing, and stores
the same vectors. -/
def HeadsAgree (b : Bytes) : Prop :=
  ∀ s, ((httpDecodeBuf reqHcb (b ++ s) .empty).1 = 0 ∨
      (httpDecodeBuf reqHcb (b ++ s) .empty).1 = b.length) ∧
    (httpDecodeBuf reqHcb (b ++ s) .empty).2 = (httpDecodeBuf reqHcb b .empty).2

def TwoWords (ws : List Bytes) : Prop := ws.getD 0 [] ≠ [] ∧ ws.getD 1 [] ≠ []

/-- A request line, header fields and a line without a colon. Behind that line there is
nothing, unless the request line is one that is rejected. -/
def EndsAtColonless (b : Bytes) : Prop :=
  ∃ x ws y kvs l t, b = x ++ (y ++ (l ++ LF :: t)) ∧ RequestWords 0 x ws ∧ HeadFields y kvs ∧
    COLON ∉ l ∧ LF ∉ l ∧ (t = [] ∨ ¬ TwoWords ws)

variable {σ : Type} {d : List (HttpHcb σ)}

theorem httpDecodeBuf_append {b : Bytes} {out : σ}
    (h : (decodeLoop d b 0 b (Decode.init out)).2 = true) (s : Bytes) :
    httpDecodeBuf d (b ++ s) out = httpDecodeBuf d b out := by
  have hbuf := decodeLoop_buffer d b s b (Nat.le_of_eq (Nat.zero_add _)) (Decode.init out)
  rw [httpDecodeBuf, decodeLoop_append, hbuf, if_pos h, httpDecodeBuf]

theorem vLen_getD {hv : List RoVec} {ws : List Bytes}
    (h : hv.map RoVec.bytes = ws ++ List.drop ws.length [[], [], []]) (j : ℕ) :
    (hv.getD j {}).vLen = 0 ↔ ws.getD j [] = [] := by
  have hget : (hv.getD j {}).bytes = (hv.map RoVec.bytes).getD j [] :=
    (List.getD_map _ _ RoVec.bytes).symm
  rw [RoVec.vLen, List.length_eq_zero_iff, hget, h]
  rcases Nat.lt_or_ge j ws.length with hj | hj
  · rw [List.getD_append _ _ _ _ hj]
  · have hempty : (List.drop ws.length [[], [], []]).getD (j - ws.length) ([] : Bytes) = [] := by
      have hrep : ([[], [], []] : List Bytes) = List.replicate 3 [] := rfl
      rw [List.getD_eq_getElem?_getD, List.getElem?_drop, hrep, List.getElem?_replicate]
      split_ifs <;> rfl
    rw [List.getD_append_right _ _ _ _ hj, hempty, List.getD_eq_default _ _ hj]

theorem decodeFinish_fst {st : Decode σ} {ws : List Bytes}
    (h : st.hv.map RoVec.bytes = ws ++ List.drop ws.length [[], [], []]) :
    (TwoWords ws → (decodeFinish d st).1 = st.ret) ∧ (¬ TwoWords ws → (decodeFinish d st).1 = 0) := by
  rw [TwoWords, ← not_or, ← vLen_getD h 0, ← vLen_getD h 1, decodeFinish, not_not]
  exact ⟨fun hn => by rw [if_neg hn], fun hp => by rw [if_pos hp]⟩

/-- What is known about the last bytes gone over, by state. In `state1` and `state4` a line
feed at the end is the first byte of the word or the value. -/
def Decode.Ends (st : Decode σ) (x : Bytes) : Prop :=
  match st.state with
  | .state0 | .state3 => ¬ [LF] <:+ x ∧ ¬ [LF, CR] <:+ x
  | .state1 | .state4 => ¬ EndsHead x
  | .state2 => [LF] <:+ x → st.k = ⟨some x.length, []⟩

theorem Decode.ends_init (out : σ) : (Decode.init out).Ends [] := by
  constructor <;> simp

theorem not_endsHead_of_ne {x : Bytes} {c : UInt8} (h : c ≠ LF) : ¬ EndsHead (x ++ [c]) :=
  fun he => h (endsHead_concat.mp he).1.symm

theorem not_lf_concat {x : Bytes} {c : UInt8} (h : c ≠ LF) : ¬ [LF] <:+ x ++ [c] :=
  fun he => h (lf_suffix_concat.mp he).symm

theorem not_lfcr_concat {x : Bytes} {c : UInt8} (h : c ≠ CR) : ¬ [LF, CR] <:+ x ++ [c] :=
  fun he => h (lfcr_suffix_concat.mp he).1.symm

theorem Decode.Ends.step {st st' : Decode σ} {x p : Bytes} {c : UInt8} (h : st.Ends x)
    (hs : decodeStep d p x.length c st = (st', false)) : st'.Ends (x ++ [c]) := by
  have hsp : SP ≠ LF ∧ SP ≠ CR := by decide
  have hcolon : COLON ≠ LF ∧ COLON ≠ CR := by decide
  rw [Ends] at h
  cases hst : st.state with
  | state0 | state3 =>
    rw [hst] at h
    have hbegin : ¬ EndsHead (x ++ [c]) := by
      rw [endsHead_concat]
      exact fun he => he.2.elim h.1 h.2
    simp only [decodeStep, hst] at hs
    split_ifs at hs with hc
    · obtain rfl := (Prod.mk.inj hs).1
      exact hbegin
    · obtain rfl := (Prod.mk.inj hs).1
      obtain rfl := not_not.mp hc
      rw [Ends, hst]
      exact ⟨not_lf_concat hsp.1, not_lfcr_concat hsp.2⟩
  | state1 =>
    simp only [decodeStep, hst] at hs
    split_ifs at hs with hc hi hl
    · obtain rfl := (Prod.mk.inj hs).1
      subst hc
      exact ⟨not_lf_concat hsp.1, not_lfcr_concat hsp.2⟩
    · obtain rfl := (Prod.mk.inj hs).1
      subst hc
      rw [Ends, hst]
      exact not_endsHead_of_ne hsp.1
    · obtain rfl := (Prod.mk.inj hs).1
      intro _
      rw [List.length_append, List.length_singleton]
    · obtain rfl := (Prod.mk.inj hs).1
      rw [Ends, hst]
      exact not_endsHead_of_ne hl
  | state2 =>
    simp only [decodeStep, hst] at hs
    split_ifs at hs with hc hl
    · obtain rfl := (Prod.mk.inj hs).1
      subst hc
      exact ⟨not_lf_concat hcolon.1, not_lfcr_concat hcolon.2⟩
    · cases (Prod.mk.inj hs).2
    · obtain rfl := (Prod.mk.inj hs).1
      rw [Ends, hst]
      exact fun he => absurd he (not_lf_concat hl)
  | state4 =>
    simp only [decodeStep, hst] at hs
    split_ifs at hs with hl
    · obtain rfl := (Prod.mk.inj hs).1
      intro _
      rw [List.length_append, List.length_singleton]
    · obtain rfl := (Prod.mk.inj hs).1
      rw [Ends, hst]
      exact not_endsHead_of_ne hl

theorem Decode.Ends.run {st : Decode σ} {x p : Bytes} (h : st.Ends x) {y : Bytes}
    (hd : (decodeLoop d p x.length y st).2 = false) :
    (decodeLoop d p x.length y st).1.Ends (x ++ y) := by
  induction y generalizing st x with
  | nil => rwa [List.append_nil]
  | cons c y ih =>
    rw [decodeLoop] at hd ⊢
    cases hs : decodeStep d p x.length c st with
    | mk st' done =>
      rw [hs] at hd
      cases done with
      | true => simp at hd
      | false =>
        have hx : x.length + 1 = (x ++ [c]).length := by simp
        have hxy : x ++ c :: y = (x ++ [c]) ++ y := by simp
        rw [hxy]
        simp only [hx] at hd ⊢
        exact ih (h.step hs) hd

/-- Behind a head the decoder either has stopped or waits for another line. -/
theorem atLine_of_endsHead {b : Bytes} (hb : EndsHead b) {out : σ}
    (hd : (decodeLoop d b 0 b (Decode.init out)).2 = false) :
    (decodeLoop d b 0 b (Decode.init out)).1.AtLine b.length := by
  have hends := (Decode.ends_init out).run (x := []) hd
  rw [List.nil_append, List.length_nil] at hends
  have hlf : [LF] <:+ b := by
    rcases hb with ⟨t, rfl⟩ | ⟨t, rfl⟩
    · exact ⟨t ++ [LF], by simp⟩
    · exact ⟨t ++ [LF, CR], by simp⟩
  rw [Decode.Ends] at hends
  cases hst : (decodeLoop d b 0 b (Decode.init out)).1.state with
  | state0 | state3 =>
    rw [hst] at hends
    exact absurd hlf hends.1
  | state1 | state4 =>
    rw [hst] at hends
    exact absurd hb hends
  | state2 =>
    rw [hst] at hends
    exact ⟨hst, hends hlf⟩

def hostField (c : UInt8) : Bytes := [72, 111, 115, 116, 58, c, LF]

theorem hostField_fields {c : UInt8} (h : c ≠ SP) :
    HeadFields (hostField c) [([72, 111, 115, 116], stripCr [c])] :=
  HeadFields.cons (k := [72, 111, 115, 116]) (n := 0) (v := []) (by decide) (by decide) h
    (by decide) .nil

theorem dispatchHdr_host {k : RoVec} (h : k.bytes = [72, 111, 115, 116]) (v : RoVec)
    (s : ReqSlots) : dispatchHdr (reqHcb.drop 3) k v s = { s with host := v } := by
  simp only [dispatchHdr, h]
  rfl

theorem decodeFinish_host (st : Decode ReqSlots) :
    (decodeFinish reqHcb st).2.host = st.out.host := by
  rw [decodeFinish]
  split_ifs <;> rfl

/-- As long as the loop has not ended, a later field is stored. -/
theorem stored_host {b : Bytes} (hb : EndsHead b) {out : ReqSlots}
    (hd : (decodeLoop reqHcb b 0 b (Decode.init out)).2 = false) {c : UInt8} (hc : c ≠ SP) :
    (httpDecodeBuf reqHcb (b ++ hostField c) out).2.host.bytes = stripCr [c] := by
  have hline := atLine_of_endsHead hb hd
  have hbuf := decodeLoop_buffer reqHcb b (hostField c) b (Nat.le_of_eq (Nat.zero_add _))
    (Decode.init out)
  have hp : (b ++ hostField c).drop b.length = hostField c ++ [] := by
    rw [List.drop_left, List.append_nil]
  obtain ⟨st, vs, hloop, -, -, hvs, hout⟩ := (hostField_fields hc).run (d := reqHcb) _ hp hline
  rw [List.append_nil] at hloop
  rw [httpDecodeBuf, decodeFinish_host, decodeLoop_append, hbuf, if_neg (by simp [hd]), Nat.zero_add, hloop,
    decodeLoop, hout]
  obtain ⟨kv, rfl⟩ : ∃ kv, vs = [kv] := List.length_eq_one_iff.mp (by
    rw [← List.length_map, hvs, List.length_singleton])
  have hkv := List.cons.inj hvs
  rw [List.foldl_cons, List.foldl_nil, dispatchHdr_host (congrArg Prod.fst hkv.1)]
  exact congrArg Prod.snd hkv.1

theorem HeadsAgree.done {b : Bytes} (hb : EndsHead b) (h : HeadsAgree b) :
    (decodeLoop reqHcb b 0 b (Decode.init .empty)).2 = true := by
  by_contra hd
  rw [Bool.not_eq_true] at hd
  have hx := stored_host hb hd (c := 120) (by decide)
  have hy := stored_host hb hd (c := 121) (by decide)
  rw [(h (hostField 120)).2] at hx
  rw [(h (hostField 121)).2] at hy
  rw [hx] at hy
  exact absurd hy (by decide)

/-- Behind a line without a colon the decoder stops. -/
theorem EndsAtColonless.agree {b : Bytes} (h : EndsAtColonless b) : HeadsAgree b := by
  obtain ⟨x, ws, y, kvs, l, t, rfl, hx, hy, hcolon, hlf, ht⟩ := h
  intro s
  obtain ⟨st2, vs, hloop, hret, hhv, -⟩ := decodeLoop_head (d := reqHcb) hx hy hcolon hlf t .empty
  rw [httpDecodeBuf_append (by rw [hloop]) s]
  refine ⟨?_, rfl⟩
  rw [httpDecodeBuf, hloop]
  by_cases hw : TwoWords ws
  · obtain rfl := ht.resolve_right (not_not.mpr hw)
    right
    rw [(decodeFinish_fst hhv).1 hw, hret]
    simp only [List.length_append, List.length_cons, List.length_nil]
    omega
  · exact .inl ((decodeFinish_fst hhv).2 hw)

/-- The parsers agree on a complete head exactly when it ends with its first line that has no
colon, or has no method or URI. -/
theorem headsAgree_iff {b : Bytes} {st : Rstate} {n : ℕ}
    (h : httpParseIncremental .initial b = .ok (true, st, n)) (hn : n + 1 = b.length) :
    HeadsAgree b ↔ EndsAtColonless b := by
  have hb := endsHead_of_complete h hn
  constructor
  · intro hagree
    have hdone := hagree.done hb
    obtain ⟨x, ws, rest, st1, cur, rfl, hx, hst1, hdone1⟩ :=
      exists_words_of_done (Nat.le_refl _) rfl hdone
    obtain ⟨y, kvs, l, t, rfl, hy, hcolon, hlf⟩ :=
      exists_fields_of_done (Nat.le_refl _) hst1 hdone1
    refine ⟨x, ws, y, kvs, l, t, rfl, hx, hy, hcolon, hlf, ?_⟩
    obtain ⟨st2, vs, hloop, hret, hhv, -⟩ := decodeLoop_head (d := reqHcb) hx hy hcolon hlf t .empty
    by_cases hw : TwoWords ws
    · left
      have hfst := (hagree []).1
      rw [List.append_nil, httpDecodeBuf, hloop, (decodeFinish_fst hhv).1 hw, hret] at hfst
      simp only [List.length_append, List.length_cons] at hfst
      exact List.length_eq_zero_iff.mp (by omega)
    · exact .inr hw
  · exact EndsAtColonless.agree

def colonlessHead : Bytes :=
  [71, 69, 84, SP, 47, SP, 72, 84, 84, 80, 47, 49, 46, 48, CR, LF, 102, 111, 111, CR, LF, CR, LF]

theorem colonlessHead_disagree :
    httpParseIncremental .initial colonlessHead = .ok (true, .crlfcrlf, 22) ∧
      colonlessHead.length = 23 ∧ (httpDecodeBuf reqHcb colonlessHead .empty).1 = 21 := by
  decide

theorem colonlessHead_not_agree :
    httpParseIncremental .initial colonlessHead = .ok (true, .crlfcrlf, 22) ∧
      ¬ HeadsAgree colonlessHead := by
  refine ⟨colonlessHead_disagree.1, ?_⟩
  intro h
  have hfst := (h []).1
  rw [List.append_nil, colonlessHead_disagree.2.1, colonlessHead_disagree.2.2] at hfst
  omega

def plainHead : Bytes :=
  [71, 69, 84, SP, 47, SP, 72, 84, 84, 80, 47, 49, 46, 48, CR, LF, CR, LF]

theorem headsAgree_iff_plainHead : HeadsAgree plainHead ↔ EndsAtColonless plainHead := by
  have h : httpParseIncremental .initial plainHead = .ok (true, .crlfcrlf, 17) := by decide
  exact headsAgree_iff h rfl

end Ashttpd
