import Ashttpd.HttpConn
import Ashttpd.RequestHeaders

/-!
# Decoding what a peer has encoded

`http_decode_buf` takes a head apart into the words and fields that it was put together from, for any table of
handlers that is sorted, so that `dispatch_hdr` finds the handler of a field by halving the table.
-/
namespace Ashttpd

variable {σ : Type}

/-- The order in which labels of one length are compared. -/
theorem caseDiff_trans {a b c : Bytes} (hab : a.length = b.length) (hbc : b.length = c.length)
    (hle : caseDiff a b ≤ 0) (hlt : caseDiff b c < 0) : caseDiff a c < 0 := by
  induction a generalizing b c with
  | nil =>
    obtain rfl := List.length_eq_zero_iff.mp hab.symm
    exact hlt
  | cons x a ih =>
    cases b with
    | nil => cases hab
    | cons y b =>
      cases c with
      | nil => cases hbc
      | cons z c =>
        rw [caseDiff] at hle hlt ⊢
        rw [List.length_cons, List.length_cons, Nat.succ_inj] at hab hbc
        split at hle
        · next hxy =>
          rw [hxy]
          split at hlt
          · next hyz =>
            rw [if_pos hyz]
            exact ih hab hbc hle hlt
          · next hyz =>
            rw [if_neg hyz]
            exact hlt
        · next hxy =>
          split at hlt
          · next hyz =>
            rw [← hyz, if_neg hxy]
            omega
          · next hyz =>
            rw [if_neg (by omega)]
            omega

theorem vstrcmpFast_trans {a b c : Bytes} (hle : vstrcmpFast a b ≤ 0) (hlt : vstrcmpFast b c < 0) :
    vstrcmpFast a c < 0 := by
  unfold vstrcmpFast vcasecmpFast at *
  dsimp only at *
  split at hle
  · next hab =>
    split at hlt
    · next hbc =>
      rw [if_pos (by omega)]
      exact caseDiff_trans (by omega) (by omega) hle hlt
    · next hbc =>
      rw [if_neg (by omega)]
      omega
  · next hab =>
    split at hlt
    · next hbc =>
      rw [if_neg (by omega)]
      omega
    · next hbc =>
      rw [if_neg (by omega)]
      omega

def SortedLabels (dcb : List (HttpHcb σ)) : Prop := dcb.Pairwise fun d d' => vstrcmpFast d.label d'.label < 0

/-- The handler of a field, if there is one, gets its value. -/
def callHandler (dcb : List (HttpHcb σ)) (name : Bytes) (v : RoVec) (out : σ) : σ :=
  match dcb.find? fun d => decide (SameText name d.label) with
  | some d => d.fn v out
  | none => out

theorem hcbCmp_falling {dcb : List (HttpHcb σ)} (hsorted : SortedLabels dcb) (name : Bytes) :
    Falling (hcbCmp dcb name) 0 dcb.length := by
  intro i j _ hij hj hle
  have hlt := List.pairwise_iff_getElem.mp hsorted i j (by omega) (by omega) hij
  unfold hcbCmp at hle ⊢
  rw [List.getElem?_eq_getElem (by omega)] at hle
  rw [List.getElem?_eq_getElem (by omega)]
  exact vstrcmpFast_trans hle hlt

/-- In a sorted table halving finds the handler that has the label of a field. -/
theorem dispatchHdr_eq {dcb : List (HttpHcb σ)} (hsorted : SortedLabels dcb) (k v : RoVec) (out : σ) :
    dispatchHdr dcb k v out = callHandler dcb k.bytes v out := by
  have hfalling := hcbCmp_falling hsorted k.bytes
  have hprobe : ∀ i, 0 ≤ i → i < 0 + dcb.length →
      (.ok (hcbCmp dcb k.bytes i) : Except Empty ℤ) = .ok (hcbCmp dcb k.bytes i) := fun _ _ _ => rfl
  unfold dispatchHdr callHandler
  cases hfind : dcb.find? fun d => decide (SameText k.bytes d.label) with
  | none =>
    have hmissing : ∀ i, 0 ≤ i → i < 0 + dcb.length → hcbCmp dcb k.bytes i ≠ 0 := by
      intro i _ hi
      have hget : dcb[i]? = some dcb[i] := List.getElem?_eq_getElem (by omega)
      unfold hcbCmp
      rw [hget]
      intro hzero
      have hno := List.find?_eq_none.mp hfind _ (List.mem_of_getElem? hget)
      exact hno (decide_eq_true ((vstrcmpFast_eq_zero_iff _ _).mp hzero))
    rw [bisect_missing hprobe (Nat.le_refl _) hmissing]
  | some d =>
    obtain ⟨hsame, i, hi, hd, -⟩ := List.find?_eq_some_iff_getElem.mp hfind
    have hget : dcb[i]? = some d := by
      rw [List.getElem?_eq_getElem hi, hd]
    have hzero : hcbCmp dcb k.bytes i = 0 := by
      unfold hcbCmp
      rw [hget]
      exact (vstrcmpFast_eq_zero_iff _ _).mpr (of_decide_eq_true hsame)
    rw [bisect_found hprobe hfalling (Nat.le_refl _) (Nat.zero_le i) (by omega) hzero]
    dsimp only
    rw [hget]

/-- A field of a head, with the number of spaces before its value. A value may be empty. -/
structure HeadField where
  name : Bytes
  spaces : ℕ
  value : Bytes
  nameColon : COLON ∉ name
  nameLf : LF ∉ name
  valueLf : LF ∉ value
  valueSpace : value.head? ≠ some SP

/-- The words and fields of a head. The third word may be empty, and may have spaces in it. -/
structure EncodedHead where
  t0 : Bytes
  t1 : Bytes
  t2 : Bytes
  fields : List HeadField
  word0 : t0 ≠ [] ∧ SP ∉ t0 ∧ LF ∉ t0
  word1 : t1 ≠ [] ∧ SP ∉ t1 ∧ LF ∉ t1
  restLf : LF ∉ t2
  restSpace : t2.head? ≠ some SP

def HeadField.line (f : HeadField) : Bytes :=
  f.name ++ COLON :: (List.replicate f.spaces SP ++ (f.value ++ [CR, LF]))

def EncodedHead.line (h : EncodedHead) : Bytes := h.t0 ++ SP :: (h.t1 ++ SP :: (h.t2 ++ [CR, LF]))

def EncodedHead.text (h : EncodedHead) : Bytes := h.line ++ (h.fields.flatMap HeadField.line ++ [CR, LF])

theorem EncodedHead.words (h : EncodedHead) : RequestWords 0 h.line [h.t0, h.t1, h.t2] := by
  obtain ⟨hne0, hsp0, hlf0⟩ := h.word0
  obtain ⟨hne1, hsp1, hlf1⟩ := h.word1
  obtain ⟨a, as, ha⟩ := List.exists_cons_of_ne_nil hne0
  obtain ⟨b, bs, hb⟩ := List.exists_cons_of_ne_nil hne1
  obtain ⟨c, cs, hc, hcsp⟩ := exists_cons_of_value h.restSpace
  rw [ha, List.mem_cons, not_or] at hsp0 hlf0
  rw [hb, List.mem_cons, not_or] at hsp1 hlf1
  have hlf2 : LF ∉ cs := by
    intro hm
    have hmem : LF ∈ h.t2 ++ [CR] := hc ▸ List.mem_cons_of_mem c hm
    obtain hm | hm := List.mem_append.mp hmem
    · exact h.restLf hm
    · exact absurd (List.mem_singleton.mp hm) (by decide)
  have hlast : RequestWords 2 (List.replicate 0 SP ++ c :: (cs ++ [LF])) [stripCr (c :: cs)] :=
    .last hcsp (fun hi => absurd hi (by decide)) hlf2
  have hmiddle := RequestWords.more (i := 1) (n := 0) (by decide) (Ne.symm hsp1.1) hsp1.2 hlf1.2 hlast
  have hfirst := RequestWords.more (i := 0) (n := 0) (by decide) (Ne.symm hsp0.1) hsp0.2 hlf0.2 hmiddle
  rw [← hc, stripCr_concat, ← hb, ← ha] at hfirst
  have hline : h.line = List.replicate 0 SP ++ a :: (as ++ SP ::
      (List.replicate 0 SP ++ b :: (bs ++ SP :: (List.replicate 0 SP ++ c :: (cs ++ [LF]))))) := by
    have htail : h.t2 ++ [CR, LF] = c :: (cs ++ [LF]) := by
      rw [← List.cons_append, ← hc, List.append_assoc]
      rfl
    simp [EncodedHead.line, ha, hb, htail]
  rwa [hline]

theorem headFields_lines (fields : List HeadField) :
    HeadFields (fields.flatMap HeadField.line) (fields.map fun f => (f.name, f.value)) := by
  induction fields with
  | nil => exact .nil
  | cons f fields ih =>
    obtain ⟨c, v, hcv, hc⟩ := exists_cons_of_value f.valueSpace
    have hlf : LF ∉ v := by
      intro hm
      have hmem : LF ∈ f.value ++ [CR] := hcv ▸ List.mem_cons_of_mem c hm
      obtain hm | hm := List.mem_append.mp hmem
      · exact f.valueLf hm
      · exact absurd (List.mem_singleton.mp hm) (by decide)
    have hfield := HeadFields.cons (n := f.spaces) f.nameColon f.nameLf hc hlf ih
    have hline : (f :: fields).flatMap HeadField.line =
        f.name ++ COLON :: (List.replicate f.spaces SP ++ c :: (v ++ LF :: fields.flatMap HeadField.line)) := by
      have hval : f.value ++ CR :: LF :: fields.flatMap HeadField.line =
          c :: (v ++ LF :: fields.flatMap HeadField.line) := by
        rw [← List.cons_append, ← hcv, List.append_assoc, List.singleton_append]
      simp [HeadField.line, hval]
    rw [← hcv, stripCr_concat] at hfield
    rwa [hline]

def callHandlers (dcb : List (HttpHcb σ)) (calls : List (Bytes × RoVec)) (out : σ) : σ :=
  calls.foldl (fun out call => callHandler dcb call.1 call.2 out) out

theorem foldl_dispatchHdr_eq {dcb : List (HttpHcb σ)} (hsorted : SortedLabels dcb) (kvs : List (RoVec × RoVec)) (out : σ) :
    kvs.foldl (fun out kv => dispatchHdr dcb kv.1 kv.2 out) out =
      callHandlers dcb (kvs.map fun kv => (kv.1.bytes, kv.2)) out := by
  induction kvs generalizing out with
  | nil => rfl
  | cons kv kvs ih =>
    rw [List.foldl_cons, ih, dispatchHdr_eq hsorted]
    rfl

/-- Of any head that is put together like this, and whatever follows it, the decoder returns the length, gives the
three words to the first three handlers, and before that the value of every field, in their order, to the
handler that has its label, if there is one, and to no other. -/
theorem decode_encoded_head (d0 d1 d2 : HttpHcb σ) (dcb : List (HttpHcb σ)) (hsorted : SortedLabels dcb)
    (h : EncodedHead) (rest : Bytes) (out : σ) :
    ∃ (v0 v1 v2 : RoVec) (calls : List (Bytes × RoVec)), v0.bytes = h.t0 ∧ v1.bytes = h.t1 ∧ v2.bytes = h.t2 ∧
      calls.map (fun call => (call.1, call.2.bytes)) = h.fields.map (fun f => (f.name, f.value)) ∧
      httpDecodeBuf (d0 :: d1 :: d2 :: dcb) (h.text ++ rest) out =
        (h.text.length, d2.fn v2 (d1.fn v1 (d0.fn v0 (callHandlers dcb calls out)))) := by
  obtain ⟨st, kvs, hloop, hret, hhv, hkvs, hout⟩ := decodeLoop_head (d := d0 :: d1 :: d2 :: dcb) h.words
    (headFields_lines h.fields) (l := [CR]) (by decide) (by decide) rest out
  have htext : h.text ++ rest = h.line ++ (h.fields.flatMap HeadField.line ++ ([CR] ++ LF :: rest)) := by
    simp [EncodedHead.text]
  obtain ⟨v0, v1, v2, hv⟩ : ∃ v0 v1 v2, st.hv = [v0, v1, v2] := by
    apply List.length_eq_three.mp
    have hlen := congrArg List.length hhv
    simpa using hlen
  rw [hv] at hhv
  simp only [List.map_cons, List.map_nil, List.length_cons, List.length_nil, List.drop_succ_cons,
    List.drop_zero, List.append_nil, List.cons.injEq, and_true] at hhv
  obtain ⟨h0, h1, h2⟩ := hhv
  have hlen : st.ret = h.text.length := by
    rw [hret, EncodedHead.text]
    simp only [List.length_append, List.length_cons, List.length_nil]
    omega
  have hwords : ¬ (v0.vLen = 0 ∨ v1.vLen = 0) := by
    rw [RoVec.vLen, RoVec.vLen, h0, h1, List.length_eq_zero_iff, List.length_eq_zero_iff]
    exact not_or.mpr ⟨h.word0.1, h.word1.1⟩
  rw [show List.drop 3 (d0 :: d1 :: d2 :: dcb) = dcb from rfl, foldl_dispatchHdr_eq hsorted] at hout
  refine ⟨v0, v1, v2, kvs.map fun kv => (kv.1.bytes, kv.2), h0, h1, h2, ?_, ?_⟩
  · rw [List.map_map]
    exact hkvs
  · rw [htext, httpDecodeBuf, hloop]
    dsimp only
    rw [decodeFinish, hv, ← hlen, ← hout]
    exact if_neg hwords

def recorder (label : Bytes) (i : ℕ) : HttpHcb (List (ℕ × Bytes)) := ⟨label, fun v out => out ++ [(i, v.bytes)]⟩

/-- The labels that `http_resp` has handlers for. -/
def respLabels : List Bytes :=
  [ascii "Connection", ascii "Content-Type", ascii "Content-Length", ascii "Content-Encoding", ascii "Transfer-Encoding"]

def recorders : List (HttpHcb (List (ℕ × Bytes))) := respLabels.zipIdx.map fun li => recorder li.1 (3 + li.2)

/-- An answer without a reason, with a field that has no value, and one that nobody asks for. -/
def shortAnswer : EncodedHead where
  t0 := ascii "HTTP/1.1"
  t1 := ascii "200"
  t2 := []
  fields := [⟨ascii "content-length", 0, [], by decide, by decide, by decide, by decide⟩,
    ⟨ascii "Date", 2, ascii "today", by decide, by decide, by decide, by decide⟩]
  word0 := by decide
  word1 := by decide
  restLf := by decide
  restSpace := by decide

theorem decode_encoded_head_short : ∃ (v0 v1 v2 : RoVec) (calls : List (Bytes × RoVec)),
    v0.bytes = ascii "HTTP/1.1" ∧ v1.bytes = ascii "200" ∧ v2.bytes = [] ∧
      calls.map (fun call => (call.1, call.2.bytes)) = [(ascii "content-length", []), (ascii "Date", ascii "today")] ∧
      httpDecodeBuf (recorder [] 0 :: recorder [] 1 :: recorder [] 2 :: recorders) (shortAnswer.text ++ ascii "body") [] =
        (48, (recorder [] 2).fn v2 ((recorder [] 1).fn v1 ((recorder [] 0).fn v0 (callHandlers recorders calls [])))) := by
  have hsorted : SortedLabels recorders := by
    unfold SortedLabels
    decide +kernel
  exact decode_encoded_head _ _ _ _ hsorted shortAnswer (ascii "body") []

end Ashttpd
