import Ashttpd.HeadDecoding
import Ashttpd.NumericHeaders

/-!
# Reading a response

`http_resp` has `http_decode_buf` take the head of a response apart, with a table that is sorted the way
`dispatch_hdr` searches it. So it finds all the fields it looks for, where `http_req` finds only two of four.
-/
namespace Ashttpd

/-- `struct http_response`. -/
structure HttpResponse where
  host : RoVec := {}
  contentLen : ℕ := 0
  code : UInt16 := 0
  protoVers : UInt8 := 0
  connClose : UInt8 := 0
  transferEnc : RoVec := {}
  contentType : RoVec := {}
  contentEnc : RoVec := {}
  deriving DecidableEq, Repr

/-- What the table of `http_resp` points to. -/
structure RespSlots where
  pv : RoVec := {}
  code : UInt16
  connection : RoVec := {}
  contentType : RoVec
  clen : ℤ := -1
  contentEnc : RoVec
  transferEnc : RoVec
  deriving DecidableEq, Repr

/-- The value `htype_code` stores: a number, if it has three digits. -/
def htypeCode (v : RoVec) : UInt16 :=
  let (val, len) := vtouint v.bytes
  if len ≠ 3 ∨ 999 < val then 0xffff else val.toUInt16

/-- The table `hcb` of `http_resp`, in its order. -/
def respHcb : List (HttpHcb RespSlots) := [
  ⟨ascii "protocol", fun v s => { s with pv := v }⟩,
  ⟨ascii "code", fun v s => { s with code := htypeCode v }⟩,
  -- `htype_string` without a vector to store to
  ⟨ascii "msg", fun _ s => s⟩,
  ⟨ascii "Connection", fun v s => { s with connection := v }⟩,
  ⟨ascii "Content-Type", fun v s => { s with contentType := v }⟩,
  ⟨ascii "Content-Length", fun v s => { s with clen := htypeInt v }⟩,
  ⟨ascii "Content-Encoding", fun v s => { s with contentEnc := v }⟩,
  ⟨ascii "Transfer-Encoding", fun v s => { s with transferEnc := v }⟩]

/-- `http_resp`: the length of the head, zero if there is none, and the response filled in. -/
def httpResp (r : HttpResponse) (p : Bytes) : ℕ × HttpResponse :=
  let (hlen, s) := httpDecodeBuf respHcb p
    { code := r.code, contentType := r.contentType, contentEnc := r.contentEnc, transferEnc := r.transferEnc }
  let r := { r with
    code := s.code, contentType := s.contentType, contentEnc := s.contentEnc, transferEnc := s.transferEnc }
  if hlen = 0 then (0, r)
  else
    (hlen, { r with
      -- a length of zero is not stored
      contentLen := if 0 < s.clen then s.clen.toNat else r.contentLen
      connClose := if vcasecmpFast s.connection.bytes closeToken = 0 then 1 else 0
      protoVers := httpProtoVersion s.pv })

theorem respHcb_sorted : SortedLabels (respHcb.drop 3) := by
  unfold SortedLabels
  decide

section calls

variable {σ τ : Type} {dcb : List (HttpHcb σ)}

/-- A variable that only the handler of one label stores to has what came last under this label. -/
theorem callHandlers_slot (label : Bytes) (get : σ → τ) (store : Bytes → τ)
    (hmine : ∀ name v out, SameText name label → get (callHandler dcb name v out) = store v.bytes)
    (hother : ∀ name v out, ¬ SameText name label → get (callHandler dcb name v out) = get out)
    (calls : List (Bytes × RoVec)) (out : σ) :
    get (callHandlers dcb calls out) =
      ((lastValue label (calls.map fun call => (call.1, call.2.bytes))).map store).getD (get out) := by
  induction calls using List.reverseRecOn with
  | nil => rfl
  | append_singleton calls call ih =>
    rw [callHandlers, List.foldl_concat, List.map_append, List.map_singleton, lastValue_concat]
    split
    · next h => exact hmine _ _ _ h
    · next h =>
      rw [hother _ _ _ h]
      exact ih

theorem callHandlers_text (label : Bytes) (get : σ → Bytes)
    (hmine : ∀ name v out, SameText name label → get (callHandler dcb name v out) = v.bytes)
    (hother : ∀ name v out, ¬ SameText name label → get (callHandler dcb name v out) = get out)
    (calls : List (Bytes × RoVec)) (out : σ) :
    get (callHandlers dcb calls out) =
      (lastValue label (calls.map fun call => (call.1, call.2.bytes))).getD (get out) := by
  rw [callHandlers_slot label get id hmine hother, Option.map_id]
  rfl

end calls

/-- The labels of `http_resp` differ in length. -/
theorem callHandler_resp (name : Bytes) (v : RoVec) (s : RespSlots) : callHandler (respHcb.drop 3) name v s =
    if SameText name (ascii "Connection") then { s with connection := v }
    else if SameText name (ascii "Content-Type") then { s with contentType := v }
    else if SameText name (ascii "Content-Length") then { s with clen := htypeInt v }
    else if SameText name (ascii "Content-Encoding") then { s with contentEnc := v }
    else if SameText name (ascii "Transfer-Encoding") then { s with transferEnc := v }
    else s := by
  unfold callHandler
  simp only [respHcb, List.drop_succ_cons, List.drop_zero, List.find?_cons, List.find?_nil]
  by_cases h₁ : SameText name (ascii "Connection")
  · simp only [h₁, decide_true, if_true]
  · by_cases h₂ : SameText name (ascii "Content-Type")
    · simp only [h₁, h₂, decide_true, decide_false, if_true, if_false]
    · by_cases h₃ : SameText name (ascii "Content-Length")
      · simp only [h₁, h₂, h₃, decide_true, decide_false, if_true, if_false]
      · by_cases h₄ : SameText name (ascii "Content-Encoding")
        · simp only [h₁, h₂, h₃, h₄, decide_true, decide_false, if_true, if_false]
        · by_cases h₅ : SameText name (ascii "Transfer-Encoding")
          · simp only [h₁, h₂, h₃, h₄, h₅, decide_true, decide_false, if_true, if_false]
          · simp only [h₁, h₂, h₃, h₄, h₅, decide_false, if_false]

def EncodedHead.value (h : EncodedHead) (label : Bytes) : Option Bytes :=
  lastValue label (h.fields.map fun f => (f.name, f.value))

/-- The fields of a response tell what is in the words and fields of a head, and else what they told before. -/
structure Tells (h : EncodedHead) (r r' : HttpResponse) : Prop where
  code : r'.code = htypeCode ⟨none, h.t1⟩
  version : r'.protoVers = httpProtoVersion ⟨none, h.t0⟩
  close : r'.connClose = if SameText ((h.value (ascii "Connection")).getD []) closeToken then 1 else 0
  length : r'.contentLen =
    if 0 < ((h.value (ascii "Content-Length")).map fun v => htypeInt ⟨none, v⟩).getD (-1)
      then (((h.value (ascii "Content-Length")).map fun v => htypeInt ⟨none, v⟩).getD (-1)).toNat else r.contentLen
  type : r'.contentType.bytes = (h.value (ascii "Content-Type")).getD r.contentType.bytes
  enc : r'.contentEnc.bytes = (h.value (ascii "Content-Encoding")).getD r.contentEnc.bytes
  transfer : r'.transferEnc.bytes = (h.value (ascii "Transfer-Encoding")).getD r.transferEnc.bytes
  host : r'.host = r.host

theorem SameText.apart {name label label' : Bytes} (h : SameText name label) (hlen : label.length ≠ label'.length) :
    ¬ SameText name label' := fun h' => hlen (h.length_eq.symm.trans h'.length_eq)

section slots

variable {calls : List (Bytes × RoVec)} {kvs : List (Bytes × Bytes)} {s : RespSlots}

/-- Each variable has what came last under its label. -/
theorem callHandlers_resp (hcalls : calls.map (fun call => (call.1, call.2.bytes)) = kvs) :
    (callHandlers (respHcb.drop 3) calls s).connection.bytes =
        (lastValue (ascii "Connection") kvs).getD s.connection.bytes ∧
      (callHandlers (respHcb.drop 3) calls s).contentType.bytes =
        (lastValue (ascii "Content-Type") kvs).getD s.contentType.bytes ∧
      (callHandlers (respHcb.drop 3) calls s).clen =
        ((lastValue (ascii "Content-Length") kvs).map fun v => htypeInt ⟨none, v⟩).getD s.clen ∧
      (callHandlers (respHcb.drop 3) calls s).contentEnc.bytes =
        (lastValue (ascii "Content-Encoding") kvs).getD s.contentEnc.bytes ∧
      (callHandlers (respHcb.drop 3) calls s).transferEnc.bytes =
        (lastValue (ascii "Transfer-Encoding") kvs).getD s.transferEnc.bytes := by
  subst hcalls
  refine ⟨?_, ?_, ?_, ?_, ?_⟩
  · refine callHandlers_text _ (fun s : RespSlots => s.connection.bytes) ?_ ?_ calls s
    · intro name v out hsame
      rw [callHandler_resp, if_pos hsame]
    · intro name v out hother
      rw [callHandler_resp, if_neg hother]
      split_ifs <;> rfl
  · refine callHandlers_text _ (fun s : RespSlots => s.contentType.bytes) ?_ ?_ calls s
    · intro name v out hsame
      rw [callHandler_resp, if_neg (hsame.apart (by decide)), if_pos hsame]
    · intro name v out hother
      rw [callHandler_resp, if_neg hother]
      split_ifs <;> rfl
  · refine callHandlers_slot _ (fun s : RespSlots => s.clen) (fun v => htypeInt ⟨none, v⟩) ?_ ?_ calls s
    · intro name v out hsame
      rw [callHandler_resp, if_neg (hsame.apart (by decide)), if_neg (hsame.apart (by decide)), if_pos hsame]
      rfl
    · intro name v out hother
      rw [callHandler_resp, if_neg hother]
      split_ifs <;> rfl
  · refine callHandlers_text _ (fun s : RespSlots => s.contentEnc.bytes) ?_ ?_ calls s
    · intro name v out hsame
      rw [callHandler_resp, if_neg (hsame.apart (by decide)), if_neg (hsame.apart (by decide)),
        if_neg (hsame.apart (by decide)), if_pos hsame]
    · intro name v out hother
      rw [callHandler_resp, if_neg hother]
      split_ifs <;> rfl
  · refine callHandlers_text _ (fun s : RespSlots => s.transferEnc.bytes) ?_ ?_ calls s
    · intro name v out hsame
      rw [callHandler_resp, if_neg (hsame.apart (by decide)), if_neg (hsame.apart (by decide)),
        if_neg (hsame.apart (by decide)), if_neg (hsame.apart (by decide)), if_pos hsame]
    · intro name v out hother
      rw [callHandler_resp, if_neg hother]
      split_ifs <;> rfl

end slots

/-- The decoder goes over a head, whatever follows it. -/
theorem decodeBuf_resp (h : EncodedHead) (rest : Bytes) (s : RespSlots) :
    ∃ (v0 v1 : RoVec) (calls : List (Bytes × RoVec)), v0.bytes = h.t0 ∧ v1.bytes = h.t1 ∧
      calls.map (fun call => (call.1, call.2.bytes)) = h.fields.map (fun f => (f.name, f.value)) ∧
      httpDecodeBuf respHcb (h.text ++ rest) s = (h.text.length,
        { callHandlers (respHcb.drop 3) calls s with pv := v0, code := htypeCode v1 }) := by
  obtain ⟨st, kvs, hloop, hret, hhv, hkvs, hout⟩ := decodeLoop_head (d := respHcb) h.words
    (headFields_lines h.fields) (l := [CR]) (by decide) (by decide) rest s
  have htext : h.text ++ rest = h.line ++ (h.fields.flatMap HeadField.line ++ ([CR] ++ LF :: rest)) := by
    simp [EncodedHead.text]
  obtain ⟨v0, v1, v2, hv⟩ : ∃ v0 v1 v2, st.hv = [v0, v1, v2] := by
    apply List.length_eq_three.mp
    have hlen := congrArg List.length hhv
    simpa using hlen
  rw [hv] at hhv
  simp only [List.map_cons, List.map_nil, List.length_cons, List.length_nil, List.drop_succ_cons,
    List.drop_zero, List.append_nil, List.cons.injEq, and_true] at hhv
  obtain ⟨h0, h1, h2⟩ := hhv
  have hlen : st.ret = h.text.length := by
    rw [hret, EncodedHead.text]
    simp only [List.length_append, List.length_cons, List.length_nil]
    omega
  have hwords : ¬ (v0.vLen = 0 ∨ v1.vLen = 0) := by
    rw [RoVec.vLen, RoVec.vLen, h0, h1, List.length_eq_zero_iff, List.length_eq_zero_iff]
    exact not_or.mpr ⟨h.word0.1, h.word1.1⟩
  rw [foldl_dispatchHdr_eq respHcb_sorted] at hout
  refine ⟨v0, v1, kvs.map fun kv => (kv.1.bytes, kv.2), h0, h1, ?_, ?_⟩
  · rw [List.map_map]
    exact hkvs
  · rw [htext, httpDecodeBuf, hloop]
    dsimp only
    rw [decodeFinish, hv, ← hlen, ← hout]
    exact if_neg hwords

/-- Of any head that is put together, and whatever follows it, `http_resp` gives the length, and tells what is in
its words and in the last one of each of the five fields it looks for. -/
theorem http_resp_tells (h : EncodedHead) (rest : Bytes) (r : HttpResponse) :
    ∃ r', httpResp r (h.text ++ rest) = (h.text.length, r') ∧ Tells h r r' := by
  obtain ⟨v0, v1, calls, h0, h1, hcalls, hdecode⟩ := decodeBuf_resp h rest
    { code := r.code, contentType := r.contentType, contentEnc := r.contentEnc, transferEnc := r.transferEnc }
  obtain ⟨hconn, htype, hclen, henc, htransfer⟩ := callHandlers_resp (s :=
    { code := r.code, contentType := r.contentType, contentEnc := r.contentEnc, transferEnc := r.transferEnc }) hcalls
  have hpos : h.text.length ≠ 0 := by simp [EncodedHead.text]
  unfold httpResp
  rw [hdecode]
  dsimp only
  rw [if_neg hpos]
  refine ⟨_, rfl, ?_, ?_, ?_, ?_, htype, henc, htransfer, rfl⟩
  · show htypeCode v1 = htypeCode ⟨none, h.t1⟩
    unfold htypeCode
    rw [h1]
  · show httpProtoVersion v0 = httpProtoVersion ⟨none, h.t0⟩
    unfold httpProtoVersion
    rw [h0]
  · simp only [hconn, vcasecmpFast_eq_zero_iff]
    rfl
  · rw [← EncodedHead.value] at hclen
    simp only [hclen]

end Ashttpd
