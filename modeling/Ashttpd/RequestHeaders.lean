import Ashttpd.HeadAgreement
import Ashttpd.HttpConn

/-!
# The headers a request is read for

What `http_req` makes of a well-formed head. The binary search of `dispatch_hdr` orders keys
by length first, the table of `http_req` is ordered by name: two of its entries are never
found.
-/
namespace Ashttpd

def labelConnection : Bytes := [67, 111, 110, 110, 101, 99, 116, 105, 111, 110]
def labelContentLength : Bytes := [67, 111, 110, 116, 101, 110, 116, 45, 76, 101, 110, 103, 116, 104]
def labelHost : Bytes := [72, 111, 115, 116]
def labelIfNoneMatch : Bytes := [73, 102, 45, 78, 111, 110, 101, 45, 77, 97, 116, 99, 104]

theorem length_le_of_vcasecmpFast_neg {a b : Bytes} (h : vcasecmpFast a b < 0) :
    a.length ≤ b.length := by
  simp only [vcasecmpFast] at h
  split_ifs at h <;> omega

theorem vcasecmpFast_neg_of_length {a b : Bytes} (h : a.length < b.length) :
    vcasecmpFast a b < 0 := by
  simp only [vcasecmpFast]
  rw [if_neg (by omega)]
  omega

/-- What the search over the table of `http_req` comes to. -/
theorem dispatchHdr_req (k v : RoVec) (s : ReqSlots) :
    dispatchHdr (reqHcb.drop 3) k v s =
      if SameText k.bytes labelHost then { s with host := v }
      else if SameText k.bytes labelIfNoneMatch then { s with etag := v }
      else s := by
  have h0 : hcbCmp (reqHcb.drop 3) k.bytes 0 = vcasecmpFast k.bytes labelConnection := rfl
  have h1 : hcbCmp (reqHcb.drop 3) k.bytes 1 = vcasecmpFast k.bytes labelContentLength := rfl
  have h2 : hcbCmp (reqHcb.drop 3) k.bytes 2 = vcasecmpFast k.bytes labelHost := rfl
  have h3 : hcbCmp (reqHcb.drop 3) k.bytes 3 = vcasecmpFast k.bytes labelIfNoneMatch := rfl
  have hlen : (reqHcb.drop 3).length = 4 := rfl
  simp only [← vcasecmpFast_eq_zero_iff]
  rcases lt_trichotomy (vcasecmpFast k.bytes labelHost) 0 with hneg | hzero | hpos
  · have hk : k.bytes.length ≤ 4 := length_le_of_vcasecmpFast_neg hneg
    have hc1 : vcasecmpFast k.bytes labelContentLength < 0 :=
      vcasecmpFast_neg_of_length (hk.trans_lt (by decide))
    have hc0 : vcasecmpFast k.bytes labelConnection < 0 :=
      vcasecmpFast_neg_of_length (hk.trans_lt (by decide))
    have hc3 : vcasecmpFast k.bytes labelIfNoneMatch < 0 :=
      vcasecmpFast_neg_of_length (hk.trans_lt (by decide))
    rw [if_neg hneg.ne, if_neg hc3.ne]
    simp [dispatchHdr, hlen, bisect, h0, h1, h2, hneg, hc1, hc0]
  · rw [if_pos hzero]
    simp [dispatchHdr, hlen, bisect, h2, hzero]
    rfl
  · have hnot : ¬ vcasecmpFast k.bytes labelHost < 0 := by omega
    rw [if_neg hpos.ne']
    rcases lt_trichotomy (vcasecmpFast k.bytes labelIfNoneMatch) 0 with hneg3 | hzero3 | hpos3
    · rw [if_neg hneg3.ne]
      simp [dispatchHdr, hlen, bisect, h2, h3, hnot, hpos, hneg3]
    · rw [if_pos hzero3]
      simp [dispatchHdr, hlen, bisect, h2, h3, hnot, hpos, hzero3]
      rfl
    · have hnot3 : ¬ vcasecmpFast k.bytes labelIfNoneMatch < 0 := by omega
      rw [if_neg hpos3.ne']
      simp [dispatchHdr, hlen, bisect, h2, h3, hnot, hpos, hnot3, hpos3]

def lastValue (label : Bytes) (kvs : List (Bytes × Bytes)) : Option Bytes :=
  (kvs.filter fun kv => SameText kv.1 label).getLast?.map Prod.snd

theorem lastValue_concat (label : Bytes) (kvs : List (Bytes × Bytes)) (kv : Bytes × Bytes) :
    lastValue label (kvs ++ [kv]) =
      if SameText kv.1 label then some kv.2 else lastValue label kvs := by
  rw [lastValue, List.filter_append]
  split_ifs with h
  · simp [h]
  · simp [h, lastValue]

theorem not_sameText_host_ifNoneMatch {k : Bytes} (h : SameText k labelIfNoneMatch) :
    ¬ SameText k labelHost :=
  fun h' => absurd (h.length_eq.symm.trans h'.length_eq) (by decide)

/-- The fields are searched for the last host and the last tag, and for nothing else. -/
theorem foldl_dispatchHdr (vs : List (RoVec × RoVec)) (s : ReqSlots) :
    (vs.foldl (fun o kv => dispatchHdr (reqHcb.drop 3) kv.1 kv.2 o) s).host.bytes =
        (lastValue labelHost (vs.map fun kv => (kv.1.bytes, kv.2.bytes))).getD s.host.bytes ∧
      (vs.foldl (fun o kv => dispatchHdr (reqHcb.drop 3) kv.1 kv.2 o) s).etag.bytes =
        (lastValue labelIfNoneMatch (vs.map fun kv => (kv.1.bytes, kv.2.bytes))).getD s.etag.bytes ∧
      (vs.foldl (fun o kv => dispatchHdr (reqHcb.drop 3) kv.1 kv.2 o) s).connection = s.connection ∧
      (vs.foldl (fun o kv => dispatchHdr (reqHcb.drop 3) kv.1 kv.2 o) s).clen = s.clen := by
  induction vs using List.reverseRecOn with
  | nil => exact ⟨rfl, rfl, rfl, rfl⟩
  | append_singleton vs kv ih =>
    obtain ⟨hhost, hetag, hconn, hclen⟩ := ih
    rw [List.foldl_concat, List.map_append, List.map_singleton, lastValue_concat,
      lastValue_concat, dispatchHdr_req]
    split_ifs with h1 h2 h2
    · exact absurd h1 (not_sameText_host_ifNoneMatch h2)
    · exact ⟨rfl, hetag, hconn, hclen⟩
    · exact ⟨hhost, rfl, hconn, hclen⟩
    · exact ⟨hhost, hetag, hconn, hclen⟩

/-- A part of a request line. -/
structure IsWord (w : Bytes) : Prop where
  nonEmpty : w ≠ []
  noSpace : SP ∉ w
  noCr : CR ∉ w
  noLf : LF ∉ w

/-- The name and the value of a header field. -/
structure IsField (kv : Bytes × Bytes) : Prop where
  noColon : COLON ∉ kv.1
  nameNoLf : LF ∉ kv.1
  noSpace : kv.2.head? ≠ some SP
  noCr : CR ∉ kv.2
  noLf : LF ∉ kv.2

/-- A well-formed request head. -/
structure ReqHead where
  method : Bytes
  uri : Bytes
  version : Bytes
  fields : List (Bytes × Bytes)
  methodWord : IsWord method
  uriWord : IsWord uri
  versionWord : IsWord version
  fieldsOk : ∀ kv ∈ fields, IsField kv

def fieldLine (kv : Bytes × Bytes) : Bytes := kv.1 ++ COLON :: SP :: (kv.2 ++ [CR, LF])

def requestLine (h : ReqHead) : Bytes :=
  h.method ++ SP :: (h.uri ++ SP :: (h.version ++ [CR, LF]))

def ReqHead.text (h : ReqHead) : Bytes :=
  requestLine h ++ (h.fields.flatMap fieldLine ++ [CR, LF])

theorem stripCr_concat (w : Bytes) : stripCr (w ++ [CR]) = w := by
  simp [stripCr]

theorem exists_cons_of_value {w : Bytes} (h : w.head? ≠ some SP) :
    ∃ c v, w ++ [CR] = c :: v ∧ c ≠ SP := by
  cases w with
  | nil => exact ⟨CR, [], rfl, by decide⟩
  | cons c v => exact ⟨c, v ++ [CR], rfl, fun hc => h (congrArg some hc)⟩

theorem requestLine_words (h : ReqHead) :
    RequestWords 0 (requestLine h) [h.method, h.uri, h.version] := by
  obtain ⟨m, ms, hm⟩ := List.exists_cons_of_ne_nil h.methodWord.nonEmpty
  obtain ⟨u, us, hu⟩ := List.exists_cons_of_ne_nil h.uriWord.nonEmpty
  obtain ⟨e, es, he⟩ := List.exists_cons_of_ne_nil h.versionWord.nonEmpty
  obtain ⟨-, hmsp, -, hmlf⟩ := h.methodWord
  obtain ⟨-, husp, -, hulf⟩ := h.uriWord
  obtain ⟨-, hesp, -, helf⟩ := h.versionWord
  rw [hm, List.mem_cons, not_or] at hmsp hmlf
  rw [hu, List.mem_cons, not_or] at husp hulf
  rw [he, List.mem_cons, not_or] at hesp helf
  have hes : LF ∉ es ++ [CR] := by
    rw [List.mem_append, List.mem_singleton]
    exact not_or.mpr ⟨helf.2, by decide⟩
  have hstrip : stripCr (e :: (es ++ [CR])) = e :: es := stripCr_concat (e :: es)
  have hlast : RequestWords 2 (List.replicate 0 SP ++ e :: ((es ++ [CR]) ++ [LF]))
      [stripCr (e :: (es ++ [CR]))] :=
    .last (Ne.symm hesp.1) (fun hi => absurd hi (by decide)) hes
  have huri := RequestWords.more (i := 1) (n := 0) (by decide) (Ne.symm husp.1) husp.2 hulf.2 hlast
  have hmethod := RequestWords.more (i := 0) (n := 0) (by decide) (Ne.symm hmsp.1) hmsp.2 hmlf.2 huri
  rw [hstrip, ← he, ← hu, ← hm] at hmethod
  have hline : requestLine h = List.replicate 0 SP ++ m :: (ms ++ SP ::
      (List.replicate 0 SP ++ u :: (us ++ SP ::
        (List.replicate 0 SP ++ e :: ((es ++ [CR]) ++ [LF]))))) := by
    simp [requestLine, hm, hu, he]
  rwa [hline]

theorem fieldLines_fields {kvs : List (Bytes × Bytes)} (h : ∀ kv ∈ kvs, IsField kv) :
    HeadFields (kvs.flatMap fieldLine) kvs := by
  induction kvs with
  | nil => exact .nil
  | cons kv kvs ih =>
    rw [List.forall_mem_cons] at h
    obtain ⟨c, v, hcv, hc⟩ := exists_cons_of_value h.1.noSpace
    have hlf : LF ∉ v := by
      intro hm
      have hmem : LF ∈ kv.2 ++ [CR] := hcv ▸ List.mem_cons_of_mem c hm
      simp only [List.mem_append, List.mem_singleton] at hmem
      exact hmem.elim h.1.noLf (by decide)
    have hfield := HeadFields.cons (n := 1) h.1.noColon h.1.nameNoLf hc hlf (ih h.2)
    have hline : (kv :: kvs).flatMap fieldLine =
        kv.1 ++ COLON :: (List.replicate 1 SP ++ c :: (v ++ LF :: kvs.flatMap fieldLine)) := by
      have hval : kv.2 ++ CR :: LF :: kvs.flatMap fieldLine =
          c :: (v ++ LF :: kvs.flatMap fieldLine) := by
        rw [← List.cons_append, ← hcv, List.append_assoc, List.singleton_append]
      simp [fieldLine, hval]
    rw [← hcv, stripCr_concat] at hfield
    rwa [hline]

def RoVec.Sound (v : RoVec) : Prop := v.vPtr = none → v.bytes = []

theorem upTo_sound (p : Bytes) (start cur : ℕ) : (upTo p start cur).Sound :=
  fun h => absurd h (by simp [upTo])

theorem decodeStep_sound {σ : Type} {d : List (HttpHcb σ)} {p : Bytes} {c : UInt8}
    {st : Decode σ} (h : ∀ v ∈ st.hv, v.Sound) (cur : ℕ) :
    ∀ v ∈ (decodeStep d p cur c st).1.hv, v.Sound := by
  have hset : ∀ w : RoVec, w.Sound → ∀ v ∈ st.hv.set st.i w, v.Sound := by
    intro w hw v hv
    rcases List.mem_or_eq_of_mem_set hv with hv | rfl
    · exact h v hv
    · exact hw
  cases hst : st.state with
  | state0 =>
    simp only [decodeStep, hst]
    split_ifs
    · exact hset _ fun hnone => absurd hnone (by simp)
    · exact h
  | state1 =>
    simp only [decodeStep, hst]
    split_ifs
    · exact hset _ (upTo_sound p _ cur)
    · exact h
    · exact hset _ fun hnone => absurd hnone (by simp [RoVec.stripCr, upTo])
    · exact h
  | state2 | state3 | state4 =>
    simp only [decodeStep, hst]
    split_ifs <;> exact h

theorem decodeLoop_sound {σ : Type} {d : List (HttpHcb σ)} {p x : Bytes} {cur : ℕ}
    {st : Decode σ} (h : ∀ v ∈ st.hv, v.Sound) :
    ∀ v ∈ (decodeLoop d p cur x st).1.hv, v.Sound := by
  induction x generalizing cur st with
  | nil => exact h
  | cons c x ih =>
    have hstep := decodeStep_sound (d := d) (p := p) (c := c) h cur
    rw [decodeLoop]
    cases hs : decodeStep d p cur c st with
    | mk st' done =>
      rw [hs] at hstep
      cases done with
      | true => exact hstep
      | false => exact ih hstep

theorem hostPort_frame (r : HttpRequest) :
    (hostPort r).method = r.method ∧ (hostPort r).uri = r.uri ∧ (hostPort r).host = r.host ∧
      (hostPort r).etag = r.etag ∧ (hostPort r).contentLen = r.contentLen ∧
      (hostPort r).connClose = r.connClose := by
  rw [hostPort]
  split_ifs
  · exact ⟨rfl, rfl, rfl, rfl, rfl, rfl⟩
  · cases splitPort r.host.bytes with
    | none => exact ⟨rfl, rfl, rfl, rfl, rfl, rfl⟩
    | some np => exact ⟨rfl, rfl, rfl, rfl, rfl, rfl⟩

/-- What the decoder makes of a well-formed head. -/
theorem httpDecodeBuf_head (h : ReqHead) (rest : Bytes) :
    ∃ s, httpDecodeBuf reqHcb (h.text ++ rest) .empty = (h.text.length, s) ∧
      s.method.bytes = h.method ∧ s.uri.bytes = h.uri ∧ s.uri.Sound ∧
      s.host.bytes = (lastValue labelHost h.fields).getD [] ∧
      s.etag.bytes = (lastValue labelIfNoneMatch h.fields).getD [] ∧ s.connection = {} ∧
      s.clen = -1 := by
  obtain ⟨st, vs, hloop, hret, hhv, hvs, hout⟩ := decodeLoop_head (d := reqHcb)
    (requestLine_words h) (fieldLines_fields h.fieldsOk) (l := [CR]) (by decide) (by decide) rest
    .empty
  have htext : h.text ++ rest =
      requestLine h ++ (h.fields.flatMap fieldLine ++ ([CR] ++ LF :: rest)) := by
    simp [ReqHead.text]
  have hsound : ∀ v ∈ st.hv, v.Sound := by
    have hall : ∀ v ∈ (decodeLoop reqHcb (h.text ++ rest) 0 (h.text ++ rest)
        (Decode.init .empty)).1.hv, v.Sound :=
      decodeLoop_sound (by simp [Decode.init, RoVec.Sound])
    rwa [htext, hloop] at hall
  obtain ⟨a, b, c, habc⟩ : ∃ a b c, st.hv = [a, b, c] := by
    apply List.length_eq_three.mp
    have hlen := congrArg List.length hhv
    simpa using hlen
  rw [habc] at hhv hsound
  simp only [List.map_cons, List.map_nil, List.length_cons, List.length_nil, List.drop_succ_cons,
    List.drop_zero, List.append_nil, List.cons.injEq, and_true] at hhv
  obtain ⟨ha, hb, hc⟩ := hhv
  have hfin : decodeFinish reqHcb st =
      (st.ret, { st.out with method := a, uri := b, pv := c }) := by
    have hne : ¬ (a.vLen = 0 ∨ b.vLen = 0) := by
      rw [RoVec.vLen, RoVec.vLen, ha, hb, List.length_eq_zero_iff, List.length_eq_zero_iff]
      exact not_or.mpr ⟨h.methodWord.nonEmpty, h.uriWord.nonEmpty⟩
    rw [decodeFinish, habc]
    exact if_neg hne
  have hlen : st.ret = h.text.length := by
    rw [hret, ReqHead.text]
    simp only [List.length_append, List.length_cons, List.length_nil]
    omega
  obtain ⟨hhost, hetag, hconn, hclen⟩ := foldl_dispatchHdr vs .empty
  rw [hvs] at hhost hetag
  rw [← hout] at hhost hetag hconn hclen
  rw [htext, httpDecodeBuf, hloop, hfin, hlen]
  exact ⟨_, rfl, ha, hb, hsound b (by simp), hhost, hetag, hconn, hclen⟩

/-- What `http_req` makes of a well-formed head, whatever was received behind it. -/
theorem httpReq_head (h : ReqHead) (rest : Bytes) :
    ∃ r, httpReq {} (h.text ++ rest) = (h.text.length, r) ∧ r.method.bytes = h.method ∧
      r.uri.bytes = h.uri ∧ r.host.bytes = (lastValue labelHost h.fields).getD [] ∧
      r.etag.bytes = (lastValue labelIfNoneMatch h.fields).getD [] ∧ r.contentLen = 0 ∧
      r.connClose = 0 := by
  obtain ⟨s, hdec, hmethod, huri, hsound, hhost, hetag, hconn, hclen⟩ := httpDecodeBuf_head h rest
  have hpos : h.text.length ≠ 0 := by simp [ReqHead.text]
  have hptr : s.uri.vPtr ≠ none := by
    intro hnone
    rw [hsound hnone] at huri
    exact h.uriWord.nonEmpty huri.symm
  have hslots : ({ method := {}, uri := {}, host := {}, etag := {} } : ReqSlots) = .empty := rfl
  obtain ⟨fm, fu, fh, fe, fc, fx⟩ := hostPort_frame
    { method := s.method, uri := s.uri, host := s.host, etag := s.etag,
      protoVers := httpProtoVersion s.pv, contentLen := 0, connClose := 0 }
  have hclose : ¬ vcasecmpFast [] closeToken = 0 := by decide
  have hneg : ¬ (0 : ℤ) < -1 := by decide
  simp only [httpReq, hslots, hdec, hpos, if_false, hconn, hclen, hclose, hneg, fu, hptr]
  exact ⟨_, rfl, by rw [fm, hmethod], by rw [fu, huri], by rw [fh, hhost], by rw [fe, hetag], fc, fx⟩

def IsDecimal (v : Bytes) (n : ℕ) : Prop :=
  v ≠ [] ∧ (∀ c ∈ v, isdigit c) ∧ n = v.foldl (fun u c => u * 10 + (c.toNat - 48)) 0

/-- The request has the four headers as the head gives them. -/
structure Recovers (h : ReqHead) (r : HttpRequest) : Prop where
  close : r.connClose = 1 ↔
    ∃ v, lastValue labelConnection h.fields = some v ∧ SameText v closeToken
  length : ∀ v n, lastValue labelContentLength h.fields = some v → IsDecimal v n → 1 ≤ n →
    n ≤ INT_MAX → r.contentLen = n
  host : ∀ v, lastValue labelHost h.fields = some v → r.host.bytes = v
  etag : ∀ v, lastValue labelIfNoneMatch h.fields = some v → r.etag.bytes = v

/-- A head has its headers recovered exactly when it neither asks to close the connection nor
announces a body. -/
theorem recovers_iff (h : ReqHead) (rest : Bytes) :
    Recovers h (httpReq {} (h.text ++ rest)).2 ↔
      (¬ ∃ v, lastValue labelConnection h.fields = some v ∧ SameText v closeToken) ∧
      ¬ ∃ v n, lastValue labelContentLength h.fields = some v ∧ IsDecimal v n ∧ 1 ≤ n ∧
        n ≤ INT_MAX := by
  obtain ⟨r, hreq, -, -, hhost, hetag, hlen, hclose⟩ := httpReq_head h rest
  rw [hreq]
  constructor
  · rintro ⟨h1, h2, -, -⟩
    refine ⟨?_, ?_⟩
    · intro hv
      have hone := h1.mpr hv
      rw [hclose] at hone
      exact absurd hone (by decide)
    · rintro ⟨v, n, hv, hdec, hpos, hmax⟩
      have hn : r.contentLen = n := h2 v n hv hdec hpos hmax
      omega
  · rintro ⟨h1, h2⟩
    refine ⟨?_, ?_, ?_, ?_⟩
    · rw [hclose]
      exact ⟨fun h0 => absurd h0 (by decide), fun hv => absurd hv h1⟩
    · intro v n hv hdec hpos hmax
      exact absurd ⟨v, n, hv, hdec, hpos, hmax⟩ h2
    · intro v hv
      rw [hhost, hv, Option.getD_some]
    · intro v hv
      rw [hetag, hv, Option.getD_some]

theorem getWord : IsWord HttpConn.methodGet := ⟨by decide, by decide, by decide, by decide⟩

theorem rootWord : IsWord [47] := ⟨by decide, by decide, by decide, by decide⟩

theorem versionWord : IsWord (ascii "HTTP/1.1") := ⟨by decide, by decide, by decide, by decide⟩

theorem noFields : ∀ kv ∈ ([] : List (Bytes × Bytes)), IsField kv := by
  intro kv hkv
  cases hkv

/-- "GET / HTTP/1.1" with "Connection: Close". -/
def closeHead : ReqHead where
  method := [71, 69, 84]
  uri := [47]
  version := [72, 84, 84, 80, 47, 49, 46, 49]
  fields := [(labelConnection, closeToken)]
  methodWord := ⟨by decide, by decide, by decide, by decide⟩
  uriWord := rootWord
  versionWord := ⟨by decide, by decide, by decide, by decide⟩
  fieldsOk := by
    intro kv hkv
    obtain rfl := List.mem_singleton.mp hkv
    exact ⟨by decide, by decide, by decide, by decide, by decide⟩

theorem closeHead_not_recovered :
    ¬ Recovers closeHead (httpReq {} (closeHead.text ++ [])).2 := by
  intro h
  have hone := h.close.mpr ⟨closeToken, by decide, by decide⟩
  have hzero : (httpReq {} (closeHead.text ++ [])).2.connClose = 0 := by decide
  rw [hzero] at hone
  exact absurd hone (by decide)

end Ashttpd
