import Ashttpd.Pipelining
import Ashttpd.ResponseHeads
import Ashttpd.StreamReaders

/-!
# Responses as a client reads them

A client that waits for the end of a head with `http_parse_incremental`, has `http_resp` read the head and then
waits for as many bytes as the head tells of reads every response for what it is, and no part of one.
-/
namespace Ashttpd

/-- What a client takes a response for. -/
structure View where
  code : ℕ
  type : Bytes
  body : Bytes
  deriving DecidableEq, Repr

def bodyLength (bare : Bool) (r : HttpResponse) : ℕ :=
  if bare ∨ r.code.toNat = HTTP_NOT_MODIFIED then 0 else r.contentLen

/-- Read the next response from what has come, and what is behind it. -/
def readResponse (bare : Bool) (stream : Bytes) : Option (View × Bytes) :=
  match httpParseIncremental .initial stream with
  | .ok (true, _, _) =>
    let (hlen, r) := httpResp {} stream
    if hlen + bodyLength bare r ≤ stream.length then
      some (⟨r.code.toNat, r.contentType.bytes, (stream.drop hlen).take (bodyLength bare r)⟩,
        stream.drop (hlen + bodyLength bare r))
    else none
  | _ => none

section scan

variable {x w p : Bytes}

theorem httpParseIncremental_head (hpre : p <+: x) (hends : EndsHead p) (hne : p ≠ []) :
    ∃ st n, httpParseIncremental .initial x = .ok (true, st, n) := by
  obtain ⟨st, z, c, s, -, hrun, -⟩ | ⟨st, -, -, -, hno⟩ := httpParseIncremental_spec Rstate.tracks_initial rfl x
  · exact ⟨st, z.length, hrun⟩
  · exact absurd hends (hno p hpre hne)

theorem httpParseIncremental_none (h : ∀ z, z <+: x → z ≠ [] → ¬ EndsHead z) :
    ∃ st n, httpParseIncremental .initial x = .ok (false, st, n) := by
  obtain ⟨st, z, c, s, rfl, -, -, hends⟩ | ⟨st, hrun, -⟩ := httpParseIncremental_spec Rstate.tracks_initial rfl x
  · exact absurd hends (h _ ⟨s, by simp⟩ (by simp))
  · exact ⟨st, x.length, hrun⟩

/-- A line with something on it does not end a head. -/
theorem unended_line (hlf : LF ∉ w) (hc : ∃ c ∈ w, c ≠ CR) (x : Bytes) : Unended EndsHead x (w ++ [LF]) := by
  intro z hz hne
  obtain rfl | hz := List.prefix_concat_iff.mp hz
  · rw [← List.append_assoc, endsHead_concat]
    rintro ⟨-, hend⟩
    obtain ⟨c, hcw, hcr⟩ := hc
    obtain ⟨v, a, rfl⟩ := (List.eq_nil_or_concat w).resolve_left (List.ne_nil_of_mem hcw)
    rw [List.concat_eq_append, List.mem_append, List.mem_singleton, not_or] at hlf
    rw [List.concat_eq_append, ← List.append_assoc, lf_suffix_concat, lfcr_suffix_concat] at hend
    obtain hlast | ⟨rfl, hlast⟩ := hend
    · exact hlf.2 hlast
    · -- something is before the carriage return
      have hv : c ∈ v := by
        rw [List.concat_eq_append, List.mem_append, List.mem_singleton] at hcw
        exact hcw.resolve_right hcr
      obtain ⟨u, b, rfl⟩ := (List.eq_nil_or_concat v).resolve_left (List.ne_nil_of_mem hv)
      rw [List.concat_eq_append, ← List.append_assoc, lf_suffix_concat] at hlast
      exact hlf.1 (by rw [List.concat_eq_append, hlast]; simp)
  · obtain ⟨v, a, rfl⟩ := (List.eq_nil_or_concat z).resolve_left hne
    have ha : a ∈ w := hz.subset (by simp)
    rw [List.concat_eq_append, ← List.append_assoc]
    exact not_endsHead_of_ne fun heq => hlf (heq ▸ ha)

end scan

theorem HeadField.line_unended (f : HeadField) (x : Bytes) : Unended EndsHead x f.line := by
  have hline : f.line = f.name ++ COLON :: (List.replicate f.spaces SP ++ (f.value ++ [CR])) ++ [LF] := by
    simp [HeadField.line]
  rw [hline]
  refine unended_line ?_ ⟨COLON, by simp, by decide⟩ x
  simp only [List.mem_append, List.mem_cons, List.mem_replicate, not_or, List.not_mem_nil, not_false_iff, and_true]
  exact ⟨f.nameLf, by decide, fun h => absurd h.2 (by decide), f.valueLf, by decide⟩

theorem EncodedHead.line_unended (h : EncodedHead) (x : Bytes) : Unended EndsHead x h.line := by
  have hline : h.line = h.t0 ++ SP :: (h.t1 ++ SP :: (h.t2 ++ [CR])) ++ [LF] := by simp [EncodedHead.line]
  rw [hline]
  refine unended_line ?_ ⟨SP, by simp, by decide⟩ x
  simp only [List.mem_append, List.mem_cons, not_or, List.not_mem_nil, not_false_iff, and_true]
  exact ⟨h.word0.2.2, by decide, h.word1.2.2, by decide, h.restLf, by decide⟩

/-- A head that was put together ends at its last byte, and not before. -/
theorem EncodedHead.piece (h : EncodedHead) : Piece EndsHead h.text := by
  have hfields : ∀ (fields : List HeadField) (x : Bytes), Unended EndsHead [] x →
      Unended EndsHead [] (x ++ fields.flatMap HeadField.line) := by
    intro fields
    induction fields with
    | nil =>
      intro x hx
      rwa [List.flatMap_nil, List.append_nil]
    | cons f fields ih =>
      intro x hx
      rw [List.flatMap_cons, ← List.append_assoc]
      exact ih _ (hx.append (f.line_unended x))
  have hlines := hfields h.fields h.line (h.line_unended [])
  have hcr : Unended EndsHead [] (h.line ++ h.fields.flatMap HeadField.line ++ [CR]) := by
    refine hlines.append ?_
    intro z hz hne
    obtain rfl : z = [CR] := by
      obtain rfl | hz := List.prefix_concat_iff.mp (show z <+: [] ++ [CR] from hz)
      · rfl
      · exact absurd (List.prefix_nil.mp hz) hne
    exact not_endsHead_of_ne (by decide)
  have hpiece : Piece EndsHead (h.line ++ h.fields.flatMap HeadField.line ++ [CR] ++ [LF]) := by
    refine piece_of_unended hcr (endsHead_concat.mpr ⟨rfl, Or.inr (lfcr_suffix_concat.mpr ⟨rfl, ?_⟩)⟩)
    obtain hnil | ⟨fields, f, hf⟩ := List.eq_nil_or_concat h.fields
    · rw [hnil]
      exact ⟨h.t0 ++ SP :: (h.t1 ++ SP :: (h.t2 ++ [CR])), by simp [EncodedHead.line]⟩
    · rw [hf]
      exact ⟨h.line ++ (fields.flatMap HeadField.line ++
        (f.name ++ COLON :: (List.replicate f.spaces SP ++ (f.value ++ [CR])))), by simp [HeadField.line]⟩
  have htext : h.text = h.line ++ h.fields.flatMap HeadField.line ++ [CR] ++ [LF] := by simp [EncodedHead.text]
  rwa [htext]

/-- A head with as many bytes behind it as it tells of is read as what it tells. -/
theorem EncodedHead.reads {h : EncodedHead} {bare : Bool} {v : View}
    (htold : ∀ r, Tells h {} r → r.code.toNat = v.code ∧ r.contentType.bytes = v.type ∧ bodyLength bare r = v.body.length) :
    ReadsAs readResponse bare (h.text ++ v.body) v := by
  have hpiece := h.piece
  constructor
  · intro rest
    obtain ⟨st, n, hparse⟩ := httpParseIncremental_head (p := h.text) (x := h.text ++ v.body ++ rest)
      ⟨v.body ++ rest, by simp⟩ hpiece.ended hpiece.nonEmpty
    obtain ⟨r, hresp, htells⟩ := http_resp_tells h (v.body ++ rest) {}
    obtain ⟨hcode, htype, hbody⟩ := htold r htells
    rw [← List.append_assoc] at hresp
    unfold readResponse
    rw [hparse]
    dsimp only
    rw [hresp, hcode, htype, hbody]
    dsimp only
    rw [if_pos (by simp), List.append_assoc, List.drop_left, List.take_left, ← List.append_assoc,
      ← List.length_append, List.drop_left]
  · intro p hp hne
    unfold readResponse
    by_cases hlen : h.text.length ≤ p.length
    · obtain ⟨part, rfl⟩ := List.prefix_of_prefix_length_le (List.prefix_append _ _) hp hlen
      have hpart : part.length < v.body.length := by
        have hpre := (List.prefix_append_right_inj _).mp hp
        refine lt_of_le_of_ne hpre.length_le fun heq => hne ?_
        rw [hpre.eq_of_length heq]
      obtain ⟨st, n, hparse⟩ := httpParseIncremental_head (p := h.text) (x := h.text ++ part) (List.prefix_append _ _)
        hpiece.ended hpiece.nonEmpty
      obtain ⟨r, hresp, htells⟩ := http_resp_tells h part {}
      obtain ⟨-, -, hbody⟩ := htold r htells
      rw [hparse]
      dsimp only
      rw [hresp, hbody]
      dsimp only
      rw [if_neg (by rw [List.length_append]; omega)]
    · have hpre : p <+: h.text := List.prefix_of_prefix_length_le hp (List.prefix_append _ _) (by omega)
      obtain ⟨st, n, hparse⟩ := httpParseIncremental_none (x := p) fun z hz hne hends => by
        have hwhole := hpiece.first z (hz.trans hpre) hne hends
        have hle := hz.length_le
        rw [hwhole] at hle
        exact hlen hle
      rw [hparse]

end Ashttpd
