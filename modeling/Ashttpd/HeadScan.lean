import Ashttpd.HttpParse
import Ashttpd.StreamCutting

/-!
# What the two head parsers see

The incremental scanner is tied to the bytes before it: its state says how they end, and it
completes at the first line feed that follows a line feed or a line feed and a carriage
return. The decoder is tied to the bytes as well, by saying over which runs of bytes it
stays in a state and how far its result depends on the buffer.
-/
namespace Ashttpd

def EndsHead (x : Bytes) : Prop := [LF, LF] <:+ x ∨ [LF, CR, LF] <:+ x

instance (x : Bytes) : Decidable (EndsHead x) := inferInstanceAs (Decidable (_ ∨ _))

theorem concat_suffix_concat {α : Type*} {s x : List α} {a c : α} :
    s ++ [a] <:+ x ++ [c] ↔ a = c ∧ s <:+ x := by
  rw [← List.reverse_prefix, List.reverse_append, List.reverse_append, List.reverse_singleton,
    List.reverse_singleton, List.singleton_append, List.singleton_append, List.cons_prefix_cons,
    List.reverse_prefix]

theorem lf_suffix_concat {x : Bytes} {c : UInt8} : [LF] <:+ x ++ [c] ↔ LF = c := by
  rw [← List.nil_append [LF], concat_suffix_concat]
  exact and_iff_left (List.nil_suffix)

theorem lfcr_suffix_concat {x : Bytes} {c : UInt8} :
    [LF, CR] <:+ x ++ [c] ↔ CR = c ∧ [LF] <:+ x :=
  concat_suffix_concat (s := [LF])

theorem endsHead_concat {x : Bytes} {c : UInt8} :
    EndsHead (x ++ [c]) ↔ LF = c ∧ ([LF] <:+ x ∨ [LF, CR] <:+ x) := by
  have h1 : [LF, LF] <:+ x ++ [c] ↔ LF = c ∧ [LF] <:+ x := concat_suffix_concat (s := [LF])
  have h2 : [LF, CR, LF] <:+ x ++ [c] ↔ LF = c ∧ [LF, CR] <:+ x :=
    concat_suffix_concat (s := [LF, CR])
  rw [EndsHead, h1, h2, and_or_left]

/-- What a state of the scanner says about the bytes before it. -/
def Rstate.Tracks : Rstate → Bytes → Prop
  | .lf, x | .crlf, x => [LF] <:+ x
  | .lfcr, x | .crlfcr, x => [LF, CR] <:+ x
  | .initial, x | .cr, x => ¬ [LF] <:+ x ∧ ¬ [LF, CR] <:+ x
  | _, x => EndsHead x

theorem Rstate.tracks_initial : Rstate.initial.Tracks [] := by
  constructor <;> simp

def rstateStep (st : Rstate) (c : UInt8) : Option Rstate :=
  if c = CR then crMap st else if c = LF then lfMap st else some .initial

theorem not_lf_of_lfcr {x : Bytes} (h : [LF, CR] <:+ x) : ¬ [LF] <:+ x := by
  obtain ⟨t, rfl⟩ := h
  have hsplit : t ++ [LF, CR] = (t ++ [LF]) ++ [CR] := by simp
  rw [hsplit, lf_suffix_concat]
  decide

/-- One byte keeps the state true to the bytes, and ends a head exactly when they do. -/
theorem Rstate.Tracks.step {st : Rstate} {x : Bytes} (h : st.Tracks x)
    (hn : st.terminal = false) (c : UInt8) :
    ∃ st', rstateStep st c = some st' ∧ st'.Tracks (x ++ [c]) ∧
      (st'.terminal = true ↔ EndsHead (x ++ [c])) := by
  rw [endsHead_concat]
  by_cases hcr : c = CR
  · subst hcr
    have hne : LF ≠ CR := by decide
    simp only [rstateStep, if_true, hne, false_and]
    cases st with
    | initial | cr =>
      refine ⟨.cr, rfl, ?_, by simp [terminal]⟩
      rw [Tracks, lf_suffix_concat, lfcr_suffix_concat]
      exact ⟨hne, fun he => h.1 he.2⟩
    | lf => exact ⟨.lfcr, rfl, lfcr_suffix_concat.mpr ⟨rfl, h⟩, by simp [terminal]⟩
    | crlf => exact ⟨.crlfcr, rfl, lfcr_suffix_concat.mpr ⟨rfl, h⟩, by simp [terminal]⟩
    | lfcr | crlfcr =>
      refine ⟨.cr, rfl, ?_, by simp [terminal]⟩
      rw [Tracks, lf_suffix_concat, lfcr_suffix_concat]
      exact ⟨hne, fun he => not_lf_of_lfcr h he.2⟩
    | lflf | crlflf | lfcrlf | crlfcrlf => simp [terminal] at hn
  · by_cases hl : c = LF
    · subst hl
      simp only [rstateStep, hcr, if_true, if_false, true_and]
      cases st with
      | initial =>
        exact ⟨.lf, rfl, lf_suffix_concat.mpr rfl, iff_of_false (by decide) (not_or.mpr h)⟩
      | cr =>
        exact ⟨.crlf, rfl, lf_suffix_concat.mpr rfl, iff_of_false (by decide) (not_or.mpr h)⟩
      | lf => exact ⟨.lflf, rfl, endsHead_concat.mpr ⟨rfl, .inl h⟩, iff_of_true rfl (.inl h)⟩
      | crlf => exact ⟨.crlflf, rfl, endsHead_concat.mpr ⟨rfl, .inl h⟩, iff_of_true rfl (.inl h)⟩
      | lfcr => exact ⟨.lfcrlf, rfl, endsHead_concat.mpr ⟨rfl, .inr h⟩, iff_of_true rfl (.inr h)⟩
      | crlfcr =>
        exact ⟨.crlfcrlf, rfl, endsHead_concat.mpr ⟨rfl, .inr h⟩, iff_of_true rfl (.inr h)⟩
      | lflf | crlflf | lfcrlf | crlfcrlf => simp [terminal] at hn
    · simp only [rstateStep, hcr, hl, if_false]
      refine ⟨.initial, rfl, ?_, ?_⟩
      · rw [Tracks, lf_suffix_concat, lfcr_suffix_concat]
        exact ⟨fun he => hl he.symm, fun he => hcr he.1.symm⟩
      · simp [terminal, Ne.symm hl]

/-- No part of `y` that is read after `x` ends a head. -/
def NoHead (x y : Bytes) : Prop := ∀ z, z <+: y → z ≠ [] → ¬ EndsHead (x ++ z)

theorem noHead_nil (x : Bytes) : NoHead x [] :=
  fun _ hz hne => absurd (List.prefix_nil.mp hz) hne

theorem noHead_cons {x y : Bytes} {c : UInt8} :
    NoHead x (c :: y) ↔ ¬ EndsHead (x ++ [c]) ∧ NoHead (x ++ [c]) y :=
  @unended_cons _ EndsHead x y c

theorem httpParseIncremental_cons {st st' : Rstate} {c : UInt8} (h : rstateStep st c = some st')
    (cs : Bytes) : httpParseIncremental st (c :: cs) =
      if st'.terminal then .ok (true, st', 0)
      else (httpParseIncremental st' cs).map rptrNext := by
  rw [httpParseIncremental]
  by_cases hcr : c = CR
  · rw [rstateStep, if_pos hcr] at h
    simp only [hcr, true_or, if_true, h]
  · by_cases hlf : c = LF
    · rw [rstateStep, if_neg hcr, if_pos hlf] at h
      have hne : LF ≠ CR := by decide
      simp only [hlf, or_true, if_true, hne, if_false, h]
    · rw [rstateStep, if_neg hcr, if_neg hlf] at h
      obtain rfl : Rstate.initial = st' := Option.some.inj h
      simp only [hcr, hlf, or_self, if_false, Rstate.terminal, Bool.false_eq_true]

/-- The scanner stops on the first byte that ends a head, or takes all bytes if none does. -/
theorem httpParseIncremental_spec {st : Rstate} {x : Bytes} (h : st.Tracks x)
    (hn : st.terminal = false) (y : Bytes) :
    (∃ st' z c s, y = z ++ c :: s ∧ httpParseIncremental st y = .ok (true, st', z.length) ∧
      NoHead x z ∧ EndsHead (x ++ (z ++ [c]))) ∨
    (∃ st', httpParseIncremental st y = .ok (false, st', y.length) ∧ st'.Tracks (x ++ y) ∧
      st'.terminal = false ∧ NoHead x y) := by
  induction y generalizing st x with
  | nil => exact .inr ⟨st, rfl, by rwa [List.append_nil], hn, noHead_nil x⟩
  | cons c y ih =>
    obtain ⟨st', hstep, htracks, hterm⟩ := h.step hn c
    rw [httpParseIncremental_cons hstep]
    by_cases ht : st'.terminal = true
    · exact .inl ⟨st', [], c, y, rfl, by rw [if_pos ht]; rfl, noHead_nil x, hterm.mp ht⟩
    · have hnot : ¬ EndsHead (x ++ [c]) := fun he => ht (hterm.mpr he)
      rw [if_neg ht]
      rcases ih htracks (Bool.eq_false_iff.mpr ht) with
        ⟨st'', z, c', s, rfl, hrun, hno, hend⟩ | ⟨st'', hrun, htr, hnt, hno⟩
      · refine .inl ⟨st'', c :: z, c', s, rfl, by rw [hrun]; rfl, noHead_cons.mpr ⟨hnot, hno⟩, ?_⟩
        rwa [List.append_assoc] at hend
      · refine .inr ⟨st'', by rw [hrun]; rfl, ?_, hnt, noHead_cons.mpr ⟨hnot, hno⟩⟩
        rwa [List.append_assoc] at htr

/-- A head is complete with its last byte. -/
theorem endsHead_of_complete {b : Bytes} {st : Rstate} {n : ℕ}
    (h : httpParseIncremental .initial b = .ok (true, st, n)) (hn : n + 1 = b.length) :
    EndsHead b := by
  rcases httpParseIncremental_spec Rstate.tracks_initial rfl b with
    ⟨st', z, c, s, rfl, hrun, -, hend⟩ | ⟨st', hrun, -⟩
  · rw [hrun] at h
    obtain rfl : z.length = n := by
      have := Except.ok.inj h
      exact congrArg (fun r => r.2.2) this
    have hnil : s = [] := by
      rw [List.length_append, List.length_cons] at hn
      exact List.length_eq_zero_iff.mp (by omega)
    rwa [hnil]
  · rw [hrun] at h
    cases h

end Ashttpd
