import Ashttpd.QueuedAnswers

/-!
# Blank lines in a response

A client takes the header of a response to end at the first blank line. In a header that `handle_get` puts
together that is its end, unless the type of the file has a blank line in it; a page stands behind one.
-/
namespace Ashttpd

def blankLine : Bytes := [CR, LF, CR, LF]

/-- What stands behind the first blank line. -/
def behindBlankLine : Bytes → Option Bytes
  | [] => none
  | b :: bs => if blankLine <+: b :: bs then some (bs.drop 3) else behindBlankLine bs

variable {x y r : Bytes} {c : UInt8}

theorem behindBlankLine_append (h : behindBlankLine x = some r) (y : Bytes) :
    behindBlankLine (x ++ y) = some (r ++ y) := by
  induction x with
  | nil => cases h
  | cons b x ih =>
    unfold behindBlankLine at h
    rw [List.cons_append, behindBlankLine]
    split at h
    · next hpre =>
      have hlen : 4 ≤ (b :: x).length := hpre.length_le
      cases h
      rw [← List.cons_append, if_pos (hpre.trans (List.prefix_append _ _)), List.drop_append_of_le_length]
      simpa using hlen
    · next hpre =>
      have hnot : ¬ blankLine <+: b :: (x ++ y) := by
        intro hlong
        by_cases hlen : 4 ≤ (b :: x).length
        · exact hpre (List.prefix_of_prefix_length_le hlong (by rw [← List.cons_append]; exact List.prefix_append _ _) hlen)
        · have hnone : behindBlankLine x = none := by
            cases x with
            | nil => rfl
            | cons b₁ x =>
              cases x with
              | nil => simp [behindBlankLine, blankLine]
              | cons b₂ x =>
                cases x with
                | nil => simp [behindBlankLine, blankLine]
                | cons b₃ x => simp at hlen
          rw [hnone] at h
          cases h
      rw [if_neg hnot]
      exact ih h

theorem behindBlankLine_skip (hcr : CR ∉ x) (y : Bytes) : behindBlankLine (x ++ y) = behindBlankLine y := by
  induction x with
  | nil => rfl
  | cons b x ih =>
    rw [List.mem_cons, not_or] at hcr
    have hnot : ¬ blankLine <+: b :: (x ++ y) := fun hpre => hcr.1 (List.cons_prefix_cons.mp hpre).1
    rw [List.cons_append, behindBlankLine, if_neg hnot]
    exact ih hcr.2

theorem behindBlankLine_newline (hc : c ≠ CR) (y : Bytes) :
    behindBlankLine (CR :: LF :: c :: y) = behindBlankLine (c :: y) := by
  have hnot : ¬ blankLine <+: CR :: LF :: c :: y := by
    intro hpre
    have htail := (List.cons_prefix_cons.mp (List.cons_prefix_cons.mp hpre).2).2
    exact hc (List.cons_prefix_cons.mp htail).1.symm
  have hnot' : ¬ blankLine <+: LF :: c :: y := fun hpre =>
    absurd (List.cons_prefix_cons.mp hpre).1 (by decide)
  rw [behindBlankLine, if_neg hnot, behindBlankLine, if_neg hnot']

/-- A line without a blank line in it or at its end may be skipped. -/
theorem behindBlankLine_line (hx : behindBlankLine (x ++ [CR, LF]) = none) (hc : c ≠ CR) (y : Bytes) :
    behindBlankLine (x ++ CR :: LF :: c :: y) = behindBlankLine (c :: y) := by
  induction x with
  | nil => exact behindBlankLine_newline hc y
  | cons b x ih =>
    rw [List.cons_append, behindBlankLine] at hx
    split at hx
    · cases hx
    · next hpre =>
      have hnot : ¬ blankLine <+: b :: (x ++ CR :: LF :: c :: y) := by
        intro hlong
        cases x with
        | nil =>
          have htail := (List.cons_prefix_cons.mp hlong).2
          exact absurd (List.cons_prefix_cons.mp htail).1 (by decide)
        | cons b₁ x =>
          refine hpre (List.prefix_of_prefix_length_le hlong ?_ (by simp [blankLine]))
          exact ⟨c :: y, by simp⟩
      rw [List.cons_append, behindBlankLine, if_neg hnot]
      exact ih hx

def EndsAtBlankLine (bs : Bytes) : Prop := ∀ rest, behindBlankLine bs = some rest → rest = []

theorem EndsAtBlankLine.of_prefix {p text : Bytes} (ht : EndsAtBlankLine text) (hp : p <+: text) :
    EndsAtBlankLine p := by
  intro rest hrest
  obtain ⟨tail, rfl⟩ := hp
  have hnil := ht _ (behindBlankLine_append hrest tail)
  exact (List.append_eq_nil_iff.mp hnil).1

def HasPage (text : Bytes) : Prop := ∃ rest, behindBlankLine text = some rest ∧ rest ≠ []

instance (text : Bytes) : Decidable (HasPage text) :=
  inferInstanceAs (Decidable (∃ rest ∈ behindBlankLine text, rest ≠ []))

theorem hasPage_iff (text : Bytes) : HasPage text ↔ ¬ EndsAtBlankLine text := by
  unfold HasPage EndsAtBlankLine
  push Not
  rfl

theorem hasPage_of_append (front : Bytes) (c : UInt8) (tail : Bytes) : HasPage (front ++ blankLine ++ c :: tail) := by
  have hfound : ∃ rest, behindBlankLine (front ++ blankLine) = some rest := by
    induction front with
    | nil => exact ⟨[], by decide⟩
    | cons b front ih =>
      rw [List.cons_append, behindBlankLine]
      split
      · exact ⟨_, rfl⟩
      · exact ih
  obtain ⟨rest, hrest⟩ := hfound
  exact ⟨rest ++ c :: tail, behindBlankLine_append hrest (c :: tail), by simp⟩

theorem hasPage_redirectText (host loc : Bytes) : HasPage (redirectText host loc) := by
  obtain ⟨c, tail, heq⟩ := redirectText_eq host loc
  rw [heq]
  exact hasPage_of_append _ c tail

theorem cr_notMem_decimal (n : ℕ) : CR ∉ decimal n := by
  unfold decimal
  rw [List.mem_map]
  rintro ⟨c, hc, heq⟩
  have hdigit := Nat.isDigit_of_mem_toDigits (by decide) (by decide) hc
  have hbounds : 48 ≤ c.toNat ∧ c.toNat ≤ 57 := by simpa [Char.isDigit_iff_toNat] using hdigit
  have hnat : c.toNat % 256 = 13 := congrArg UInt8.toNat heq
  omega

theorem cr_notMem_decimal2 (n : ℕ) : CR ∉ decimal2 n := by
  unfold decimal2
  split
  · rw [List.mem_cons, not_or]
    exact ⟨by decide, cr_notMem_decimal n⟩
  · exact cr_notMem_decimal n

theorem cr_notMem_decimal4 (n : ℕ) : CR ∉ decimal4 n := by
  unfold decimal4
  rw [List.mem_append, not_or, List.mem_replicate]
  exact ⟨fun h => absurd h.2 (by decide), cr_notMem_decimal n⟩

theorem cr_notMem_printEtag (etag : Bytes) : CR ∉ printEtag etag := by
  have hall : ∀ b : UInt8, CR ∉ [etagHex.getD (b >>> 4).toNat 0, etagHex.getD (b &&& 0xf).toNat 0] :=
    forall_byte (by decide +kernel)
  unfold printEtag
  rw [List.mem_flatMap]
  rintro ⟨b, -, hb⟩
  exact hall b hb

theorem cr_notMem_getD {names : List Bytes} (h : ∀ name ∈ names, CR ∉ name) (n : ℕ) : CR ∉ names.getD n [] := by
  rw [List.getD_eq_getElem?_getD]
  cases hn : names[n]? with
  | none => simp
  | some name => exact h name (List.mem_of_getElem? hn)

theorem cr_notMem_timeText (tm : Tm) : CR ∉ timeText tm := by
  have hday := cr_notMem_getD (by decide : ∀ name ∈ dayofweek, CR ∉ name) tm.tmWday
  have hmonth := cr_notMem_getD (by decide : ∀ name ∈ monthofyear, CR ∉ name) (tm.tmMon - 1)
  have htexts : CR ∉ ascii ", " ∧ CR ∉ ascii " " ∧ CR ∉ ascii ":" ∧ CR ∉ ascii " GMT" := by decide
  obtain ⟨hcomma, hspace, hcolon, hgmt⟩ := htexts
  unfold timeText
  simp only [List.mem_append, cr_notMem_decimal2, cr_notMem_decimal4, hday, hmonth, hcomma, hspace, hcolon, hgmt,
    or_false, not_false_iff]

theorem behindBlankLine_label (label : Bytes) (hlabel : label = CR :: LF :: c :: x) (hcr : CR ∉ c :: x) (y : Bytes) :
    behindBlankLine (label ++ y) = behindBlankLine y := by
  have hc : c ≠ CR := by
    rintro rfl
    exact hcr List.mem_cons_self
  rw [hlabel, List.cons_append, List.cons_append, List.cons_append, behindBlankLine_newline hc, ← List.cons_append,
    behindBlankLine_skip hcr]

/-- What is behind the line with the type of the file in a header. -/
def headerEnd (g : GetHeader) : Bytes :=
  ascii "Content-Length: " ++ decimal g.contentLength ++ ascii "\r\nConnection: " ++
    (if g.connClose ≠ 0 then ascii "Close" else ascii "Keep-Alive") ++ ascii "\r\nETag: " ++
    printEtag g.etag ++ ascii "\r\nLast-Modified: " ++ timeText (gmtime g.mtime.toNat) ++
    ascii "\r\nServer: ashttpd\r\n\r\n"

/-- The part of a header before the type has no blank line. -/
theorem behindBlankLine_headerText (g : GetHeader) :
    behindBlankLine (headerText g) = behindBlankLine (g.mimeType ++ CR :: LF :: headerEnd g) := by
  have hdigits : ∀ d < 10, CR ≠ 48 + UInt8.ofNat d := by decide
  have hcode : CR ∉ [g.code / 100 % 10, g.code / 10 % 10, g.code % 10].map fun d => 48 + UInt8.ofNat d := by
    simp only [List.map_cons, List.map_nil, List.mem_cons, List.not_mem_nil, or_false, not_or]
    exact ⟨hdigits _ (Nat.mod_lt _ (by decide)), hdigits _ (Nat.mod_lt _ (by decide)),
      hdigits _ (Nat.mod_lt _ (by decide))⟩
  have hreason : CR ∉ reasonPhrase g.code := by
    unfold reasonPhrase
    split
    · decide
    · split
      · decide
      · decide
  unfold headerText headerEnd
  simp only [List.append_assoc]
  rw [behindBlankLine_skip (by decide), behindBlankLine_skip hcode, behindBlankLine_skip hreason,
    behindBlankLine_label (ascii "\r\nContent-Type: ") rfl (by decide)]
  rfl

theorem behindBlankLine_headerEnd (g : GetHeader) : behindBlankLine (headerEnd g) = some [] := by
  have hconn : CR ∉ if g.connClose ≠ 0 then ascii "Close" else ascii "Keep-Alive" := by
    split
    · decide
    · decide
  unfold headerEnd
  simp only [List.append_assoc]
  rw [behindBlankLine_skip (by decide), behindBlankLine_skip (cr_notMem_decimal _),
    behindBlankLine_label (ascii "\r\nConnection: ") rfl (by decide), behindBlankLine_skip hconn,
    behindBlankLine_label (ascii "\r\nETag: ") rfl (by decide), behindBlankLine_skip (cr_notMem_printEtag _),
    behindBlankLine_label (ascii "\r\nLast-Modified: ") rfl (by decide), behindBlankLine_skip (cr_notMem_timeText _)]
  decide

theorem behindBlankLine_of_clean {g : GetHeader} (hclean : behindBlankLine (g.mimeType ++ [CR, LF]) = none) :
    behindBlankLine (headerText g) = some [] := by
  obtain ⟨tail, hend⟩ : ∃ tail, headerEnd g = 67 :: tail := ⟨_, rfl⟩
  rw [behindBlankLine_headerText, hend, behindBlankLine_line hclean (by decide), ← hend, behindBlankLine_headerEnd]

theorem hasPage_headerText_iff (g : GetHeader) :
    HasPage (headerText g) ↔ behindBlankLine (g.mimeType ++ [CR, LF]) ≠ none := by
  constructor
  · rintro ⟨rest, hrest, hne⟩ hnone
    cases hrest.symm.trans (behindBlankLine_of_clean hnone)
    exact hne rfl
  · intro hsome
    obtain ⟨rest, hrest⟩ := Option.ne_none_iff_exists'.mp hsome
    refine ⟨rest ++ headerEnd g, ?_, by simp [headerEnd, ascii]⟩
    rw [behindBlankLine_headerText, ← behindBlankLine_append hrest (headerEnd g), List.append_assoc]
    rfl

end Ashttpd
