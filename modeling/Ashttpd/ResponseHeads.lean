import Ashttpd.HttpResp
import Ashttpd.QueuedAnswers

/-!
# Heads of responses

What `handle_get` and the pages put at the front of a response is a head as `http_resp` reads it: the
parser tells the code, the type and the length that were put in.
-/
namespace Ashttpd

def Graphic (bs : Bytes) : Prop := ∀ b ∈ bs, 32 ≤ b.toNat

instance (bs : Bytes) : Decidable (Graphic bs) := List.decidableBAll (fun b : UInt8 => 32 ≤ b.toNat) bs

variable {x y : Bytes} {n : ℕ}

theorem Graphic.lf (h : Graphic x) : LF ∉ x := fun hmem => absurd (h LF hmem) (by decide)

theorem Graphic.append (hx : Graphic x) (hy : Graphic y) : Graphic (x ++ y) := by
  intro b hb
  obtain hb | hb := List.mem_append.mp hb
  · exact hx b hb
  · exact hy b hb

theorem decimal_digits {b : UInt8} (hb : b ∈ decimal n) : isdigit b = true := by
  obtain ⟨c, hc, rfl⟩ := List.mem_map.mp hb
  have hdigit := Nat.isDigit_of_mem_toDigits (by decide) (by decide) hc
  have hbounds : 48 ≤ c.toNat ∧ c.toNat ≤ 57 := by simpa [Char.isDigit_iff_toNat] using hdigit
  have hall : ∀ k < 58, 48 ≤ k → isdigit (UInt8.ofNat k) = true := by decide
  exact hall _ (by omega) hbounds.1

theorem isdigit_graphic (b : UInt8) (h : isdigit b = true) : 32 ≤ b.toNat ∧ b ≠ SP := by
  unfold isdigit at h
  rw [Bool.and_eq_true, decide_eq_true_iff, decide_eq_true_iff, UInt8.le_iff_toNat_le] at h
  have hlow : 48 ≤ b.toNat := h.1
  refine ⟨by omega, ?_⟩
  rintro rfl
  exact absurd hlow (by decide)

theorem graphic_decimal (n : ℕ) : Graphic (decimal n) := fun _ hb => (isdigit_graphic _ (decimal_digits hb)).1

theorem graphic_decimal2 (n : ℕ) : Graphic (decimal2 n) := by
  unfold decimal2
  split
  · intro b hb
    obtain rfl | hb := List.mem_cons.mp hb
    · decide
    · exact graphic_decimal n b hb
  · exact graphic_decimal n

theorem graphic_decimal4 (n : ℕ) : Graphic (decimal4 n) := by
  refine Graphic.append (fun b hb => ?_) (graphic_decimal n)
  rw [List.eq_of_mem_replicate hb]
  decide

theorem printEtag_alnum (etag : Bytes) : ∀ b ∈ printEtag etag, 32 ≤ b.toNat ∧ b ≠ SP := by
  have hdigit : ∀ i < 16, 32 ≤ (etagHex.getD i 0).toNat ∧ etagHex.getD i 0 ≠ SP := by decide
  intro b hb
  rw [printEtag_eq] at hb
  obtain ⟨n, hn, rfl⟩ := List.mem_map.mp hb
  exact hdigit _ (nibble_lt hn)

theorem graphic_getD {names : List Bytes} (h : ∀ name ∈ names, Graphic name) (n : ℕ) : Graphic (names.getD n []) := by
  rw [List.getD_eq_getElem?_getD]
  cases hn : names[n]? with
  | none => exact fun b hb => by cases hb
  | some name => exact h name (List.mem_of_getElem? hn)

theorem graphic_timeText (tm : Tm) : Graphic (timeText tm) := by
  have hday := graphic_getD (by decide : ∀ name ∈ dayofweek, Graphic name) tm.tmWday
  have hmonth := graphic_getD (by decide : ∀ name ∈ monthofyear, Graphic name) (tm.tmMon - 1)
  have hcomma : Graphic (ascii ", ") := by decide
  have hspace : Graphic (ascii " ") := by decide
  have hcolon : Graphic (ascii ":") := by decide
  have hgmt : Graphic (ascii " GMT") := by decide
  have hdate := ((hday.append hcomma).append (graphic_decimal2 tm.tmMday)).append hspace
  have hyear := ((hdate.append hmonth).append hspace).append (graphic_decimal4 (tm.tmYear + 1900))
  have hhour := ((hyear.append hspace).append (graphic_decimal2 tm.tmHour)).append hcolon
  exact (((hhour.append (graphic_decimal2 tm.tmMin)).append hcolon).append (graphic_decimal2 tm.tmSec)).append hgmt

theorem head?_ne_space (h : ∀ b ∈ x, b ≠ SP) : x.head? ≠ some SP := fun hsp => h SP (List.mem_of_head? hsp) rfl

theorem timeText_head (t : UInt32) : (timeText (gmtime t.toNat)).head? ≠ some SP := by
  obtain ⟨hwday, -⟩ := gmtime_bounds t.toNat
  have hall : ∀ n < 7, ∃ c ∈ (dayofweek.getD n []).head?, c ≠ SP := by decide
  obtain ⟨c, hc, hne⟩ := hall _ hwday
  unfold timeText
  simp only [List.append_assoc]
  rw [List.head?_append, hc]
  exact fun hsp => hne (Option.some.inj hsp)

theorem leadingDigits_of_digits (h : ∀ b ∈ x, isdigit b = true) : leadingDigits x = x :=
  List.takeWhile_eq_self_iff.mpr h

/-- A number that was printed is read. -/
theorem digitsValue_decimal (n : ℕ) : digitsValue (decimal n) = n := by
  have hfold : ∀ (cs : List Char) (u : ℕ), (∀ c ∈ cs, c.isDigit = true) →
      (cs.map fun c => UInt8.ofNat c.toNat).foldl (fun u c => u * 10 + (c.toNat - 48)) u = Nat.ofDigitChars 10 cs u := by
    intro cs u hcs
    induction cs generalizing u with
    | nil => rfl
    | cons c cs ih =>
      obtain ⟨hc, hcs⟩ := List.forall_mem_cons.mp hcs
      have hbounds : 48 ≤ c.toNat ∧ c.toNat ≤ 57 := by simpa [Char.isDigit_iff_toNat] using hc
      have hbyte : (UInt8.ofNat c.toNat).toNat = c.toNat := by
        rw [UInt8.toNat_ofNat']
        omega
      rw [List.map_cons, List.foldl_cons, ih _ hcs, Nat.ofDigitChars_cons, hbyte, Nat.mul_comm]
      rfl
  have hdigits : ∀ c ∈ Nat.toDigits 10 n, c.isDigit = true := fun c hc =>
    Nat.isDigit_of_mem_toDigits (by decide) (by decide) hc
  rw [digitsValue, decimal, hfold _ _ hdigits, Nat.ofDigitChars_ten_toDigits]

theorem htypeInt_decimal (n : ℕ) : htypeInt ⟨none, decimal n⟩ =
    if n % 2 ^ 32 ≤ INT_MAX then ((n % 2 ^ 32 : ℕ) : ℤ) else -1 := by
  have hlead : leadingDigits (decimal n) = decimal n := leadingDigits_of_digits fun _ => decimal_digits
  have hne : leadingDigits (decimal n) ≠ [] := by
    rw [hlead]
    exact List.ne_nil_of_length_pos (length_decimal_pos n)
  rw [htypeInt_eq (v := ⟨none, decimal n⟩) hne]
  simp only [hlead, digitsValue_decimal]

def codeText (code : ℕ) : Bytes := [code / 100 % 10, code / 10 % 10, code % 10].map fun d => 48 + UInt8.ofNat d

theorem codeDigit : ∀ d < 10, isdigit (48 + UInt8.ofNat d) = true ∧ (48 + UInt8.ofNat d).toNat - 48 = d := by decide

theorem codeText_digits (code : ℕ) : ∀ b ∈ codeText code, isdigit b = true := by
  intro b hb
  unfold codeText at hb
  simp only [List.map_cons, List.map_nil, List.mem_cons, List.not_mem_nil, or_false] at hb
  obtain rfl | rfl | rfl := hb
  · exact (codeDigit _ (Nat.mod_lt _ (by decide))).1
  · exact (codeDigit _ (Nat.mod_lt _ (by decide))).1
  · exact (codeDigit _ (Nat.mod_lt _ (by decide))).1

/-- A code that was printed is read. -/
theorem htypeCode_codeText {code : ℕ} (hcode : code < 1000) : (htypeCode ⟨none, codeText code⟩).toNat = code := by
  obtain ⟨hval, hlen⟩ := vtouint_eq (codeText code)
  have hlead : leadingDigits (codeText code) = codeText code := leadingDigits_of_digits (codeText_digits code)
  have hsum : digitsValue (codeText code) = code := by
    unfold digitsValue codeText
    simp only [List.map_cons, List.map_nil, List.foldl_cons, List.foldl_nil, (codeDigit _ (Nat.mod_lt _ (by decide))).2]
    omega
  have hthree : (vtouint (codeText code)).2 = 3 := by
    rw [hlen, hlead]
    rfl
  rw [hlead, hsum, Nat.mod_eq_of_lt (by omega)] at hval
  unfold htypeCode
  simp only [hthree]
  have hle : ¬ (3 ≠ 3 ∨ 999 < (vtouint (codeText code)).1) := by
    rw [UInt32.lt_iff_toNat_lt, hval]
    rintro (hthree | hlarge)
    · exact hthree rfl
    · have hbound : (999 : UInt32).toNat = 999 := rfl
      omega
  rw [if_neg hle, UInt32.toNat_toUInt16, hval]
  omega

/-- A name of a field. -/
structure IsName (name : Bytes) : Prop where
  colon : COLON ∉ name
  line : LF ∉ name

/-- A text that can stand behind the name of a field. -/
structure IsValue (value : Bytes) : Prop where
  line : LF ∉ value
  space : value.head? ≠ some SP

def printedField (name value : Bytes) (hname : IsName name) (hvalue : IsValue value) : HeadField :=
  ⟨name, 1, value, hname.colon, hname.line, hvalue.line, hvalue.space⟩

theorem contentType_name : IsName (ascii "Content-Type") := ⟨by decide, by decide⟩

theorem contentLength_name : IsName (ascii "Content-Length") := ⟨by decide, by decide⟩

theorem connection_name : IsName (ascii "Connection") := ⟨by decide, by decide⟩

theorem etag_name : IsName (ascii "ETag") := ⟨by decide, by decide⟩

theorem lastModified_name : IsName (ascii "Last-Modified") := ⟨by decide, by decide⟩

theorem server_name : IsName (ascii "Server") := ⟨by decide, by decide⟩

theorem location_name : IsName (ascii "Location") := ⟨by decide, by decide⟩

theorem decimal_value (n : ℕ) : IsValue (decimal n) :=
  ⟨(graphic_decimal n).lf, head?_ne_space fun _ hb => (isdigit_graphic _ (decimal_digits hb)).2⟩

theorem close_value (close : ℕ) : IsValue (if close ≠ 0 then ascii "Close" else ascii "Keep-Alive") := by
  split
  · exact ⟨by decide, by decide⟩
  · exact ⟨by decide, by decide⟩

theorem printEtag_value (etag : Bytes) : IsValue (printEtag etag) :=
  ⟨Graphic.lf fun _ hb => (printEtag_alnum _ _ hb).1, head?_ne_space fun _ hb => (printEtag_alnum _ _ hb).2⟩

theorem timeText_value (t : UInt32) : IsValue (timeText (gmtime t.toNat)) := ⟨(graphic_timeText _).lf, timeText_head t⟩

theorem ashttpd_value : IsValue (ascii "ashttpd") := ⟨by decide, by decide⟩

theorem html_value : IsValue (ascii "text/html") := ⟨by decide, by decide⟩

theorem textPlain : IsValue (ascii "text/plain") := ⟨by decide, by decide⟩

theorem place_value {place : Bytes} (hplace : LF ∉ place) : IsValue (ascii "http://" ++ place) := by
  refine ⟨?_, (by decide : some (104 : UInt8) ≠ some SP)⟩
  rw [List.mem_append, not_or]
  exact ⟨by decide, hplace⟩

theorem version_word : ascii "HTTP/1.1" ≠ [] ∧ SP ∉ ascii "HTTP/1.1" ∧ LF ∉ ascii "HTTP/1.1" := by decide

theorem codeText_word (code : ℕ) : codeText code ≠ [] ∧ SP ∉ codeText code ∧ LF ∉ codeText code := by
  have hall := codeText_digits code
  refine ⟨by simp [codeText], ?_, Graphic.lf fun _ hb => (isdigit_graphic _ (hall _ hb)).1⟩
  exact fun hmem => (isdigit_graphic _ (hall _ hmem)).2 rfl

theorem reasonPhrase_value (code : ℕ) : IsValue (reasonPhrase code).tail := by
  unfold reasonPhrase
  split_ifs
  · exact ⟨by decide, by decide⟩
  · exact ⟨by decide, by decide⟩
  · exact ⟨by decide, by decide⟩

section header

variable {g : GetHeader}

/-- The words and fields of a header. -/
def headerHead (g : GetHeader) (htype : IsValue g.mimeType) : EncodedHead where
  t0 := ascii "HTTP/1.1"
  t1 := codeText g.code
  t2 := (reasonPhrase g.code).tail
  fields := [
    printedField (ascii "Content-Type") g.mimeType contentType_name htype,
    printedField (ascii "Content-Length") (decimal g.contentLength) contentLength_name (decimal_value _),
    printedField (ascii "Connection") (if g.connClose ≠ 0 then ascii "Close" else ascii "Keep-Alive") connection_name
      (close_value _),
    printedField (ascii "ETag") (printEtag g.etag) etag_name (printEtag_value _),
    printedField (ascii "Last-Modified") (timeText (gmtime g.mtime.toNat)) lastModified_name (timeText_value _),
    printedField (ascii "Server") (ascii "ashttpd") server_name ashttpd_value]
  word0 := version_word
  word1 := codeText_word g.code
  restLf := (reasonPhrase_value g.code).line
  restSpace := (reasonPhrase_value g.code).space

theorem headerHead_text (g : GetHeader) (htype : IsValue g.mimeType) : (headerHead g htype).text = headerText g := by
  have hreason : reasonPhrase g.code = SP :: (reasonPhrase g.code).tail := by
    unfold reasonPhrase
    split_ifs <;> rfl
  unfold headerText
  rw [hreason]
  simp only [EncodedHead.text, EncodedHead.line, headerHead, List.flatMap_cons, List.flatMap_nil, HeadField.line,
    printedField, codeText]
  simp [ascii, List.replicate]

/-- Whatever follows, `http_resp` reads the header of a file as it was meant, up to a length that does not fit
`int`. A length of zero is not stored. -/
theorem http_resp_header (hcode : g.code < 1000) (htype : IsValue g.mimeType) (rest : Bytes) (r : HttpResponse) :
    ∃ r', httpResp r (headerText g ++ rest) = ((headerText g).length, r') ∧ r'.code.toNat = g.code ∧
      r'.protoVers = HTTP_VER_1_1 ∧ (r'.connClose = 1 ↔ g.connClose ≠ 0) ∧ r'.contentType.bytes = g.mimeType ∧
      r'.contentLen = if 0 < g.contentLength % 2 ^ 32 ∧ g.contentLength % 2 ^ 32 ≤ INT_MAX
        then g.contentLength % 2 ^ 32 else r.contentLen := by
  obtain ⟨r', hread, htells⟩ := http_resp_tells (headerHead g htype) rest r
  rw [headerHead_text] at hread
  have hlen : (headerHead g htype).value (ascii "Content-Length") = some (decimal g.contentLength) := rfl
  have hconn : (headerHead g htype).value (ascii "Connection") =
      some (if g.connClose ≠ 0 then ascii "Close" else ascii "Keep-Alive") := rfl
  have hmime : (headerHead g htype).value (ascii "Content-Type") = some g.mimeType := rfl
  refine ⟨r', hread, ?_, htells.version, ?_, ?_, ?_⟩
  · rw [htells.code]
    exact htypeCode_codeText hcode
  · rw [htells.close, hconn]
    by_cases hclose : g.connClose = 0
    · simp only [hclose, ne_eq, not_true_eq_false, if_false, iff_false]
      decide
    · simp only [hclose, ne_eq, not_false_iff, if_true, iff_true]
      decide
  · rw [htells.type, hmime]
    rfl
  · rw [htells.length, hlen]
    simp only [Option.map_some, Option.getD_some, htypeInt_decimal]
    by_cases hle : g.contentLength % 2 ^ 32 ≤ INT_MAX
    · simp only [hle, if_true, and_true, Int.toNat_natCast, Int.natCast_pos]
    · simp only [hle, if_false, and_false]
      rfl

end header

theorem http_resp_header_three : ∃ r', httpResp {}
      (headerText ⟨200, ascii "text/plain", 4294967299, 1, [], 5000000⟩ ++ ascii "abc") =
        ((headerText ⟨200, ascii "text/plain", 4294967299, 1, [], 5000000⟩).length, r') ∧ r'.code.toNat = 200 ∧
      r'.protoVers = HTTP_VER_1_1 ∧ (r'.connClose = 1 ↔ (1 : ℕ) ≠ 0) ∧ r'.contentType.bytes = ascii "text/plain" ∧
      r'.contentLen = 3 :=
  http_resp_header (g := ⟨200, ascii "text/plain", 4294967299, 1, [], 5000000⟩) (by decide) textPlain (ascii "abc") {}

/-- The head of a page: a code with its words, a length, and maybe the place to go to. -/
def pageHead (code words len : Bytes) (more : List HeadField) (hcode : code ≠ [] ∧ SP ∉ code ∧ LF ∉ code)
    (hwords : IsValue words) (hlen : IsValue len) : EncodedHead where
  t0 := ascii "HTTP/1.1"
  t1 := code
  t2 := words
  fields := printedField (ascii "Content-Type") (ascii "text/html") contentType_name html_value ::
    printedField (ascii "Content-Length") len contentLength_name hlen :: more
  word0 := version_word
  word1 := hcode
  restLf := hwords.line
  restSpace := hwords.space

theorem missing_word : ascii "404" ≠ [] ∧ SP ∉ ascii "404" ∧ LF ∉ ascii "404" := by decide

theorem missing_value : IsValue (ascii "Object Not Found") ∧ IsValue (ascii "83") :=
  ⟨⟨by decide, by decide⟩, ⟨by decide, by decide⟩⟩

def missingHead : EncodedHead :=
  pageHead (ascii "404") (ascii "Object Not Found") (ascii "83") [] missing_word missing_value.1 missing_value.2

def missingPage : Bytes :=
  ["<html><head><title>Fuck Off</title></head>", "<body><h1>y u no find?</h1></body></html>"].flatMap ascii

theorem resp404_eq : resp404 = missingHead.text ++ missingPage := by
  simp only [resp404, missingHead, missingPage, pageHead, EncodedHead.text, EncodedHead.line, List.flatMap_cons,
    List.flatMap_nil, HeadField.line, printedField]
  simp [ascii, List.replicate]

theorem moved_word : ascii "301" ≠ [] ∧ SP ∉ ascii "301" ∧ LF ∉ ascii "301" := by decide

theorem moved_value : IsValue (ascii "Moved Permanently") ∧ IsValue (ascii "87") :=
  ⟨⟨by decide, by decide⟩, ⟨by decide, by decide⟩⟩

def movedHead (place : Bytes) (hplace : LF ∉ place) : EncodedHead :=
  pageHead (ascii "301") (ascii "Moved Permanently") (ascii "87")
    [printedField (ascii "Location") (ascii "http://" ++ place) location_name (place_value hplace)] moved_word
    moved_value.1 moved_value.2

/-- The page of a redirect. If it ends where the buffer does, its last byte was overwritten. -/
def movedPage (host loc : Bytes) : Bytes :=
  let page := ["<html><head><title>Object Moved</title></head>", "<body><h1>Object Moved</h1></body></html>"].flatMap ascii
  if (resp301 (untilNul host) (untilNul loc)).length = HTTP_MAX_REQ then page.dropLast ++ [0] else page

theorem length_movedPage (host loc : Bytes) : (movedPage host loc).length = 87 := by
  unfold movedPage
  dsimp only
  split <;> decide

theorem redirectText_moved (host loc : Bytes) (hplace : LF ∉ untilNul host ++ untilNul loc) :
    redirectText host loc = (movedHead (untilNul host ++ untilNul loc) hplace).text ++ movedPage host loc := by
  obtain ⟨page, hpage⟩ : ∃ page : Bytes, page = ["<html><head><title>Object Moved</title></head>",
    "<body><h1>Object Moved</h1></body></html>"].flatMap ascii := ⟨_, rfl⟩
  have hsplit : resp301 (untilNul host) (untilNul loc) =
      (movedHead (untilNul host ++ untilNul loc) hplace).text ++ page := by
    rw [hpage]
    simp only [resp301, movedHead, pageHead, EncodedHead.text, EncodedHead.line, List.flatMap_cons, List.flatMap_nil,
      HeadField.line, printedField]
    simp [ascii, List.replicate]
  have hne : page ≠ [] := by
    rw [hpage]
    decide
  unfold redirectText movedPage
  dsimp only
  rw [← hpage]
  split
  · next hfull =>
    rw [hsplit, List.dropLast_append_of_ne_nil hne, List.append_assoc]
  · exact hsplit

end Ashttpd
