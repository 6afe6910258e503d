import Ashttpd.HttpConn
import Ashttpd.Calendar
import Ashttpd.Outcomes

/-!
# The header of a file

When `handle_get` can put a header together, and what it is then. Every number in a date has a
fixed width from 1970 on, so that the length of the header only depends on the type and the size.
-/
namespace Ashttpd

theorem gmtime_bounds (t : ℕ) : (gmtime t).tmWday < 7 ∧ (gmtime t).tmMon < 12 ∧
    (gmtime t).tmMday < 100 ∧ (gmtime t).tmHour < 24 ∧ (gmtime t).tmMin < 60 ∧ (gmtime t).tmSec < 60 := by
  obtain ⟨hvalid, -⟩ := Calendar.ofMarchDays_spec (t / 86400 + 719468)
  have hday : (gmtime t).tmMday ≤ 31 := hvalid.day_le.trans (Calendar.monthDays_le _ _)
  have hhour : t % 86400 / 3600 < 24 := Nat.div_lt_of_lt_mul (Nat.mod_lt _ (by decide))
  exact ⟨Nat.mod_lt _ (by decide), hvalid.month, by omega, hhour, Nat.mod_lt _ (by decide), Nat.mod_lt _ (by decide)⟩

theorem gmtime_year (t : UInt32) : (gmtime t.toNat).tmYear + 1900 < 10000 := by
  have ht := t.toNat_lt
  have hera : (t.toNat / 86400 + 719468) / 146097 ≤ 5 := by omega
  have hyoe := (Calendar.marchYear_spec (Nat.mod_lt (t.toNat / 86400 + 719468) (show 0 < 146097 by decide))).1
  have hyear : (gmtime t.toNat).tmYear = Calendar.marchYear ((t.toNat / 86400 + 719468) % 146097) +
      400 * ((t.toNat / 86400 + 719468) / 146097) + (if (gmtime t.toNat).tmMon ≤ 1 then 1 else 0) - 1900 := rfl
  rw [hyear]
  generalize Calendar.marchYear ((t.toNat / 86400 + 719468) % 146097) = yoe at hyoe
  generalize (t.toNat / 86400 + 719468) / 146097 = era at hera
  split <;> omega

theorem length_decimal (n : ℕ) : (decimal n).length = (Nat.toDigits 10 n).length := List.length_map _

theorem length_decimal_le {n k : ℕ} (hk : 0 < k) (h : n < 10 ^ k) : (decimal n).length ≤ k := by
  rw [length_decimal]
  exact (Nat.length_toDigits_le_iff (by decide) hk).mpr h

theorem length_decimal_pos (n : ℕ) : 0 < (decimal n).length := by
  rw [length_decimal]
  exact Nat.length_toDigits_pos

theorem length_decimal2 {n : ℕ} (h : n < 100) : (decimal2 n).length = 2 := by
  unfold decimal2
  have hpos := length_decimal_pos n
  by_cases hn : n < 10
  · rw [if_pos hn, List.length_cons]
    have hle := length_decimal_le (k := 1) (by decide) hn
    omega
  · rw [if_neg hn]
    have hle := length_decimal_le (k := 2) (by decide) h
    have hgt : ¬ (decimal n).length ≤ 1 := by
      rw [length_decimal, Nat.length_toDigits_le_iff (by decide) (by decide)]
      omega
    omega

theorem length_decimal4 {n : ℕ} (h : n < 10000) : (decimal4 n).length = 4 := by
  unfold decimal4
  have hle := length_decimal_le (k := 4) (by decide) h
  rw [List.length_append, List.length_replicate]
  omega

/-- What is printed for a date that is not in January. -/
def timeText (tm : Tm) : Bytes :=
  dayofweek.getD tm.tmWday [] ++ ascii ", " ++ decimal2 tm.tmMday ++ ascii " " ++
    monthofyear.getD (tm.tmMon - 1) [] ++ ascii " " ++ decimal4 (tm.tmYear + 1900) ++ ascii " " ++
    decimal2 tm.tmHour ++ ascii ":" ++ decimal2 tm.tmMin ++ ascii ":" ++ decimal2 tm.tmSec ++ ascii " GMT"

theorem length_timeText (t : UInt32) : (timeText (gmtime t.toNat)).length = 29 := by
  obtain ⟨hwday, hmon, hmday, hhour, hmin, hsec⟩ := gmtime_bounds t.toNat
  have hyear := gmtime_year t
  have hday : ∀ n < 7, (dayofweek.getD n []).length = 3 := by decide
  have hmonth : ∀ n < 12, (monthofyear.getD n []).length = 3 := by decide
  have hgmt : (ascii ", ").length = 2 ∧ (ascii " ").length = 1 ∧ (ascii ":").length = 1 ∧
      (ascii " GMT").length = 4 := by decide
  unfold timeText
  simp only [List.length_append, hday _ hwday, hmonth _ (by omega : (gmtime t.toNat).tmMon - 1 < 12),
    length_decimal2 hmday, length_decimal2 (by omega : (gmtime t.toNat).tmHour < 100),
    length_decimal2 (by omega : (gmtime t.toNat).tmMin < 100),
    length_decimal2 (by omega : (gmtime t.toNat).tmSec < 100), length_decimal4 hyear, hgmt]

theorem printTime_gmtime (t : UInt32) : printTime (gmtime t.toNat) =
    if (gmtime t.toNat).tmMon = 0 then .error .outOfRange else .ok (timeText (gmtime t.toNat)) := by
  obtain ⟨hwday, hmon, -⟩ := gmtime_bounds t.toNat
  generalize gmtime t.toNat = tm at hwday hmon
  have hday : ∀ n < 7, dayofweek[n]? = some (dayofweek.getD n []) := by decide
  have hmonth : ∀ n < 12, monthofyear[n]? = some (monthofyear.getD n []) := by decide
  unfold printTime
  rw [hday _ hwday, hmonth _ (by omega)]
  rfl

section Parts

variable {r r' : Resp}

/-- The part `s` is added, if there is room for it. -/
def Adds (r : Resp) (s : Bytes) (r' : Resp) : Prop :=
  r.text.length + s.length ≤ r.room ∧ r' = { r with text := r.text ++ s }

theorem respString_ok_iff {s : Bytes} : respString r s = .ok r' ↔ Adds r s r' := by
  unfold respString Adds
  by_cases hfit : r.text.length + s.length ≤ r.room
  · rw [if_pos hfit, Except.ok.injEq, eq_comm]
    simp [hfit]
  · rw [if_neg hfit]
    simp [hfit]

/-- A size is added as a whole if anything is to come after it. -/
theorem respU64_ok_iff {u : ℕ} :
    respU64 r u = .ok r' ∧ r'.text.length < r'.room ↔
      Adds r (decimal u) r' ∧ r'.text.length < r'.room := by
  unfold respU64 Adds
  by_cases hfit : r.text.length + (decimal u).length < r.room
  · rw [if_pos hfit, Except.ok.injEq, eq_comm]
    simp [hfit.le]
  · rw [if_neg hfit]
    constructor
    · rintro ⟨h, hlt⟩
      split at h
      · next heq =>
        cases h
        have hpos := length_decimal_pos u
        simp only [List.length_append, List.length_dropLast, List.length_cons, List.length_nil] at hlt
        omega
      · cases h
    · rintro ⟨⟨-, rfl⟩, hlt⟩
      rw [List.length_append] at hlt
      exact absurd hlt hfit

theorem respHttpCode_ok_iff {code : ℕ} : respHttpCode r code = .ok r' ↔
    Adds r ([code / 100 % 10, code / 10 % 10, code % 10].map fun d => 48 + UInt8.ofNat d) r' := by
  unfold respHttpCode Adds
  rw [List.length_map]
  show (if r.text.length + 3 ≤ r.room then _ else _) = _ ↔ r.text.length + 3 ≤ r.room ∧ _
  by_cases hfit : r.text.length + 3 ≤ r.room
  · rw [if_pos hfit, Except.ok.injEq, eq_comm]
    simp [hfit]
  · rw [if_neg hfit]
    simp [hfit]

theorem length_printEtag (etag : Bytes) : (printEtag etag).length = 2 * etag.length := by
  unfold printEtag
  rw [List.length_flatMap]
  simp [List.map_const', Nat.mul_comm]

/-- The digest is followed by a terminator, which takes room as well. -/
theorem respEtag_ok_iff {etag : Bytes} (hetag : etag.length = ETAG_SZ) : respEtag r etag = .ok r' ↔
    Adds r (printEtag etag) r' ∧ r'.text.length < r.room := by
  unfold respEtag Adds
  rw [length_printEtag, hetag]
  by_cases hfit : r.text.length + (ETAG_SZ * 2 + 1) ≤ r.room
  · rw [if_pos hfit, Except.ok.injEq]
    constructor
    · intro h
      subst h
      refine ⟨⟨by omega, rfl⟩, ?_⟩
      rw [List.length_append, length_printEtag, hetag]
      omega
    · rintro ⟨⟨-, h⟩, -⟩
      exact h.symm
  · rw [if_neg hfit]
    constructor
    · intro h
      cases h
    · rintro ⟨⟨-, rfl⟩, hlt⟩
      rw [List.length_append, length_printEtag, hetag] at hlt
      omega

/-- No date in January can be printed. -/
theorem respTime_ok_iff {t : UInt32} : respTime r (gmtime t.toNat) = .ok r' ↔
    (gmtime t.toNat).tmMon ≠ 0 ∧ Adds r (timeText (gmtime t.toNat)) r' ∧
      r.text.length + HTTP_TIME_BUF ≤ r.room := by
  have hlen := length_timeText t
  have hbuf : HTTP_TIME_BUF = 44 := rfl
  unfold respTime Adds
  rw [printTime_gmtime]
  by_cases hfit : r.text.length + HTTP_TIME_BUF ≤ r.room
  · rw [if_pos hfit]
    by_cases hmon : (gmtime t.toNat).tmMon = 0
    · rw [if_pos hmon]
      simp [hmon]
    · rw [if_neg hmon]
      dsimp only
      rw [if_neg (by omega), Except.ok.injEq, eq_comm]
      have hroom : r.text.length + (timeText (gmtime t.toNat)).length ≤ r.room := by omega
      simp [hmon, hfit, hroom]
  · rw [if_neg hfit]
    simp [hfit]

end Parts

/-- The header as it is meant to be. -/
def headerText (g : GetHeader) : Bytes :=
  ascii "HTTP/1.1 " ++ ([g.code / 100 % 10, g.code / 10 % 10, g.code % 10].map fun d => 48 + UInt8.ofNat d) ++
    reasonPhrase g.code ++ ascii "\r\nContent-Type: " ++ g.mimeType ++ ascii "\r\nContent-Length: " ++
    decimal g.contentLength ++ ascii "\r\nConnection: " ++
    (if g.connClose ≠ 0 then ascii "Close" else ascii "Keep-Alive") ++ ascii "\r\nETag: " ++
    printEtag g.etag ++ ascii "\r\nLast-Modified: " ++ timeText (gmtime g.mtime.toNat) ++
    ascii "\r\nServer: ashttpd\r\n\r\n"

/-- The header can be put together if there is room for it and the date is not in January. -/
theorem getHeader_ok_iff {room : ℕ} {g : GetHeader} {text : Bytes} (hetag : g.etag.length = ETAG_SZ) :
    getHeader room g = .ok text ↔
      (gmtime g.mtime.toNat).tmMon ≠ 0 ∧ (headerText g).length ≤ room ∧ text = headerText g := by
  unfold getHeader
  simp only [bind_eq_ok_iff, respString_ok_iff, respHttpCode_ok_iff, respEtag_ok_iff hetag, respTime_ok_iff]
  have hconn : (ascii "\r\nConnection: ").length = 14 := by decide
  have hserver : (ascii "\r\nServer: ashttpd\r\n\r\n").length = 21 := by decide
  have hbuf : HTTP_TIME_BUF = 44 := rfl
  have htime := length_timeText g.mtime
  constructor
  · rintro ⟨r₁, ⟨-, rfl⟩, r₂, ⟨-, rfl⟩, r₃, ⟨-, rfl⟩, r₄, ⟨-, rfl⟩, r₅, ⟨-, rfl⟩, r₆, ⟨-, rfl⟩, r₇, h₇, r₈, h₈,
      hrest⟩
    obtain ⟨⟨-, rfl⟩, -⟩ := respU64_ok_iff.mp ⟨h₇, by
      have hfit := h₈.1
      omega⟩
    obtain ⟨-, rfl⟩ := h₈
    obtain ⟨r₉, ⟨-, rfl⟩, r₁₀, ⟨-, rfl⟩, r₁₁, ⟨⟨-, rfl⟩, -⟩, r₁₂, ⟨-, rfl⟩, r₁₃, ⟨hmon, ⟨-, rfl⟩, -⟩, r₁₄,
      ⟨hfit, rfl⟩, htext⟩ := hrest
    cases htext
    refine ⟨hmon, ?_, ?_⟩
    · rw [headerText, List.length_append]
      simpa only [List.nil_append] using hfit
    · simp only [headerText, List.nil_append]
  · rintro ⟨hmon, hfit, rfl⟩
    simp only [headerText, List.length_append, hserver, htime, hconn] at hfit
    refine ⟨_, ⟨?_, rfl⟩, _, ⟨?_, rfl⟩, _, ⟨?_, rfl⟩, _, ⟨?_, rfl⟩, _, ⟨?_, rfl⟩, _, ⟨?_, rfl⟩, _,
      (respU64_ok_iff.mpr ⟨⟨?_, rfl⟩, ?_⟩).1, _, ⟨?_, rfl⟩, _, ⟨?_, rfl⟩, _, ⟨?_, rfl⟩, _,
      ⟨⟨?_, rfl⟩, ?_⟩, _, ⟨?_, rfl⟩, _, ⟨hmon, ⟨?_, rfl⟩, ?_⟩, _, ⟨?_, rfl⟩, ?_⟩
    all_goals first
      | (simp only [List.length_append, List.length_nil, hserver, htime, hconn, hbuf]; omega)
      | simp only [headerText, List.nil_append]; rfl

theorem getHeader_pos {room : ℕ} {g : GetHeader} {text : Bytes} (h : getHeader room g = .ok text) :
    0 < text.length := by
  unfold getHeader at h
  simp only [bind_eq_ok_iff, respString_ok_iff] at h
  obtain ⟨r₁, -, r₂, -, r₃, -, r₄, -, r₅, -, r₆, -, r₇, -, r₈, -, r₉, -, r₁₀, -, r₁₁, -, r₁₂, -, r₁₃, -, r₁₄,
    ⟨-, rfl⟩, htext⟩ := h
  cases htext
  rw [List.length_append]
  exact Nat.add_pos_right _ (by decide)

end Ashttpd
