import Ashttpd.Headers

/-!
# Dates in headers

`gmtime_r` fills in the date of a second. What `print_time` makes of it is read again as the date that
a header gives: day of the week, day, name of the month, year and time of the day.
-/
namespace Ashttpd

open Calendar

/-- The date in a `struct tm`. -/
def Tm.instant (tm : Tm) : Instant := ⟨⟨tm.tmYear + 1900, tm.tmMon, tm.tmMday⟩, tm.tmHour, tm.tmMin, tm.tmSec⟩

def epoch : Instant := ⟨⟨1970, 0, 1⟩, 0, 0, 0⟩

theorem epoch_number : epoch.number = 719528 := by
  have hyears := daysBeforeYear_eq 1970
  simp only [Date.number, epoch, daysBeforeMonth]
  omega

theorem epoch_seconds : epoch.seconds = 719528 * 86400 := by
  simp only [Instant.seconds, epoch_number]
  rfl

/-- `gmtime_r` fills in the date that comes as many seconds after the start of 1970. -/
theorem gmtime_spec (t : ℕ) : (gmtime t).instant.Valid ∧ (gmtime t).instant.seconds = epoch.seconds + t ∧
    (gmtime t).tmWday = (gmtime t).instant.weekday := by
  obtain ⟨hvalid, hnumber⟩ := ofMarchDays_spec (t / 86400 + 719468)
  have hera : 4 ≤ (t / 86400 + 719468) / 146097 := by omega
  have hyear : (gmtime t).tmYear + 1900 = (ofMarchDays (t / 86400 + 719468)).year := by
    refine Nat.sub_add_cancel ?_
    show 1900 ≤ marchYear ((t / 86400 + 719468) % 146097) + 400 * ((t / 86400 + 719468) / 146097) + _
    have hlast : (t / 86400 + 719468) / 146097 = 4 → 300 ≤ marchYear ((t / 86400 + 719468) % 146097) := by
      intro hfour
      show 300 ≤ (_ - _ / 1460 + _ / 36524 - _ / 146096) / 365
      omega
    omega
  have hdate : (gmtime t).instant.toDate = ofMarchDays (t / 86400 + 719468) := by
    show Date.mk ((gmtime t).tmYear + 1900) (gmtime t).tmMon (gmtime t).tmMday = _
    rw [hyear]
    rfl
  obtain ⟨-, -, -, hhour, hmin, hsec⟩ := gmtime_bounds t
  refine ⟨⟨hdate ▸ hvalid, hhour, hmin, hsec⟩, ?_, ?_⟩
  · show (gmtime t).instant.number * 86400 + t % 86400 / 3600 * 3600 + t % 86400 / 60 % 60 * 60 + t % 86400 % 60 = _
    rw [hdate, hnumber, epoch_seconds]
    omega
  · show (t / 86400 + 4) % 7 = ((gmtime t).instant.number + 6) % 7
    rw [hdate, hnumber]
    omega

/-- The text of a date in the form that `print_time` prints. -/
def dateText (wday mday mon year hour min sec : ℕ) : Bytes :=
  dayofweek.getD wday [] ++ ascii ", " ++ decimal2 mday ++ ascii " " ++ monthofyear.getD mon [] ++ ascii " " ++
    decimal4 year ++ ascii " " ++ decimal2 hour ++ ascii ":" ++ decimal2 min ++ ascii ":" ++ decimal2 sec ++ ascii " GMT"

/-- A text is the date of a second, counted from the start of 1970. -/
def Denotes (text : Bytes) (t : ℕ) : Prop :=
  ∃ i : Instant, i.Valid ∧ 1000 ≤ i.year ∧ i.year < 10000 ∧
    text = dateText i.weekday i.day i.month i.year i.hour i.min i.sec ∧ i.seconds = epoch.seconds + t

/-- The digits of a number are told by the bytes that are printed. -/
theorem digits_injective {cs ds : List Char} (hc : ∀ c ∈ cs, c.isDigit) (hd : ∀ d ∈ ds, d.isDigit)
    (h : (cs.map fun c => UInt8.ofNat c.toNat) = ds.map fun c => UInt8.ofNat c.toNat) : cs = ds := by
  induction cs generalizing ds with
  | nil =>
    cases ds with
    | nil => rfl
    | cons d ds => cases h
  | cons c cs ih =>
    cases ds with
    | nil => cases h
    | cons d ds =>
      rw [List.map_cons, List.map_cons, List.cons.injEq] at h
      rw [List.forall_mem_cons] at hc hd
      have hcode : ∀ x : Char, x.isDigit → x.toNat < 256 := by
        intro x hx
        simp only [Char.isDigit, Bool.and_eq_true, decide_eq_true_eq] at hx
        have hle := hx.2
        rw [UInt32.le_iff_toNat_le] at hle
        have hnine : ('9' : Char).val.toNat = 57 := rfl
        show x.val.toNat < 256
        omega
      have hsame := congrArg UInt8.toNat h.1
      rw [UInt8.toNat_ofNat', UInt8.toNat_ofNat', Nat.mod_eq_of_lt (hcode c hc.1), Nat.mod_eq_of_lt (hcode d hd.1)] at hsame
      rw [Char.toNat_inj.mp hsame, ih hc.2 hd.2 h.2]

/-- The characters that `%02d` prints. -/
def chars2 (n : ℕ) : List Char := if n < 10 then '0' :: Nat.toDigits 10 n else Nat.toDigits 10 n

theorem decimal2_eq (n : ℕ) : decimal2 n = (chars2 n).map fun c => UInt8.ofNat c.toNat := by
  unfold decimal2 chars2 decimal
  split <;> rfl

theorem isDigit_chars2 (n : ℕ) : ∀ c ∈ chars2 n, c.isDigit := by
  unfold chars2
  intro c hc
  split at hc
  · rcases List.mem_cons.mp hc with rfl | hc
    · rfl
    · exact Nat.isDigit_of_mem_toDigits (by decide) (by decide) hc
  · exact Nat.isDigit_of_mem_toDigits (by decide) (by decide) hc

theorem ofDigitChars_chars2 (n : ℕ) : Nat.ofDigitChars 10 (chars2 n) 0 = n := by
  unfold chars2
  split
  · have hzero : Nat.ofDigitChars 10 ('0' :: Nat.toDigits 10 n) 0 = Nat.ofDigitChars 10 (Nat.toDigits 10 n) 0 := rfl
    rw [hzero]
    exact Nat.ofDigitChars_ten_toDigits
  · exact Nat.ofDigitChars_ten_toDigits

theorem decimal2_injective {m n : ℕ} (h : decimal2 m = decimal2 n) : m = n := by
  rw [decimal2_eq, decimal2_eq] at h
  rw [← ofDigitChars_chars2 m, ← ofDigitChars_chars2 n, digits_injective (isDigit_chars2 m) (isDigit_chars2 n) h]

theorem decimal4_eq {n : ℕ} (h : 1000 ≤ n) : decimal4 n = decimal n := by
  have hlong : ¬ (decimal n).length ≤ 3 := by
    rw [length_decimal, Nat.length_toDigits_le_iff (by decide) (by decide)]
    omega
  have hpad : 4 - (decimal n).length = 0 := by omega
  rw [decimal4, hpad]
  rfl

theorem decimal_injective {m n : ℕ} (h : decimal m = decimal n) : m = n := by
  have hdigits : ∀ k, ∀ c ∈ Nat.toDigits 10 k, c.isDigit :=
    fun k c hc => Nat.isDigit_of_mem_toDigits (by decide) (by decide) hc
  rw [← Nat.ofDigitChars_ten_toDigits (n := m), ← Nat.ofDigitChars_ten_toDigits (n := n),
    digits_injective (hdigits m) (hdigits n) h]

/-- The fields of a date that a text is in. -/
structure Fields where
  wday : ℕ
  mday : ℕ
  mon : ℕ
  year : ℕ
  hour : ℕ
  min : ℕ
  sec : ℕ

/-- The fields have the widths they are printed with. -/
structure Fields.Wide (f : Fields) : Prop where
  wday : f.wday < 7
  mday : f.mday < 100
  mon : f.mon < 12
  year_ge : 1000 ≤ f.year
  year_lt : f.year < 10000
  hour : f.hour < 100
  min : f.min < 100
  sec : f.sec < 100

def Fields.text (f : Fields) : Bytes := dateText f.wday f.mday f.mon f.year f.hour f.min f.sec

/-- A text is the date of no two days. -/
theorem Fields.text_date {f g : Fields} (hf : f.Wide) (hg : g.Wide) (h : f.text = g.text) :
    f.mday = g.mday ∧ f.mon = g.mon ∧ f.year = g.year ∧ f.hour = g.hour ∧ f.min = g.min ∧ f.sec = g.sec := by
  have hday : ∀ n < 7, (dayofweek.getD n []).length = 3 := by decide
  have hmonth : ∀ n < 12, (monthofyear.getD n []).length = 3 := by decide
  have hnames : ∀ m < 12, ∀ n < 12, monthofyear.getD m [] = monthofyear.getD n [] → m = n := by decide
  simp only [text, dateText, List.append_assoc] at h
  obtain ⟨-, h⟩ := List.append_inj h (by rw [hday _ hf.wday, hday _ hg.wday])
  obtain ⟨hmday, h⟩ := List.append_inj (List.append_cancel_left h) (by rw [length_decimal2 hf.mday, length_decimal2 hg.mday])
  obtain ⟨hmon, h⟩ := List.append_inj (List.append_cancel_left h) (by rw [hmonth _ hf.mon, hmonth _ hg.mon])
  obtain ⟨hyear, h⟩ := List.append_inj (List.append_cancel_left h)
    (by rw [length_decimal4 hf.year_lt, length_decimal4 hg.year_lt])
  obtain ⟨hhour, h⟩ := List.append_inj (List.append_cancel_left h) (by rw [length_decimal2 hf.hour, length_decimal2 hg.hour])
  obtain ⟨hmin, h⟩ := List.append_inj (List.append_cancel_left h) (by rw [length_decimal2 hf.min, length_decimal2 hg.min])
  obtain ⟨hsec, -⟩ := List.append_inj (List.append_cancel_left h) (by rw [length_decimal2 hf.sec, length_decimal2 hg.sec])
  rw [decimal4_eq hf.year_ge, decimal4_eq hg.year_ge] at hyear
  exact ⟨decimal2_injective hmday, hnames _ hf.mon _ hg.mon hmon, decimal_injective hyear, decimal2_injective hhour,
    decimal2_injective hmin, decimal2_injective hsec⟩

/-- What is printed for a time that is not in January is in the form of a date, with the name of the
month before. -/
theorem timeText_eq (tm : Tm) :
    timeText tm = (Fields.mk tm.tmWday tm.tmMday (tm.tmMon - 1) (tm.tmYear + 1900) tm.tmHour tm.tmMin tm.tmSec).text := rfl

theorem Calendar.Date.Valid.day_lt {d : Date} (h : d.Valid) : d.day < 100 := by
  have hle := h.day_le
  have hmax : monthDays (isLeap d.year) d.month ≤ 31 := by
    unfold monthDays
    split <;> first | omega | (split <;> omega)
  omega

/-- No text that is printed for a time is the date of that time. -/
theorem timeText_not_denotes (t : UInt32) (hmon : (gmtime t.toNat).tmMon ≠ 0) :
    ¬ Denotes (timeText (gmtime t.toNat)) t.toNat := by
  rintro ⟨i, hvalid, hge, hlt, htext, hseconds⟩
  obtain ⟨hdate, htime, -⟩ := gmtime_spec t.toNat
  obtain ⟨hwday, hmonth, hmday, hhour, hmin, hsec⟩ := gmtime_bounds t.toNat
  have hyear := gmtime_year t
  generalize gmtime t.toNat = tm at *
  have hwide : (Fields.mk tm.tmWday tm.tmMday (tm.tmMon - 1) (tm.tmYear + 1900) tm.tmHour tm.tmMin tm.tmSec).Wide :=
    ⟨hwday, hmday, by show tm.tmMon - 1 < 12; omega, by show 1000 ≤ tm.tmYear + 1900; omega, hyear,
      by show tm.tmHour < 100; omega, by show tm.tmMin < 100; omega, by show tm.tmSec < 100; omega⟩
  have hwide' : (Fields.mk i.weekday i.day i.month i.year i.hour i.min i.sec).Wide := by
    have h1 := hvalid.hour
    have h2 := hvalid.min
    have h3 := hvalid.sec
    exact ⟨Nat.mod_lt _ (by decide), hvalid.toValid.day_lt, hvalid.month, hge, hlt, by show i.hour < 100; omega,
      by show i.min < 100; omega, by show i.sec < 100; omega⟩
  obtain ⟨h1, h2, h3, h4, h5, h6⟩ := Fields.text_date hwide hwide' ((timeText_eq tm).symm.trans htext)
  dsimp only at h1 h2 h3 h4 h5 h6
  have hbefore : Date.number ⟨tm.tmYear + 1900, tm.tmMon - 1, tm.tmMday⟩ <
      Date.number ⟨tm.tmYear + 1900, tm.tmMon, tm.tmMday⟩ := Date.number_lt (by omega)
  have hread : Date.number ⟨tm.tmYear + 1900, tm.tmMon - 1, tm.tmMday⟩ = i.number := by
    rw [h1, h2, h3]
  rw [← htime] at hseconds
  simp only [Instant.seconds, Tm.instant] at hseconds
  omega

def TellsTruth (t : UInt32) : Prop :=
  ∃ text, printTime (gmtime t.toNat) = .ok text ∧ text.length < HTTP_TIME_BUF + 1 ∧ Denotes text t.toNat

/-- There is no time for which `print_time` prints the date. -/
theorem last_modified_untrue (t : UInt32) : ¬ TellsTruth t := by
  rintro ⟨text, hprint, -, hdenotes⟩
  rw [printTime_gmtime] at hprint
  by_cases hmon : (gmtime t.toNat).tmMon = 0
  · rw [if_pos hmon] at hprint
    cases hprint
  · rw [if_neg hmon] at hprint
    rw [← Except.ok.inj hprint] at hdenotes
    exact timeText_not_denotes t hmon hdenotes

/-- In January a name before the first one is read; on the first of February the first of January is printed. -/
theorem last_modified_january : printTime (gmtime 0) = .error .outOfRange ∧
    printTime (gmtime 2678400) = .ok (ascii "Sun, 01 Jan 1970 00:00:00 GMT") ∧ ¬ ∀ t, TellsTruth t := by
  have hfirst : printTime (gmtime 0) = .error .outOfRange := by decide
  refine ⟨hfirst, by decide +kernel, fun hall => ?_⟩
  obtain ⟨text, hprint, -⟩ := hall 0
  rw [UInt32.toNat_zero, hfirst] at hprint
  exact nomatch hprint

end Ashttpd
