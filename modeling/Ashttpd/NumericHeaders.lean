import Ashttpd.HttpConn
import Ashttpd.RequestHeaders

/-!
# Numbers in headers

`vtouint` counts in 32 bits and never looks whether it went round. What its callers check is what is
left of the number, so that a number goes wrong when it is too large and what is left of it is not.
-/
namespace Ashttpd

def leadingDigits (v : Bytes) : Bytes := v.takeWhile isdigit

def digitsValue (ds : Bytes) : ℕ := ds.foldl (fun u c => u * 10 + (c.toNat - 48)) 0

/-- A number that does not fit `unsigned int`, and what is left of it passes for one up to a bound. -/
def WrapsBelow (bound n : ℕ) : Prop := 2 ^ 32 ≤ n ∧ n % 2 ^ 32 ≤ bound

instance (bound n : ℕ) : Decidable (WrapsBelow bound n) := inferInstanceAs (Decidable (_ ∧ _))

theorem digit_cases (c : UInt8) :
    (isdigit c = true → ¬ 10 ≤ c.toUInt32 - 48 ∧ (c.toUInt32 - 48).toNat = c.toNat - 48) ∧
      (isdigit c = false → 10 ≤ c.toUInt32 - 48) := by
  have hall : ∀ n < 256,
      (isdigit (UInt8.ofNat n) = true → ¬ 10 ≤ (UInt8.ofNat n).toUInt32 - 48 ∧
        ((UInt8.ofNat n).toUInt32 - 48).toNat = (UInt8.ofNat n).toNat - 48) ∧
      (isdigit (UInt8.ofNat n) = false → 10 ≤ (UInt8.ofNat n).toUInt32 - 48) := by decide +kernel
  have hc := hall c.toNat c.toNat_lt
  rwa [UInt8.ofNat_toNat] at hc

theorem leadingDigits_cons (c : UInt8) (v : Bytes) :
    leadingDigits (c :: v) = if isdigit c then c :: leadingDigits v else [] := by
  unfold leadingDigits
  cases hc : isdigit c with
  | true => exact List.takeWhile_cons_of_pos hc
  | false => exact List.takeWhile_cons_of_neg (by simp [hc])

/-- The loop adds the digits up modulo the size of `unsigned int`. -/
theorem vtouintLoop_eq (v : Bytes) (m n : ℕ) (u : UInt32) (hu : u.toNat = m % 2 ^ 32) :
    (vtouintLoop v u n).1.toNat =
        (leadingDigits v).foldl (fun u c => u * 10 + (c.toNat - 48)) m % 2 ^ 32 ∧
      (vtouintLoop v u n).2 = n + (leadingDigits v).length := by
  induction v generalizing m n u with
  | nil => exact ⟨hu, rfl⟩
  | cons c v ih =>
    obtain ⟨hdigit, hother⟩ := digit_cases c
    rw [leadingDigits_cons]
    cases hc : isdigit c with
    | true =>
      obtain ⟨hlt, hval⟩ := hdigit hc
      have hu' : (u * 10 + (c.toUInt32 - 48)).toNat = (m * 10 + (c.toNat - 48)) % 2 ^ 32 := by
        have hten : (10 : UInt32).toNat = 10 := rfl
        rw [UInt32.toNat_add, UInt32.toNat_mul, hval, hu, hten]
        omega
      obtain ⟨hfst, hsnd⟩ := ih (m * 10 + (c.toNat - 48)) (n + 1) _ hu'
      unfold vtouintLoop
      rw [if_neg hlt, if_pos rfl]
      refine ⟨hfst, ?_⟩
      rw [hsnd, List.length_cons]
      omega
    | false =>
      unfold vtouintLoop
      rw [if_pos (hother hc), if_neg Bool.false_ne_true]
      exact ⟨hu, rfl⟩

theorem vtouint_eq (v : Bytes) :
    (vtouint v).1.toNat = digitsValue (leadingDigits v) % 2 ^ 32 ∧ (vtouint v).2 = (leadingDigits v).length := by
  obtain ⟨hfst, hsnd⟩ := vtouintLoop_eq v 0 0 0 rfl
  exact ⟨hfst, hsnd.trans (Nat.zero_add _)⟩

theorem mod_checked_iff {bound n : ℕ} (hbound : bound < 2 ^ 32) :
    (n % 2 ^ 32 ≤ bound ↔ n ≤ bound) ↔ ¬ WrapsBelow bound n := by
  unfold WrapsBelow
  constructor
  · rintro hiff ⟨hle, hmod⟩
    have hn := hiff.mp hmod
    omega
  · intro hnot
    by_cases hle : 2 ^ 32 ≤ n
    · have hmod : ¬ n % 2 ^ 32 ≤ bound := fun hmod => hnot ⟨hle, hmod⟩
      exact iff_of_false hmod (by omega)
    · rw [Nat.mod_eq_of_lt (by omega)]

def storedInt (n : ℕ) : ℤ := if n ≤ INT_MAX then n else -1

theorem htypeInt_eq {v : RoVec} (hv : leadingDigits v.bytes ≠ []) :
    htypeInt v = if digitsValue (leadingDigits v.bytes) % 2 ^ 32 ≤ INT_MAX
      then ((digitsValue (leadingDigits v.bytes) % 2 ^ 32 : ℕ) : ℤ) else -1 := by
  obtain ⟨hfst, hsnd⟩ := vtouint_eq v.bytes
  have hlen : (leadingDigits v.bytes).length ≠ 0 := fun h => hv (List.length_eq_zero_iff.mp h)
  unfold htypeInt
  simp only [hfst, hsnd, hlen, false_or]
  by_cases hle : digitsValue (leadingDigits v.bytes) % 2 ^ 32 ≤ INT_MAX
  · rw [if_pos hle, if_neg (by omega)]
  · rw [if_neg hle, if_pos (by omega)]

theorem htypeInt_stored_iff {v : RoVec} (hv : leadingDigits v.bytes ≠ []) :
    htypeInt v = storedInt (digitsValue (leadingDigits v.bytes)) ↔
      ¬ WrapsBelow INT_MAX (digitsValue (leadingDigits v.bytes)) := by
  rw [htypeInt_eq hv, ← mod_checked_iff (show INT_MAX < 2 ^ 32 by decide)]
  unfold storedInt
  generalize digitsValue (leadingDigits v.bytes) = n
  by_cases hn : n ≤ INT_MAX
  · have hlt : n < 2 ^ 32 := Nat.lt_of_le_of_lt hn (by decide)
    rw [Nat.mod_eq_of_lt hlt, if_pos hn]
    exact iff_of_true rfl Iff.rfl
  · rw [if_neg hn]
    constructor
    · intro h
      refine iff_of_false (fun hmod => ?_) hn
      rw [if_pos hmod] at h
      omega
    · intro h
      exact if_neg fun hmod => hn (h.mp hmod)

def AllDigits (ds : Bytes) : Prop := ds ≠ [] ∧ leadingDigits ds = ds

instance (ds : Bytes) : Decidable (AllDigits ds) := inferInstanceAs (Decidable (_ ∧ _))

/-- The digits behind the last colon of a host. -/
def portDigits (host : RoVec) : Option Bytes :=
  if host.vPtr = none then none
  else match splitPort host.bytes with
    | some (_, port) => if AllDigits port then some port else none
    | none => none

def statedPort (host : RoVec) : Option ℕ := ((portDigits host).map digitsValue).filter fun n => n ≤ 0xffff

/-- The number that passes the check of `http_req`, so that it is assigned to the port. -/
def assignedPort (host : RoVec) : Option UInt32 :=
  if host.vPtr = none then none
  else match splitPort host.bytes with
    | none => none
    | some (_, port) =>
      let (prt, n) := vtouint port
      if port ≠ [] ∧ n = port.length ∧ prt ≤ 0xffff then some prt else none

theorem hostPort_eq (r : HttpRequest) : (hostPort r).host = r.host ∧
    (hostPort r).port = ((assignedPort r.host).map UInt32.toUInt16).getD HTTP_DEFAULT_PORT := by
  unfold hostPort assignedPort
  by_cases hptr : r.host.vPtr = none
  · rw [if_pos hptr, if_pos hptr]
    exact ⟨rfl, rfl⟩
  rw [if_neg hptr, if_neg hptr]
  cases hsplit : splitPort r.host.bytes with
  | none => exact ⟨rfl, rfl⟩
  | some split =>
    obtain ⟨name, port⟩ := split
    refine ⟨rfl, ?_⟩
    dsimp only
    split
    · rfl
    · rfl

/-- What is assigned is what 32 bits leave of the number. -/
theorem assignedPort_eq (host : RoVec) : (assignedPort host).map UInt32.toNat =
    ((portDigits host).map fun ds => digitsValue ds % 2 ^ 32).filter fun n => n ≤ 0xffff := by
  unfold assignedPort portDigits
  by_cases hptr : host.vPtr = none
  · rw [if_pos hptr, if_pos hptr]
    rfl
  rw [if_neg hptr, if_neg hptr]
  cases hsplit : splitPort host.bytes with
  | none => rfl
  | some split =>
    obtain ⟨name, port⟩ := split
    obtain ⟨hfst, hsnd⟩ := vtouint_eq port
    have hall : port ≠ [] ∧ (vtouint port).2 = port.length ↔ AllDigits port := by
      rw [hsnd]
      refine and_congr_right fun _ => ⟨fun h => ?_, fun h => congrArg _ h⟩
      exact (List.takeWhile_prefix isdigit).eq_of_length h
    simp only [← and_assoc, hall]
    by_cases hdigits : AllDigits port
    · have hvalue : digitsValue (leadingDigits port) = digitsValue port := congrArg _ hdigits.2
      rw [hvalue] at hfst
      have hle : (vtouint port).1 ≤ 0xffff ↔ digitsValue port % 2 ^ 32 ≤ 0xffff := by
        rw [← hfst]
        exact UInt32.le_iff_toNat_le
      rw [if_pos hdigits, Option.map_some]
      by_cases hsmall : digitsValue port % 2 ^ 32 ≤ 0xffff
      · rw [if_pos ⟨hdigits, hle.mpr hsmall⟩, Option.filter_some_pos (by simpa using hsmall), Option.map_some, hfst]
      · rw [if_neg fun h => hsmall (hle.mp h.2), Option.filter_some_neg (by simpa using hsmall)]
        rfl
    · rw [if_neg fun h => hdigits h.1, if_neg hdigits]
      rfl

theorem port_of_host (r : HttpRequest) (uri : RoVec) :
    (if (hostPort r).uri.vPtr = none then { hostPort r with uri := uri } else hostPort r).port =
      ((assignedPort (if (hostPort r).uri.vPtr = none then { hostPort r with uri := uri } else hostPort r).host).map
        UInt32.toUInt16).getD HTTP_DEFAULT_PORT := by
  obtain ⟨hhost, hport⟩ := hostPort_eq r
  split
  · exact hport.trans (by rw [hhost])
  · exact hport.trans (by rw [hhost])

theorem httpReq_port {p : Bytes} {hlen : ℕ} {r r' : HttpRequest} (hreq : httpReq r p = (hlen, r'))
    (hlen0 : hlen ≠ 0) : r'.port = ((assignedPort r'.host).map UInt32.toUInt16).getD HTTP_DEFAULT_PORT := by
  unfold httpReq at hreq
  generalize httpDecodeBuf reqHcb p _ = dec at hreq
  obtain ⟨n, s⟩ := dec
  simp only at hreq
  by_cases hn : n = 0
  · rw [if_pos hn] at hreq
    cases hreq
    exact absurd rfl hlen0
  rw [if_neg hn] at hreq
  obtain ⟨-, rfl⟩ := Prod.mk.inj hreq
  exact port_of_host _ _

/-- The port that is assigned is the one that is told exactly when no other passes for it. -/
theorem assignedPort_iff (host : RoVec) : (assignedPort host).map UInt32.toNat = statedPort host ↔
    ∀ ds ∈ portDigits host, ¬ WrapsBelow 0xffff (digitsValue ds) := by
  rw [assignedPort_eq]
  unfold statedPort
  cases portDigits host with
  | none => simp
  | some ds =>
    simp only [Option.mem_some_iff, forall_eq', Option.map_some]
    rw [← mod_checked_iff (show 0xffff < 2 ^ 32 by decide)]
    generalize digitsValue ds = n
    by_cases hn : n ≤ 0xffff
    · have hlt : n < 2 ^ 32 := by omega
      rw [Nat.mod_eq_of_lt hlt]
      exact iff_of_true rfl Iff.rfl
    · rw [Option.filter_some_neg (a := n) (by simpa using hn)]
      by_cases hsmall : n % 2 ^ 32 ≤ 0xffff
      · rw [Option.filter_some_pos (by simpa using hsmall)]
        exact iff_of_false nofun fun h => hn (h.mp hsmall)
      · rw [Option.filter_some_neg (by simpa using hsmall)]
        exact iff_of_true rfl (iff_of_false hsmall hn)

/-- A number in a header is taken for what it is exactly when nothing that passes the check is left of
one that does not fit. -/
theorem numeric_headers_iff (v : RoVec) (hv : leadingDigits v.bytes ≠ []) (p : Bytes) (hlen : ℕ) (r : HttpRequest)
    (hreq : httpReq {} p = (hlen, r)) (hlen0 : hlen ≠ 0) :
    (htypeInt v = storedInt (digitsValue (leadingDigits v.bytes)) ↔
      ¬ WrapsBelow INT_MAX (digitsValue (leadingDigits v.bytes))) ∧
    r.port = ((assignedPort r.host).map UInt32.toUInt16).getD HTTP_DEFAULT_PORT ∧
    ((assignedPort r.host).map UInt32.toNat = statedPort r.host ↔
      ∀ ds ∈ portDigits r.host, ¬ WrapsBelow 0xffff (digitsValue ds)) :=
  ⟨htypeInt_stored_iff hv, httpReq_port hreq hlen0, assignedPort_iff r.host⟩

/-- A request for "/" from a host. -/
def hostHead (host : Bytes) (hhost : IsField (labelHost, host)) : ReqHead where
  method := ascii "GET"
  uri := [47]
  version := ascii "HTTP/1.1"
  fields := [(labelHost, host)]
  methodWord := getWord
  uriWord := rootWord
  versionWord := versionWord
  fieldsOk := by
    intro kv hkv
    obtain rfl := List.mem_singleton.mp hkv
    exact hhost

theorem smallPortField : IsField (labelHost, ascii "a:8080") :=
  ⟨by decide, by decide, by decide, by decide, by decide⟩

theorem hugePortField : IsField (labelHost, ascii "a:4294967297") :=
  ⟨by decide, by decide, by decide, by decide, by decide⟩

theorem wrappedPortField : IsField (labelHost, ascii "a:4294967376") :=
  ⟨by decide, by decide, by decide, by decide, by decide⟩

theorem numeric_headers_iff_small :
    (htypeInt ⟨some 0, ascii "12 bytes"⟩ = storedInt 12 ↔ ¬ WrapsBelow INT_MAX 12) ∧
    (httpReq {} (hostHead _ smallPortField).text).2.port = 8080 ∧
    (some 8080 = some (digitsValue (ascii "8080")) ↔
      ∀ ds ∈ some (ascii "8080"), ¬ WrapsBelow 0xffff (digitsValue ds)) :=
  numeric_headers_iff ⟨some 0, ascii "12 bytes"⟩ (by decide) (hostHead _ smallPortField).text _ _ rfl (by decide)

/-- The numbers are five, one and eighty above the size of `unsigned int`: the last cannot be told from the default
port, and is assigned all the same. -/
theorem numeric_headers_wrap : htypeInt ⟨some 0, ascii "4294967301"⟩ = 5 ∧
    digitsValue (ascii "4294967301") = 4294967301 ∧
    (httpReq {} (hostHead _ hugePortField).text).1 ≠ 0 ∧ (httpReq {} (hostHead _ hugePortField).text).2.port = 1 ∧
    portDigits (httpReq {} (hostHead _ hugePortField).text).2.host = some (ascii "4294967297") ∧
    digitsValue (ascii "4294967297") = 4294967297 ∧
    (httpReq {} (hostHead _ wrappedPortField).text).1 ≠ 0 ∧
    assignedPort (httpReq {} (hostHead _ wrappedPortField).text).2.host = some 80 ∧
    statedPort (httpReq {} (hostHead _ wrappedPortField).text).2.host = none := by
  refine ⟨by decide, by decide, by decide, by decide, by decide, by decide, by decide, by decide, by decide⟩

end Ashttpd
