import Ashttpd.Vectors
import Ashttpd.Bisection

/-!
# Scanning and decoding heads (`http-parse.h`, `http_parse.c`)

`httpParseIncremental` waits for the end of a head, `httpDecodeBuf` takes a head apart. A
control block writes to a state `σ` that stands for the variables its table points to.
-/
namespace Ashttpd

abbrev SP : UInt8 := 32
abbrev CR : UInt8 := 13
abbrev LF : UInt8 := 10
abbrev COLON : UInt8 := 58

inductive Rstate where
  | initial
  | cr
  | lf
  | crlf
  | lfcr
  | crlfcr
  | lflf
  | crlflf
  | lfcrlf
  | crlfcrlf
  deriving DecidableEq, Repr

/-- `RSTATE_TERMINAL`. -/
def Rstate.terminal : Rstate → Bool
  | .lflf | .crlflf | .lfcrlf | .crlfcrlf => true
  | _ => false

/-- The table `cr_map`, which has no entries for terminal states. -/
def crMap : Rstate → Option Rstate
  | .initial => some .cr
  | .cr => some .cr
  | .lf => some .lfcr
  | .crlf => some .crlfcr
  | .lfcr => some .cr
  | .crlfcr => some .cr
  | _ => none

/-- The table `lf_map`. -/
def lfMap : Rstate → Option Rstate
  | .initial => some .lf
  | .cr => some .crlf
  | .lf => some .lflf
  | .crlf => some .crlflf
  | .lfcr => some .lfcrlf
  | .crlfcr => some .crlfcrlf
  | _ => none

/-- A result of the scanner, with `rptr` moved by one more byte. -/
def rptrNext (r : Bool × Rstate × ℕ) : Bool × Rstate × ℕ := (r.1, r.2.1, r.2.2 + 1)

/-- `http_parse_incremental` over the bytes from `rptr` up to `end`: the return value, the new
state and how far `rptr` moves. On completion `rptr` stays on the last byte of the head. -/
def httpParseIncremental : Rstate → Bytes → Except Fault (Bool × Rstate × ℕ)
  | state, [] => .ok (false, state, 0)
  | state, c :: cs =>
    if c = CR ∨ c = LF then
      match (if c = CR then crMap state else lfMap state) with
      | none => .error .assertion
      | some state' =>
        if state'.terminal then .ok (true, state', 0)
        else (httpParseIncremental state' cs).map rptrNext
    else (httpParseIncremental .initial cs).map rptrNext

def HTTP_VER_UNKNOWN : UInt8 := 0xff
def HTTP_VER_1_1 : UInt8 := 0x11

def isdigit (c : UInt8) : Bool := 48 ≤ c && c ≤ 57

/-- `http_proto_version` on a vector with a pointer. -/
def httpProtoVersion (str : RoVec) : UInt8 :=
  match str.bytes with
  | [h, t1, t2, p, sl, maj, dot, min] =>
    if [h, t1, t2, p, sl] = [72, 84, 84, 80, 47] ∧ dot = 46 ∧ isdigit maj ∧ isdigit min then
      ((min - 48) <<< 4) ||| (maj - 48)
    else HTTP_VER_UNKNOWN
  | _ => HTTP_VER_UNKNOWN

def INT_MAX : ℕ := 2 ^ 31 - 1

/-- The value `htype_int` stores. -/
def htypeInt (v : RoVec) : ℤ :=
  let (val, len) := vtouint v.bytes
  if len = 0 ∨ INT_MAX < val.toNat then -1 else val.toNat

/-- `struct http_hcb`, with `fn` and the variable it points to in one. -/
structure HttpHcb (σ : Type) where
  label : Bytes
  fn : RoVec → σ → σ

variable {σ : Type}

/-- Compare a key with the label of the entry at an index. -/
def hcbCmp (dcb : List (HttpHcb σ)) (k : Bytes) (i : ℕ) : ℤ :=
  match dcb[i]? with
  | some d => vstrcmpFast k d.label
  | none => 0

def dispatchHdr (dcb : List (HttpHcb σ)) (k v : RoVec) (out : σ) : σ :=
  match bisect (ε := Empty) (fun i => .ok (hcbCmp dcb k.bytes i)) dcb.length 0 dcb.length with
  | .ok (some i) =>
    match dcb[i]? with
    | some d => d.fn v out
    | none => out
  | .ok none => out

inductive DecodeState where
  | state0
  | state1
  | state2
  | state3
  | state4
  deriving DecidableEq, Repr

/-- The local variables of `http_decode_buf`. What is not assigned at its start is given a
null vector, which nothing reads. -/
structure Decode (σ : Type) where
  state : DecodeState
  hv : List RoVec
  i : ℕ
  k : RoVec
  v : RoVec
  ret : ℕ
  out : σ

/-- The vector of the bytes of `p` from `start` up to `cur`. -/
def upTo (p : Bytes) (start cur : ℕ) : RoVec := ⟨some start, (p.drop start).take (cur - start)⟩

def RoVec.start (v : RoVec) : ℕ := v.vPtr.getD 0

/-- Leave out a carriage return at the end, the byte at `cur - 1`. -/
def stripCr (w : Bytes) : Bytes := if w.getLast? = some CR then w.dropLast else w

def RoVec.stripCr (v : RoVec) : RoVec := ⟨v.vPtr, Ashttpd.stripCr v.bytes⟩

/-- One round of the loop of `http_decode_buf`. The answer `true` is `cur = end`. -/
def decodeStep (d : List (HttpHcb σ)) (p : Bytes) (cur : ℕ) (c : UInt8) (st : Decode σ) :
    Decode σ × Bool :=
  match st.state with
  | .state0 =>
    if c ≠ SP then
      ({ st with state := .state1, hv := st.hv.set st.i ⟨some cur, []⟩ }, false)
    else (st, false)
  | .state1 =>
    let word := upTo p (st.hv.getD st.i {}).start cur
    if c = SP then
      if st.i < 2 then
        ({ st with state := .state0, hv := st.hv.set st.i word, i := st.i + 1 }, false)
      else (st, false)
    else if c = LF then
      ({ st with
          state := .state2
          hv := st.hv.set st.i word.stripCr
          k := ⟨some (cur + 1), []⟩
          ret := cur + 1 }, false)
    else (st, false)
  | .state2 =>
    if c = COLON then ({ st with state := .state3, k := upTo p st.k.start cur }, false)
    else if c = LF then ({ st with ret := cur + 1 }, true)
    else (st, false)
  | .state3 =>
    if c ≠ SP then ({ st with state := .state4, v := ⟨some cur, []⟩ }, false) else (st, false)
  | .state4 =>
    if c = LF then
      let v := (upTo p st.v.start cur).stripCr
      ({ st with
          state := .state2
          v := v
          out := dispatchHdr (d.drop 3) st.k v st.out
          k := ⟨some (cur + 1), []⟩ }, false)
    else (st, false)

/-- The loop over the bytes from `cur` on, with whether it was left through `cur = end`. -/
def decodeLoop (d : List (HttpHcb σ)) (p : Bytes) : ℕ → Bytes → Decode σ → Decode σ × Bool
  | _, [], st => (st, false)
  | cur, c :: cs, st =>
    match decodeStep d p cur c st with
    | (st, true) => (st, true)
    | (st, false) => decodeLoop d p (cur + 1) cs st

def Decode.init (out : σ) : Decode σ :=
  { state := .state0, hv := [{}, {}, {}], i := 0, k := {}, v := {}, ret := 0, out := out }

/-- Hand a word of the request line to its control block. -/
def setWord (d : List (HttpHcb σ)) (i : ℕ) (v : RoVec) (out : σ) : σ :=
  match d[i]? with
  | some h => h.fn v out
  | none => out

/-- What follows the loop. -/
def decodeFinish (d : List (HttpHcb σ)) (st : Decode σ) : ℕ × σ :=
  if (st.hv.getD 0 {}).vLen = 0 ∨ (st.hv.getD 1 {}).vLen = 0 then (0, st.out)
  else
    (st.ret, setWord d 2 (st.hv.getD 2 {})
      (setWord d 1 (st.hv.getD 1 {}) (setWord d 0 (st.hv.getD 0 {}) st.out)))

/-- `http_decode_buf` on the bytes from `p` up to `end`. -/
def httpDecodeBuf (d : List (HttpHcb σ)) (p : Bytes) (out : σ) : ℕ × σ :=
  decodeFinish d (decodeLoop d p 0 p (Decode.init out)).1

end Ashttpd
