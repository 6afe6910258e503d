import Ashttpd.InPlaceRewriting
import Ashttpd.Vectors

/-!
# Normalising URIs (`normalize.c`)

All passes work in place on `uribuf`, which starts at address 0. `char` is signed, so that
no byte ever equals `0xff` or `0xfe`. The server flags are the constant
`NADS_WS_CASE_SENSITIVE`; what the source does under other flags is left out.
-/
namespace Ashttpd

def NADS_MAX_URI : ℕ := 16384
def NADS_OK : ℕ := 1
def NADS_FAIL : ℕ := 0
def NADS_ERR_SUCCESS : ℕ := 0
def NADS_ERR_BAD_HEX : ℕ := 2
def NADS_ERR_TRAVERSAL : ℕ := 3
def NADS_ERR_BAD_UTF8 : ℕ := 4
def NADS_ERR_NULL : ℕ := 5

abbrev SLASH : UInt8 := 47
abbrev BACKSLASH : UInt8 := 92
abbrev PERCENT : UInt8 := 37
abbrev QMARK : UInt8 := 63
abbrev DOT : UInt8 := 46

/-- Why a byte stops a pass: an error code, or an access outside of an array. -/
inductive NadsStop where
  | err (code : ℕ)
  | fault (f : Fault)
  deriving DecidableEq, Repr

/-- Why a pass over memory failed; after an error code the memory stays as it was left. -/
inductive NadsFail where
  | err (code : ℕ) (m : Mem)
  | fault (f : Fault)

/-- A pass over the string at `buf`, an error if it does not end in a state as it began, and
the terminator. -/
def runPass {σ : Type} [DecidableEq σ] (step : σ → UInt8 → Except NadsStop (σ × UInt8 × Bytes))
    (s0 : σ) (code : ℕ) (m : Mem) (buf : ℕ) : Except NadsFail Mem :=
  match rewritePass step (NADS_MAX_URI - buf) m buf buf s0 with
  | .overrun => .error (.fault .outOfRange)
  | .failed (.err code) m => .error (.err code m)
  | .failed (.fault f) _ => .error (.fault f)
  | .done m out s => if s = s0 then .ok (m.store out [0]) else .error (.err code m)

/-- The characters of type `T_HEX`. -/
def isHex (c : UInt8) : Bool :=
  (48 ≤ c && c ≤ 57) || (97 ≤ c && c ≤ 102) || (65 ≤ c && c ≤ 70)

def hexchar (c : UInt8) : UInt8 :=
  if c - 48 < 10 then c - 48
  else if c - 97 < 6 then c - 97 + 10
  else if c - 65 < 6 then c - 65 + 10
  else 0

/-- The variables `state`, `i` and `hbuf` of `n_hex`. -/
inductive HexState where
  | plain
  | percent
  | digit (h : UInt8)
  deriving DecidableEq, Repr

/-- The loop body of `n_hex`. -/
def hexStep : HexState → UInt8 → Except NadsStop (HexState × UInt8 × Bytes)
  | .plain, c => if c = PERCENT then .ok (.percent, c, []) else .ok (.plain, c, [c])
  | .percent, c => if isHex c then .ok (.digit c, c, []) else .error (.err NADS_ERR_BAD_HEX)
  | .digit h, c =>
    if isHex c then
      let d1 := (hexchar h <<< 4) ||| hexchar c
      if d1 = 0 then .error (.err NADS_ERR_NULL) else .ok (.plain, c, [d1])
    else .error (.err NADS_ERR_BAD_HEX)

def nHex (m : Mem) (buf : ℕ) : Except NadsFail Mem :=
  runPass hexStep .plain NADS_ERR_BAD_HEX m buf

/-- The loop that counts the leading ones of a first byte: `n` is the bit looked at. -/
def leadLoop (c : UInt8) : ℕ → UInt8 → ℕ → ℕ
  | 0, _, len => len
  | fuel + 1, n, len =>
    if n = 1 then len else if c &&& n = 0 then len else leadLoop c fuel (n >>> 1) (len + 1)

def leadLen (c : UInt8) : ℕ := leadLoop c 7 0x40 1

/-- `fmask[len - 2]`. The byte `before` is what lies in front of the table. -/
def fmask (before : UInt8) : ℕ → UInt8
  | 1 => before
  | 2 => 0x1f
  | 3 => 0x0f
  | 4 => 0x07
  | 5 => 0x03
  | 6 => 0x01
  | _ => 0

/-- A `char` as a 32 bit integer. -/
def charToInt (c : UInt8) : UInt32 :=
  if 0x80 ≤ c then 0xffffff00 ||| c.toUInt32 else c.toUInt32

/-- The loop of `n_ucs4` with `i` bytes to go and the shift `s`. -/
def ucs4Loop (buf : Bytes) (mask : UInt8) : ℕ → UInt32 → UInt32 → UInt32
  | 0, _, n => n
  | i + 1, s, n =>
    ucs4Loop buf mask i (s + 6)
      (n ||| (charToInt (buf.getD i 0 &&& (if i = 0 then mask else 0x3f)) <<< s))

def nUcs4 (before : UInt8) (buf : Bytes) (len : ℕ) : UInt32 :=
  ucs4Loop buf (fmask before len) len 0 0

/-- The variables of `n_utf8`: outside of a sequence, or `chr[0..i)` and `len` inside of one. -/
inductive Utf8State where
  | plain
  | seq (chr : Bytes) (len : ℕ)
  deriving DecidableEq, Repr

/-- The loop body of `n_utf8`. The seventh byte of a sequence would be stored behind `chr`. -/
def utf8Step (before : UInt8) :
    Utf8State → UInt8 → Except NadsStop (Utf8State × UInt8 × Bytes)
  | .plain, c => if c &&& 0x80 ≠ 0 then .ok (.seq [c] (leadLen c), c, []) else .ok (.plain, c, [c])
  | .seq chr len, c =>
    if 6 ≤ chr.length then .error (.fault .outOfRange)
    else
      let chr := chr ++ [c]
      if len ≤ chr.length then
        let ucs4 := nUcs4 before chr len
        if ucs4 &&& 0xffffff00 ≠ 0 then .ok (.plain, c, chr.take len)
        else .ok (.plain, c, [ucs4.toUInt8])
      else .ok (.seq chr len, c, [])

def nUtf8 (before : UInt8) (m : Mem) (buf : ℕ) : Except NadsFail Mem :=
  runPass (utf8Step before) .plain NADS_ERR_BAD_UTF8 m buf

/-- The variables of `n_pcount`: whether the byte before was a slash, and the count. -/
structure PcountState where
  last : Bool
  cnt : ℕ
  deriving DecidableEq, Repr

def toSlash (c : UInt8) : UInt8 := if c = BACKSLASH then SLASH else c

/-- The loop body of `n_pcount`. -/
def pcountStep (s : PcountState) (c : UInt8) : Except NadsStop (PcountState × UInt8 × Bytes) :=
  if toSlash c = SLASH then
    if s.last then .ok (s, toSlash c, [])
    else .ok (⟨true, s.cnt + 1⟩, toSlash c, [toSlash c])
  else .ok (⟨false, s.cnt⟩, toSlash c, [toSlash c])

/-- `n_pcount`, with the number of components. -/
def nPcount (m : Mem) (buf : ℕ) : Except NadsFail (Mem × ℕ) :=
  match rewritePass pcountStep (NADS_MAX_URI - buf) m buf buf ⟨false, 0⟩ with
  | .overrun => .error (.fault .outOfRange)
  | .failed (.err code) m => .error (.err code m)
  | .failed (.fault f) _ => .error (.fault f)
  | .done m out s => .ok (m.store out [0], s.cnt)

/-- The first loop of `n_path`: slashes become terminators, and what starts behind them is
collected. -/
def grabComponents : ℕ → Mem → ℕ → Except NadsFail (Mem × List ℕ)
  | 0, _, _ => .error (.fault .outOfRange)
  | fuel + 1, m, buf =>
    if m buf = 0 then .ok (m, [])
    else if m buf = SLASH then
      (grabComponents fuel (m.store buf [0]) (buf + 1)).map fun r => (r.1, (buf + 1) :: r.2)
    else grabComponents fuel m (buf + 1)

/-- Whether the string at `p` is the given one, as `strcmp` decides it. -/
def strEq (m : Mem) (p : ℕ) (s : Bytes) : Bool :=
  m.slice p s.length == s && m (p + s.length) == 0

/-- The second loop of `n_path`: the components kept so far, and those to come. -/
def stripDots (m : Mem) : List ℕ → List ℕ → Option (List ℕ)
  | kept, [] => some kept
  | kept, p :: ps =>
    if strEq m p [DOT] then stripDots m kept ps
    else if strEq m p [DOT, DOT] then
      if kept = [] then none else stripDots m kept.dropLast ps
    else stripDots m (kept ++ [p]) ps

def copyStep (_ : Unit) (c : UInt8) : Except NadsStop (Unit × UInt8 × Bytes) := .ok ((), c, [c])

/-- The last loop of `n_path`: the components are copied to `str`, with slashes between. -/
def rebuild : List ℕ → Mem → ℕ → Except NadsFail (Mem × ℕ)
  | [], m, str => .ok (m, str)
  | p :: ps, m, str =>
    match rewritePass copyStep (NADS_MAX_URI - p) m p str () with
    | .overrun => .error (.fault .outOfRange)
    | .failed (.err code) m => .error (.err code m)
    | .failed (.fault f) _ => .error (.fault f)
    | .done m str _ =>
      if ps = [] then .ok (m, str) else rebuild ps (m.store str [SLASH]) (str + 1)

/-- `n_path`. The array `c` has as many cells as `n_pcount` counted. -/
def nPath (m : Mem) (buf : ℕ) : Except NadsFail Mem :=
  match nPcount m buf with
  | .error e => .error e
  | .ok (m, x) =>
    match grabComponents (NADS_MAX_URI - buf) m buf with
    | .error e => .error e
    | .ok (m, cs) =>
      if cs.length ≠ x then .error (.fault .outOfRange)
      else match stripDots m [] cs with
        | none => .error (.err NADS_ERR_TRAVERSAL m)
        | some cs =>
          match rebuild cs m (buf + 1) with
          | .error e => .error e
          | .ok (m, str) => .ok ((m.store buf [SLASH]).store str [0])

/-- `n_split`: the buffer with the URI and the query behind it, and where the query is. -/
def nSplit (m : Mem) (uri : Bytes) : Except NadsFail (Mem × Option ℕ) :=
  if NADS_MAX_URI < uri.length + 1 then .error (.fault .outOfRange)
  else match uri.findIdx? (· == QMARK) with
    | some i => .ok (m.store 0 (uri.take i ++ 0 :: (uri.drop (i + 1) ++ [0])), some (i + 1))
    | none => .ok (m.store 0 (uri ++ [0]), none)

/-- What `nads_normalize` leaves: its return value, `nads_errcode`, the buffer, whose string
at 0 is `n->uri`, and `n->query`. -/
structure Nads where
  ret : ℕ
  errcode : ℕ
  uri : Mem
  query : Option ℕ

def nadsDecode (before : UInt8) (m : Mem) : Except NadsFail Mem :=
  (nHex m 0).bind fun m => nUtf8 before m 0

/-- The query is decoded last, and only for its errors. -/
def nadsQuery (m : Mem) : Option ℕ → Except NadsFail Mem
  | none => .ok m
  | some q => nHex m q

def nadsNormalize (before : UInt8) (m : Mem) (uri : Bytes) : Except Fault Nads :=
  match nSplit m uri with
  | .error (.err _ m) => .ok ⟨NADS_FAIL, NADS_ERR_SUCCESS, m, none⟩
  | .error (.fault f) => .error f
  | .ok (m, query) =>
    match (nadsDecode before m).bind fun m => (nPath m 0).bind fun m => nadsQuery m query with
    | .error (.err code m) => .ok ⟨NADS_FAIL, code, m, query⟩
    | .error (.fault f) => .error f
    | .ok m => .ok ⟨NADS_OK, NADS_ERR_SUCCESS, m, query⟩

end Ashttpd
