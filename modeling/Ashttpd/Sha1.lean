import Ashttpd.SecureHash
import Ashttpd.WebrootOpen
import Mathlib.Data.Fin.VecNotation

/-!
# Hashing in portions (`sha1.c`)

The context is a block of memory as it comes, so that nothing is known of `W` behind what was
copied there. The length of a portion is that of its bytes.
-/
namespace Ashttpd

open Fips180 (Word Work)

/-- `blk_SHA_CTX`, where `W` is seen as its bytes. -/
structure ShaCtx where
  size : BitVec 64
  H : Fin 5 → Word
  W : Mem

def ShaCtx.value (ctx : ShaCtx) : Work := ⟨ctx.H 0, ctx.H 1, ctx.H 2, ctx.H 3, ctx.H 4⟩

/-- The variables of `blk_SHA1_Block` that its macros are given. -/
inductive ShaReg where
  | A
  | B
  | C
  | D
  | E
  deriving DecidableEq, Repr

structure ShaVars where
  reg : ShaReg → Word
  array : Fin 16 → Word

def shaRol (x : Word) (n : ℕ) : Word := x.rotateLeft n
def shaRor (x : Word) (n : ℕ) : Word := x.rotateRight n

def getBe32 (m : Mem) (p : ℕ) : Word :=
  (m p).toBitVec ++ (m (p + 1)).toBitVec ++ (m (p + 2)).toBitVec ++ (m (p + 3)).toBitVec

/-- The bytes that `htobe32` and `put_be32` leave in memory. -/
def putBe32 (v : Word) : Bytes :=
  [⟨(v >>> 24).setWidth 8⟩, ⟨(v >>> 16).setWidth 8⟩, ⟨(v >>> 8).setWidth 8⟩, ⟨v.setWidth 8⟩]

namespace ShaVars

/-- `W(x)`, a cell of the array that is rolled over. -/
def W (s : ShaVars) (x : ℕ) : Word := s.array (Fin.ofNat 16 x)

def setW (s : ShaVars) (x : ℕ) (val : Word) : ShaVars :=
  { s with array := Function.update s.array (Fin.ofNat 16 x) val }

def set (s : ShaVars) (r : ShaReg) (val : Word) : ShaVars := { s with reg := Function.update s.reg r val }

end ShaVars

def shaSrc (block : Mem) (t : ℕ) (_ : ShaVars) : Word := getBe32 block (t * 4)

def shaMix (t : ℕ) (s : ShaVars) : Word := shaRol (s.W (t + 13) ^^^ s.W (t + 8) ^^^ s.W (t + 2) ^^^ s.W t) 1

def shaRound (t : ℕ) (input : ℕ → ShaVars → Word) (fn : (ShaReg → Word) → Word) (constant : Word)
    (a b e : ShaReg) (s : ShaVars) : ShaVars :=
  let temp := input t s
  let s := s.setW t temp
  let s := s.set e (s.reg e + (temp + shaRol (s.reg a) 5 + fn s.reg + constant))
  s.set b (shaRor (s.reg b) 2)

def T_0_15 (block : Mem) (t : ℕ) (a b c d e : ShaReg) : ShaVars → ShaVars :=
  shaRound t (shaSrc block) (fun r => ((r c ^^^ r d) &&& r b) ^^^ r d) 0x5a827999 a b e

def T_16_19 (t : ℕ) (a b c d e : ShaReg) : ShaVars → ShaVars :=
  shaRound t shaMix (fun r => ((r c ^^^ r d) &&& r b) ^^^ r d) 0x5a827999 a b e

def T_20_39 (t : ℕ) (a b c d e : ShaReg) : ShaVars → ShaVars :=
  shaRound t shaMix (fun r => r b ^^^ r c ^^^ r d) 0x6ed9eba1 a b e

def T_40_59 (t : ℕ) (a b c d e : ShaReg) : ShaVars → ShaVars :=
  shaRound t shaMix (fun r => (r b &&& r c) + (r d &&& (r b ^^^ r c))) 0x8f1bbcdc a b e

def T_60_79 (t : ℕ) (a b c d e : ShaReg) : ShaVars → ShaVars :=
  shaRound t shaMix (fun r => r b ^^^ r c ^^^ r d) 0xca62c1d6 a b e

open ShaReg in
/-- The statements of `blk_SHA1_Block` between the loads and the additions. -/
def shaRounds (block : Mem) : List (ShaVars → ShaVars) := [
  T_0_15 block 0 A B C D E, T_0_15 block 1 E A B C D, T_0_15 block 2 D E A B C,
  T_0_15 block 3 C D E A B, T_0_15 block 4 B C D E A,
  T_0_15 block 5 A B C D E, T_0_15 block 6 E A B C D, T_0_15 block 7 D E A B C,
  T_0_15 block 8 C D E A B, T_0_15 block 9 B C D E A,
  T_0_15 block 10 A B C D E, T_0_15 block 11 E A B C D, T_0_15 block 12 D E A B C,
  T_0_15 block 13 C D E A B, T_0_15 block 14 B C D E A,
  T_0_15 block 15 A B C D E, T_16_19 16 E A B C D, T_16_19 17 D E A B C, T_16_19 18 C D E A B, T_16_19 19 B C D E A,
  T_20_39 20 A B C D E, T_20_39 21 E A B C D, T_20_39 22 D E A B C, T_20_39 23 C D E A B, T_20_39 24 B C D E A,
  T_20_39 25 A B C D E, T_20_39 26 E A B C D, T_20_39 27 D E A B C, T_20_39 28 C D E A B, T_20_39 29 B C D E A,
  T_20_39 30 A B C D E, T_20_39 31 E A B C D, T_20_39 32 D E A B C, T_20_39 33 C D E A B, T_20_39 34 B C D E A,
  T_20_39 35 A B C D E, T_20_39 36 E A B C D, T_20_39 37 D E A B C, T_20_39 38 C D E A B, T_20_39 39 B C D E A,
  T_40_59 40 A B C D E, T_40_59 41 E A B C D, T_40_59 42 D E A B C, T_40_59 43 C D E A B, T_40_59 44 B C D E A,
  T_40_59 45 A B C D E, T_40_59 46 E A B C D, T_40_59 47 D E A B C, T_40_59 48 C D E A B, T_40_59 49 B C D E A,
  T_40_59 50 A B C D E, T_40_59 51 E A B C D, T_40_59 52 D E A B C, T_40_59 53 C D E A B, T_40_59 54 B C D E A,
  T_40_59 55 A B C D E, T_40_59 56 E A B C D, T_40_59 57 D E A B C, T_40_59 58 C D E A B, T_40_59 59 B C D E A,
  T_60_79 60 A B C D E, T_60_79 61 E A B C D, T_60_79 62 D E A B C, T_60_79 63 C D E A B, T_60_79 64 B C D E A,
  T_60_79 65 A B C D E, T_60_79 66 E A B C D, T_60_79 67 D E A B C, T_60_79 68 C D E A B, T_60_79 69 B C D E A,
  T_60_79 70 A B C D E, T_60_79 71 E A B C D, T_60_79 72 D E A B C, T_60_79 73 C D E A B, T_60_79 74 B C D E A,
  T_60_79 75 A B C D E, T_60_79 76 E A B C D, T_60_79 77 D E A B C, T_60_79 78 C D E A B, T_60_79 79 B C D E A]

-- what the stack holds where `blk_SHA1_Block` has its array
variable (array : Fin 16 → Word)

def blkSha1Block (ctx : ShaCtx) (block : Mem) : ShaCtx :=
  let s : ShaVars := ⟨fun | .A => ctx.H 0 | .B => ctx.H 1 | .C => ctx.H 2 | .D => ctx.H 3 | .E => ctx.H 4, array⟩
  let s := (shaRounds block).foldl (fun s T => T s) s
  { ctx with
    H := ![ctx.H 0 + s.reg .A, ctx.H 1 + s.reg .B, ctx.H 2 + s.reg .C, ctx.H 3 + s.reg .D, ctx.H 4 + s.reg .E] }

def blkSha1Init (ctx : ShaCtx) : ShaCtx :=
  { ctx with size := 0, H := ![0x67452301, 0xefcdab89, 0x98badcfe, 0x10325476, 0xc3d2e1f0] }

/-- `memcpy` to `W`. -/
def ShaCtx.memcpy (ctx : ShaCtx) (ofs : ℕ) (data : Bytes) : Except Fault ShaCtx :=
  if 64 < ofs + data.length then .error .outOfRange else .ok { ctx with W := ctx.W.store ofs data }

/-- The end of `blk_SHA1_Update`: whole blocks are hashed where they are, and the rest is kept. -/
def shaWhole (ctx : ShaCtx) (data : Bytes) : Except Fault ShaCtx :=
  if 64 ≤ data.length then shaWhole (blkSha1Block array ctx (bytesAt data)) (data.drop 64)
  else if data.length ≠ 0 then ctx.memcpy 0 data
  else .ok ctx
termination_by data.length

def blkSha1Update (ctx : ShaCtx) (data : Bytes) : Except Fault ShaCtx :=
  let lenW := (ctx.size &&& 63).toNat
  let ctx := { ctx with size := ctx.size + BitVec.ofNat 64 data.length }
  if lenW ≠ 0 then do
    let left := 64 - lenW
    let left := if data.length < left then data.length else left
    let ctx ← ctx.memcpy lenW (data.take left)
    let lenW := (lenW + left) % 64
    let data := data.drop left
    if lenW ≠ 0 then pure ctx else shaWhole array (blkSha1Block array ctx ctx.W) data
  else shaWhole array ctx data

def shaPad : Bytes := 0x80 :: List.replicate 63 0

def blkSha1Final (ctx : ShaCtx) : Except Fault Bytes := do
  let padlen := putBe32 ((ctx.size >>> 29).setWidth 32) ++ putBe32 ((ctx.size <<< 3).setWidth 32)
  let i : ℤ := (ctx.size &&& 63).toNat
  let ctx ← blkSha1Update array ctx (shaPad.take (1 + ((55 - i) % 64).toNat))
  let ctx ← blkSha1Update array ctx padlen
  pure ((List.finRange 5).flatMap fun i => putBe32 (ctx.H i))

end Ashttpd
