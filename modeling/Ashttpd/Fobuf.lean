import Ashttpd.ByteMemory
import Ashttpd.Vectors
import Ashttpd.GuardedRuns
import Ashttpd.Outcomes

/-!
# Buffered output (`fobuf.c`, `fd_write` of `os.c`)

The kernel answers every `write` from a list, however it likes; a call that has not come back when
the answers are used up has not come back at all. `ptr` counts from `buf`.
-/
namespace Ashttpd

/-- What `write` returns: a number of bytes, up to what it was asked to take, or an error. After
`EAGAIN` it is known whether `fd_wait_single` succeeds. -/
inductive WriteAnswer where
  | wrote (n : ℕ)
  | eintr
  | eagain (waited : Bool)
  | failed
  deriving DecidableEq, Repr

def SSIZE_MAX : ℕ := 2 ^ 63 - 1

/-- `fd_write`: its return value, what the kernel took, and the answers left. -/
def fdWrite : List WriteAnswer → Bytes → Except Fault (Bool × Bytes × List WriteAnswer)
  | [], _ => .error .nontermination
  | .eintr :: answers, buf => fdWrite answers buf
  | .eagain waited :: answers, buf => if waited then fdWrite answers buf else .ok (false, [], answers)
  | .failed :: answers, _ => .ok (false, [], answers)
  | .wrote n :: answers, buf =>
    let ret := min n (if buf.length < SSIZE_MAX then buf.length else SSIZE_MAX)
    if ret < buf.length then
      (fdWrite answers (buf.drop ret)).map fun x => (x.1, buf.take ret ++ x.2.1, x.2.2)
    else .ok (true, buf.take ret, answers)

/-- `struct _fobuf`; the file is told by what was written to it and by the answers to come. -/
structure Fobuf where
  buf : Mem
  ptr : ℕ
  bufLen : ℕ
  bufSz : ℕ
  written : Bytes
  answers : List WriteAnswer

/-- `fobuf_new` on a block of memory. -/
def fobufNew (buf : Mem) (bufsz : ℕ) (answers : List WriteAnswer) : Fobuf :=
  let bufsz := if bufsz = 0 then 4096 else bufsz
  ⟨buf, 0, bufsz, bufsz, [], answers⟩

namespace Fobuf

/-- Copy `len` bytes behind the ones in the buffer: `memcpy` and the two assignments after it. -/
def put (b : Fobuf) (buf : Bytes) (len : ℕ) : Except Fault Fobuf :=
  if buf.length < len ∨ b.bufSz < b.ptr + len then .error .outOfRange
  else if b.bufLen < len then .error .underflow
  else .ok { b with buf := b.buf.store b.ptr (buf.take len), ptr := b.ptr + len, bufLen := b.bufLen - len }

/-- `fd_write` on the file of a buffer. -/
def direct (b : Fobuf) (buf : Bytes) : Except Fault (Bool × Fobuf) :=
  (fdWrite b.answers buf).map fun x => (x.1, { b with written := b.written ++ x.2.1, answers := x.2.2 })

end Fobuf

def fobufFlush (b : Fobuf) : Except Fault (Bool × Fobuf) :=
  if b.bufSz < b.bufLen then .error .underflow
  else
    let len := b.bufSz - b.bufLen
    if len = 0 then .ok (true, b)
    else do
      let (ret, b) ← b.direct (b.buf.slice 0 len)
      pure (if ret then (true, { b with ptr := 0, bufLen := b.bufSz }) else (false, b))

def fobufWriteSlow (b : Fobuf) (buf : Bytes) : Except Fault (Bool × Fobuf) := do
  let len := b.bufLen
  let b ← b.put buf len
  let buf := buf.drop len
  let (ret, b) ← fobufFlush b
  if !ret then pure (false, b)
  else if b.bufSz ≤ buf.length then b.direct buf
  else
    let b ← b.put buf buf.length
    pure (true, b)

def fobufWrite (b : Fobuf) (buf : Bytes) : Except Fault (Bool × Fobuf) :=
  if buf.length < b.bufLen then (b.put buf buf.length).map fun b => (true, b)
  else fobufWriteSlow b buf

/-- `fd_write` is over when the answers are, and has written all or, when it fails, a part. -/
theorem fdWrite_ends (answers : List WriteAnswer) (buf : Bytes) :
    Ends (· = .nontermination) (fun x => (x.1 = true → x.2.1 = buf) ∧ x.2.1 <+: buf) (fdWrite answers buf) := by
  induction answers generalizing buf with
  | nil => rfl
  | cons answer answers ih =>
    cases answer with
    | eintr => exact ih buf
    | failed => exact ⟨nofun, List.nil_prefix⟩
    | eagain waited =>
      cases waited with
      | false => exact ⟨nofun, List.nil_prefix⟩
      | true => exact ih buf
    | wrote n =>
      unfold fdWrite
      dsimp only
      generalize min n (if buf.length < SSIZE_MAX then buf.length else SSIZE_MAX) = ret
      by_cases hshort : ret < buf.length
      · rw [if_pos hshort]
        refine ends_map (ih (buf.drop ret)) fun x hx => ?_
        obtain ⟨hall, rest, hrest⟩ := hx
        refine ⟨fun hok => ?_, rest, ?_⟩
        · rw [hall hok, List.take_append_drop]
        · rw [List.append_assoc, hrest, List.take_append_drop]
      · rw [if_neg hshort, List.take_of_length_le (Nat.le_of_not_lt hshort)]
        exact ⟨fun _ => rfl, List.prefix_refl buf⟩

namespace Fobuf

def buffered (b : Fobuf) : Bytes := b.buf.slice 0 b.ptr

/-- `ptr` and the room behind it make up the buffer. -/
structure Filled (b : Fobuf) : Prop where
  pos : 0 < b.bufSz
  ptr_add : b.ptr + b.bufLen = b.bufSz

variable {b b' : Fobuf} {buf : Bytes} {len : ℕ}

/-- Copying what there is room for only adds to what is buffered. -/
structure Puts (b : Fobuf) (bs : Bytes) (b' : Fobuf) : Prop where
  filled : b'.Filled
  buffered : b'.buffered = b.buffered ++ bs
  bufLen : b'.bufLen = b.bufLen - bs.length
  bufSz : b'.bufSz = b.bufSz
  written : b'.written = b.written
  answers : b'.answers = b.answers

theorem Filled.put (h : b.Filled) (hbuf : len ≤ buf.length) (hroom : len ≤ b.bufLen) :
    ∃ b', b.put buf len = .ok b' ∧ b.Puts (buf.take len) b' := by
  have hpos := h.pos
  have hptr := h.ptr_add
  have htake : (buf.take len).length = len := List.length_take_of_le hbuf
  refine ⟨{ b with buf := b.buf.store b.ptr (buf.take len), ptr := b.ptr + len, bufLen := b.bufLen - len }, ?_,
    ⟨hpos, ?_⟩, ?_, ?_, rfl, rfl, rfl⟩
  · unfold Fobuf.put
    rw [if_neg (by omega), if_neg (by omega)]
  · show b.ptr + len + (b.bufLen - len) = b.bufSz
    omega
  · have hext := Mem.slice_store_extend b.buf 0 b.ptr (buf.take len)
    rwa [htake, Nat.zero_add] at hext
  · show b.bufLen - len = b.bufLen - (buf.take len).length
    rw [htake]

theorem direct_ends (b : Fobuf) (buf : Bytes) :
    Ends (· = .nontermination) (fun x => x.1 = true → ∃ answers,
      x.2 = { b with written := b.written ++ buf, answers }) (b.direct buf) := by
  refine ends_map (fdWrite_ends b.answers buf) fun x hx hok => ⟨x.2.2, ?_⟩
  rw [hx.1 hok]

/-- A flush that succeeds leaves nothing in the buffer. -/
theorem Filled.flush (h : b.Filled) :
    Ends (· = .nontermination) (fun x => x.1 = true → x.2.Filled ∧ x.2.bufLen = b.bufSz ∧ x.2.bufSz = b.bufSz ∧
      x.2.buffered = [] ∧ x.2.written = b.written ++ b.buffered) (fobufFlush b) := by
  have hptr := h.ptr_add
  have hlen : b.bufSz - b.bufLen = b.ptr := by omega
  unfold fobufFlush
  rw [if_neg (by omega)]
  dsimp only
  rw [hlen]
  by_cases hempty : b.ptr = 0
  · rw [if_pos hempty]
    have hnone : b.buffered = [] := by rw [buffered, hempty, Mem.slice_zero]
    have hfull : b.bufLen = b.bufSz := by omega
    refine fun _ => ⟨h, hfull, rfl, hnone, ?_⟩
    rw [hnone, List.append_nil]
  · rw [if_neg hempty]
    refine ends_bind (b.direct_ends (b.buf.slice 0 b.ptr)) fun x hx => ?_
    obtain ⟨ret, b₁⟩ := x
    cases ret with
    | false => exact nofun
    | true =>
      obtain ⟨answers, rfl⟩ := hx rfl
      exact fun _ => ⟨⟨h.pos, Nat.zero_add _⟩, rfl, rfl, rfl, rfl⟩

/-- Between calls there is room left in the buffer. -/
structure Ready (b : Fobuf) : Prop where
  bufLen_pos : 0 < b.bufLen
  bufLen_le : b.bufLen ≤ b.bufSz
  ptr_eq : b.ptr = b.bufSz - b.bufLen

theorem Ready.filled (h : b.Ready) : b.Filled := by
  have h1 := h.bufLen_pos
  have h2 := h.bufLen_le
  have h3 := h.ptr_eq
  exact ⟨by omega, by omega⟩

theorem Filled.ready (h : b.Filled) (hroom : 0 < b.bufLen) : b.Ready := by
  have hptr := h.ptr_add
  exact ⟨hroom, by omega, by omega⟩

/-- What a call makes of a buffer when it returns 1: as much more is written or buffered. -/
structure Takes (b : Fobuf) (bs : Bytes) (b' : Fobuf) : Prop where
  ready : b'.Ready
  bufSz : b'.bufSz = b.bufSz
  content : b'.written ++ b'.buffered = b.written ++ b.buffered ++ bs

theorem Ready.fast (h : b.Ready) (hfit : buf.length < b.bufLen) :
    Ends (· = .nontermination) (fun x => x.1 = true → b.Takes buf x.2)
      ((b.put buf buf.length).map fun b => (true, b)) := by
  obtain ⟨b', hput, hputs⟩ := h.filled.put (Nat.le_refl buf.length) (Nat.le_of_lt hfit)
  rw [hput]
  rw [List.take_length] at hputs
  refine fun _ => ⟨hputs.filled.ready ?_, hputs.bufSz, ?_⟩
  · show 0 < b'.bufLen
    rw [hputs.bufLen]
    omega
  · rw [hputs.written, hputs.buffered, ← List.append_assoc]

/-- The slow path fills the buffer to the brim, flushes it, and either writes the rest past the
buffer or has room for it. -/
theorem Ready.slow (h : b.Ready) (hlong : b.bufLen ≤ buf.length) :
    Ends (· = .nontermination) (fun x => x.1 = true → b.Takes buf x.2) (fobufWriteSlow b buf) := by
  obtain ⟨b₁, hput, hputs⟩ := h.filled.put hlong (Nat.le_refl b.bufLen)
  unfold fobufWriteSlow
  refine ends_bind (P := fun x => x = b₁) (by rw [hput]; rfl) fun x hx => ?_
  subst hx
  refine ends_bind hputs.filled.flush fun x hx => ?_
  obtain ⟨ret, b₂⟩ := x
  cases ret with
  | false => exact nofun
  | true =>
    obtain ⟨hfilled, hlen, hsz, hnone, hwritten⟩ := hx rfl
    dsimp only at hfilled hlen hsz hnone hwritten
    rw [hputs.written, hputs.buffered, ← List.append_assoc] at hwritten
    have hroom : 0 < b₂.bufLen := by
      rw [hlen]
      exact hputs.filled.pos
    have hsize : b₂.bufSz = b.bufSz := hsz.trans hputs.bufSz
    dsimp only
    rw [Bool.not_true, if_neg Bool.false_ne_true]
    by_cases hmore : b₂.bufSz ≤ (buf.drop b.bufLen).length
    · rw [if_pos hmore]
      refine (b₂.direct_ends (buf.drop b.bufLen)).mono (fun _ => id) fun x hx hok => ?_
      obtain ⟨answers, heq⟩ := hx hok
      rw [heq]
      have hready := hfilled.ready hroom
      refine ⟨⟨hready.bufLen_pos, hready.bufLen_le, hready.ptr_eq⟩, hsize, ?_⟩
      show b₂.written ++ buf.drop b.bufLen ++ b₂.buffered = b.written ++ b.buffered ++ buf
      rw [hnone, List.append_nil, hwritten, List.append_assoc, List.take_append_drop]
    · rw [if_neg hmore]
      have hfit : (buf.drop b.bufLen).length < b₂.bufLen := by omega
      obtain ⟨b₃, hput₃, hputs₃⟩ := hfilled.put (Nat.le_refl _) (Nat.le_of_lt hfit)
      rw [List.take_length] at hputs₃
      refine ends_bind (P := fun x => x = b₃) (by rw [hput₃]; rfl) fun x hx => ?_
      subst hx
      refine fun _ => ⟨hputs₃.filled.ready ?_, hputs₃.bufSz.trans hsize, ?_⟩
      · show 0 < x.bufLen
        rw [hputs₃.bufLen]
        omega
      · rw [hputs₃.written, hputs₃.buffered, hnone, List.nil_append, hwritten, List.append_assoc,
          List.take_append_drop]

end Fobuf

/-- The calls a program makes between `fobuf_new` and the end. -/
inductive FobufCall where
  | write (buf : Bytes)
  | flush

namespace FobufCall

def make : FobufCall → Fobuf → Except Fault (Bool × Fobuf)
  | write buf, b => fobufWrite b buf
  | flush, b => fobufFlush b

def data : FobufCall → Bytes
  | write buf => buf
  | flush => []

def Succeeds (b : Fobuf) (c : FobufCall) (b' : Fobuf) : Prop := c.make b = .ok (true, b')

end FobufCall

open FobufCall

/-- A call comes back as long as there are answers, and takes its data if it returns 1. -/
theorem Fobuf.Ready.make {b : Fobuf} (h : b.Ready) (c : FobufCall) :
    Ends (· = .nontermination) (fun x => x.1 = true → b.Takes c.data x.2) (c.make b) := by
  cases c with
  | write buf =>
    show Ends _ _ (fobufWrite b buf)
    unfold fobufWrite
    by_cases hfit : buf.length < b.bufLen
    · rw [if_pos hfit]
      exact h.fast hfit
    · rw [if_neg hfit]
      exact h.slow (Nat.le_of_not_lt hfit)
  | flush =>
    refine h.filled.flush.mono (fun _ => id) fun x hx hok => ?_
    obtain ⟨hfilled, hlen, hsz, hnone, hwritten⟩ := hx hok
    refine ⟨hfilled.ready ?_, hsz, ?_⟩
    · rw [hlen]
      exact h.filled.pos
    · rw [hnone, hwritten, List.append_nil, FobufCall.data, List.append_nil]

theorem fobufNew_ready (buf : Mem) (bufsz : ℕ) (answers : List WriteAnswer) : (fobufNew buf bufsz answers).Ready := by
  unfold fobufNew
  refine ⟨?_, Nat.le_refl _, (Nat.sub_self _).symm⟩
  show 0 < if bufsz = 0 then 4096 else bufsz
  split <;> omega

/-- As long as all calls return 1, a buffer is a stream: what is written to the file after one more
flush is all of the data in order, whatever the kernel answers. The buffer never is full between
calls, and no copy leaves it. -/
theorem fobuf_transparent {buf : Mem} {bufsz : ℕ} {answers : List WriteAnswer} {calls : List FobufCall} {b : Fobuf}
    (hrun : Run Succeeds (fobufNew buf bufsz answers) calls b) :
    (0 < b.bufLen ∧ b.bufLen ≤ b.bufSz ∧ b.ptr = b.bufSz - b.bufLen ∧
        b.bufSz = if bufsz = 0 then 4096 else bufsz) ∧
      (∀ b', Succeeds b .flush b' → b'.written = calls.flatMap data) ∧
      ∀ c fault, FobufCall.make c b = .error fault → fault = .nontermination := by
  have hsound : b.Ready ∧ (b.bufSz = if bufsz = 0 then 4096 else bufsz) ∧
      b.written ++ b.buffered = calls.flatMap data := by
    refine hrun.invariant (I := fun calls b => b.Ready ∧ (b.bufSz = if bufsz = 0 then 4096 else bufsz) ∧
      b.written ++ b.buffered = calls.flatMap data) ?_ ⟨fobufNew_ready buf bufsz answers, rfl, rfl⟩
    rintro calls b c b' ⟨hready, hsz, hcontent⟩ - hstep
    have htakes := (hready.make c).result hstep rfl
    refine ⟨htakes.ready, htakes.bufSz.trans hsz, ?_⟩
    rw [htakes.content, hcontent, List.flatMap_append, List.flatMap_singleton]
  obtain ⟨hready, hsz, hcontent⟩ := hsound
  refine ⟨⟨hready.bufLen_pos, hready.bufLen_le, hready.ptr_eq, hsz⟩, ?_, ?_⟩
  · intro b' hflush
    obtain ⟨-, -, -, -, hwritten⟩ := hready.filled.flush.result hflush rfl
    rw [← hcontent]
    exact hwritten
  · intro c fault hfault
    exact (hready.make c).fault hfault

/-- Five bytes through a buffer of two, past which the kernel takes one of the last two at first. -/
theorem fobuf_transparent_small : ∃ b b', Run Succeeds (fobufNew (fun _ => 0) 2 [.wrote 2, .eintr, .wrote 1, .wrote 9])
    [.write [1], .write [2, 3, 4, 5]] b ∧ Succeeds b .flush b' ∧ b'.written = [1, 2, 3, 4, 5] := by
  have hwrites : ∃ b₁ b b', Succeeds (fobufNew (fun _ => 0) 2 [.wrote 2, .eintr, .wrote 1, .wrote 9]) (.write [1]) b₁ ∧
      Succeeds b₁ (.write [2, 3, 4, 5]) b ∧ Succeeds b .flush b' := ⟨_, _, _, rfl, rfl, rfl⟩
  obtain ⟨b₁, b, b', hfirst, hsecond, hflush⟩ := hwrites
  have hrun : Run Succeeds _ [.write [1], .write [2, 3, 4, 5]] b := .step (.step (.start _) trivial hfirst) trivial hsecond
  exact ⟨b, b', hrun, hflush, (fobuf_transparent hrun).2.1 b' hflush⟩

end Ashttpd
