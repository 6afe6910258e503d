import Ashttpd.Vectors

/-!
# Buffers (`http_buf.c`)

Addresses count from `b_base`. That `b_read` stays before `b_write` and `b_write` before `b_end`,
which `buf_read`, `buf_write` and `buf_reset` assert, is part of the type; the other
assertions are the ones that the operations check here.
-/
namespace Ashttpd

/-- The size of the blocks responses are built in. -/
def HTTP_MAX_REQ : ℕ := 2048
def HTTP_MAX_RESP : ℕ := 1024
def HTTP_DATA_BUFFER : ℕ := 4096

structure HttpBuf where
  block : Mem
  bEnd : ℕ
  bRead : ℕ
  bWrite : ℕ
  read_le : bRead ≤ bWrite
  write_le : bWrite ≤ bEnd

namespace HttpBuf

/-- `do_alloc` with a block of the given size, whatever is in it. -/
def alloc (block : Mem) (size : ℕ) : HttpBuf := ⟨block, size, 0, 0, Nat.le_refl 0, Nat.zero_le size⟩

def unread (b : HttpBuf) : Bytes := b.block.slice b.bRead (b.bWrite - b.bRead)

/-- `buf_read`: how much there is to be read. -/
def bufRead (b : HttpBuf) : ℕ := b.bWrite - b.bRead

/-- `buf_write`: how much can be written. -/
def bufWrite (b : HttpBuf) : ℕ := b.bEnd - b.bWrite

def putAt (b : HttpBuf) (ptr : ℕ) (bs : Bytes) : HttpBuf := { b with block := b.block.store ptr bs }

/-- What is written at the pointer that `buf_write` gives. -/
def put (b : HttpBuf) (bs : Bytes) : HttpBuf := b.putAt b.bWrite bs

def bufDoneRead (b : HttpBuf) (sz : ℕ) : Except Fault HttpBuf :=
  if h : b.bRead + sz ≤ b.bWrite then .ok { b with bRead := b.bRead + sz, read_le := h }
  else .error .assertion

def bufDoneWrite (b : HttpBuf) (sz : ℕ) : Except Fault HttpBuf :=
  if h : b.bWrite + sz ≤ b.bEnd then
    .ok { b with
      bWrite := b.bWrite + sz
      read_le := Nat.le_trans b.read_le (Nat.le_add_right b.bWrite sz)
      write_le := h }
  else .error .assertion

def bufReset (b : HttpBuf) : HttpBuf :=
  if b.bRead = b.bWrite then
    { b with bRead := 0, bWrite := 0, read_le := Nat.le_refl 0, write_le := Nat.zero_le b.bEnd }
  else
    { b with
      block := b.block.store 0 b.unread
      bRead := 0
      bWrite := b.bWrite - b.bRead
      read_le := Nat.zero_le _
      write_le := Nat.le_trans (Nat.sub_le b.bWrite b.bRead) b.write_le }

@[simp] theorem unread_length (b : HttpBuf) : b.unread.length = b.bufRead := by
  simp [unread, bufRead]

@[simp] theorem unread_alloc (block : Mem) (size : ℕ) : (alloc block size).unread = [] := rfl

@[simp] theorem bufWrite_alloc (block : Mem) (size : ℕ) : (alloc block size).bufWrite = size := rfl

theorem unread_eq_nil_iff (b : HttpBuf) : b.unread = [] ↔ b.bufRead = 0 := by
  rw [← unread_length, List.length_eq_zero_iff]

/-- What is written behind the unread bytes is to be read after them. -/
theorem bufDoneWrite_spec (b : HttpBuf) {bs : Bytes} (h : bs.length ≤ b.bufWrite) :
    ∃ b', (b.put bs).bufDoneWrite bs.length = .ok b' ∧ b'.unread = b.unread ++ bs ∧
      b'.bEnd = b.bEnd ∧ b'.bRead = b.bRead ∧ b'.bWrite = b.bWrite + bs.length := by
  have hle := b.read_le
  have hend := b.write_le
  have hfit : b.bWrite + bs.length ≤ b.bEnd := by
    unfold bufWrite at h
    omega
  refine ⟨_, dif_pos hfit, ?_, rfl, rfl, rfl⟩
  show (b.block.store b.bWrite bs).slice b.bRead (b.bWrite + bs.length - b.bRead) = b.unread ++ bs
  have hext := Mem.slice_store_extend b.block b.bRead (b.bWrite - b.bRead) bs
  rw [show b.bRead + (b.bWrite - b.bRead) = b.bWrite by omega] at hext
  rw [show b.bWrite + bs.length - b.bRead = b.bWrite - b.bRead + bs.length by omega, hext]
  rfl

/-- Reading takes bytes from the front. -/
theorem bufDoneRead_spec (b : HttpBuf) {n : ℕ} (h : n ≤ b.bufRead) :
    ∃ b', b.bufDoneRead n = .ok b' ∧ b.unread = b.unread.take n ++ b'.unread ∧
      b'.bEnd = b.bEnd ∧ b'.bRead = b.bRead + n ∧ b'.bWrite = b.bWrite := by
  have hle := b.read_le
  have hfit : b.bRead + n ≤ b.bWrite := by
    unfold bufRead at h
    omega
  refine ⟨_, dif_pos hfit, ?_, rfl, rfl, rfl⟩
  have hsplit : b.unread = b.block.slice b.bRead n ++ b.block.slice (b.bRead + n) (b.bWrite - (b.bRead + n)) := by
    unfold unread
    rw [← Mem.slice_add]
    congr 1
    omega
  have htake : b.unread.take n = b.block.slice b.bRead n := by
    rw [hsplit, List.take_left' (Mem.slice_length _ _ _)]
  rw [htake]
  exact hsplit

theorem unread_of_bufDoneRead {b b' : HttpBuf} {n : ℕ} (h : b.bufDoneRead n = .ok b') :
    n ≤ b.bufRead ∧ b'.unread = b.unread.drop n := by
  have hle : n ≤ b.bufRead := by
    unfold bufDoneRead at h
    split at h
    · next hfit =>
      unfold bufRead
      omega
    · cases h
  obtain ⟨b'', hb'', hsplit, -⟩ := b.bufDoneRead_spec hle
  rw [h] at hb''
  cases hb''
  refine ⟨hle, ?_⟩
  conv_rhs => rw [hsplit]
  rw [List.drop_left' (by rw [List.length_take, unread_length]; omega)]

/-- Resetting moves the unread bytes to the front. -/
theorem bufReset_spec (b : HttpBuf) : b.bufReset.unread = b.unread ∧ b.bufReset.bEnd = b.bEnd ∧
    b.bufReset.bRead = 0 ∧ b.bufReset.bWrite = b.bufRead := by
  unfold bufReset
  by_cases h : b.bRead = b.bWrite
  · rw [if_pos h]
    refine ⟨?_, rfl, rfl, ?_⟩
    · simp [unread, h]
    · simp [bufRead, h]
  · rw [if_neg h]
    refine ⟨?_, rfl, rfl, rfl⟩
    show (b.block.store 0 b.unread).slice 0 (b.bWrite - b.bRead - 0) = b.unread
    have hsame := Mem.slice_store_same b.block 0 b.unread
    rwa [unread_length, bufRead] at hsame

@[simp] theorem unread_bufReset (b : HttpBuf) : b.bufReset.unread = b.unread := b.bufReset_spec.1

theorem bufWrite_bufReset (b : HttpBuf) : b.bufReset.bufWrite = b.bEnd - b.bufRead := by
  obtain ⟨-, h1, -, h2⟩ := b.bufReset_spec
  unfold bufWrite
  rw [h1, h2]

end HttpBuf
end Ashttpd
