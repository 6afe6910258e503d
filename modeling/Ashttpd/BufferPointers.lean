import Ashttpd.HttpBuf
import Ashttpd.GuardedRuns

/-!
# The pointers of a buffer (`http_buf.c`)

`HttpBuf` counts from the start of a block and keeps its pointers in order by its type. Here are the
pointers as the source has them, addresses in a memory that holds the block, with every assertion
that is made of them. They move as `HttpBuf` says, and what is produced comes out again in order.
-/
namespace Ashttpd

/-- `struct http_buf`, with the memory its pointers point into. -/
structure BufPtrs where
  mem : Mem
  bBase : ℕ
  bEnd : ℕ
  bRead : ℕ
  bWrite : ℕ

namespace BufPtrs

/-- `do_alloc`, when `hgang_alloc` returns `ptr` for an object of `sz` bytes. -/
def doAlloc (mem : Mem) (sz ptr : ℕ) : Option BufPtrs :=
  if ptr = 0 then none else some ⟨mem, ptr, ptr + sz, ptr, ptr⟩

/-- `buf_read`: the pointer, and how much can be read there. -/
def bufRead (b : BufPtrs) : Except Fault (Option ℕ × ℕ) :=
  if b.bRead ≤ b.bWrite then .ok (if b.bRead = 0 then none else some b.bRead, b.bWrite - b.bRead)
  else .error .assertion

/-- `buf_write`: the pointer, and how much can be written there. -/
def bufWrite (b : BufPtrs) : Except Fault (Option ℕ × ℕ) :=
  if b.bWrite ≤ b.bEnd then
    .ok (if b.bWrite < b.bEnd then some b.bWrite else none, b.bEnd - b.bWrite)
  else .error .assertion

def bufDoneRead (b : BufPtrs) (sz : ℕ) : Except Fault BufPtrs :=
  if b.bRead + sz ≤ b.bWrite then
    if b.bRead + sz ≤ b.bEnd then .ok { b with bRead := b.bRead + sz } else .error .assertion
  else .error .assertion

def bufDoneWrite (b : BufPtrs) (sz : ℕ) : Except Fault BufPtrs :=
  if b.bWrite + sz ≤ b.bEnd then .ok { b with bWrite := b.bWrite + sz } else .error .assertion

/-- `buf_reset`; `memmove` reads all of what it copies before it writes. -/
def bufReset (b : BufPtrs) : Except Fault BufPtrs :=
  if b.bRead ≤ b.bWrite then
    if b.bRead ≤ b.bEnd then
      if b.bRead = b.bWrite then .ok { b with bRead := b.bBase, bWrite := b.bBase }
      else
        let res := b.bWrite - b.bRead
        .ok { b with
          mem := b.mem.store b.bBase (b.mem.slice b.bRead res)
          bRead := b.bBase
          bWrite := b.bBase + res }
    else .error .assertion
  else .error .assertion

def unread (b : BufPtrs) : Bytes := b.mem.slice b.bRead (b.bWrite - b.bRead)

/-- What the callers of a buffer do: write at the pointer they are given and say how much of it
counts, read at the pointer they are given and say how much they took, or reset the buffer. -/
inductive Use where
  | produce (bs : Bytes) (sz : ℕ)
  | consume (sz : ℕ)
  | reset

/-- No more is written, or said to be taken, than was offered. -/
def Use.Offered (b : BufPtrs) : Use → Prop
  | produce bs sz => bs.length ≤ b.bEnd - b.bWrite ∧ sz ≤ bs.length
  | consume sz => sz ≤ b.bWrite - b.bRead
  | reset => True

instance (b : BufPtrs) : (u : Use) → Decidable (u.Offered b)
  | .produce _ _ => inferInstanceAs (Decidable (_ ∧ _))
  | .consume _ => inferInstanceAs (Decidable (_ ≤ _))
  | .reset => inferInstanceAs (Decidable True)

/-- Write at a pointer, which may only be `NULL` if there is nothing to write. -/
def fill (b : BufPtrs) : Option ℕ → Bytes → Except Fault BufPtrs
  | some ptr, bs => .ok { b with mem := b.mem.store ptr bs }
  | none, [] => .ok b
  | none, _ :: _ => .error .nullPointer

/-- Read at a pointer, which may only be `NULL` if there is nothing to read. -/
def fetch (b : BufPtrs) : Option ℕ → ℕ → Except Fault Bytes
  | some ptr, sz => .ok (b.mem.slice ptr sz)
  | none, 0 => .ok []
  | none, _ + 1 => .error .nullPointer

/-- A use of a buffer: what was read comes with what becomes of the buffer. -/
def use (b : BufPtrs) : Use → Except Fault (Bytes × BufPtrs)
  | .produce bs sz => do
    let (ptr, _) ← b.bufWrite
    let b ← b.fill ptr bs
    let b ← b.bufDoneWrite sz
    pure ([], b)
  | .consume sz => do
    let (ptr, _) ← b.bufRead
    let bs ← b.fetch ptr sz
    let b ← b.bufDoneRead sz
    pure (bs, b)
  | .reset => do
    let b ← b.bufReset
    pure ([], b)

def Outside (b : BufPtrs) (i : ℕ) : Prop := i < b.bBase ∨ b.bEnd ≤ i

/-- What a use adds to the buffer. -/
def Use.bytes : Use → Bytes
  | produce bs sz => bs.take sz
  | consume _ => []
  | reset => []

end BufPtrs

/-- The pointers point where a buffer of `HttpBuf` says, into a block with the same bytes. -/
structure BufPtrs.Points (b : BufPtrs) (h : HttpBuf) : Prop where
  nonNull : 0 < b.bBase
  bEnd : b.bEnd = b.bBase + h.bEnd
  bRead : b.bRead = b.bBase + h.bRead
  bWrite : b.bWrite = b.bBase + h.bWrite
  cells : ∀ i < h.bEnd, b.mem (b.bBase + i) = h.block i

/-- What is written behind the unread bytes is to be read after them, as far as it counts. -/
theorem HttpBuf.bufDoneWrite_take (h : HttpBuf) {bs : Bytes} {sz : ℕ} (hfit : bs.length ≤ h.bufWrite)
    (hsz : sz ≤ bs.length) :
    ∃ h', (h.put bs).bufDoneWrite sz = .ok h' ∧ h'.unread = h.unread ++ bs.take sz ∧
      h'.bEnd = h.bEnd ∧ h'.bRead = h.bRead ∧ h'.bWrite = h.bWrite + sz ∧
      h'.block = h.block.store h.bWrite bs := by
  have hread := h.read_le
  have hend := h.write_le
  unfold bufWrite at hfit
  refine ⟨_, dif_pos (show h.bWrite + sz ≤ h.bEnd by omega), ?_, rfl, rfl, rfl, rfl⟩
  show (h.block.store h.bWrite bs).slice h.bRead (h.bWrite + sz - h.bRead) = h.unread ++ bs.take sz
  have hlen : h.bWrite + sz - h.bRead = h.bWrite - h.bRead + sz := by omega
  have hstart : h.bRead + (h.bWrite - h.bRead) = h.bWrite := by omega
  have hold := Mem.slice_store_before h.block h.bWrite h.bRead (h.bWrite - h.bRead) bs (by omega)
  have hall := Mem.slice_store_same h.block h.bWrite bs
  have hcut : bs.length = sz + (bs.length - sz) := by omega
  rw [hcut, Mem.slice_add] at hall
  have hnew : (h.block.store h.bWrite bs).slice h.bWrite sz = bs.take sz := by
    conv_rhs => rw [← hall]
    rw [List.take_left' (Mem.slice_length _ _ _)]
  rw [hlen, Mem.slice_add, hstart, hold, hnew]
  rfl

namespace BufPtrs.Points

variable {b b' : BufPtrs} {h : HttpBuf}

theorem ordered (hp : b.Points h) : b.bBase ≤ b.bRead ∧ b.bRead ≤ b.bWrite ∧ b.bWrite ≤ b.bEnd := by
  have hread := h.read_le
  have hend := h.write_le
  rw [hp.bRead, hp.bWrite, hp.bEnd]
  omega

theorem unread_eq (hp : b.Points h) : b.unread = h.unread := by
  have hread := h.read_le
  have hend := h.write_le
  unfold BufPtrs.unread HttpBuf.unread
  rw [hp.bRead, hp.bWrite, Nat.add_sub_add_left]
  apply List.ext_getElem?
  intro i
  by_cases hi : i < h.bWrite - h.bRead
  · rw [Mem.slice_getElem? _ _ _ _ hi, Mem.slice_getElem? _ _ _ _ hi, Nat.add_assoc, hp.cells _ (by omega)]
  · rw [List.getElem?_eq_none (by simpa using hi), List.getElem?_eq_none (by simpa using hi)]

theorem cells_store (hp : b.Points h) (p : ℕ) (bs : Bytes) :
    ∀ i < h.bEnd, b.mem.store (b.bBase + p) bs (b.bBase + i) = h.block.store p bs i := by
  intro i hi
  unfold Mem.store
  by_cases hlt : i < p
  · rw [if_pos hlt, if_pos (by omega), hp.cells i hi]
  · rw [if_neg hlt, if_neg (by omega), hp.cells i hi, Nat.add_sub_add_left]

/-- A use that was offered succeeds, and gives and takes bytes as a queue does. -/
structure Serves (b : BufPtrs) (h : HttpBuf) (u : Use) (taken : Bytes) (b' : BufPtrs) (h' : HttpBuf) :
    Prop where
  used : b.use u = .ok (taken, b')
  points : b'.Points h'
  queue : taken ++ h'.unread = h.unread ++ u.bytes
  base : b'.bBase = b.bBase
  capacity : h'.bEnd = h.bEnd
  outside : ∀ i, Outside b i → b'.mem i = b.mem i

theorem produce (hp : b.Points h) {bs : Bytes} {sz : ℕ} (ho : Use.Offered b (.produce bs sz)) :
    ∃ h', (h.put bs).bufDoneWrite sz = .ok h' ∧ ∃ b', Serves b h (.produce bs sz) [] b' h' := by
  obtain ⟨hfit, hsz⟩ := ho
  have hord := hp.ordered
  have hroom : bs.length ≤ h.bufWrite := by
    unfold HttpBuf.bufWrite
    rwa [hp.bEnd, hp.bWrite, Nat.add_sub_add_left] at hfit
  obtain ⟨h', hdone, hunread, hcap, hread, hwrite, hblock⟩ := h.bufDoneWrite_take hroom hsz
  refine ⟨h', hdone, { b with mem := b.mem.store b.bWrite bs, bWrite := b.bWrite + sz }, ?_⟩
  have hfill : b.fill (if b.bWrite < b.bEnd then some b.bWrite else none) bs =
      .ok { b with mem := b.mem.store b.bWrite bs } := by
    by_cases hlt : b.bWrite < b.bEnd
    · rw [if_pos hlt]
      rfl
    · have hnil : bs = [] := List.length_eq_zero_iff.mp (by omega)
      rw [if_neg hlt, hnil, Mem.store_nil]
      rfl
  refine ⟨?_, ⟨hp.nonNull, ?_, ?_, ?_, ?_⟩, ?_, rfl, hcap, ?_⟩
  · have hnew : b.bWrite + sz ≤ b.bEnd := by omega
    simp only [use, bufWrite, if_pos hord.2.2, hfill, bufDoneWrite, if_pos hnew,
      bind, Except.bind, pure, Except.pure]
  · rw [hcap]
    exact hp.bEnd
  · rw [hread]
    exact hp.bRead
  · show b.bWrite + sz = b.bBase + h'.bWrite
    rw [hwrite, hp.bWrite, Nat.add_assoc]
  · rw [hcap, hblock]
    show ∀ i < h.bEnd, b.mem.store b.bWrite bs (b.bBase + i) = h.block.store h.bWrite bs i
    rw [hp.bWrite]
    exact hp.cells_store h.bWrite bs
  · exact hunread
  · intro i hi
    show b.mem.store b.bWrite bs i = b.mem i
    rcases hi with hi | hi
    · exact Mem.store_before _ _ _ (by omega)
    · exact Mem.store_after _ _ _ (by omega)

theorem consume (hp : b.Points h) {sz : ℕ} (ho : Use.Offered b (.consume sz)) :
    ∃ h', h.bufDoneRead sz = .ok h' ∧ ∃ b', Serves b h (.consume sz) (h.unread.take sz) b' h' := by
  have hord := hp.ordered
  have hle : sz ≤ b.bWrite - b.bRead := ho
  have hhave : sz ≤ h.bufRead := by
    unfold HttpBuf.bufRead
    rwa [hp.bWrite, hp.bRead, Nat.add_sub_add_left] at hle
  obtain ⟨h', hdone, hunread, hcap, hread, hwrite⟩ := h.bufDoneRead_spec hhave
  have hblock : h'.block = h.block := by
    unfold HttpBuf.bufDoneRead at hdone
    split at hdone
    · cases hdone
      rfl
    · cases hdone
  refine ⟨h', hdone, { b with bRead := b.bRead + sz }, ?_⟩
  have hpos : b.bRead ≠ 0 := by
    have := hp.nonNull
    omega
  have htaken : b.mem.slice b.bRead sz = h.unread.take sz := by
    have hcut : b.bWrite - b.bRead = sz + (b.bWrite - b.bRead - sz) := by omega
    rw [← hp.unread_eq, BufPtrs.unread, hcut, Mem.slice_add, List.take_left' (Mem.slice_length _ _ _)]
  refine ⟨?_, ⟨hp.nonNull, ?_, ?_, ?_, ?_⟩, ?_, rfl, hcap, fun i _ => rfl⟩
  · have h1 : b.bRead + sz ≤ b.bWrite := by omega
    have h2 : b.bRead + sz ≤ b.bEnd := by omega
    simp only [use, bufRead, if_pos hord.2.1, if_neg hpos, fetch, htaken, bufDoneRead, if_pos h1, if_pos h2,
      bind, Except.bind, pure, Except.pure]
  · rw [hcap]
    exact hp.bEnd
  · show b.bRead + sz = b.bBase + h'.bRead
    rw [hread, hp.bRead, Nat.add_assoc]
  · rw [hwrite]
    exact hp.bWrite
  · rw [hcap, hblock]
    exact hp.cells
  · rw [Use.bytes, List.append_nil]
    exact hunread.symm

theorem reset (hp : b.Points h) : ∃ b', Serves b h .reset [] b' h.bufReset := by
  have hord := hp.ordered
  have hread : b.bRead ≤ b.bEnd := by omega
  obtain ⟨hunread, hcap, hr, hw⟩ := h.bufReset_spec
  have hqueue : [] ++ h.bufReset.unread = h.unread ++ Use.bytes .reset := by
    rw [hunread, Use.bytes, List.append_nil, List.nil_append]
  by_cases hempty : b.bRead = b.bWrite
  · have hempty' : h.bRead = h.bWrite := by
      rw [hp.bRead, hp.bWrite] at hempty
      omega
    refine ⟨{ b with bRead := b.bBase, bWrite := b.bBase }, ?_, ⟨hp.nonNull, ?_, ?_, ?_, ?_⟩, hqueue, rfl, hcap,
      fun i _ => rfl⟩
    · simp only [use, BufPtrs.bufReset, if_pos hord.2.1, if_pos hread, if_pos hempty, bind, Except.bind, pure,
        Except.pure]
    · rw [hcap]
      exact hp.bEnd
    · rw [hr]
      rfl
    · rw [hw, HttpBuf.bufRead, hempty', Nat.sub_self]
      rfl
    · rw [hcap, HttpBuf.bufReset, if_pos hempty']
      exact hp.cells
  · have hempty' : ¬ h.bRead = h.bWrite := by
      rw [hp.bRead, hp.bWrite] at hempty
      omega
    have hsize : b.bWrite - b.bRead = h.bufRead := by
      rw [HttpBuf.bufRead, hp.bWrite, hp.bRead, Nat.add_sub_add_left]
    refine ⟨{ b with
      mem := b.mem.store b.bBase (b.mem.slice b.bRead (b.bWrite - b.bRead))
      bRead := b.bBase
      bWrite := b.bBase + (b.bWrite - b.bRead) }, ?_, ⟨hp.nonNull, ?_, ?_, ?_, ?_⟩, hqueue, rfl, hcap, ?_⟩
    · simp only [use, BufPtrs.bufReset, if_pos hord.2.1, if_pos hread, if_neg hempty, bind, Except.bind, pure,
        Except.pure]
    · rw [hcap]
      exact hp.bEnd
    · rw [hr]
      rfl
    · rw [hw]
      show b.bBase + (b.bWrite - b.bRead) = b.bBase + h.bufRead
      rw [hsize]
    · rw [hcap, HttpBuf.bufReset, if_neg hempty']
      show ∀ i < h.bEnd, b.mem.store b.bBase b.unread (b.bBase + i) = h.block.store 0 h.unread i
      rw [hp.unread_eq]
      exact hp.cells_store 0 h.unread
    · intro i hi
      show b.mem.store b.bBase (b.mem.slice b.bRead (b.bWrite - b.bRead)) i = b.mem i
      rcases hi with hi | hi
      · exact Mem.store_before _ _ _ hi
      · exact Mem.store_after _ _ _ (by rw [Mem.slice_length]; omega)

theorem serves (hp : b.Points h) {u : Use} (ho : u.Offered b) : ∃ taken b' h', Serves b h u taken b' h' := by
  cases u with
  | produce bs sz =>
    obtain ⟨h', -, b', hs⟩ := hp.produce ho
    exact ⟨_, b', h', hs⟩
  | consume sz =>
    obtain ⟨h', -, b', hs⟩ := hp.consume ho
    exact ⟨_, b', h', hs⟩
  | reset =>
    obtain ⟨b', hs⟩ := hp.reset
    exact ⟨_, b', _, hs⟩

end BufPtrs.Points

/-- A buffer, with all that was produced into it and consumed from it. -/
structure BufHistory where
  buf : BufPtrs
  produced : Bytes
  consumed : Bytes

namespace BufHistory

def Step (s : BufHistory) (u : BufPtrs.Use) (s' : BufHistory) : Prop :=
  ∃ taken b', s.buf.use u = .ok (taken, b') ∧ s' = ⟨b', s.produced ++ u.bytes, s.consumed ++ taken⟩

def Offered (s : BufHistory) (u : BufPtrs.Use) : Prop := u.Offered s.buf

instance (s : BufHistory) (u : BufPtrs.Use) : Decidable (s.Offered u) := inferInstanceAs (Decidable (u.Offered s.buf))

/-- What holds of a buffer that was given a block of `sz` bytes at `ptr`, however it was used. -/
structure Sound (mem : Mem) (sz ptr : ℕ) (s : BufHistory) : Prop where
  points : ∃ h : HttpBuf, s.buf.Points h ∧ h.bEnd = sz
  base : s.buf.bBase = ptr
  queue : s.consumed ++ s.buf.unread = s.produced
  outside : ∀ i, i < ptr ∨ ptr + sz ≤ i → s.buf.mem i = mem i

variable {mem : Mem} {sz ptr : ℕ} {b : BufPtrs} {s s' : BufHistory} {u : BufPtrs.Use}

theorem sound_alloc (halloc : BufPtrs.doAlloc mem sz ptr = some b) : Sound mem sz ptr ⟨b, [], []⟩ := by
  unfold BufPtrs.doAlloc at halloc
  split at halloc
  · cases halloc
  · next hptr =>
    cases halloc
    have hpoints : BufPtrs.Points ⟨mem, ptr, ptr + sz, ptr, ptr⟩ (.alloc (fun i => mem (ptr + i)) sz) :=
      ⟨Nat.pos_of_ne_zero hptr, rfl, rfl, rfl, fun i _ => rfl⟩
    refine ⟨⟨_, hpoints, rfl⟩, rfl, ?_, fun i _ => rfl⟩
    rw [hpoints.unread_eq, HttpBuf.unread_alloc]
    rfl

/-- One use keeps the buffer sound. -/
theorem Sound.step (hs : Sound mem sz ptr s) (ho : s.Offered u) (hstep : s.Step u s') : Sound mem sz ptr s' := by
  obtain ⟨h, hp, hsz⟩ := hs.points
  obtain ⟨taken, b', h', hserves⟩ := hp.serves ho
  obtain ⟨taken', b'', hused, rfl⟩ := hstep
  rw [hserves.used] at hused
  cases hused
  refine ⟨⟨h', hserves.points, hserves.capacity.trans hsz⟩, hserves.base.trans hs.base, ?_, ?_⟩
  · show s.consumed ++ taken ++ b'.unread = s.produced ++ u.bytes
    rw [hserves.points.unread_eq, List.append_assoc, hserves.queue, ← hp.unread_eq, ← List.append_assoc, hs.queue]
  · intro i hi
    have hout : s.buf.Outside i := by
      rw [BufPtrs.Outside, hp.bEnd, hs.base, hsz]
      exact hi
    exact (hserves.outside i hout).trans (hs.outside i hi)

end BufHistory

open BufHistory in
/-- A buffer is a bounded queue, whatever is produced, consumed and reset, in whatever order: its
pointers stay in order, what was consumed and what is unread are what was produced, nothing that is
offered makes an assertion fail or writes outside of the block, and a reset makes all of the room
free again that the unread bytes do not take. -/
theorem buf_bounded_fifo {mem : Mem} {sz ptr : ℕ} {b : BufPtrs} {uses : List BufPtrs.Use} {s : BufHistory}
    (halloc : BufPtrs.doAlloc mem sz ptr = some b)
    (hrun : GuardedRun BufHistory.Step BufHistory.Offered ⟨b, [], []⟩ uses s) :
    (s.buf.bBase = ptr ∧ s.buf.bEnd = ptr + sz) ∧
      (s.buf.bBase ≤ s.buf.bRead ∧ s.buf.bRead ≤ s.buf.bWrite ∧ s.buf.bWrite ≤ s.buf.bEnd) ∧
      s.consumed ++ s.buf.unread = s.produced ∧
      (∀ u, s.Offered u → ∃ s', s.Step u s') ∧
      (∀ s', s.Step .reset s' → s'.buf.unread = s.buf.unread ∧
        s'.buf.bEnd - s'.buf.bWrite = sz - s.buf.unread.length) ∧
      ∀ i, i < ptr ∨ ptr + sz ≤ i → s.buf.mem i = mem i := by
  have hs : Sound mem sz ptr s :=
    hrun.invariant (I := fun _ s => Sound mem sz ptr s)
      (fun _ _ _ _ hs ho hstep => hs.step ho hstep) (sound_alloc halloc)
  obtain ⟨h, hp, hsz⟩ := hs.points
  refine ⟨⟨hs.base, ?_⟩, hp.ordered, hs.queue, ?_, ?_, hs.outside⟩
  · rw [hp.bEnd, hs.base, hsz]
  · intro u ho
    obtain ⟨taken, b', h', hserves⟩ := hp.serves ho
    exact ⟨_, taken, b', hserves.used, rfl⟩
  · rintro s' ⟨taken, b', hused, rfl⟩
    obtain ⟨b'', hserves⟩ := hp.reset
    rw [hserves.used] at hused
    cases hused
    have hfree := h.bufWrite_bufReset
    have hpoints := hserves.points
    rw [hpoints.unread_eq, hp.unread_eq, HttpBuf.unread_bufReset, HttpBuf.unread_length]
    refine ⟨rfl, ?_⟩
    show b'.bEnd - b'.bWrite = sz - h.bufRead
    rw [hpoints.bEnd, hpoints.bWrite, Nat.add_sub_add_left, ← hsz]
    exact hfree

/-- Three bytes are written of which two count, one of them is read, and the buffer is reset. -/
theorem buf_bounded_fifo_reset : ∃ b s, BufPtrs.doAlloc (fun _ => 0) 4 16 = some b ∧
    GuardedRun BufHistory.Step BufHistory.Offered ⟨b, [], []⟩ [.produce [1, 2, 3] 2, .consume 1, .reset] s ∧
      s.buf.bWrite = 17 ∧ s.consumed ++ s.buf.unread = s.produced := by
  obtain ⟨s, hrun, hlast⟩ : ∃ s, GuardedRun BufHistory.Step BufHistory.Offered
      ⟨⟨fun _ => 0, 16, 20, 16, 16⟩, [], []⟩ [.produce [1, 2, 3] 2, .consume 1, .reset] s ∧ s.buf.bWrite = 17 :=
    ⟨_, .step (.step (.step (.start _) (by decide) ⟨_, _, rfl, rfl⟩) (by decide) ⟨_, _, rfl, rfl⟩) trivial
      ⟨_, _, rfl, rfl⟩, rfl⟩
  exact ⟨_, s, rfl, hrun, hlast, (@buf_bounded_fifo (fun _ => 0) 4 16 _ _ _ rfl hrun).2.2.1⟩

end Ashttpd
