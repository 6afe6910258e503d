import Ashttpd.WrittenRecords

/-!
# A willing kernel is enough

A kernel that takes a byte with each of enough calls, and gives a byte with each of enough reads,
lets the functions of `webroot_write` return 1.
-/
namespace Ashttpd

/-- An answer that is no failure. -/
def WriteAnswer.Friendly : WriteAnswer → Prop
  | .wrote n => 0 < n
  | .eintr => True
  | .eagain waited => waited = true
  | .failed => False

/-- An answer that takes something. -/
def WriteAnswer.takes : WriteAnswer → Bool
  | .wrote _ => true
  | _ => false

/-- So many bytes more can be written. -/
structure Willing (n : ℕ) (answers : List WriteAnswer) : Prop where
  friendly : ∀ a ∈ answers, a.Friendly
  enough : n ≤ answers.countP WriteAnswer.takes

variable {answers : List WriteAnswer} {buf : Bytes} {n m : ℕ} {b b' : Fobuf}

theorem Willing.tail {a : WriteAnswer} (h : Willing n (a :: answers)) (ha : a.takes = false) : Willing n answers := by
  refine ⟨fun x hx => h.friendly x (List.mem_cons_of_mem _ hx), ?_⟩
  have henough := h.enough
  rwa [List.countP_cons_of_neg (by simp [ha])] at henough

theorem Willing.less (h : Willing n answers) (hle : m ≤ n) : Willing m answers := ⟨h.friendly, hle.trans h.enough⟩

/-- `fd_write` goes through, with one answer a byte at most. -/
theorem fdWrite_willing (hbuf : buf ≠ []) (h : Willing (buf.length + n) answers) :
    ∃ answers', fdWrite answers buf = .ok (true, buf, answers') ∧ Willing n answers' := by
  induction answers generalizing buf with
  | nil =>
    have henough := h.enough
    rw [List.countP_nil] at henough
    exact absurd (List.length_pos_iff.mpr hbuf) (by omega)
  | cons a answers ih =>
    have hfriendly := h.friendly a List.mem_cons_self
    cases a with
    | failed => exact hfriendly.elim
    | eintr => exact ih hbuf (h.tail rfl)
    | eagain waited =>
      obtain rfl : waited = true := hfriendly
      exact ih hbuf (h.tail rfl)
    | wrote k =>
      have hpos : 0 < k := hfriendly
      have hlen := List.length_pos_iff.mpr hbuf
      have henough := h.enough
      rw [List.countP_cons_of_pos rfl] at henough
      have hrest : ∀ x ∈ answers, x.Friendly := fun x hx => h.friendly x (List.mem_cons_of_mem _ hx)
      have hret : 0 < min k (if buf.length < SSIZE_MAX then buf.length else SSIZE_MAX) := by
        have hmax : 0 < SSIZE_MAX := by decide
        split <;> omega
      unfold fdWrite
      dsimp only
      generalize min k (if buf.length < SSIZE_MAX then buf.length else SSIZE_MAX) = ret at hret
      by_cases hshort : ret < buf.length
      · rw [if_pos hshort]
        have hdrop : (buf.drop ret).length = buf.length - ret := List.length_drop
        have hne : buf.drop ret ≠ [] := List.length_pos_iff.mp (by omega)
        obtain ⟨answers', hrun, hwilling⟩ := ih hne ⟨hrest, by omega⟩
        refine ⟨answers', ?_, hwilling⟩
        rw [hrun]
        show Except.ok (true, buf.take ret ++ buf.drop ret, answers') = _
        rw [List.take_append_drop]
      · rw [if_neg hshort, List.take_of_length_le (by omega)]
        exact ⟨answers, rfl, hrest, by omega⟩

/-- What is in the buffer and so many bytes more can be written. -/
structure Fobuf.Open (b : Fobuf) (n : ℕ) : Prop where
  ready : b.Ready
  willing : Willing (b.ptr + n) b.answers

theorem Fobuf.direct_willing (hbuf : buf ≠ []) (h : Willing (buf.length + n) b.answers) :
    ∃ answers', b.direct buf = .ok (true, { b with written := b.written ++ buf, answers := answers' }) ∧
      Willing n answers' := by
  obtain ⟨answers', hrun, hwilling⟩ := fdWrite_willing hbuf h
  refine ⟨answers', ?_, hwilling⟩
  rw [Fobuf.direct, hrun]
  rfl

/-- Flushing a buffer that may be full. -/
theorem Fobuf.Filled.flush_willing (h : b.Filled) (hwilling : Willing (b.ptr + n) b.answers) :
    ∃ b', fobufFlush b = .ok (true, b') ∧ b'.ptr = 0 ∧ b'.bufLen = b.bufSz ∧ b'.bufSz = b.bufSz ∧
      Willing n b'.answers := by
  have hptr := h.ptr_add
  have hlen : b.bufSz - b.bufLen = b.ptr := by omega
  unfold fobufFlush
  rw [if_neg (by omega)]
  dsimp only
  rw [hlen]
  by_cases hempty : b.ptr = 0
  · rw [if_pos hempty]
    exact ⟨b, rfl, hempty, by omega, rfl, hwilling.less (by omega)⟩
  · rw [if_neg hempty]
    have hslice : (b.buf.slice 0 b.ptr).length = b.ptr := Mem.slice_length ..
    have hne : b.buf.slice 0 b.ptr ≠ [] := List.length_pos_iff.mp (by omega)
    obtain ⟨answers', hrun, hwilling'⟩ := b.direct_willing (n := n) hne (by rwa [hslice])
    rw [hrun]
    exact ⟨_, rfl, rfl, rfl, rfl, hwilling'⟩

theorem Fobuf.Open.flush (h : b.Open n) : ∃ b', fobufFlush b = .ok (true, b') ∧ b'.Open n := by
  obtain ⟨b', hrun, hptr, hlen, hsz, hwilling⟩ := h.ready.filled.flush_willing h.willing
  have hpos := h.ready.filled.pos
  refine ⟨b', hrun, ⟨by omega, by omega, by omega⟩, ?_⟩
  rwa [hptr, Nat.zero_add]

/-- `fobuf_write` goes through. -/
theorem Fobuf.Open.write (h : b.Open (buf.length + n)) :
    ∃ b', fobufWrite b buf = .ok (true, b') ∧ b'.Open n ∧ b.Takes buf b' := by
  suffices hruns : ∃ b', fobufWrite b buf = .ok (true, b') ∧ b'.Open n by
    obtain ⟨b', hrun, hopen⟩ := hruns
    exact ⟨b', hrun, hopen, h.ready.wrote hrun⟩
  have hwilling := h.willing
  unfold fobufWrite
  by_cases hfit : buf.length < b.bufLen
  · rw [if_pos hfit]
    obtain ⟨b', hput, hputs⟩ := h.ready.filled.put (Nat.le_refl buf.length) (Nat.le_of_lt hfit)
    rw [List.take_length] at hputs
    have hready : b'.Ready := hputs.filled.ready (by rw [hputs.bufLen]; omega)
    have hptr' := hready.ptr_eq
    have hptr := h.ready.ptr_eq
    have hle := h.ready.bufLen_le
    rw [hputs.bufLen, hputs.bufSz] at hptr'
    refine ⟨b', by rw [hput]; rfl, hready, ?_⟩
    rw [hputs.answers]
    exact hwilling.less (by omega)
  · rw [if_neg hfit]
    have hlong : b.bufLen ≤ buf.length := Nat.le_of_not_lt hfit
    obtain ⟨b₁, hput, hputs⟩ := h.ready.filled.put hlong (Nat.le_refl b.bufLen)
    have htake : (buf.take b.bufLen).length = b.bufLen := List.length_take_of_le hlong
    have hptr := h.ready.filled.ptr_add
    have hptr₁ := hputs.filled.ptr_add
    have hdrop : (buf.drop b.bufLen).length = buf.length - b.bufLen := List.length_drop
    rw [hputs.bufLen, hputs.bufSz, htake] at hptr₁
    obtain ⟨b₂, hflush, hptr₂, hlen₂, hsz₂, hwilling₂⟩ := hputs.filled.flush_willing
      (n := (buf.drop b.bufLen).length + n) (by rw [hputs.answers]; exact hwilling.less (by omega))
    unfold fobufWriteSlow
    dsimp only
    rw [hput]
    show ∃ b', (fobufFlush b₁ >>= _) = _ ∧ _
    rw [hflush]
    show ∃ b', (if b₂.bufSz ≤ (buf.drop b.bufLen).length then b₂.direct (buf.drop b.bufLen) else _) = _ ∧ _
    have hpos := hputs.filled.pos
    have hfilled₂ : b₂.Filled := ⟨by omega, by omega⟩
    by_cases hmore : b₂.bufSz ≤ (buf.drop b.bufLen).length
    · rw [if_pos hmore]
      have hne : buf.drop b.bufLen ≠ [] := List.length_pos_iff.mp (by omega)
      obtain ⟨answers', hrun, hwilling'⟩ := b₂.direct_willing hne hwilling₂
      refine ⟨_, hrun, ⟨by show 0 < b₂.bufLen; omega, by show b₂.bufLen ≤ b₂.bufSz; omega,
        by show b₂.ptr = b₂.bufSz - b₂.bufLen; omega⟩, ?_⟩
      show Willing (b₂.ptr + n) answers'
      rwa [hptr₂, Nat.zero_add]
    · rw [if_neg hmore]
      obtain ⟨b₃, hput₃, hputs₃⟩ := hfilled₂.put (Nat.le_refl (buf.drop b.bufLen).length) (by omega)
      rw [List.take_length] at hputs₃
      have hready₃ : b₃.Ready := hputs₃.filled.ready (by rw [hputs₃.bufLen]; omega)
      have hptr₃ := hready₃.ptr_eq
      rw [hputs₃.bufLen, hputs₃.bufSz] at hptr₃
      refine ⟨b₃, by rw [hput₃]; rfl, hready₃, ?_⟩
      rw [hputs₃.answers]
      exact hwilling₂.less (by omega)

namespace Mkroot

variable {r : Webroot} {t : Trie} {k : Kernel} {out : Fobuf}

theorem writeEach_open {α : Type} {bytes : α → Except Fault Bytes} (len : α → ℕ) {xs : List α}
    (hbytes : ∀ x ∈ xs, ∃ buf, bytes x = .ok buf ∧ buf.length = len x) (h : out.Open ((xs.map len).sum + n)) :
    ∃ out', writeEach bytes xs out = .ok (true, out') ∧ out'.Open n := by
  induction xs generalizing out with
  | nil =>
    rw [List.map_nil, List.sum_nil, Nat.zero_add] at h
    exact ⟨out, rfl, h⟩
  | cons x xs ih =>
    obtain ⟨buf, hbuf, hlen⟩ := hbytes x List.mem_cons_self
    rw [List.map_cons, List.sum_cons, Nat.add_assoc, ← hlen] at h
    obtain ⟨out₁, hwrite, hopen, -⟩ := h.write
    obtain ⟨out', hrest, hopen'⟩ := ih (fun y hy => hbytes y (List.mem_cons_of_mem _ hy)) hopen
    refine ⟨out', ?_, hopen'⟩
    rw [writeEach, hbuf]
    show (fobufWrite out buf >>= _) = _
    rw [hwrite]
    exact hrest

/-- Every read gives something, and there are more of them than bytes. -/
structure Generous (size : ℕ) (reads : List ReadAnswer) : Prop where
  giving : ∀ a ∈ reads, ∃ m, 0 < m ∧ a = .got m
  enough : size < reads.length

theorem writeFileLoop_open {tmp : Bool} {reads : List ReadAnswer} {rest done : Bytes} {len : ℕ} {ctx : ShaCtx}
    (hctx : ctx.Absorbed done) (hreads : Generous len reads) (hlen : len ≤ rest.length) (h : out.Open (len + n)) :
    ∃ sha out', writeFileLoop k tmp reads rest len ctx out = .ok (some (sha, out')) ∧ out'.Open n := by
  induction reads generalizing rest len ctx out done with
  | nil => exact absurd hreads.enough (Nat.not_lt_zero _)
  | cons a reads ih =>
    obtain ⟨m, hpos, rfl⟩ := hreads.giving a List.mem_cons_self
    rw [writeFileLoop]
    dsimp only
    have hret : (0 < len → 0 < min m (min (if BUFFER_SIZE < len then BUFFER_SIZE else len) rest.length)) ∧
        min m (min (if BUFFER_SIZE < len then BUFFER_SIZE else len) rest.length) ≤ len := by
      have hsize : 0 < BUFFER_SIZE := Nat.two_pow_pos 20
      split <;> omega
    generalize min m (min (if BUFFER_SIZE < len then BUFFER_SIZE else len) rest.length) = ret at hret
    obtain ⟨ctx', hupdate, hctx'⟩ := hctx.update k.array (rest.take ret)
    by_cases hend : ret = 0
    · have hzero : len = 0 := by omega
      rw [if_pos hend, hupdate]
      show ∃ sha out', (blkSha1Final k.array ctx' >>= _) = _ ∧ _
      rw [hctx'.final k.array]
      show ∃ sha out', (if len = 0 then _ else _) = _ ∧ _
      rw [if_pos hzero]
      rw [hzero, Nat.zero_add] at h
      exact ⟨_, out, rfl, h⟩
    · have htake : (rest.take ret).length = ret := List.length_take_of_le (by omega)
      have hopen₀ : out.Open ((rest.take ret).length + (len - ret + n)) := by
        rw [htake, ← Nat.add_assoc, Nat.add_sub_of_le hret.2]
        exact h
      obtain ⟨out₁, hwrite, hopen, -⟩ := hopen₀.write
      have henough := hreads.enough
      rw [List.length_cons] at henough
      have hreads' : Generous (len - ret) reads :=
        ⟨fun x hx => hreads.giving x (List.mem_cons_of_mem _ hx), by omega⟩
      have hrest : len - ret ≤ (rest.drop ret).length := by
        rw [List.length_drop]
        omega
      obtain ⟨sha, out', hrun, hopen'⟩ := ih hctx' hreads' hrest hopen
      refine ⟨sha, out', ?_, hopen'⟩
      rw [if_neg hend, hwrite]
      show (blkSha1Update k.array ctx (rest.take ret) >>= _) = _
      rw [hupdate]
      exact hrun

/-- The kernel has what was scanned and gives it out. -/
structure Kernel.Willing (k : Kernel) (r : Webroot) : Prop where
  flushed : k.flushed = true
  seeked : k.seeked = true
  closed : k.closed = true
  contents : ∀ o ∈ r.rFile, Readable k r o
  reads : ∀ i o, r.rFile[i]? = some o → Generous o.size (k.reads i)

theorem writeFile_open {i : ℕ} {f : PlacedFile} (hcontent : Readable k r f.obj)
    (hreads : Generous f.obj.size (k.reads i)) (h : out.Open (f.obj.size + n)) :
    ∃ sha out', writeFile k r i f out = .ok (some (sha, out')) ∧ out'.Open n := by
  obtain ⟨content, hsource, hsize⟩ := hcontent
  unfold source at hsource
  unfold writeFile
  cases hcontent : f.obj.content with
  | path p =>
    rw [hcontent] at hsource
    dsimp only at hsource ⊢
    rw [hsource]
    exact writeFileLoop_open (blkSha1Init_absorbed k.ctx) hreads hsize h
  | tmpchunk tmpoff =>
    rw [hcontent] at hsource
    obtain rfl := Option.some.inj hsource
    exact writeFileLoop_open (blkSha1Init_absorbed k.ctx) hreads hsize h

theorem writeFilesFrom_open {i : ℕ} {fs : List PlacedFile}
    (hcontents : ∀ f ∈ fs, Readable k r f.obj)
    (hreads : ∀ j f, fs[j]? = some f → Generous f.obj.size (k.reads (i + j)))
    (h : out.Open ((fs.map fun f => f.obj.size).sum + n)) :
    ∃ fs' out', writeFilesFrom k r i fs out = .ok (some (fs', out')) ∧ out'.Open n := by
  induction fs generalizing i out with
  | nil =>
    rw [List.map_nil, List.sum_nil, Nat.zero_add] at h
    exact ⟨[], out, rfl, h⟩
  | cons f fs ih =>
    rw [List.map_cons, List.sum_cons, Nat.add_assoc] at h
    obtain ⟨sha, out₁, hfirst, hopen⟩ := writeFile_open (i := i) (hcontents f List.mem_cons_self) (hreads 0 f rfl) h
    obtain ⟨fs', out', hrest, hopen'⟩ := ih (i := i + 1) (fun g hg => hcontents g (List.mem_cons_of_mem _ hg))
      (fun j g hg => by rw [Nat.add_assoc, Nat.add_comm 1 j]; exact hreads (j + 1) g hg) hopen
    refine ⟨{ f with digest := sha } :: fs', out', ?_, hopen'⟩
    rw [writeFilesFrom]
    show (writeFile k r i f out >>= _) = _
    rw [hfirst]
    show (writeFilesFrom k r (i + 1) fs out₁ >>= _) = _
    rw [hrest]
    rfl

end Mkroot
end Ashttpd
