import Ashttpd.MkrootWriter
import Ashttpd.Sha1Stream

/-!
# What the functions of `webroot_write` put out

Each of them is read off its return value: if it is 1, then the output took the bytes of all its
items one behind the other, however the kernel cut the calls.
-/
namespace Ashttpd

variable {b b' b'' : Fobuf} {bs bs' : Bytes}

theorem Fobuf.Ready.takes_nil (h : b.Ready) : b.Takes [] b := ⟨h, rfl, (List.append_nil _).symm⟩

theorem Fobuf.Takes.trans (h : b.Takes bs b') (h' : b'.Takes bs' b'') : b.Takes (bs ++ bs') b'' := by
  refine ⟨h'.ready, h'.bufSz.trans h.bufSz, ?_⟩
  rw [h'.content, h.content, List.append_assoc]

theorem Fobuf.Ready.wrote (h : b.Ready) (hwrite : fobufWrite b bs = .ok (true, b')) : b.Takes bs b' :=
  (h.make (.write bs)).result hwrite rfl

theorem Fobuf.Ready.flushed (h : b.Ready) (hflush : fobufFlush b = .ok (true, b')) :
    b'.Ready ∧ b'.buffered = [] ∧ b'.written = b.written ++ b.buffered := by
  obtain ⟨hfilled, hlen, -, hnone, hwritten⟩ := h.filled.flush.result hflush rfl
  refine ⟨hfilled.ready ?_, hnone, hwritten⟩
  rw [hlen]
  exact h.filled.pos

namespace Mkroot

section placed

variable {α : Type} {len : α → ℕ} {off : UInt64} {xs : List α}

theorem placeAll_items (len : α → ℕ) (off : UInt64) (xs : List α) : (placeAll len off xs).1.map Prod.fst = xs := by
  induction xs generalizing off with
  | nil => rfl
  | cons x xs ih =>
    rw [placeAll]
    dsimp only
    rw [List.map_cons, ih]

variable {text : α → Bytes}

/-- Where the offsets do not go round, an item is placed where its text is in the text of all. -/
theorem placeAll_located (len : α → ℕ) (text : α → Bytes) (off : UInt64) (xs : List α)
    (htext : ∀ x ∈ xs, (text x).length = len x)
    (hfit : off.toNat + (xs.flatMap text).length < 2 ^ 64) :
    (placeAll len off xs).2.toNat = off.toNat + (xs.flatMap text).length ∧
      ∀ x ∈ (placeAll len off xs).1, ∃ pre post, xs.flatMap text = pre ++ text x.1 ++ post ∧
        x.2.toNat = off.toNat + pre.length := by
  induction xs generalizing off with
  | nil =>
    refine ⟨rfl, ?_⟩
    intro x hx
    cases hx
  | cons x xs ih =>
    rw [List.flatMap_cons, List.length_append, htext x List.mem_cons_self] at hfit
    have hnext : (off + UInt64.ofNat (len x)).toNat = off.toNat + len x := by
      rw [UInt64.toNat_add, UInt64.toNat_ofNat']
      omega
    obtain ⟨hlast, hrest⟩ := ih (off + UInt64.ofNat (len x)) (fun y hy => htext y (List.mem_cons_of_mem _ hy))
      (by rw [hnext]; omega)
    rw [placeAll]
    dsimp only
    constructor
    · rw [hlast, hnext, List.flatMap_cons, List.length_append, htext x List.mem_cons_self]
      omega
    · intro y hy
      rcases List.mem_cons.mp hy with rfl | hy
      · exact ⟨[], xs.flatMap text, List.flatMap_cons, rfl⟩
      · obtain ⟨pre, post, hsplit, hoff⟩ := hrest y hy
        refine ⟨text x ++ pre, post, ?_, ?_⟩
        · rw [List.flatMap_cons, hsplit, List.append_assoc, List.append_assoc, List.append_assoc]
        · rw [hoff, hnext, List.length_append, htext x List.mem_cons_self]
          omega

/-- No two items share a byte. -/
theorem placeAll_disjoint (htext : ∀ x ∈ xs, (text x).length = len x)
    (hfit : off.toNat + (xs.flatMap text).length < 2 ^ 64) :
    (placeAll len off xs).1.Pairwise fun x y => x.2.toNat + len x.1 ≤ y.2.toNat := by
  induction xs generalizing off with
  | nil => exact List.Pairwise.nil
  | cons x xs ih =>
    rw [List.flatMap_cons, List.length_append, htext x List.mem_cons_self] at hfit
    have hnext : (off + UInt64.ofNat (len x)).toNat = off.toNat + len x := by
      rw [UInt64.toNat_add, UInt64.toNat_ofNat']
      omega
    have htexts : ∀ y ∈ xs, (text y).length = len y := fun y hy => htext y (List.mem_cons_of_mem _ hy)
    have hrest : (off + UInt64.ofNat (len x)).toNat + (xs.flatMap text).length < 2 ^ 64 := by omega
    rw [placeAll]
    refine List.Pairwise.cons ?_ (ih htexts hrest)
    intro y hy
    obtain ⟨pre, post, -, hoff⟩ := (placeAll_located len text _ xs htexts hrest).2 y hy
    show off.toNat + len x ≤ y.2.toNat
    omega

end placed

section each

variable {α : Type} {bytes : α → Except Fault Bytes} {xs : List α} {out out' : Fobuf}

theorem writeEach_takes (hready : out.Ready) (h : writeEach bytes xs out = .ok (true, out')) :
    ∃ bufs, xs.mapM bytes = .ok bufs ∧ out.Takes bufs.flatten out' := by
  induction xs generalizing out with
  | nil =>
    cases h
    exact ⟨[], rfl, hready.takes_nil⟩
  | cons x xs ih =>
    rw [writeEach] at h
    obtain ⟨buf, hbuf, h⟩ := bind_eq_ok_iff.mp h
    obtain ⟨⟨ret, out₁⟩, hwrite, h⟩ := bind_eq_ok_iff.mp h
    cases ret with
    | false => cases h
    | true =>
      have htakes := hready.wrote hwrite
      obtain ⟨bufs, hbufs, hrest⟩ := ih htakes.ready h
      refine ⟨buf :: bufs, ?_, htakes.trans hrest⟩
      rw [List.mapM_cons, hbuf, hbufs]
      rfl

theorem thenWrite_takes {x : Except Fault (Bool × Fobuf)} {f : Fobuf → Except Fault (Bool × Fobuf)}
    (h : thenWrite x f = .ok (true, out')) : ∃ out, x = .ok (true, out) ∧ f out = .ok (true, out') := by
  obtain ⟨⟨ret, out⟩, hx, h⟩ := bind_eq_ok_iff.mp h
  cases ret with
  | false => cases h
  | true => exact ⟨out, hx, h⟩

end each

section contents

variable {k : Kernel} {tmp : Bool} {answers : List ReadAnswer} {rest sha done : Bytes} {len : ℕ} {ctx : ShaCtx}
  {out out' : Fobuf}

/-- A loop that ends well has put out as much of the file as it was to read, and hashed it. -/
theorem writeFileLoop_takes (hready : out.Ready) (hctx : ctx.Absorbed done)
    (h : writeFileLoop k tmp answers rest len ctx out = .ok (some (sha, out'))) :
    len ≤ rest.length ∧ out.Takes (rest.take len) out' ∧ sha = Fips180.sha1 (done ++ rest.take len) := by
  induction answers generalizing rest len ctx out done with
  | nil => cases h
  | cons answer answers ih =>
    cases answer with
    | failed => cases h
    | got n =>
      rw [writeFileLoop] at h
      dsimp only at h
      have hle : min n (min (if BUFFER_SIZE < len then BUFFER_SIZE else len) rest.length) ≤ min len rest.length := by
        split <;> omega
      generalize min n (min (if BUFFER_SIZE < len then BUFFER_SIZE else len) rest.length) = ret at h hle
      obtain ⟨ctx', hupdate, hctx'⟩ := hctx.update k.array (rest.take ret)
      by_cases hend : ret = 0
      · rw [if_pos hend, hupdate] at h
        obtain ⟨ctx₁, hsame, h⟩ := bind_eq_ok_iff.mp h
        cases hsame
        obtain ⟨sha', hfinal, h⟩ := bind_eq_ok_iff.mp h
        rw [hctx'.final k.array] at hfinal
        cases hfinal
        by_cases hlen : len = 0
        · rw [if_pos hlen] at h
          cases h
          subst hend hlen
          exact ⟨Nat.zero_le _, hready.takes_nil, rfl⟩
        · rw [if_neg hlen] at h
          cases tmp with
          | true => cases h
          | false => cases h
      · rw [if_neg hend] at h
        obtain ⟨⟨wrote, out₁⟩, hwrite, h⟩ := bind_eq_ok_iff.mp h
        cases wrote with
        | false => cases h
        | true =>
          rw [hupdate] at h
          have htakes := hready.wrote hwrite
          obtain ⟨hlen, hrest, hsha⟩ := ih htakes.ready hctx' h
          have hsplit : rest.take ret ++ (rest.drop ret).take (len - ret) = rest.take len := by
            rw [← List.take_add, Nat.add_sub_of_le (by omega)]
          rw [List.length_drop] at hlen
          rw [List.append_assoc, hsplit] at hsha
          have hboth := htakes.trans hrest
          rw [hsplit] at hboth
          exact ⟨by omega, hboth, hsha⟩

/-- Where the bytes of a file object come from. -/
def source (k : Kernel) (r : Webroot) (o : FileObject) : Option Bytes :=
  match o.content with
  | .path p => p.bind k.contents
  | .tmpchunk tmpoff => some (r.rTmpchunks.drop tmpoff)

def fileContent (k : Kernel) (r : Webroot) (o : FileObject) : Bytes := ((source k r o).getD []).take o.size

def Readable (k : Kernel) (r : Webroot) (o : FileObject) : Prop :=
  ∃ content, source k r o = some content ∧ o.size ≤ content.length

theorem Readable.length {r : Webroot} {o : FileObject} (h : Readable k r o) : (fileContent k r o).length = o.size := by
  obtain ⟨content, hsource, hle⟩ := h
  rw [fileContent, hsource, Option.getD_some]
  exact List.length_take_of_le hle

variable {r : Webroot} {i : ℕ} {f : PlacedFile} {fs fs' : List PlacedFile}

theorem writeFile_takes (hready : out.Ready) (h : writeFile k r i f out = .ok (some (sha, out'))) :
    Readable k r f.obj ∧ out.Takes (fileContent k r f.obj) out' ∧
      sha = Fips180.sha1 (fileContent k r f.obj) := by
  have hloop : ∃ tmp content, source k r f.obj = some content ∧
      writeFileLoop k tmp (k.reads i) content f.obj.size (blkSha1Init k.ctx) out = .ok (some (sha, out')) := by
    unfold writeFile at h
    unfold source
    cases hcontent : f.obj.content with
    | path p =>
      rw [hcontent] at h
      dsimp only at h ⊢
      cases hopen : p.bind k.contents with
      | none =>
        rw [hopen] at h
        cases h
      | some content =>
        rw [hopen] at h
        exact ⟨false, content, rfl, h⟩
    | tmpchunk tmpoff =>
      rw [hcontent] at h
      exact ⟨true, _, rfl, h⟩
  obtain ⟨tmp, content, hsource, hrun⟩ := hloop
  obtain ⟨hlen, htakes, hsha⟩ := writeFileLoop_takes hready (blkSha1Init_absorbed k.ctx) hrun
  have hcontent : fileContent k r f.obj = content.take f.obj.size := by
    rw [fileContent, hsource]
    rfl
  rw [hcontent]
  exact ⟨⟨content, hsource, hlen⟩, htakes, hsha⟩

def PlacedFile.hashed (k : Kernel) (r : Webroot) (f : PlacedFile) : PlacedFile :=
  { f with digest := Fips180.sha1 (fileContent k r f.obj) }

theorem writeFilesFrom_takes (hready : out.Ready)
    (h : writeFilesFrom k r i fs out = .ok (some (fs', out'))) :
    (∀ f ∈ fs, Readable k r f.obj) ∧ fs' = fs.map (PlacedFile.hashed k r) ∧
      out.Takes (fs.flatMap fun f => fileContent k r f.obj) out' := by
  induction fs generalizing i out fs' with
  | nil =>
    cases h
    exact ⟨by simp, rfl, hready.takes_nil⟩
  | cons f fs ih =>
    rw [writeFilesFrom] at h
    obtain ⟨first, hfirst, h⟩ := bind_eq_ok_iff.mp h
    cases first with
    | none => cases h
    | some first =>
      obtain ⟨sha, out₁⟩ := first
      obtain ⟨hsize, htakes, hsha⟩ := writeFile_takes hready hfirst
      obtain ⟨others, hothers, h⟩ := bind_eq_ok_iff.mp h
      cases others with
      | none => cases h
      | some others =>
        obtain ⟨fs₁, out₂⟩ := others
        cases h
        obtain ⟨hsizes, rfl, hrest⟩ := ih htakes.ready hothers
        refine ⟨List.forall_mem_cons.mpr ⟨hsize, hsizes⟩, ?_, ?_⟩
        · rw [List.map_cons, PlacedFile.hashed, hsha]
        · rw [List.flatMap_cons]
          exact htakes.trans hrest

end contents

end Mkroot
end Ashttpd
