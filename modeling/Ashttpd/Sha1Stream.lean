import Ashttpd.Sha1Rounds
import Ashttpd.ByteImages
import Ashttpd.Outcomes

/-!
# Portions are hashed as the whole

The context stands for the bytes it was given: the value of their whole blocks, the rest of them at
the start of `W`, and how many they are.
-/
namespace Ashttpd

open Fips180 (Word Work)

variable {ctx ctx' : ShaCtx} {data done : Bytes}

/-- What a context is after some bytes. -/
structure ShaCtx.Absorbed (ctx : ShaCtx) (done : Bytes) : Prop where
  size : ctx.size = BitVec.ofNat 64 done.length
  value : ctx.value = foldBlocks 64 Fips180.compress Fips180.H0 done
  kept : ctx.W.slice 0 (done.length % 64) = restBlock 64 done

theorem and_63 (x : BitVec 64) : (x &&& 63).toNat = x.toNat % 64 := by
  rw [BitVec.toNat_and]
  exact Nat.and_two_pow_sub_one_eq_mod x.toNat 6

theorem ShaCtx.Absorbed.lenW (h : ctx.Absorbed done) : (ctx.size &&& 63).toNat = done.length % 64 := by
  rw [and_63, h.size, BitVec.toNat_ofNat]
  omega

theorem blkSha1Init_absorbed (ctx : ShaCtx) : (blkSha1Init ctx).Absorbed [] := ⟨rfl, rfl, rfl⟩

theorem ShaCtx.memcpy_ok {ofs : ℕ} (h : ofs + data.length ≤ 64) :
    ctx.memcpy ofs data = .ok { ctx with W := ctx.W.store ofs data } := by
  rw [ShaCtx.memcpy, if_neg (by omega)]

/-- Behind a whole number of blocks, more of them are hashed and the rest is kept. -/
theorem shaWhole_absorbed (array : Fin 16 → Word) (ctx : ShaCtx) (data : Bytes) :
    ∃ ctx', shaWhole array ctx data = .ok ctx' ∧ ctx'.size = ctx.size ∧
      ctx'.value = foldBlocks 64 Fips180.compress ctx.value data ∧
      ctx'.W.slice 0 (data.length % 64) = restBlock 64 data := by
  by_cases hwhole : 64 ≤ data.length
  · have htake : (data.take 64).length = 64 := List.length_take_of_le hwhole
    have hblock : (bytesAt data).slice 0 64 = data.take 64 := bytesAt_slice (by omega)
    have hshorter : (data.drop 64).length < data.length := by
      rw [List.length_drop]
      omega
    obtain ⟨ctx', hrun, hsize, hvalue, hkept⟩ := shaWhole_absorbed array (blkSha1Block array ctx (bytesAt data)) (data.drop 64)
    refine ⟨ctx', ?_, hsize, ?_, ?_⟩
    · rw [shaWhole, if_pos hwhole, hrun]
    · rw [hvalue, blkSha1Block_value, hblock, ← foldBlocks_block (by omega) htake, List.take_append_drop]
    · rw [List.length_drop] at hkept
      rw [show data.length % 64 = (data.length - 64) % 64 by omega, hkept, ← restBlock_block (by omega) htake,
        List.take_append_drop]
  · have hshort : data.length < 64 := by omega
    rw [shaWhole, if_neg hwhole, foldBlocks_short hshort, restBlock_short hshort, Nat.mod_eq_of_lt hshort]
    by_cases hnone : data.length = 0
    · rw [if_neg (by omega)]
      refine ⟨ctx, rfl, rfl, rfl, ?_⟩
      rw [List.length_eq_zero_iff.mp hnone]
      rfl
    · rw [if_pos hnone, ShaCtx.memcpy_ok (by omega)]
      exact ⟨_, rfl, rfl, rfl, Mem.slice_store_same ctx.W 0 data⟩
termination_by data.length

/-- Where nothing is kept, whole blocks come first. -/
theorem shaWhole_takes (array : Fin 16 → Word) (data : Bytes) (haligned : done.length % 64 = 0)
    (hsize : ctx.size = BitVec.ofNat 64 (done ++ data).length)
    (hvalue : ctx.value = foldBlocks 64 Fips180.compress Fips180.H0 done) :
    ∃ ctx', shaWhole array ctx data = .ok ctx' ∧ ctx'.Absorbed (done ++ data) := by
  obtain ⟨ctx', hrun, hsize', hvalue', hkept⟩ := shaWhole_absorbed array ctx data
  have hnone : restBlock 64 done = [] := by
    rw [← List.length_eq_zero_iff, restBlock_length, haligned]
  have hmod : (done ++ data).length % 64 = data.length % 64 := by
    rw [List.length_append]
    omega
  refine ⟨ctx', hrun, hsize'.trans hsize, ?_, ?_⟩
  · rw [hvalue', hvalue, foldBlocks_append (by omega), hnone, List.nil_append]
  · rw [hmod, hkept, restBlock_append (by omega), hnone, List.nil_append]

/-- `blk_SHA1_Update` takes its bytes in, and copies nothing past `W`. -/
theorem ShaCtx.Absorbed.update (h : ctx.Absorbed done) (array : Fin 16 → Word) (data : Bytes) :
    ∃ ctx', blkSha1Update array ctx data = .ok ctx' ∧ ctx'.Absorbed (done ++ data) := by
  have hsize : ctx.size + BitVec.ofNat 64 data.length = BitVec.ofNat 64 (done ++ data).length := by
    rw [h.size, List.length_append, BitVec.ofNat_add]
  have hrest : (restBlock 64 done).length = done.length % 64 := restBlock_length 64 done
  have hkept := h.kept
  unfold blkSha1Update
  rw [h.lenW, hsize]
  dsimp only
  by_cases haligned : done.length % 64 = 0
  · rw [if_neg (by omega)]
    exact shaWhole_takes array data haligned rfl h.value
  rw [if_pos haligned]
  generalize hlen : done.length % 64 = lenW at *
  have hW := Mem.slice_store_extend ctx.W 0 lenW
  by_cases hshort : data.length < 64 - lenW
  · rw [if_pos hshort, List.take_length, memcpy_ok (by omega)]
    have hmod : (done ++ data).length % 64 = lenW + data.length := by
      rw [List.length_append]
      omega
    rw [Nat.mod_eq_of_lt (by omega)]
    refine ⟨_, if_pos (by omega), rfl, ?_, ?_⟩
    · rw [foldBlocks_append (by omega), foldBlocks_short (by rw [List.length_append]; omega)]
      exact h.value
    · rw [hmod, restBlock_append (by omega), restBlock_short (by rw [List.length_append]; omega)]
      have hext := hW data
      rwa [Nat.zero_add, hkept] at hext
  · -- the block that was begun is filled up
    have htake : (data.take (64 - lenW)).length = 64 - lenW := List.length_take_of_le (by omega)
    have hblock : (restBlock 64 done ++ data.take (64 - lenW)).length = 64 := by
      rw [List.length_append, hrest, htake]
      omega
    rw [if_neg hshort, memcpy_ok (by omega)]
    generalize hctx : ({ ctx with size := _, W := _ } : ShaCtx) = ctx₁
    have hvalue : (blkSha1Block array ctx₁ ctx₁.W).value =
        foldBlocks 64 Fips180.compress Fips180.H0 (done ++ data.take (64 - lenW)) := by
      have hext := hW (data.take (64 - lenW))
      rw [Nat.zero_add, hkept, htake, show lenW + (64 - lenW) = 64 by omega] at hext
      rw [blkSha1Block_value, ← hctx]
      show Fips180.compress ctx.value (Mem.slice _ 0 64) = _
      rw [hext, h.value, foldBlocks_append (by omega), foldBlocks_one (by omega) hblock]
    have hdone : (done ++ data.take (64 - lenW)).length % 64 = 0 := by
      rw [List.length_append, htake]
      omega
    have hall : done ++ data.take (64 - lenW) ++ data.drop (64 - lenW) = done ++ data := by
      rw [List.append_assoc, List.take_append_drop]
    have hends := shaWhole_takes array (data.drop (64 - lenW)) hdone (by rw [hall, ← hctx]; rfl) hvalue
    rw [hall] at hends
    obtain ⟨ctx', hrun, habsorbed⟩ := hends
    refine ⟨ctx', ?_, habsorbed⟩
    show (if (lenW + (64 - lenW)) % 64 ≠ 0 then _ else _) = _
    rw [if_neg (by omega)]
    exact hrun

theorem ShaCtx.Absorbed.updates (h : ctx.Absorbed done) (array : Fin 16 → Word) (portions : List Bytes) :
    ∃ ctx', portions.foldlM (blkSha1Update array) ctx = .ok ctx' ∧ ctx'.Absorbed (done ++ portions.flatten) := by
  induction portions generalizing ctx done with
  | nil => exact ⟨ctx, rfl, by simpa using h⟩
  | cons data portions ih =>
    obtain ⟨ctx₁, hfirst, h₁⟩ := h.update array data
    obtain ⟨ctx', hrun, h'⟩ := ih h₁
    refine ⟨ctx', ?_, ?_⟩
    · rw [List.foldlM_cons, hfirst]
      exact hrun
    · rwa [List.flatten_cons, ← List.append_assoc]

private theorem byte_of_word (v : Word) (k : ℕ) : (⟨(v >>> k).setWidth 8⟩ : UInt8) = UInt8.ofNat (v.toNat / 2 ^ k) := by
  apply UInt8.toNat_inj.mp
  rw [UInt8.toNat_ofNat']
  show ((v >>> k).setWidth 8).toNat = _
  rw [BitVec.toNat_setWidth, BitVec.toNat_ushiftRight, Nat.shiftRight_eq_div_pow]

theorem putBe32_eq (v : Word) : putBe32 v = Fips180.bigEndian v.toNat 4 := by
  have hlow := byte_of_word v 0
  rw [BitVec.ushiftRight_zero] at hlow
  rw [putBe32, byte_of_word, byte_of_word, byte_of_word, hlow]
  rfl

theorem padlen_eq (l : ℕ) :
    putBe32 ((BitVec.ofNat 64 l >>> 29).setWidth 32) ++ putBe32 ((BitVec.ofNat 64 l <<< 3).setWidth 32) =
      Fips180.bigEndian (8 * l) 8 := by
  rw [putBe32_eq, putBe32_eq, Fips180.bigEndian_add (8 * l) 4 4]
  congr 1
  · apply Fips180.bigEndian_mod
    rw [BitVec.toNat_setWidth, BitVec.toNat_ushiftRight, BitVec.toNat_ofNat, Nat.shiftRight_eq_div_pow]
    omega
  · apply Fips180.bigEndian_mod
    rw [BitVec.toNat_setWidth, BitVec.toNat_shiftLeft, BitVec.toNat_ofNat, Nat.shiftLeft_eq]
    omega

theorem shaPad_take (l : ℕ) :
    shaPad.take (1 + ((55 - ((l % 64 : ℕ) : ℤ)) % 64).toNat) = 0x80 :: List.replicate ((119 - l % 64) % 64) 0 := by
  have hzeros : ((55 - ((l % 64 : ℕ) : ℤ)) % 64).toNat = (119 - l % 64) % 64 := by omega
  rw [hzeros, Nat.add_comm, shaPad, List.take_succ_cons, List.take_replicate, Nat.min_eq_left (by omega)]

/-- `blk_SHA1_Final` puts the hash out. -/
theorem ShaCtx.Absorbed.final (h : ctx.Absorbed done) (array : Fin 16 → Word) :
    blkSha1Final array ctx = .ok (Fips180.sha1 done) := by
  obtain ⟨ctx₁, hpad, h₁⟩ := h.update array
    (0x80 :: List.replicate ((119 - done.length % 64) % 64) 0)
  obtain ⟨ctx₂, hlen, h₂⟩ := h₁.update array (Fips180.bigEndian (8 * done.length) 8)
  unfold blkSha1Final
  rw [h.lenW, h.size]
  dsimp only
  rw [shaPad_take, padlen_eq, hpad]
  show (blkSha1Update array ctx₁ (Fips180.bigEndian (8 * done.length) 8) >>= _) = _
  rw [hlen]
  have hvalue := h₂.value
  rw [List.append_assoc] at hvalue
  rw [Fips180.sha1, Fips180.padding, ← hvalue]
  simp only [putBe32_eq]
  rfl

/-- Whatever the context held before, and however a message is cut into portions: they are hashed to
the SHA-1 of the message, and no copy leaves `W`. -/
theorem sha1_in_portions (array : Fin 16 → Word) (ctx : ShaCtx) (portions : List Bytes) :
    (portions.foldlM (blkSha1Update array) (blkSha1Init ctx) >>= blkSha1Final array) =
      .ok (Fips180.sha1 portions.flatten) := by
  obtain ⟨ctx', hrun, habsorbed⟩ := (blkSha1Init_absorbed ctx).updates array portions
  rw [hrun]
  exact habsorbed.final array

end Ashttpd
