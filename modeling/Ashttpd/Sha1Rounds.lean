import Ashttpd.Sha1

/-!
# A block is compressed

In place of moving five values on, the calls of a block take the five variables round by their
names, and in place of eighty words of the schedule they keep the last sixteen.
-/
namespace Ashttpd

open Fips180 (Word Work schedule)

/-- Choosing between bits takes one `and`. -/
theorem choose_eq_ch (x y z : Word) : ((y ^^^ z) &&& x) ^^^ z = Fips180.Ch x y z := by
  ext i hi
  simp only [Fips180.Ch, BitVec.getElem_xor, BitVec.getElem_and, BitVec.getElem_not]
  cases x[i] <;> cases y[i] <;> cases z[i] <;> rfl

theorem carryless_eq_maj (x y z : Word) : (x &&& y) + (z &&& (x ^^^ y)) = Fips180.Maj x y z := by
  have hdisjoint : (x &&& y) &&& (z &&& (x ^^^ y)) = 0#32 := by
    ext i hi
    simp only [BitVec.getElem_xor, BitVec.getElem_and, BitVec.getElem_zero]
    cases x[i] <;> cases y[i] <;> cases z[i] <;> rfl
  rw [BitVec.add_eq_or_of_and_eq_zero _ _ hdisjoint]
  ext i hi
  simp only [Fips180.Maj, BitVec.getElem_xor, BitVec.getElem_and, BitVec.getElem_or]
  cases x[i] <;> cases y[i] <;> cases z[i] <;> rfl

theorem shaRor_two (x : Word) : shaRor x 2 = x.rotateLeft 30 := by
  rw [shaRor, BitVec.rotateRight_def, BitVec.rotateLeft_def, BitVec.or_comm]

/-- The variables a call is given. -/
structure ShaNames where
  a : ShaReg
  b : ShaReg
  c : ShaReg
  d : ShaReg
  e : ShaReg

def ShaNames.turn (n : ShaNames) : ShaNames := ⟨n.e, n.a, n.b, n.c, n.d⟩

def ShaNames.Distinct (n : ShaNames) : Prop := [n.a, n.b, n.c, n.d, n.e].Nodup

theorem ShaNames.Distinct.turn {n : ShaNames} (h : n.Distinct) : n.turn.Distinct := by
  have hmoved : ([n.a, n.b, n.c, n.d] ++ [n.e]).Perm ([n.e] ++ [n.a, n.b, n.c, n.d]) := List.perm_append_comm
  exact hmoved.nodup h

def shaNames : ℕ → ShaNames
  | 0 => ⟨.A, .B, .C, .D, .E⟩
  | t + 1 => (shaNames t).turn

theorem shaNames_distinct (t : ℕ) : (shaNames t).Distinct := by
  induction t with
  | zero => simp [shaNames, ShaNames.Distinct]
  | succ t ih => exact ih.turn

def ShaVars.work (s : ShaVars) (n : ShaNames) : Work := ⟨s.reg n.a, s.reg n.b, s.reg n.c, s.reg n.d, s.reg n.e⟩

/-- The call with the number `t`. -/
def shaCall (block : Mem) (t : ℕ) : ShaVars → ShaVars :=
  let n := shaNames t
  if t < 16 then T_0_15 block t n.a n.b n.c n.d n.e
  else if t < 20 then T_16_19 t n.a n.b n.c n.d n.e
  else if t < 40 then T_20_39 t n.a n.b n.c n.d n.e
  else if t < 60 then T_40_59 t n.a n.b n.c n.d n.e
  else T_60_79 t n.a n.b n.c n.d n.e

set_option maxRecDepth 4000 in
theorem shaRounds_eq (block : Mem) : shaRounds block = (List.range 80).map (shaCall block) := rfl

def shaInput (block : Mem) (t : ℕ) (s : ShaVars) : Word :=
  if t < 16 then shaSrc block t s else shaMix t s

theorem shaRound_work {n : ShaNames} (h : n.Distinct) (t : ℕ) (input : ℕ → ShaVars → Word)
    (fn : (ShaReg → Word) → Word) (k : Word) (s : ShaVars) :
    (shaRound t input fn k n.a n.b n.e s).work n.turn =
      ⟨s.reg n.e + (input t s + shaRol (s.reg n.a) 5 + fn s.reg + k), s.reg n.a, shaRor (s.reg n.b) 2,
        s.reg n.c, s.reg n.d⟩ := by
  simp only [ShaNames.Distinct, List.nodup_cons, List.mem_cons, List.not_mem_nil, not_or] at h
  obtain ⟨⟨hab, -, -, hae, -⟩, ⟨hbc, hbd, hbe, -⟩, ⟨-, hce, -⟩, ⟨hde, -⟩, -⟩ := h
  simp [shaRound, ShaVars.work, ShaNames.turn, ShaVars.set, ShaVars.setW, hab, hae, hbe,
    Ne.symm hbc, Ne.symm hbd, Ne.symm hbe, hce, hde]

theorem shaRound_round {n : ShaNames} (h : n.Distinct) {t : ℕ} {input : ℕ → ShaVars → Word}
    {fn : (ShaReg → Word) → Word} {k : Word} {s : ShaVars}
    (hfn : fn s.reg = Fips180.f t (s.reg n.b) (s.reg n.c) (s.reg n.d)) (hk : k = Fips180.K t) :
    (shaRound t input fn k n.a n.b n.e s).work n.turn = Fips180.round (input t s) t (s.work n) := by
  rw [shaRound_work h, shaRor_two, hfn, hk]
  have hsum : s.reg n.e + (input t s + shaRol (s.reg n.a) 5 + Fips180.f t (s.reg n.b) (s.reg n.c) (s.reg n.d) +
      Fips180.K t) = (s.reg n.a).rotateLeft 5 + Fips180.f t (s.reg n.b) (s.reg n.c) (s.reg n.d) + s.reg n.e +
      Fips180.K t + input t s := by
    rw [shaRol]
    ring
  rw [hsum]
  rfl

theorem shaCall_array (block : Mem) (t : ℕ) (s : ShaVars) :
    (shaCall block t s).array = Function.update s.array (Fin.ofNat 16 t) (shaInput block t s) := by
  unfold shaCall shaInput
  by_cases h16 : t < 16
  · rw [if_pos h16, if_pos h16]
    rfl
  · rw [if_neg h16, if_neg h16]
    split_ifs <;> rfl

theorem shaCall_work (block : Mem) (t : ℕ) (s : ShaVars) :
    (shaCall block t s).work (shaNames (t + 1)) =
      Fips180.round (shaInput block t s) t (s.work (shaNames t)) := by
  have hn := shaNames_distinct t
  unfold shaCall shaInput
  split_ifs with h16 h20 h40 h60
  · refine shaRound_round hn ?_ ?_
    · rw [choose_eq_ch, Fips180.f, if_pos (by omega)]
    · rw [Fips180.K, if_pos (by omega)]
  · refine shaRound_round hn ?_ ?_
    · rw [choose_eq_ch, Fips180.f, if_pos h20]
    · rw [Fips180.K, if_pos h20]
  · refine shaRound_round hn ?_ ?_
    · rw [Fips180.f, if_neg h20, if_pos h40]
      rfl
    · rw [Fips180.K, if_neg h20, if_pos h40]
  · refine shaRound_round hn ?_ ?_
    · rw [carryless_eq_maj, Fips180.f, if_neg h20, if_neg h40, if_pos h60]
    · rw [Fips180.K, if_neg h20, if_neg h40, if_pos h60]
  · refine shaRound_round hn ?_ ?_
    · rw [Fips180.f, if_neg h20, if_neg h40, if_neg h60]
      rfl
    · rw [Fips180.K, if_neg h20, if_neg h40, if_neg h60]

/-- After `t` calls the array holds the last sixteen words of the schedule. -/
def Rolled (M : ℕ → Word) (t : ℕ) (s : ShaVars) : Prop :=
  ∀ i, i < t → t ≤ i + 16 → s.W i = schedule M i

theorem ShaVars.W_add_sixteen (s : ShaVars) (i : ℕ) : s.W (i + 16) = s.W i := by
  unfold ShaVars.W
  congr 1
  apply Fin.ext
  simp

variable {M : ℕ → Word} {block : Mem} {t : ℕ} {s : ShaVars}

theorem Rolled.input (h : Rolled M t s) (hM : ∀ i < 16, getBe32 block (i * 4) = M i) :
    shaInput block t s = schedule M t := by
  unfold shaInput
  by_cases h16 : t < 16
  · rw [if_pos h16, shaSrc, hM t h16, Fips180.schedule_lt h16]
  · rw [if_neg h16, shaMix, shaRol, Fips180.schedule_ge (by omega)]
    obtain ⟨k, rfl⟩ : ∃ k, t = k + 16 := ⟨t - 16, by omega⟩
    rw [show k + 16 + 13 = k + 13 + 16 by omega, show k + 16 + 8 = k + 8 + 16 by omega,
      show k + 16 + 2 = k + 2 + 16 by omega, s.W_add_sixteen, s.W_add_sixteen, s.W_add_sixteen, s.W_add_sixteen,
      h (k + 13) (by omega) (by omega), h (k + 8) (by omega) (by omega), h (k + 2) (by omega) (by omega),
      h k (by omega) (by omega)]
    rfl

theorem Rolled.call (h : Rolled M t s) (hM : ∀ i < 16, getBe32 block (i * 4) = M i) :
    Rolled M (t + 1) (shaCall block t s) := by
  intro i hi hnear
  unfold ShaVars.W
  rw [shaCall_array]
  by_cases hlast : i = t
  · rw [hlast, Function.update_self]
    exact h.input hM
  · have hcell : Fin.ofNat 16 i ≠ Fin.ofNat 16 t := by
      intro heq
      have hmod := congrArg Fin.val heq
      simp only [Fin.val_ofNat] at hmod
      omega
    rw [Function.update_of_ne hcell]
    exact h i (by omega) (by omega)

theorem shaCalls_rounds (hM : ∀ i < 16, getBe32 block (i * 4) = M i) (s : ShaVars) (n : ℕ) :
    let s' := ((List.range n).map (shaCall block)).foldl (fun s T => T s) s
    s'.work (shaNames n) = Fips180.rounds M (s.work (shaNames 0)) n ∧ Rolled M n s' := by
  induction n with
  | zero => exact ⟨rfl, fun i hi _ => absurd hi (Nat.not_lt_zero i)⟩
  | succ n ih =>
    obtain ⟨hwork, hrolled⟩ := ih
    rw [List.range_succ, List.map_append, List.foldl_append]
    refine ⟨?_, hrolled.call hM⟩
    show (shaCall block n _).work (shaNames (n + 1)) = _
    rw [shaCall_work, hwork, hrolled.input hM]
    rfl

/-- A block is compressed, whatever the stack holds before. -/
theorem blkSha1Block_value (array : Fin 16 → Word) (ctx : ShaCtx) (block : Mem) :
    (blkSha1Block array ctx block).value = Fips180.compress ctx.value (block.slice 0 64) := by
  have hM : ∀ i < 16, getBe32 block (i * 4) = Fips180.word (block.slice 0 64) (i * 4) := by
    intro i hi
    unfold getBe32 Fips180.word
    simp only [List.getD_eq_getElem?_getD]
    rw [Mem.slice_getElem? _ _ _ _ (by omega), Mem.slice_getElem? _ _ _ _ (by omega),
      Mem.slice_getElem? _ _ _ _ (by omega), Mem.slice_getElem? _ _ _ _ (by omega)]
    simp only [Nat.zero_add, Option.getD_some]
  unfold blkSha1Block
  dsimp only
  generalize hs : (⟨_, array⟩ : ShaVars) = s
  have hstart : s.work (shaNames 0) = ctx.value := by
    rw [← hs]
    rfl
  obtain ⟨hrounds, -⟩ := shaCalls_rounds hM s 80
  rw [← shaRounds_eq, hstart] at hrounds
  rw [Fips180.compress, ← hrounds]
  generalize (shaRounds block).foldl (fun s T => T s) s = s'
  rfl

end Ashttpd
