import Ashttpd.ThreadedLists
import Ashttpd.Vectors
import Ashttpd.GuardedRuns
import Mathlib.Data.List.Pairwise

/-!
# Object pools (`hgang.c`)

Objects of one size are cut off the newest slab, one behind the other, unless one that was returned is
there to be handed out again. Slabs and returned objects are each threaded through the memory itself.
Addresses are natural numbers; `0` is `NULL`.
-/
namespace Ashttpd

/-- `struct _hgang`; `nextObj` is not set before there is a slab. -/
structure Hgang where
  objSize : ℕ
  nextObj : Option ℕ
  slabSize : ℕ
  slabs : ℕ
  free : ℕ
  deriving DecidableEq, Repr

/-- `sizeof(struct _hgang_hdr)`, which is also `sizeof(void *)`. -/
def HDR_SIZE : ℕ := 8

def sizeT (n : ℕ) : ℕ := n % 2 ^ 64

/-- The three formulas of `hgang_new`, `slab` being the number of objects asked for. -/
def slabSizeOf (objSize slab : ℕ) : ℕ :=
  if slab ≠ 0 then sizeT (HDR_SIZE + sizeT (slab * objSize))
  else if objSize < 8192 then sizeT (HDR_SIZE + (8192 - 8192 % objSize))
  else sizeT (HDR_SIZE + sizeT (4 * objSize))

/-- `hgang_new`; `allocated` tells whether the descriptor could be allocated. -/
def hgangNew (objSize slab : ℕ) (allocated : Bool) : Option Hgang :=
  if objSize = 0 then none
  else if !allocated then none
  else
    let objSize := if objSize < HDR_SIZE then HDR_SIZE else objSize
    some ⟨objSize, none, slabSizeOf objSize slab, 0, 0⟩

def firstByte (hdr : ℕ) : ℕ := hdr + HDR_SIZE

namespace Hgang

def lastByte (h : Hgang) (hdr : ℕ) : ℕ := hdr + h.slabSize

def objInSlab (h : Hgang) (hdr obj : ℕ) : Bool :=
  decide (firstByte hdr ≤ obj) && decide (obj + h.objSize ≤ h.lastByte hdr)

end Hgang

/-- `hgang_alloc_slow`, with what `malloc` answers. -/
def hgangAllocSlow (h : Hgang) (m : Mem) : Option ℕ → ℕ × Hgang × Mem
  | none => (0, h, m)
  | some hdr =>
    let ret := hdr + HDR_SIZE
    (ret, { h with nextObj := some (ret + h.objSize), slabs := hdr }, m.storeWord hdr h.slabs)

/-- `hgang_alloc`; what `malloc` answers only matters if it is called. -/
def hgangAlloc (h : Hgang) (m : Mem) (block : Option ℕ) : Except Fault (ℕ × Hgang × Mem) :=
  if h.free ≠ 0 then .ok (h.free, { h with free := m.word h.free }, m)
  else if h.slabs ≠ 0 then
    match h.nextObj with
    | none => .error .undefined
    | some ret =>
      if h.objInSlab h.slabs ret then .ok (ret, { h with nextObj := some (ret + h.objSize) }, m)
      else .ok (hgangAllocSlow h m block)
  else .ok (hgangAllocSlow h m block)

def hgangAlloc0 (h : Hgang) (m : Mem) (block : Option ℕ) : Except Fault (ℕ × Hgang × Mem) := do
  let (ret, h, m) ← hgangAlloc h m block
  if ret ≠ 0 then pure (ret, h, m.store ret (List.replicate h.objSize 0))
  else pure (ret, h, m)

def hgangReturn (h : Hgang) (m : Mem) (obj : ℕ) : Except Fault (Hgang × Mem) :=
  if obj = 0 then .ok (h, m)
  else if h.objSize < HDR_SIZE then .error .assertion
  else .ok ({ h with free := obj }, m.storeWord obj h.free)

/-- Objects cut off blocks of memory: no two blocks and no two objects meet, every object lies in one
block behind its header, and in the newest block all of them lie before `next`. -/
structure Carving (objSize slabSize : ℕ) (blocks : List ℕ) (next : Option ℕ) (objs : List ℕ) : Prop where
  room : HDR_SIZE + objSize ≤ slabSize
  placed : ∀ b ∈ blocks, b ≠ 0 ∧ b + slabSize ≤ 2 ^ 64
  blocksApart : blocks.Pairwise (Apart slabSize)
  apart : objs.Pairwise (Apart objSize)
  inside : ∀ p ∈ objs, ∃ b ∈ blocks, b + HDR_SIZE ≤ p ∧ p + objSize ≤ b + slabSize
  newest : ∀ b rest, blocks = b :: rest →
    ∃ n, next = some n ∧ b + HDR_SIZE ≤ n ∧ ∀ p ∈ objs, p + objSize ≤ n ∨ b + slabSize ≤ p

namespace Carving

variable {objSize slabSize : ℕ} {blocks : List ℕ} {next : Option ℕ} {objs objs' : List ℕ}

theorem perm (hc : Carving objSize slabSize blocks next objs) (hp : objs.Perm objs') :
    Carving objSize slabSize blocks next objs' :=
  { room := hc.room
    placed := hc.placed
    blocksApart := hc.blocksApart
    apart := (hp.pairwise_iff Apart.symm).mp hc.apart
    inside := fun p hmem => hc.inside p (hp.mem_iff.mpr hmem)
    newest := fun b rest hb => by
      obtain ⟨n, hn, hle, hall⟩ := hc.newest b rest hb
      exact ⟨n, hn, hle, fun p hmem => hall p (hp.mem_iff.mpr hmem)⟩ }

/-- The next object that still fits into the newest block. -/
theorem bump {b n : ℕ} {rest : List ℕ} (hc : Carving objSize slabSize (b :: rest) (some n) objs)
    (hfits : n + objSize ≤ b + slabSize) :
    Carving objSize slabSize (b :: rest) (some (n + objSize)) (n :: objs) := by
  obtain ⟨n', hn, hle, hall⟩ := hc.newest b rest rfl
  cases hn
  refine ⟨hc.room, hc.placed, hc.blocksApart, ?_, ?_, ?_⟩
  · refine List.pairwise_cons.mpr ⟨fun p hp => ?_, hc.apart⟩
    rcases hall p hp with h | h
    · exact Or.inr h
    · exact Or.inl (by omega)
  · intro p hp
    rcases List.mem_cons.mp hp with rfl | hp
    · exact ⟨b, List.mem_cons_self, hle, hfits⟩
    · exact hc.inside p hp
  · intro b' rest' hb
    cases hb
    refine ⟨_, rfl, by omega, fun p hp => ?_⟩
    rcases List.mem_cons.mp hp with rfl | hp
    · exact Or.inl (Nat.le_refl _)
    · exact (hall p hp).imp_left fun h => by omega

/-- The first object of a new block. -/
theorem slab {b : ℕ} (hc : Carving objSize slabSize blocks next objs) (hb : b ≠ 0 ∧ b + slabSize ≤ 2 ^ 64)
    (hfresh : ∀ b' ∈ blocks, Apart slabSize b b') :
    Carving objSize slabSize (b :: blocks) (some (b + HDR_SIZE + objSize)) ((b + HDR_SIZE) :: objs) := by
  have hroom := hc.room
  have hold : ∀ p ∈ objs, p + objSize ≤ b ∨ b + slabSize ≤ p := by
    intro p hp
    obtain ⟨b', hb', h1, h2⟩ := hc.inside p hp
    have h := hfresh b' hb'
    unfold Apart at h
    omega
  refine ⟨hroom, ?_, List.pairwise_cons.mpr ⟨hfresh, hc.blocksApart⟩, ?_, ?_, ?_⟩
  · intro b' hb'
    rcases List.mem_cons.mp hb' with rfl | hb'
    · exact hb
    · exact hc.placed b' hb'
  · refine List.pairwise_cons.mpr ⟨fun p hp => ?_, hc.apart⟩
    have h := hold p hp
    unfold Apart
    omega
  · intro p hp
    rcases List.mem_cons.mp hp with rfl | hp
    · exact ⟨b, List.mem_cons_self, Nat.le_refl _, by omega⟩
    · obtain ⟨b', hb', h⟩ := hc.inside p hp
      exact ⟨b', List.mem_cons_of_mem _ hb', h⟩
  · intro b' rest' heq
    cases heq
    refine ⟨_, rfl, by omega, fun p hp => ?_⟩
    rcases List.mem_cons.mp hp with rfl | hp
    · exact Or.inl (Nat.le_refl _)
    · exact (hold p hp).imp_left fun h => by omega

theorem ne_zero {p : ℕ} (hc : Carving objSize slabSize blocks next objs) (hp : p ∈ objs) : p ≠ 0 := by
  obtain ⟨b, -, h, -⟩ := hc.inside p hp
  unfold HDR_SIZE at h
  omega

theorem lt_top {p : ℕ} (hc : Carving objSize slabSize blocks next objs) (hsize : HDR_SIZE ≤ objSize)
    (hp : p ∈ objs) : p < 2 ^ 64 := by
  obtain ⟨b, hb, -, h⟩ := hc.inside p hp
  have htop := (hc.placed b hb).2
  unfold HDR_SIZE at hsize
  omega

theorem header {p b : ℕ} (hc : Carving objSize slabSize blocks next objs) (hp : p ∈ objs) (hb : b ∈ blocks) :
    p + objSize ≤ b ∨ b + HDR_SIZE ≤ p := by
  obtain ⟨b', hb', h1, h2⟩ := hc.inside p hp
  rcases eq_or_ne b b' with rfl | hne
  · exact Or.inr h1
  · have hapart := hc.blocksApart.forall hb hb' hne
    have hroom := hc.room
    unfold Apart at hapart
    omega

end Carving

/-- A pool in memory; `blocks` are the slabs it has got and `live` the objects handed out and not returned. -/
structure Pool where
  hgang : Hgang
  mem : Mem
  blocks : List ℕ
  live : List ℕ

/-- What is done to a pool. By `write` everyone else changes the memory. -/
inductive PoolCall where
  | alloc (block : Option ℕ)
  | alloc0 (block : Option ℕ)
  | ret (obj : ℕ)
  | write (mem : Mem)

namespace Pool

/-- What an allocation makes of the pool: a block that was linked in is the pool's, and an object that was
handed out is live. -/
def handOut (s : Pool) (x : ℕ × Hgang × Mem) : Pool :=
  { hgang := x.2.1
    mem := x.2.2
    blocks := if x.2.1.slabs = s.hgang.slabs then s.blocks else x.2.1.slabs :: s.blocks
    live := if x.1 = 0 then s.live else x.1 :: s.live }

def call (s : Pool) : PoolCall → Except Fault Pool
  | .alloc block => (hgangAlloc s.hgang s.mem block).map s.handOut
  | .alloc0 block => (hgangAlloc0 s.hgang s.mem block).map s.handOut
  | .ret obj => (hgangReturn s.hgang s.mem obj).map fun x => { s with hgang := x.1, mem := x.2, live := s.live.erase obj }
  | .write m => .ok { s with mem := m }

def Reserved (s : Pool) (i : ℕ) : Prop :=
  (∃ b ∈ s.blocks, b ≤ i ∧ i < b + s.hgang.slabSize) ∧ ∀ p ∈ s.live, i < p ∨ p + s.hgang.objSize ≤ i

/-- `malloc` fails or gives a block that is apart from those it gave before. -/
def Mallocs (s : Pool) (block : Option ℕ) : Prop :=
  ∀ b, block = some b → (b ≠ 0 ∧ b + s.hgang.slabSize ≤ 2 ^ 64) ∧ ∀ b' ∈ s.blocks, Apart s.hgang.slabSize b b'

/-- Only live objects are returned, and the pool's own bytes are left alone. -/
def Allowed (s : Pool) : PoolCall → Prop
  | .alloc block | .alloc0 block => s.Mallocs block
  | .ret obj => obj = 0 ∨ obj ∈ s.live
  | .write m => ∀ i, s.Reserved i → m i = s.mem i

def Step (s : Pool) (c : PoolCall) (s' : Pool) : Prop := s.call c = .ok s'

def fresh (h : Hgang) (m : Mem) : Pool := ⟨h, m, [], []⟩

/-- The live objects and the returned ones are what was carved from the slabs, and the two lists of the
pool lead through its slabs and through the returned objects. -/
structure Holds (s : Pool) (frees : List ℕ) : Prop where
  objSize : HDR_SIZE ≤ s.hgang.objSize
  carving : Carving s.hgang.objSize s.hgang.slabSize s.blocks s.hgang.nextObj (s.live ++ frees)
  slabs : s.mem.Threaded s.hgang.slabs s.blocks
  free : s.mem.Threaded s.hgang.free frees

variable {s s' : Pool} {frees : List ℕ}

/-- The links of the pool are its own. -/
theorem Holds.write {m : Mem} (hs : s.Holds frees) (hm : ∀ i, s.Reserved i → m i = s.mem i) :
    ({ s with mem := m } : Pool).Holds frees := by
  have hsize := hs.objSize
  have hroom := hs.carving.room
  refine ⟨hsize, hs.carving, hs.slabs.congr fun b hb => ?_, hs.free.congr fun q hq => ?_⟩
  · refine Mem.word_congr fun i h1 h2 => hm i ⟨⟨b, hb, h1, by unfold HDR_SIZE at hroom; omega⟩, fun p hp => ?_⟩
    have h := hs.carving.header (List.mem_append_left _ hp) hb
    unfold HDR_SIZE at h
    omega
  · refine Mem.word_congr fun i h1 h2 => hm i ⟨?_, fun p hp => ?_⟩
    · obtain ⟨b, hb, h3, h4⟩ := hs.carving.inside q (List.mem_append_right _ hq)
      exact ⟨b, hb, by omega, by unfold HDR_SIZE at hsize; omega⟩
    · have h := (List.pairwise_append.mp hs.carving.apart).2.2 p hp q hq
      unfold Apart at h
      unfold HDR_SIZE at hsize
      omega

/-- What an allocation comes to: an object to live in the pool, or nothing at all. -/
structure Allocates (s : Pool) (x : ℕ × Hgang × Mem) : Prop where
  holds : ∃ frees, (s.handOut x).Holds frees
  objSize : x.2.1.objSize = s.hgang.objSize
  slabSize : x.2.1.slabSize = s.hgang.slabSize
  failed : x.1 = 0 → x.2 = (s.hgang, s.mem)

theorem Holds.failed (hs : s.Holds frees) : s.Allocates (0, s.hgang, s.mem) := by
  have hsame : s.handOut (0, s.hgang, s.mem) = s := by
    unfold handOut
    rw [if_pos rfl, if_pos rfl]
  refine ⟨⟨frees, ?_⟩, rfl, rfl, fun _ => rfl⟩
  rw [hsame]
  exact hs

theorem Holds.allocSlow {block : Option ℕ} (hs : s.Holds frees) (hblock : s.Mallocs block) :
    s.Allocates (hgangAllocSlow s.hgang s.mem block) := by
  cases block with
  | none => exact hs.failed
  | some hdr =>
    obtain ⟨hplaced, hapart⟩ := hblock hdr rfl
    have hroom := hs.carving.room
    have hsize := hs.objSize
    have hwords : ∀ p ∈ s.live ++ frees, p + s.hgang.objSize ≤ hdr ∨ hdr + s.hgang.slabSize ≤ p := by
      intro p hp
      obtain ⟨b, hb, h1, h2⟩ := hs.carving.inside p hp
      have h := hapart b hb
      unfold Apart at h
      omega
    have hnew : hdr ≠ s.hgang.slabs := by
      rintro rfl
      obtain ⟨rest, hrest, -⟩ := hs.slabs.ne_nil hplaced.1
      have h := hapart _ (hrest ▸ List.mem_cons_self)
      unfold Apart at h
      unfold HDR_SIZE at hroom
      omega
    have hhand : s.handOut (hgangAllocSlow s.hgang s.mem (some hdr)) =
        ⟨{ s.hgang with nextObj := some (hdr + HDR_SIZE + s.hgang.objSize), slabs := hdr },
          s.mem.storeWord hdr s.hgang.slabs, hdr :: s.blocks, (hdr + HDR_SIZE) :: s.live⟩ := by
      unfold handOut hgangAllocSlow
      dsimp only
      rw [if_neg hnew, if_neg (by unfold HDR_SIZE; omega)]
    refine ⟨⟨frees, ?_⟩, rfl, rfl, fun h => absurd h (Nat.succ_ne_zero _)⟩
    rw [hhand]
    refine ⟨hsize, hs.carving.slab hplaced hapart, ?_, ?_⟩
    · refine hs.slabs.push hplaced.1 ?_ fun b hb => (hapart b hb).mono (by unfold HDR_SIZE at hroom; omega)
      refine hs.slabs.head_lt (fun b hb => ?_) (Nat.two_pow_pos 64)
      have h := (hs.carving.placed b hb).2
      unfold HDR_SIZE at hroom
      omega
    · refine hs.free.storeWord fun q hq => ?_
      have h := hwords q (List.mem_append_right _ hq)
      unfold Apart
      unfold HDR_SIZE at hroom hsize
      omega

theorem Holds.alloc {block : Option ℕ} (hs : s.Holds frees) (hblock : s.Mallocs block) :
    ∃ x, hgangAlloc s.hgang s.mem block = .ok x ∧ s.Allocates x := by
  unfold hgangAlloc
  by_cases hfree : s.hgang.free = 0
  · rw [if_neg (not_not_intro hfree)]
    by_cases hslabs : s.hgang.slabs = 0
    · rw [if_neg (not_not_intro hslabs)]
      exact ⟨_, rfl, hs.allocSlow hblock⟩
    · rw [if_pos hslabs]
      obtain ⟨rest, hrest, -⟩ := hs.slabs.ne_nil hslabs
      obtain ⟨n, hn, hle, -⟩ := hs.carving.newest _ rest hrest
      rw [hn]
      dsimp only
      by_cases hfits : s.hgang.objInSlab s.hgang.slabs n = true
      · rw [if_pos hfits]
        refine ⟨_, rfl, ⟨frees, ?_⟩, rfl, rfl, fun h => ?_⟩
        · have hcarve := hs.carving
          rw [hn, hrest] at hcarve
          have hin : n + s.hgang.objSize ≤ s.hgang.slabs + s.hgang.slabSize :=
            of_decide_eq_true (Bool.and_eq_true_iff.mp hfits).2
          have hbump := hcarve.bump hin
          rw [← hrest] at hbump
          unfold handOut
          dsimp only
          rw [if_pos rfl, if_neg (hbump.ne_zero List.mem_cons_self)]
          exact ⟨hs.objSize, hbump, hs.slabs, hs.free⟩
        · change n = 0 at h
          unfold HDR_SIZE at hle
          omega
      · rw [if_neg hfits]
        exact ⟨_, rfl, hs.allocSlow hblock⟩
  · -- the object that was returned last
    rw [if_pos hfree]
    obtain ⟨rest, rfl, hthread⟩ := hs.free.ne_nil hfree
    refine ⟨_, rfl, ⟨rest, ?_⟩, rfl, rfl, fun h => absurd h hfree⟩
    unfold handOut
    dsimp only
    rw [if_pos rfl, if_neg hfree]
    exact ⟨hs.objSize, hs.carving.perm List.perm_middle, hs.slabs, hthread⟩

/-- Zeroing an object that was just handed out is a matter of its user. -/
theorem Holds.alloc0 {block : Option ℕ} (hs : s.Holds frees) (hblock : s.Mallocs block) :
    ∃ x, hgangAlloc0 s.hgang s.mem block = .ok x ∧ s.Allocates x := by
  obtain ⟨⟨ret, h, m⟩, hok, hx⟩ := hs.alloc hblock
  have hbind : hgangAlloc0 s.hgang s.mem block =
      if ret ≠ 0 then .ok (ret, h, m.store ret (List.replicate h.objSize 0)) else .ok (ret, h, m) := by
    unfold hgangAlloc0
    rw [hok]
    rfl
  rw [hbind]
  by_cases hret : ret = 0
  · rw [if_neg (not_not_intro hret)]
    exact ⟨_, rfl, hx⟩
  · rw [if_pos hret]
    obtain ⟨frees', hholds⟩ := hx.holds
    refine ⟨_, rfl, ⟨frees', ?_⟩, hx.objSize, hx.slabSize, fun h0 => absurd h0 hret⟩
    have hlive : ret ∈ (s.handOut (ret, h, m)).live := by
      unfold handOut
      dsimp only
      rw [if_neg hret]
      exact List.mem_cons_self
    refine hholds.write (m := m.store ret (List.replicate h.objSize 0)) fun i hi => ?_
    rcases hi.2 ret hlive with hlt | hge
    · exact Mem.store_before m ret _ hlt
    · refine Mem.store_after m ret _ ?_
      rw [List.length_replicate]
      exact hge

theorem Holds.ret {obj : ℕ} (hs : s.Holds frees) (hobj : obj = 0 ∨ obj ∈ s.live) :
    ∃ x, hgangReturn s.hgang s.mem obj = .ok x ∧ x.1.objSize = s.hgang.objSize ∧ x.1.slabSize = s.hgang.slabSize ∧
      ∃ frees', ({ s with hgang := x.1, mem := x.2, live := s.live.erase obj } : Pool).Holds frees' := by
  unfold hgangReturn
  by_cases hzero : obj = 0
  · rw [if_pos hzero]
    refine ⟨_, rfl, rfl, rfl, frees, ?_⟩
    have hnot : obj ∉ s.live := fun hmem => hs.carving.ne_zero (List.mem_append_left _ hmem) hzero
    rw [List.erase_of_not_mem hnot]
    exact hs
  · have hlive : obj ∈ s.live := hobj.resolve_left hzero
    have hall : obj ∈ s.live ++ frees := List.mem_append_left _ hlive
    have hsize := hs.objSize
    rw [if_neg hzero, if_neg (Nat.not_lt.mpr hsize)]
    refine ⟨_, rfl, rfl, rfl, obj :: frees, hsize, ?_, ?_, ?_⟩
    · have hperm : (s.live ++ frees).Perm (s.live.erase obj ++ obj :: frees) :=
        ((List.perm_cons_erase hlive).append_right frees).trans List.perm_middle.symm
      exact hs.carving.perm hperm
    · refine hs.slabs.storeWord fun b hb => ?_
      have h := hs.carving.header hall hb
      unfold Apart
      unfold HDR_SIZE at h hsize
      omega
    · refine hs.free.push hzero ?_ fun q hq => ?_
      · exact hs.free.head_lt (fun q hq => hs.carving.lt_top hsize (List.mem_append_right _ hq)) (Nat.two_pow_pos 64)
      · exact ((List.pairwise_append.mp hs.carving.apart).2.2 obj hlive q hq).mono hsize

/-- The invariant of the pools that come of `h`. -/
def Inv (h : Hgang) (s : Pool) : Prop :=
  (∃ frees, s.Holds frees) ∧ s.hgang.objSize = h.objSize ∧ s.hgang.slabSize = h.slabSize

variable {h : Hgang} {c : PoolCall}

theorem Allocates.inv {x : ℕ × Hgang × Mem} (hx : s.Allocates x) (hs : s.Inv h) : (s.handOut x).Inv h :=
  ⟨hx.holds, hx.objSize.trans hs.2.1, hx.slabSize.trans hs.2.2⟩

/-- Every call that is allowed comes back, to a pool of the same kind. -/
theorem Inv.call (hs : s.Inv h) (hc : s.Allowed c) : ∃ s', s.Step c s' ∧ s'.Inv h := by
  have hinv := hs
  obtain ⟨⟨frees, hholds⟩, hobj, hslab⟩ := hs
  cases c with
  | alloc block =>
    obtain ⟨x, hok, hx⟩ := hholds.alloc hc
    refine ⟨s.handOut x, ?_, hx.inv hinv⟩
    show (hgangAlloc s.hgang s.mem block).map s.handOut = _
    rw [hok]
    rfl
  | alloc0 block =>
    obtain ⟨x, hok, hx⟩ := hholds.alloc0 hc
    refine ⟨s.handOut x, ?_, hx.inv hinv⟩
    show (hgangAlloc0 s.hgang s.mem block).map s.handOut = _
    rw [hok]
    rfl
  | ret obj =>
    obtain ⟨x, hok, h1, h2, hx⟩ := hholds.ret hc
    refine ⟨_, ?_, hx, h1.trans hobj, h2.trans hslab⟩
    show (hgangReturn s.hgang s.mem obj).map _ = _
    rw [hok]
    rfl
  | write m => exact ⟨_, rfl, ⟨frees, hholds.write hc⟩, hobj, hslab⟩

theorem Inv.step (hs : s.Inv h) (hc : s.Allowed c) (hstep : s.Step c s') : s'.Inv h := by
  obtain ⟨s'', hstep', hinv⟩ := hs.call hc
  rw [Except.ok.inj (hstep.symm.trans hstep')]
  exact hinv

/-- What is promised of a pool whose objects have `size` bytes. -/
structure Sound (size : ℕ) (s : Pool) : Prop where
  objSize : s.hgang.objSize = size
  disjoint : s.live.Pairwise (Apart size)
  inside : ∀ p ∈ s.live, ∃ hdr ∈ s.blocks, firstByte hdr ≤ p ∧ p + size ≤ s.hgang.lastByte hdr
  slabs : s.mem.Threaded s.hgang.slabs s.blocks
  notFree : ∃ frees, s.mem.Threaded s.hgang.free frees ∧ ∀ p ∈ s.live, p ∉ frees ∧ ∀ q ∈ frees, Apart size p q
  completes : ∀ c, s.Allowed c → ∃ s', s.Step c s'
  failed : ∀ block x, s.Mallocs block →
    (hgangAlloc s.hgang s.mem block = .ok x ∨ hgangAlloc0 s.hgang s.mem block = .ok x) → x.1 = 0 → s.handOut x = s

theorem Inv.sound (hs : s.Inv h) : s.Sound h.objSize := by
  have hinv := hs
  obtain ⟨⟨frees, hholds⟩, hobj, -⟩ := hs
  have happ := List.pairwise_append.mp hholds.carving.apart
  rw [hobj] at happ
  have hsize := hholds.objSize
  refine ⟨hobj, happ.1, fun p hp => ?_, hholds.slabs, ⟨frees, hholds.free, fun p hp => ⟨fun hq => ?_, happ.2.2 p hp⟩⟩,
    fun c hc => ?_, fun block x hblock hx hfail => ?_⟩
  · rw [← hobj]
    exact hholds.carving.inside p (List.mem_append_left _ hp)
  · have hself := happ.2.2 p hp p hq
    unfold Apart at hself
    unfold HDR_SIZE at hsize
    omega
  · obtain ⟨s', hstep, -⟩ := hinv.call hc
    exact ⟨s', hstep⟩
  · have hnothing : x.2 = (s.hgang, s.mem) := by
      rcases hx with hx | hx
      · obtain ⟨y, hy, hall⟩ := hholds.alloc hblock
        cases Except.ok.inj (hx.symm.trans hy)
        exact hall.failed hfail
      · obtain ⟨y, hy, hall⟩ := hholds.alloc0 hblock
        cases Except.ok.inj (hx.symm.trans hy)
        exact hall.failed hfail
    unfold handOut
    rw [hnothing, if_pos rfl, if_pos hfail]

end Pool

/-- The size that `hgang_new` computes for a slab of `slab` objects does not overflow. -/
def SlabFits (objSize slab : ℕ) : Prop :=
  if slab ≠ 0 then HDR_SIZE + slab * objSize < 2 ^ 64 else objSize < 8192 ∨ HDR_SIZE + 4 * objSize < 2 ^ 64

/-- Whichever formula it comes from, a slab has room for an object. -/
theorem slabSizeOf_room {objSize slab : ℕ} (hpos : 0 < objSize) (hfits : SlabFits objSize slab) :
    HDR_SIZE + objSize ≤ slabSizeOf objSize slab := by
  unfold SlabFits at hfits
  unfold slabSizeOf sizeT
  split at hfits
  · next hslab =>
    rw [if_pos hslab, Nat.mod_eq_of_lt (a := slab * objSize) (by omega), Nat.mod_eq_of_lt hfits]
    have hone : 1 * objSize ≤ slab * objSize := Nat.mul_le_mul_right _ (Nat.pos_of_ne_zero hslab)
    omega
  · next hslab =>
    rw [if_neg hslab]
    split
    · next hsmall =>
      have hmod := Nat.mod_lt 8192 hpos
      have hdiv := Nat.div_add_mod 8192 objSize
      have hone : objSize * 1 ≤ objSize * (8192 / objSize) :=
        Nat.mul_le_mul_left _ ((Nat.one_le_div_iff hpos).mpr hsmall.le)
      rw [Nat.mod_eq_of_lt (by unfold HDR_SIZE; omega)]
      omega
    · next hbig =>
      rw [Nat.mod_eq_of_lt (a := 4 * objSize) (by omega), Nat.mod_eq_of_lt (by omega)]
      omega

theorem hgangNew_inv {objSize slab : ℕ} {allocated : Bool} {h : Hgang}
    (hnew : hgangNew objSize slab allocated = some h) (hfits : SlabFits h.objSize slab) (m : Mem) :
    (Pool.fresh h m).Inv h ∧ objSize ≤ h.objSize := by
  unfold hgangNew at hnew
  split at hnew
  · cases hnew
  · split at hnew
    · cases hnew
    · cases hnew
      have hsize : HDR_SIZE ≤ if objSize < HDR_SIZE then HDR_SIZE else objSize := by
        split <;> omega
      have hasked : objSize ≤ if objSize < HDR_SIZE then HDR_SIZE else objSize := by
        split <;> omega
      have hroom := slabSizeOf_room (Nat.lt_of_lt_of_le (by decide) hsize) hfits
      exact ⟨⟨⟨[], hsize, ⟨hroom, nofun, .nil, .nil, nofun, nofun⟩, rfl, rfl⟩, rfl, rfl⟩, hasked⟩

/-- However a pool is used, its live objects do not overlap. -/
theorem hgang_live_disjoint {objSize slab : ℕ} {allocated : Bool} {h : Hgang}
    (hnew : hgangNew objSize slab allocated = some h) (hfits : SlabFits h.objSize slab) {m : Mem}
    {calls : List PoolCall} {s : Pool} (hrun : GuardedRun Pool.Step Pool.Allowed (.fresh h m) calls s) :
    objSize ≤ h.objSize ∧ s.Sound h.objSize := by
  obtain ⟨hfresh, hasked⟩ := hgangNew_inv hnew hfits m
  have hinv : s.Inv h := hrun.invariant (I := fun _ s => s.Inv h) (fun _ _ _ _ hs hc hstep => hs.step hc hstep) hfresh
  exact ⟨hasked, hinv.sound⟩

/-- Two objects of a slab are handed out, and one of them is returned. -/
theorem hgang_live_disjoint_pair : ∃ h s, hgangNew 12 2 true = some h ∧
    GuardedRun Pool.Step Pool.Allowed (.fresh h fun _ => 0) [.alloc (some 4096), .alloc0 none, .ret 4104] s ∧
    s.live = [4116] ∧ s.hgang.free = 4104 ∧ s.Sound h.objSize := by
  obtain ⟨s₁, s₂, s₃, h₁, h₂, h₃, hlive, hfree⟩ : ∃ s₁ s₂ s₃,
      Pool.Step (.fresh ⟨12, none, 32, 0, 0⟩ fun _ => 0) (.alloc (some 4096)) s₁ ∧ Pool.Step s₁ (.alloc0 none) s₂ ∧
        Pool.Step s₂ (.ret 4104) s₃ ∧ s₃.live = [4116] ∧ s₃.hgang.free = 4104 :=
    ⟨_, _, _, rfl, rfl, rfl, rfl, rfl⟩
  have hmalloc : Pool.Allowed (.fresh ⟨12, none, 32, 0, 0⟩ fun _ => 0) (.alloc (some 4096)) := by
    intro b hb
    cases hb
    exact ⟨by decide, nofun⟩
  have hnull : s₁.Allowed (.alloc0 none) := fun _ hb => nomatch hb
  have hlive₂ : s₂.Allowed (.ret 4104) := by
    cases Except.ok.inj h₁
    cases Except.ok.inj h₂
    exact Or.inr (by decide)
  have hnew : hgangNew 12 2 true = some ⟨12, none, 32, 0, 0⟩ := rfl
  have hrun : GuardedRun Pool.Step Pool.Allowed (.fresh ⟨12, none, 32, 0, 0⟩ fun _ => 0)
      [.alloc (some 4096), .alloc0 none, .ret 4104] s₃ :=
    .cons hmalloc h₁ (.cons hnull h₂ (.cons hlive₂ h₃ (.start s₃)))
  have hfits : SlabFits 12 2 := by
    unfold SlabFits HDR_SIZE
    decide
  exact ⟨_, s₃, hnew, hrun, hlive, hfree, (hgang_live_disjoint hnew hfits hrun).2⟩

end Ashttpd
