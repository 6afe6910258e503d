import Mathlib.Data.List.Nodup
import Mathlib.Data.Nat.Notation
import Mathlib.Logic.Function.Basic

/-!
# Intrusive circular lists

A list head is two links inside an object, so that an object stands on a list without being told by it. A
list is a ring of list heads, one of which stands for the list itself. The operations change the links of
the ring and of the entry they are given, and no others.
-/
namespace Ashttpd

/-- What `struct list_head` holds at every address. -/
structure Links (α : Type*) where
  next : α → α
  prev : α → α

namespace Links

variable {α : Type*} [DecidableEq α] (l : Links α)

def setNext (p q : α) : Links α := { l with next := Function.update l.next p q }

def setPrev (p q : α) : Links α := { l with prev := Function.update l.prev p q }

def initListHead (p : α) : Links α := (l.setNext p p).setPrev p p

/-- `_list_add`, which puts an entry between two that are known to be consecutive. -/
def listAddBetween (new prev next : α) : Links α :=
  (((l.setPrev next new).setNext new next).setPrev new prev).setNext prev new

def listAdd (new head : α) : Links α := l.listAddBetween new head (l.next head)

def listAddTail (new head : α) : Links α := l.listAddBetween new (l.prev head) head

def listEmpty (head : α) : Bool := l.next head = head

def listSplice (list head : α) : Links α :=
  if l.listEmpty list then l
  else
    let first := l.next list
    let last := l.prev list
    let behind := l.next head
    let l := (l.setPrev first head).setNext head first
    let l := (l.setNext last behind).setPrev behind last
    l.initListHead list

/-- `list_for_each_entry` from the position `pos` on. The list heads may change with the state, in which `links`
finds them. -/
def listForEach {σ ε : Type*} (links : σ → Links α) (endless : ε) (head : α) (body : α → σ → Except ε σ) :
    ℕ → α → σ → Except ε σ
  | 0, _, _ => .error endless
  | fuel + 1, pos, s =>
    if pos = head then .ok s
    else body pos s >>= fun s => listForEach links endless head body fuel ((links s).next pos) s

variable {l} {l' : Links α} {a b c p q new head head' list : α} {xs ys zs : List α}

omit [DecidableEq α] in
variable (l) in
/-- The links lead from `a` over the entries to `b`, and back. -/
def Strand : α → List α → α → Prop
  | a, [], b => l.next a = b ∧ l.prev b = a
  | a, x :: xs, b => (l.next a = x ∧ l.prev x = a) ∧ Strand x xs b

def SameAt (l l' : Links α) (q : α) : Prop := l'.next q = l.next q ∧ l'.prev q = l.prev q

section strands

omit [DecidableEq α]

theorem SameAt.trans {l'' : Links α} (h : SameAt l l' q) (h' : SameAt l' l'' q) : SameAt l l'' q :=
  ⟨h'.1.trans h.1, h'.2.trans h.2⟩

theorem strand_append : l.Strand a (xs ++ b :: ys) c ↔ l.Strand a xs b ∧ l.Strand b ys c := by
  induction xs generalizing a with
  | nil => exact Iff.rfl
  | cons x xs ih =>
    simp only [List.cons_append, Strand, ih, and_assoc]

theorem Strand.prev_end (h : l.Strand a xs b) : l.prev b = xs.getLastD a := by
  induction xs generalizing a with
  | nil => exact h.2
  | cons x xs ih =>
    rw [List.getLastD_cons]
    exact ih h.2

/-- A strand depends on the forward links of all but its end, and on the backward links of all but its start. -/
theorem Strand.congr (h : l.Strand a xs b) (hnext : ∀ p ∈ a :: xs, l'.next p = l.next p)
    (hprev : ∀ p ∈ xs ++ [b], l'.prev p = l.prev p) : l'.Strand a xs b := by
  induction xs generalizing a with
  | nil => exact ⟨(hnext a List.mem_cons_self).trans h.1, (hprev b List.mem_cons_self).trans h.2⟩
  | cons x xs ih =>
    refine ⟨⟨(hnext a List.mem_cons_self).trans h.1.1, (hprev x List.mem_cons_self).trans h.1.2⟩, ih h.2 ?_ ?_⟩
    · exact fun p hp => hnext p (List.mem_cons_of_mem _ hp)
    · exact fun p hp => hprev p (List.mem_cons_of_mem _ hp)

/-- The last entry may be led elsewhere. -/
theorem Strand.retarget (h : l.Strand a xs b) (hnodup : (a :: xs).Nodup)
    (hnext : ∀ p ∈ a :: xs, p ≠ xs.getLastD a → l'.next p = l.next p) (hprev : ∀ p ∈ xs, l'.prev p = l.prev p)
    (hlast : l'.next (xs.getLastD a) = c) (hend : l'.prev c = xs.getLastD a) : l'.Strand a xs c := by
  induction xs generalizing a with
  | nil => exact ⟨hlast, hend⟩
  | cons x xs ih =>
    rw [List.getLastD_cons] at hnext hlast hend
    have hne : a ≠ xs.getLastD x := by
      intro heq
      exact (List.nodup_cons.mp hnodup).1 (heq ▸ List.getLastD_mem_cons)
    refine ⟨⟨(hnext a List.mem_cons_self hne).trans h.1.1, (hprev x List.mem_cons_self).trans h.1.2⟩, ?_⟩
    apply ih h.2 (List.nodup_cons.mp hnodup).2
    · exact fun p hp hpne => hnext p (List.mem_cons_of_mem _ hp) hpne
    · exact fun p hp => hprev p (List.mem_cons_of_mem _ hp)
    · exact hlast
    · exact hend

theorem Strand.join (h : l.Strand a xs (ys.headD p)) (h' : ∀ b bs, ys = b :: bs → l.Strand b bs p) : l.Strand a (xs ++ ys) p := by
  cases ys with
  | nil => rwa [List.append_nil]
  | cons b bs => exact strand_append.mpr ⟨h, h' b bs rfl⟩

end strands

variable (l) in
omit [DecidableEq α] in
/-- The list with this head has these entries, first to last. -/
structure Ring (head : α) (xs : List α) : Prop where
  nodup : (head :: xs).Nodup
  strand : l.Strand head xs head

section rings

omit [DecidableEq α]

theorem Ring.head_not_mem (h : l.Ring head xs) : head ∉ xs := (List.nodup_cons.mp h.nodup).1

theorem Ring.next_head (h : l.Ring head xs) : l.next head = xs.headD head := by
  cases xs with
  | nil => exact h.strand.1
  | cons x xs => exact h.strand.1.1

theorem Ring.prev_head (h : l.Ring head xs) : l.prev head = xs.getLastD head := h.strand.prev_end

theorem Ring.next_mem (h : l.Ring head xs) : l.next head ∈ head :: xs := by
  rw [h.next_head]
  cases xs with
  | nil => exact List.mem_cons_self
  | cons x xs => exact List.mem_cons_of_mem _ List.mem_cons_self

theorem Ring.prev_mem (h : l.Ring head xs) : l.prev head ∈ head :: xs := by
  rw [h.prev_head]
  exact List.getLastD_mem_cons

theorem Ring.next_entry (h : l.Ring head (xs ++ p :: ys)) : l.next p = ys.headD head := by
  have hp := (strand_append.mp h.strand).2
  cases ys with
  | nil => exact hp.1
  | cons y ys => exact hp.1.1

theorem Ring.congr (h : l.Ring head xs) (hsame : ∀ q ∈ head :: xs, SameAt l l' q) : l'.Ring head xs := by
  refine ⟨h.nodup, h.strand.congr (fun q hq => (hsame q hq).1) fun q hq => (hsame q ?_).2⟩
  rcases List.mem_append.mp hq with hq | hq
  · exact List.mem_cons_of_mem _ hq
  · rw [List.mem_singleton.mp hq]
    exact List.mem_cons_self

theorem Ring.rotate (h : l.Ring head (xs ++ p :: ys)) : l.Ring p (ys ++ head :: xs) := by
  obtain ⟨hto, hfrom⟩ := strand_append.mp h.strand
  refine ⟨?_, strand_append.mpr ⟨hfrom, hto⟩⟩
  have hperm : (p :: (ys ++ head :: xs)).Perm (head :: (xs ++ p :: ys)) := by
    rw [← List.cons_append, ← List.cons_append]
    exact List.perm_append_comm
  exact hperm.nodup_iff.mpr h.nodup

/-- A list has no more than one sequence of entries. -/
theorem Ring.unique (h : l.Ring head xs) (h' : l.Ring head ys) : xs = ys := by
  have key : ∀ {a : α} {xs ys : List α}, l.Strand a xs head → l.Strand a ys head → head ∉ xs → head ∉ ys → xs = ys := by
    intro a xs
    induction xs generalizing a with
    | nil =>
      intro ys h h' _ hys
      cases ys with
      | nil => rfl
      | cons y ys =>
        have heq : head = y := h.1.symm.trans h'.1.1
        exact absurd (heq ▸ List.mem_cons_self) hys
    | cons x xs ih =>
      intro ys h h' hxs hys
      cases ys with
      | nil =>
        have heq : head = x := h'.1.symm.trans h.1.1
        exact absurd (heq ▸ List.mem_cons_self) hxs
      | cons y ys =>
        obtain rfl : x = y := h.1.1.symm.trans h'.1.1
        rw [ih h.2 h'.2 (fun hm => hxs (List.mem_cons_of_mem _ hm)) fun hm => hys (List.mem_cons_of_mem _ hm)]
  exact key h.strand h'.strand h.head_not_mem h'.head_not_mem

end rings

theorem Ring.listEmpty_iff (h : l.Ring head xs) : l.listEmpty head = true ↔ xs = [] := by
  rw [listEmpty, decide_eq_true_iff, h.next_head]
  cases xs with
  | nil => simp
  | cons x xs =>
    refine ⟨fun heq => absurd (List.mem_cons_self) (heq ▸ h.head_not_mem), fun hnil => nomatch hnil⟩

theorem ring_initListHead : (l.initListHead p).Ring p [] := by
  refine ⟨List.nodup_singleton p, ?_, ?_⟩
  · exact Function.update_self _ _ _
  · exact Function.update_self _ _ _

theorem sameAt_initListHead (h : q ≠ p) : SameAt l (l.initListHead p) q :=
  ⟨Function.update_of_ne h _ _, Function.update_of_ne h _ _⟩

theorem sameAt_listAddBetween (hnew : q ≠ new) (ha : q ≠ a) (hb : q ≠ b) : SameAt l (l.listAddBetween new a b) q := by
  constructor
  · exact (Function.update_of_ne ha _ _).trans (Function.update_of_ne hnew _ _)
  · exact (Function.update_of_ne hnew _ _).trans (Function.update_of_ne hb _ _)

theorem Ring.listAddTail (h : l.Ring head xs) (hnew : new ∉ head :: xs) :
    (l.listAddTail new head).Ring head (xs ++ [new]) := by
  have hlast := h.prev_mem
  have hne : ∀ p ∈ head :: xs, p ≠ new := fun p hp heq => hnew (heq ▸ hp)
  have hnodup : (head :: (xs ++ [new])).Nodup :=
    h.nodup.append (List.nodup_singleton new) (List.disjoint_singleton.mpr hnew)
  refine ⟨hnodup, strand_append.mpr ⟨h.strand.retarget h.nodup ?_ ?_ ?_ ?_, ?_, ?_⟩⟩
  · intro p hp hpl
    rw [← h.prev_head] at hpl
    exact (Function.update_of_ne hpl _ _).trans (Function.update_of_ne (hne p hp) _ _)
  · intro p hp
    have hph : p ≠ head := fun heq => h.head_not_mem (heq ▸ hp)
    exact (Function.update_of_ne (hne p (List.mem_cons_of_mem _ hp)) _ _).trans (Function.update_of_ne hph _ _)
  · rw [← h.prev_head]
    exact Function.update_self _ _ _
  · rw [← h.prev_head]
    exact Function.update_self _ _ _
  · exact (Function.update_of_ne (hne _ hlast).symm _ _).trans (Function.update_self _ _ _)
  · exact (Function.update_of_ne (hne _ List.mem_cons_self) _ _).trans (Function.update_self _ _ _)

theorem Ring.listAdd_eq (h : l.Ring head xs) : l.listAdd new head = l.listAddTail new (l.next head) := by
  have hback : l.prev (l.next head) = head := by
    rw [h.next_head]
    cases xs with
    | nil => exact h.strand.2
    | cons x xs => exact h.strand.1.2
  rw [Links.listAdd, Links.listAddTail, hback]

theorem Ring.listAdd (h : l.Ring head xs) (hnew : new ∉ head :: xs) : (l.listAdd new head).Ring head (new :: xs) := by
  rw [h.listAdd_eq, h.next_head]
  cases xs with
  | nil => exact h.listAddTail hnew
  | cons x xs =>
    have hx : l.Ring x (xs ++ [head]) := @Ring.rotate α l x head [] xs h
    have hnew' : new ∉ x :: (xs ++ [head]) := by
      intro hm
      exact hnew ((List.perm_append_singleton head (x :: xs)).mem_iff.mp hm)
    have hadded := hx.listAddTail hnew'
    rw [List.append_assoc, List.singleton_append] at hadded
    exact hadded.rotate

theorem Ring.sameAt_listAddTail (h : l.Ring head xs) (hq : q ∉ head :: xs) (hnew : q ≠ new) :
    SameAt l (l.listAddTail new head) q := by
  have hlast := h.prev_mem
  exact sameAt_listAddBetween hnew (fun heq => hq (heq ▸ hlast)) fun heq => hq (heq ▸ List.mem_cons_self)

theorem listSplice_nil (h : l.Ring list []) : l.listSplice list p = l := by
  rw [listSplice, if_pos (h.listEmpty_iff.mpr rfl)]

theorem Ring.listSplice_eq (h : l.Ring list (a :: xs)) : l.listSplice list p =
    ⟨Function.update (Function.update (Function.update l.next p a) (xs.getLastD a) (l.next p)) list list,
      Function.update (Function.update (Function.update l.prev a p) (l.next p) (xs.getLastD a)) list list⟩ := by
  have hne : ¬ l.listEmpty list = true := fun he => nomatch h.listEmpty_iff.mp he
  have hfirst : l.next list = a := h.next_head
  have hlast : l.prev list = xs.getLastD a := by
    rw [h.prev_head, List.getLastD_cons]
  rw [Links.listSplice, if_neg hne, hfirst, hlast]
  rfl

theorem Ring.listSplice_next (h : l.Ring list (a :: xs)) (hlist : q ≠ list) (hlast : q ≠ xs.getLastD a) (hp : q ≠ p) :
    (l.listSplice list p).next q = l.next q := by
  rw [h.listSplice_eq]
  exact ((Function.update_of_ne hlist _ _).trans (Function.update_of_ne hlast _ _)).trans (Function.update_of_ne hp _ _)

theorem Ring.listSplice_prev (h : l.Ring list (a :: xs)) (hlist : q ≠ list) (hbehind : q ≠ l.next p) (ha : q ≠ a) :
    (l.listSplice list p).prev q = l.prev q := by
  rw [h.listSplice_eq]
  exact ((Function.update_of_ne hlist _ _).trans (Function.update_of_ne hbehind _ _)).trans (Function.update_of_ne ha _ _)

/-- The entries of a list are put behind `p`. -/
theorem Ring.listSplice (h : l.Ring list xs) (h' : l.Ring p ys) (hapart : List.Disjoint (list :: xs) (p :: ys)) :
    (l.listSplice list p).Ring p (xs ++ ys) := by
  cases xs with
  | nil => rwa [listSplice_nil h]
  | cons a xs =>
    have hbehind : l.next p = ys.headD p := h'.next_head
    have hmem : ys.headD p ∈ p :: ys := hbehind ▸ h'.next_mem
    have hlast : xs.getLastD a ∈ a :: xs := List.getLastD_mem_cons
    have hne : ∀ q ∈ a :: xs, ∀ r ∈ p :: ys, q ≠ r :=
      fun q hq r hr heq => hapart (List.mem_cons_of_mem _ hq) (heq ▸ hr)
    have hlist : ∀ r ∈ p :: ys, r ≠ list := fun r hr heq => hapart List.mem_cons_self (heq ▸ hr)
    have hlist' : ∀ q ∈ a :: xs, q ≠ list := fun q hq heq => h.head_not_mem (heq ▸ hq)
    have hp := hlist p List.mem_cons_self
    refine ⟨?_, ⟨?_, ?_⟩, Strand.join (Strand.retarget h.strand.2 (List.nodup_cons.mp h.nodup).2 ?_ ?_ ?_ ?_) ?_⟩
    · have hnodup := (List.nodup_cons.mp h.nodup).2.append h'.nodup fun q hq hr => hne q hq q hr rfl
      exact (List.perm_middle.nodup_iff).mp hnodup
    · have hpl := (hne _ hlast p List.mem_cons_self).symm
      rw [h.listSplice_eq]
      exact ((Function.update_of_ne hp _ _).trans (Function.update_of_ne hpl _ _)).trans (Function.update_self _ _ _)
    · have ha := hne a List.mem_cons_self _ hmem
      rw [h.listSplice_eq, hbehind]
      have ha' := hlist' a List.mem_cons_self
      exact ((Function.update_of_ne ha' _ _).trans (Function.update_of_ne ha _ _)).trans (Function.update_self _ _ _)
    · intro q hq hql
      exact h.listSplice_next (hlist' q hq) hql (hne q hq p List.mem_cons_self)
    · intro q hq
      have hqa : q ≠ a := fun heq => (List.nodup_cons.mp (List.nodup_cons.mp h.nodup).2).1 (heq ▸ hq)
      have hq' := List.mem_cons_of_mem a hq
      exact h.listSplice_prev (hlist' q hq') (hbehind ▸ hne q hq' _ hmem) hqa
    · rw [h.listSplice_eq, ← hbehind]
      exact (Function.update_of_ne (hlist' _ hlast) _ _).trans (Function.update_self _ _ _)
    · rw [h.listSplice_eq, hbehind]
      exact (Function.update_of_ne (hlist _ hmem) _ _).trans (Function.update_self _ _ _)
    · rintro b bs rfl
      refine h'.strand.2.congr (fun q hq => ?_) fun q hq => ?_
      · have hqp : q ≠ p := fun heq => h'.head_not_mem (heq ▸ hq)
        have hq' := List.mem_cons_of_mem p hq
        exact h.listSplice_next (hlist q hq') (hne _ hlast q hq').symm hqp
      · have hq' : q ∈ p :: bs := (List.perm_append_singleton p bs).mem_iff.mp hq
        have hq'' : q ∈ p :: b :: bs := by
          rcases List.mem_cons.mp hq' with rfl | hq'
          · exact List.mem_cons_self
          · exact List.mem_cons_of_mem _ (List.mem_cons_of_mem _ hq')
        have hqb : q ≠ b := by
          rintro rfl
          exact (List.nodup_cons.mp (List.perm_append_singleton p (q :: bs) |>.nodup_iff.mpr h'.nodup)).1 hq
        exact h.listSplice_prev (hlist q hq'') (hbehind ▸ hqb) (hne a List.mem_cons_self q hq'').symm

theorem Ring.sameAt_listSplice (h : l.Ring list xs) (h' : l.Ring p ys) (hq : q ∉ list :: xs) (hq' : q ∉ p :: ys) :
    SameAt l (l.listSplice list p) q := by
  cases xs with
  | nil =>
    rw [listSplice_nil h]
    exact ⟨rfl, rfl⟩
  | cons a xs =>
    have hlast : xs.getLastD a ∈ list :: a :: xs := List.mem_cons_of_mem _ List.getLastD_mem_cons
    have hlist : q ≠ list := fun heq => hq (heq ▸ List.mem_cons_self)
    constructor
    · exact h.listSplice_next hlist (fun heq => hq (heq ▸ hlast)) fun heq => hq' (heq ▸ List.mem_cons_self)
    · exact h.listSplice_prev hlist (fun heq => hq' (heq ▸ h'.next_mem)) fun heq =>
        hq (heq ▸ List.mem_cons_of_mem _ List.mem_cons_self)

/-- Spliced in behind the last entry, the entries come at the end of the list. -/
theorem Ring.listSplice_tail (h : l.Ring list xs) (h' : l.Ring head ys)
    (hapart : List.Disjoint (list :: xs) (head :: ys)) : (l.listSplice list (l.prev head)).Ring head (ys ++ xs) := by
  rcases List.eq_nil_or_concat ys with rfl | ⟨zs, p, rfl⟩
  · rw [h'.prev_head, List.nil_append]
    have hspliced := h.listSplice h' hapart
    rwa [List.append_nil] at hspliced
  · rw [List.concat_eq_append] at h' hapart ⊢
    have hlast : l.prev head = p := by rw [h'.prev_head, List.getLastD_concat]
    have hrotated := h'.rotate
    rw [List.nil_append] at hrotated
    have hapart' : List.Disjoint (list :: xs) (p :: head :: zs) := by
      intro q hq hq'
      exact hapart hq ((List.perm_append_singleton p (head :: zs)).mem_iff.mpr hq')
    rw [hlast, List.append_assoc, List.singleton_append]
    exact (h.listSplice hrotated hapart').rotate

theorem Ring.sameAt_listSplice_tail (h : l.Ring list xs) (h' : l.Ring head ys) (hq : q ∉ list :: xs)
    (hq' : q ∉ head :: ys) : SameAt l (l.listSplice list (l.prev head)) q := by
  rcases List.eq_nil_or_concat ys with rfl | ⟨zs, p, rfl⟩
  · rw [h'.prev_head]
    exact h.sameAt_listSplice h' hq hq'
  · rw [List.concat_eq_append] at h' hq'
    have hlast : l.prev head = p := by rw [h'.prev_head, List.getLastD_concat]
    have hrotated := h'.rotate
    rw [List.nil_append] at hrotated
    rw [hlast]
    exact h.sameAt_listSplice hrotated hq fun hm => hq' ((List.perm_append_singleton p (head :: zs)).mem_iff.mpr hm)

section loops

variable {σ ε β : Type*} {links : σ → Links α} {endless : ε} {body : α → σ → Except ε σ} {fuel : ℕ} {s : σ}

/-- The loop ends after one pass for each of the objects `ys`, the list heads of which are the entries of the list.
What the passes keep holds then. The list itself is left alone by the passes. -/
theorem listForEach_spec {f : β → α} {ys : List β} (I : List β → σ → Prop)
    (hring : ∀ done s, I done s → (links s).Ring head (ys.map f))
    (hbody : ∀ done y rest s, ys = done ++ y :: rest → I done s → ∃ s', body (f y) s = .ok s' ∧ I (done ++ [y]) s')
    (hs : I [] s) (hfuel : ys.length < fuel) :
    ∃ s', listForEach links endless head body fuel ((links s).next head) s = .ok s' ∧ I ys s' := by
  have key : ∀ rest done fuel s, ys = done ++ rest → rest.length < fuel → I done s →
      ∃ s', listForEach links endless head body fuel ((rest.map f).headD head) s = .ok s' ∧ I ys s' := by
    intro rest
    induction rest with
    | nil =>
      intro done fuel s hys hfuel hs
      rw [List.append_nil] at hys
      obtain ⟨fuel, rfl⟩ : ∃ k, fuel = k + 1 := ⟨fuel - 1, by simp at hfuel; omega⟩
      exact ⟨s, by rw [listForEach, List.map_nil, List.headD_nil, if_pos rfl], hys ▸ hs⟩
    | cons y rest ih =>
      intro done fuel s hys hfuel hs
      obtain ⟨fuel, rfl⟩ : ∃ k, fuel = k + 1 := ⟨fuel - 1, by simp at hfuel; omega⟩
      obtain ⟨s', hpass, hs'⟩ := hbody done y rest s hys hs
      have hys' : ys = (done ++ [y]) ++ rest := by rw [hys, List.append_assoc, List.singleton_append]
      have hr := hring _ s' hs'
      rw [hys, List.map_append, List.map_cons] at hr
      have hy : f y ≠ head := by
        intro heq
        exact hr.head_not_mem (by simp [heq])
      obtain ⟨s'', hloop, hs''⟩ := ih (done ++ [y]) fuel s' hys' (by simpa using hfuel) hs'
      refine ⟨s'', ?_, hs''⟩
      rw [List.map_cons, List.headD_cons, listForEach, if_neg hy, hpass, ← hloop, ← hr.next_entry]
      rfl
  rw [(hring _ s hs).next_head]
  exact key ys [] fuel s rfl hfuel hs

end loops

end Links

end Ashttpd
