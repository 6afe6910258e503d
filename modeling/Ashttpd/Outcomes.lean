import Mathlib.Init

/-!
# How a computation ends

A computation that may fail ends with a result of one kind or with an error of another. The rules
follow the way a computation is put together.
-/
namespace Ashttpd

variable {ε α β : Type} {E E' : ε → Prop} {P : α → Prop} {Q : β → Prop} {x : Except ε α}

/-- A result meets `P`, and an error meets `E`. -/
def Ends (E : ε → Prop) (P : α → Prop) : Except ε α → Prop
  | .ok a => P a
  | .error e => E e

theorem ends_bind {f : α → Except ε β} (hx : Ends E P x) (hf : ∀ a, P a → Ends E Q (f a)) :
    Ends E Q (x >>= f) := by
  cases x with
  | error e => exact hx
  | ok a => exact hf a hx

theorem ends_map {f : α → β} (hx : Ends E P x) (hf : ∀ a, P a → Q (f a)) : Ends E Q (x.map f) := by
  cases x with
  | error e => exact hx
  | ok a => exact hf a hx

theorem Ends.mono {P' : α → Prop} (hx : Ends E P x) (hE : ∀ e, E e → E' e) (hP : ∀ a, P a → P' a) :
    Ends E' P' x := by
  cases x with
  | error e => exact hE e hx
  | ok a => exact hP a hx

theorem ends_of_ok {a : α} (hx : x = .ok a) (ha : P a) : Ends E P x := by
  rw [hx]
  exact ha

theorem ends_of_forall (hE : ∀ e, E e) (hP : ∀ a, x = .ok a → P a) : Ends E P x := by
  cases x with
  | error e => exact hE e
  | ok a => exact hP a rfl

theorem Ends.with_result (hx : Ends E P x) : Ends E (fun a => P a ∧ x = .ok a) x := by
  cases x with
  | error e => exact hx
  | ok a => exact ⟨hx, rfl⟩

theorem Ends.result {a : α} (hx : Ends E P x) (ha : x = .ok a) : P a := by
  rwa [ha] at hx

theorem Ends.fault {e : ε} (hx : Ends E P x) (he : x = .error e) : E e := by
  rwa [he] at hx

theorem bind_eq_ok_iff {f : α → Except ε β} {b : β} :
    (x >>= f) = .ok b ↔ ∃ a, x = .ok a ∧ f a = .ok b := by
  cases x with
  | error e =>
    constructor
    · intro h
      cases h
    · rintro ⟨a, h, -⟩
      cases h
  | ok a =>
    constructor
    · intro h
      exact ⟨a, rfl, h⟩
    · rintro ⟨a', h, hf⟩
      cases h
      exact hf

theorem map_eq_ok_iff {f : α → β} {b : β} :
    x.map f = .ok b ↔ ∃ a, x = .ok a ∧ f a = b := by
  cases x with
  | error e =>
    constructor
    · intro h
      cases h
    · rintro ⟨a, h, -⟩
      cases h
  | ok a =>
    constructor
    · intro h
      cases h
      exact ⟨a, rfl, rfl⟩
    · rintro ⟨a', h, hf⟩
      cases h
      rw [← hf]
      rfl

end Ashttpd
