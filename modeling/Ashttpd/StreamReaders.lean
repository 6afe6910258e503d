import Mathlib.Data.List.Infix

/-!
# Reading a stream item by item

A reader that is asked for an item takes it from the front of a stream, as soon as all of it is there. What it
has read of a stream that is still coming is what it will have read first of all.
-/
namespace Ashttpd

variable {α β γ : Type*}

/-- An item is read for what it is, whatever follows it, and no part of it is taken for one. -/
structure ReadsAs (read : α → List γ → Option (β × List γ)) (a : α) (item : List γ) (b : β) : Prop where
  whole : ∀ rest, read a (item ++ rest) = some (b, rest)
  part : ∀ p, p <+: item → p ≠ item → read a p = none

variable {read : α → List γ → Option (β × List γ)} {ι : Type*} {ask : ι → α} {item : ι → List γ} {told : ι → β}
  {items : List ι}

end Ashttpd
