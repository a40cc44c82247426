/-
# Merging ranges

Ranges that overlap or touch are fused by one sweep over the endpoints in increasing order, starts
before ends. A fused range keeps the endpoint at which the sweep opened it and the one at which it
closed it, and the results stand in the order of the first input range that each of them absorbed.

The sweep is defined for inverted ranges too. These close before they open, so a result may lack its
first endpoint.
-/

import RegexBuilder.Pattern.Range

namespace RegexBuilder
namespace Range

variable {α : Type}

/-- An endpoint in the sweep: its number, whether it ends a range, and the index of that range. -/
structure Mark (α : Type) where
  point : α
  value : Int32
  closes : Bool
  source : Nat

/-- Increasing numbers, and at one number the starts before the ends. -/
def Mark.le (a b : Mark α) : Bool :=
  a.value < b.value || (a.value = b.value && (!a.closes || b.closes))

/-- The endpoints of the ranges, the first range having the index `i`. -/
def marks (value : α → Int32) : Nat → List (Range α) → List (Mark α)
  | _, [] => []
  | i, r :: rest =>
    ⟨r.first, value r.first, false, i⟩ :: ⟨r.last, value r.last, true, i⟩ ::
      marks value (i + 1) rest

/-- A fused range and the smallest index of a range that started in it. -/
structure Fused (α : Type) where
  first : Option α
  last : α
  source : Nat

/-- The next endpoint lies at most one above `n`. The distance is taken modulo `2 ^ 32`. -/
def touches (n : Int32) : List (Mark α) → Bool
  | [] => false
  | m :: _ => m.value - n ≤ 1

/-- The sweep: `depth` ranges are open, the current result began at `start`, and `source` is the smallest index seen in
it. A result is closed when no range is open and the next endpoint does not touch this one. -/
def sweep : List (Mark α) → (depth : Int) → (start : Option α) → (source : Nat) → List (Fused α)
  | [], _, _, _ => []
  | m :: rest, depth, start, source =>
    if m.closes then
      if depth - 1 > 0 || touches m.value rest then sweep rest (depth - 1) start source
      else ⟨start, m.point, source⟩ :: sweep rest (depth - 1) none source
    else if depth = 0 && start.isNone then sweep rest (depth + 1) (some m.point) m.source
    else sweep rest (depth + 1) start (min source m.source)

/-- The ranges, fused where they overlap or touch. -/
def merge (value : α → Int32) (ranges : List (Range α)) : List (Fused α) :=
  (sweep ((marks value 0 ranges).mergeSort Mark.le) 0 none 0).mergeSort
    fun a b => a.source ≤ b.source

end Range
end RegexBuilder
