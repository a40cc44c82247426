/-
# Ranges of characters

A range has two endpoints. What an endpoint is stays open: a character, or a node that holds one.
-/

import RegexBuilder.Pattern.Character

namespace RegexBuilder

/-- Two endpoints, both included. -/
structure Range (α : Type) where
  first : α
  last : α
deriving DecidableEq, Repr

namespace Range

/-- The range between the images of the endpoints, if both have one. -/
def mapM? {α β : Type} (f : α → Option β) (r : Range α) : Option (Range β) := do
  let a ← f r.first
  let b ← f r.last
  pure ⟨a, b⟩

/-- The range holds one character. -/
def isSingle (r : Range Character) : Bool := r.first.value = r.last.value

/-- The range holds two neighbours. The distance is taken modulo `2 ^ 32`. -/
def isAdjacent (r : Range Character) : Bool := r.last.value - r.first.value = 1

/-- The number lies in the range. -/
def contains (r : Range Character) (n : Int32) : Bool := r.first.value ≤ n && n ≤ r.last.value

/-- The first endpoint is greater than the last. -/
def isInverted (r : Range Character) : Bool := r.last.value < r.first.value

/-- How the range is written inside a set; a range of one character is written as its first
endpoint. -/
def form (r : Range Character) : Text :=
  if r.isSingle then r.first.form true else r.first.form true ++ "-" ++ r.last.form true

/-- The range between two characters in order. -/
def ofCharacters (first last : Character) : Except ArgumentError (Range Character) :=
  if last.value < first.value then .error (.invertedRange (first.form true) (last.form true))
  else .ok ⟨first, last⟩

end Range

/-- The characters between `[` and `]`: ranges and members that are included, and ranges and members
that are subtracted from them. -/
structure CharacterSet (α : Type) where
  ranges : List (Range α) := []
  members : List α := []
  subtractedRanges : List (Range α) := []
  subtractedMembers : List α := []
  negated : Bool := false
deriving DecidableEq, Repr

namespace CharacterSet

/-- The set includes something. -/
def hasBase {α : Type} (s : CharacterSet α) : Bool := !s.ranges.isEmpty || !s.members.isEmpty

/-- The set subtracts something. -/
def hasSubtraction {α : Type} (s : CharacterSet α) : Bool :=
  !s.subtractedRanges.isEmpty || !s.subtractedMembers.isEmpty

end CharacterSet
end RegexBuilder
