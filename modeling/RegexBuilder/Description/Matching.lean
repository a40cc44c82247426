/-
# Matching tokens

A grammar rule tried at a list of tokens does not match, matches and leaves a rest, or fails. A
failure knows how far the rule came and what it blames. The difference between not matching and
failing is one token of lookahead: a choice or an option goes on after a failure that did not get
beyond its first token, and after one that did the whole rule fails.
-/

import RegexBuilder.Description.Token

namespace RegexBuilder
namespace Description

/-- What comes of a rule. -/
inductive Outcome (α : Type) where
  | noMatch
  | matched (value : α) (rest : List Token)
  /-- The rule came to where `left` tokens are left. -/
  | failed (left : Nat) (why : SyntaxError)

/-- A grammar rule. -/
def Rule (α : Type) := List Token → Outcome α

namespace Rule

variable {α β : Type}

/-- Matches no tokens. -/
def done (a : α) : Rule α := fun ts => .matched a ts

/-- Never matches. -/
def never : Rule α := fun _ => .noMatch

/-- Fails here. -/
def fail (why : SyntaxError) : Rule α := fun ts => .failed ts.length why

/-- Where a later part of a sequence does not match, the sequence fails and blames the next
token. -/
def demand (r : Rule α) : Rule α := fun ts =>
  match r ts with
  | .noMatch =>
    match ts with
    | [] => .noMatch
    | t :: _ => .failed ts.length (.unexpected t)
  | o => o

/-- One rule after another. If the first does not match, neither does the sequence. -/
def andThen (r : Rule α) (k : α → Rule β) : Rule β := fun ts =>
  match r ts with
  | .noMatch => .noMatch
  | .failed left why => .failed left why
  | .matched a rest => (k a).demand rest

instance : Pure Rule := ⟨done⟩

instance : Bind Rule := ⟨andThen⟩

/-- One token that satisfies `p`. -/
def token (p : Token → Bool) : Rule Token := fun ts =>
  match ts with
  | [] => .noMatch
  | t :: rest => if p t then .matched t rest else .noMatch

/-- One token of the kind. -/
def ofKind (kind : TokenKind) : Rule Token := token fun t => t.kind = kind

/-- One token, of whatever kind, with the value of the word. -/
def word (w : Text) : Rule Token := token fun t => t.kind ≠ .eof && t.value = w

/-- One token that spells one of the words. -/
def oneWord (spelling : α → Text) (words : List α) : Rule α := fun ts =>
  match ts with
  | [] => .noMatch
  | t :: rest =>
    match words.find? fun w => t.kind ≠ .eof && t.value = spelling w with
    | some w => .matched w rest
    | none => .noMatch

/-- The failure that a choice remembers: the one that came furthest, the later of two. -/
def further : Option (Nat × SyntaxError) → Nat → SyntaxError → Nat × SyntaxError
  | some (best, old), left, why => if left ≤ best then (left, why) else (best, old)
  | none, left, why => (left, why)

/-- The first rule that matches, after the failure `remembered`. A failure beyond the first token is final; if nothing
matches, the remembered failure is one at the start. -/
def choose (remembered : Option (Nat × SyntaxError)) : List (Rule α) → Rule α
  | [] => fun ts =>
    match remembered with
    | none => .noMatch
    | some (_, why) => .failed ts.length why
  | r :: rest => fun ts =>
    match r ts with
    | .matched a left => .matched a left
    | .noMatch => choose remembered rest ts
    | .failed left why =>
      if left + 1 < ts.length then .failed left why
      else choose (some (further remembered left why)) rest ts

/-- The first rule that matches. -/
def firstOf (rules : List (Rule α)) : Rule α := choose none rules

/-- The rule at most once. -/
def option (r : Rule α) : Rule (Option α) := fun ts =>
  match r ts with
  | .matched a rest => .matched (some a) rest
  | .noMatch => .matched none ts
  | .failed left why => if left + 1 < ts.length then .failed left why else .matched none ts

/-- The rule as often as it matches, at most `bound` times. -/
def manyTo (r : Rule α) : (bound : Nat) → Rule (List α)
  | 0 => done []
  | bound + 1 => fun ts =>
    match r ts with
    | .matched a rest =>
      match manyTo r bound rest with
      | .matched as rest => .matched (a :: as) rest
      | o => o
    | .noMatch => .matched [] ts
    | .failed left why => if left + 1 < ts.length then .failed left why else .matched [] ts

/-- The rule as often as it matches. A match takes a token, so it matches no more often than there
are tokens. -/
def many (r : Rule α) : Rule (List α) := fun ts => manyTo r ts.length ts

/-- The rule at least once, and as often as it matches. -/
def many1 (r : Rule α) : Rule (List α) := fun ts =>
  match many r ts with
  | .matched [] _ => .noMatch
  | o => o

/-- The rule that is given the place of its first token. -/
def placed (r : Position → Rule α) : Rule α := fun ts =>
  match ts with
  | [] => .noMatch
  | t :: _ => r t.pos ts

end Rule
end Description
end RegexBuilder
