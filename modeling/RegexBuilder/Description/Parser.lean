/-
# Reading a description

The grammar, rule by rule. The rules for atoms and terms are given the rule for the sequences inside
them; `sequenceTo` closes the circle down to a bound on the nesting. Every level of nesting takes a
token of its own, so a description with `n` tokens is nested less than `n` deep.

An integer is checked where the construct that holds it is complete, so a token that does not belong
there is reported first. The integer of a conditional is checked behind the first sequence that
follows it.
-/

import RegexBuilder.Description.Grammar
import RegexBuilder.Description.Matching

namespace RegexBuilder
namespace Description

open Rule

/-! ## Integers -/

/-- One more digit in base `base` after the digits of value `n`, below `2 ^ 64`. The error says whether the value is
too large; otherwise the base lacks the digit. -/
def addIntegerDigit (base n : Nat) (g : Glyph) : Except Bool Nat :=
  match Text.addDigit base n g with
  | none => .error false
  | some m => if m < 0x10000000000000000 then .ok m else .error true

/-- The value of an integer token below `2 ^ 63`; a leading zero means octal. -/
def integerValue (t : Text) : Except Bool Nat := do
  let n ← match t with
    | '0' :: rest => rest.foldlM (addIntegerDigit 8) 0
    | _ => t.foldlM (addIntegerDigit 10) 0
  if n < 0x8000000000000000 then .ok n else .error true

/-- The value of an integer token that was read before. -/
def integer (t : Token) : Rule Nat :=
  match integerValue t.value with
  | .ok n => done n
  | .error tooLarge => Rule.fail (.badInteger t tooLarge)

/-- The value of an integer token that was read before, if there was one. -/
def integer? : Option Token → Rule (Option Nat)
  | none => done none
  | some t => do
    let n ← integer t
    return some n

/-- `-` and an integer. -/
def number : Rule Number := do
  let sign ← Rule.option (word "-")
  let t ← ofKind .int
  let n ← integer t
  return ⟨sign.isSome, n⟩

/-! ## Quantifiers -/

/-- A count whose integers are still tokens. -/
structure RawCount where
  mark : Option CountMark
  min : Option Token
  comma : Bool
  max : Option Token

/-- `*`, `+` or `?`. -/
def markCount : Rule RawCount := do
  let m ← oneWord CountMark.spelling CountMark.all
  return ⟨some m, none, false, none⟩

/-- A count in braces. -/
def bracesCount : Rule RawCount := do
  let _ ← word "\x7b"
  let min ← ofKind .int
  let comma ← Rule.option (word ",")
  let max ← Rule.option (ofKind .int)
  let _ ← word "\x7d"
  return ⟨none, some min, comma.isSome, max⟩

/-- The count with the values of its integers. -/
def RawCount.values (raw : RawCount) : Rule Count := do
  let min ← integer? raw.min
  let max ← integer? raw.max
  return ⟨raw.mark, min, raw.comma, max⟩

/-- A quantifier. -/
def quantifier : Rule Quantifier := do
  let raw ← firstOf [markCount, bracesCount]
  let isLazy ← Rule.option (word "lazy")
  let count ← raw.values
  return ⟨count, isLazy.isSome⟩

/-! ## Sets -/

/-- A string token's value. -/
def string : Rule Text := do
  let t ← ofKind .string
  return t.value

/-- An identifier's value. -/
def ident : Rule Text := do
  let t ← ofKind .ident
  return t.value

/-- `- "z"`. -/
def rangeEnd : Rule Text := do
  let _ ← word "-"
  let last ← string
  return last

/-- Characters or a range of characters. -/
def charsItem : Rule SetItem := do
  let first ← string
  let last ← Rule.option rangeEnd
  return ⟨some first, last, none, none⟩

/-- A category in a set. -/
def categoryItem : Rule SetItem := do
  let _ ← word "category"
  let _ ← word "("
  let name ← string
  let _ ← word ")"
  return .category name

/-- A class in a set. -/
def classItem : Rule SetItem := do
  let w ← oneWord ClassWord.spelling ClassWord.inSets
  return .cls w

/-- One entry of a set. -/
def setItem : Rule PlacedItem := placed fun pos => do
  let item ← firstOf [charsItem, categoryItem, classItem]
  return ⟨pos, item⟩

/-- The entries that a set leaves out. -/
def exceptItems : Rule (List PlacedItem) := do
  let _ ← word "except"
  let items ← many1 setItem
  return items

/-- A set. -/
def setExpr : Rule SetExpr := do
  let _ ← word "["
  let negated ← Rule.option (word "^")
  let items ← many setItem
  let except ← Rule.option exceptItems
  let _ ← word "]"
  return ⟨negated.isSome, items, except.getD []⟩

/-! ## Atoms without an expression in them -/

/-- The policy for zeros at the end of a numeric range. -/
def zeros : Rule ZerosWord := do
  let _ ← word ","
  let w ← oneWord ZerosWord.spelling ZerosWord.all
  return w

/-- A numeric range. -/
def rangeAtom : Rule Atom := do
  let _ ← word "range"
  let _ ← word "("
  let min ← number
  let _ ← word ","
  let max ← number
  let z ← Rule.option zeros
  let _ ← word ")"
  return .range min max z

/-- A leaf with a string argument. -/
def leafAtom : Rule Atom := do
  let w ← oneWord LeafWord.spelling LeafWord.all
  let _ ← word "("
  let arg ← string
  let _ ← word ")"
  return .leaf w arg

/-- A group reference whose integer is still a token. -/
structure RawGroupRef where
  number : Option Token
  name : Option Text

/-- A group number. -/
def groupNumber : Rule RawGroupRef := do
  let t ← ofKind .int
  return ⟨some t, none⟩

/-- A group name. -/
def groupName : Rule RawGroupRef := do
  let x ← ident
  return ⟨none, some x⟩

/-- The reference with the value of its integer. -/
def RawGroupRef.value (raw : RawGroupRef) : Rule GroupRef := do
  let number ← integer? raw.number
  return ⟨number, raw.name⟩

/-- A backreference. -/
def backrefAtom : Rule Atom := do
  let _ ← word "backref"
  let _ ← word "("
  let raw ← firstOf [groupNumber, groupName]
  let _ ← word ")"
  let group ← raw.value
  return .backref group

/-- A string that stands for itself. -/
def literalAtom : Rule Atom := do
  let t ← string
  return .literal t

/-- A set as an atom. -/
def setAtom : Rule Atom := do
  let s ← setExpr
  return .set s

/-- A class as an atom. -/
def classAtom : Rule Atom := do
  let w ← oneWord ClassWord.spelling ClassWord.all
  return .cls w

/-- An anchor. -/
def anchorAtom : Rule Atom := do
  let w ← oneWord AnchorWord.spelling AnchorWord.all
  return .anchor w

/-- The name of a definition. -/
def refAtom : Rule Atom := do
  let x ← ident
  return .ref x

/-! ## Expressions -/

/-- A further branch. -/
def branch (sequence : Rule Sequence) : Rule Sequence := do
  let _ ← word "|"
  let s ← sequence
  return s

/-- An expression. -/
def expression (sequence : Rule Sequence) : Rule Expr := do
  let first ← sequence
  let rest ← many (branch sequence)
  return first :: rest

/-- An expression in parentheses. -/
def parensAtom (sequence : Rule Sequence) : Rule Atom := do
  let _ ← word "("
  let body ← expression sequence
  let _ ← word ")"
  return .parens body

/-- `-name`. -/
def otherName : Rule Text := do
  let _ ← word "-"
  let x ← ident
  return x

/-- The names of a group. -/
def groupLabel : Rule GroupLabel := do
  let _ ← word "<"
  let name ← Rule.option ident
  let other ← Rule.option otherName
  let _ ← word ">"
  return ⟨name.getD [], other.getD []⟩

/-- A group around an expression. -/
def groupAtom (sequence : Rule Sequence) : Rule Atom := do
  let w ← oneWord GroupWord.spelling GroupWord.all
  let label ← Rule.option groupLabel
  let _ ← word "("
  let body ← expression sequence
  let _ ← word ")"
  return .group w label body

/-- The second branch of a conditional. -/
def otherwise (sequence : Rule Sequence) : Rule Expr := do
  let _ ← word ","
  let e ← expression sequence
  return e

/-- A conditional. -/
def condAtom (sequence : Rule Sequence) : Rule Atom := do
  let _ ← word "if"
  let _ ← word "("
  let raw ← firstOf [groupNumber, groupName]
  let _ ← word ","
  let first ← sequence
  let test ← raw.value
  let rest ← many (branch sequence)
  let no ← Rule.option (otherwise sequence)
  let _ ← word ")"
  return .cond test (first :: rest) no

/-- An expression with options. -/
def modifyAtom (sequence : Rule Sequence) : Rule Atom := do
  let _ ← word "modify"
  let _ ← word "("
  let flags ← string
  let _ ← word ","
  let body ← expression sequence
  let _ ← word ")"
  return .modify flags body

/-- An atom. -/
def atom (sequence : Rule Sequence) : Rule Atom :=
  firstOf [literalAtom, parensAtom sequence, setAtom, rangeAtom, groupAtom sequence, leafAtom,
    backrefAtom, condAtom sequence, modifyAtom sequence, classAtom, anchorAtom, refAtom]

/-- A term. -/
def term (sequence : Rule Sequence) : Rule Term := placed fun pos => do
  let a ← atom sequence
  let q ← Rule.option quantifier
  return ⟨pos, a, q⟩

/-- A sequence that is nested at most `depth` levels deep. -/
def sequenceTo : (depth : Nat) → Rule Sequence
  | 0 => never
  | depth + 1 => many1 (term (sequenceTo depth))

/-! ## Files -/

/-- A definition in a file whose nesting is bounded by `depth`. -/
def definition (depth : Nat) : Rule Definition := placed fun pos => do
  let _ ← word "pattern"
  let name ← ident
  let _ ← word "="
  let e ← expression (sequenceTo depth)
  let _ ← word ";"
  return ⟨pos, name, e⟩

/-- The definitions up to the end of the tokens, at most `bound` of them. -/
def definitionsTo (depth : Nat) : (bound : Nat) → List Token → Except SyntaxError (List Definition)
  | 0, _ => .ok []
  | bound + 1, ts =>
    match definition depth ts with
    | .matched d rest => do
      let ds ← definitionsTo depth bound rest
      return d :: ds
    | .failed _ why => .error why
    | .noMatch =>
      match ts with
      | [] => .ok []
      | t :: _ => if t.kind = .eof then .ok [] else .error (.unexpected t)

/-- The definitions of a description. -/
def parse (file src : Text) : Except SyntaxError (List Definition) := do
  let ts ← tokens file src
  definitionsTo ts.length ts.length ts

end Description
end RegexBuilder
