/-
# What a description says

A description file is a list of definitions `pattern Name = expression;`. An expression is a choice
of sequences, a sequence is a list of terms, and a term is an atom with or without a quantifier:

| atom | written |
| --- | --- |
| `literal` | `"text"` |
| `parens` | `(expression)` |
| `set` | `[^ items except items]` |
| `range` | `range(-1, 10, optional)` |
| `group` | `capture<name-other>(expression)`, `ahead(expression)`, … |
| `leaf` | `hex("0a")`, `comment("text")`, … |
| `backref` | `backref(1)`, `backref(name)` |
| `cond` | `if(1, expression, expression)` |
| `modify` | `modify("i-m", expression)` |
| `cls`, `anchor` | `digit`, `^`, … |
| `ref` | the name of a definition |

The words of the language are types of their own, with their spelling.
-/

import RegexBuilder.Description.Token

namespace RegexBuilder
namespace Description

/-- An integer with its sign apart. -/
structure Number where
  negative : Bool
  value : Nat
deriving DecidableEq, Repr

/-- The integer. -/
def Number.toInt (n : Number) : Int := if n.negative then -n.value else n.value

/-- The marks for counts. -/
inductive CountMark where
  | star | plus | optional
deriving DecidableEq, Repr

/-- The spelling of the mark. -/
def CountMark.spelling : CountMark → Text
  | star => "*"
  | plus => "+"
  | optional => "?"

/-- All marks for counts. -/
def CountMark.all : List CountMark := [star, plus, optional]

/-- How often a term repeats: a mark, or bounds in braces. The type does not say which fields are set together. -/
structure Count where
  mark : Option CountMark
  min : Option Nat
  comma : Bool
  max : Option Nat
deriving DecidableEq, Repr

namespace Count

/-- A mark alone. -/
def marked (m : CountMark) : Count := ⟨some m, none, false, none⟩

/-- Any number of times. -/
def star : Count := marked .star

/-- At least once. -/
def plus : Count := marked .plus

/-- At most once. -/
def optional : Count := marked .optional

/-- Bounds in braces. The comma and the second bound may each be left out. -/
def braces (min : Nat) (comma : Bool) (max : Option Nat) : Count := ⟨none, some min, comma, max⟩

end Count

/-- A quantifier, which `lazy` may follow. -/
structure Quantifier where
  count : Count
  isLazy : Bool
deriving DecidableEq, Repr

/-- The words for predefined classes. -/
inductive ClassWord where
  | digit | notdigit | word | notword | space | notspace | any
deriving DecidableEq, Repr

/-- The spelling of the word. -/
def ClassWord.spelling : ClassWord → Text
  | digit => "digit"
  | notdigit => "notdigit"
  | word => "word"
  | notword => "notword"
  | space => "space"
  | notspace => "notspace"
  | any => "any"

/-- The class words that may stand in a set. -/
def ClassWord.inSets : List ClassWord := [digit, notdigit, word, notword, space, notspace]

/-- All class words. -/
def ClassWord.all : List ClassWord := inSets ++ [any]

/-- The words and marks for anchors. -/
inductive AnchorWord where
  | caret | dollar | start | stop | eol | contiguous | boundary | notboundary
deriving DecidableEq, Repr

/-- The spelling of the word. -/
def AnchorWord.spelling : AnchorWord → Text
  | caret => "^"
  | dollar => "$"
  | start => "start"
  | stop => "end"
  | eol => "eol"
  | contiguous => "contiguous"
  | boundary => "boundary"
  | notboundary => "notboundary"

/-- The anchors that are written as words and not as marks. -/
def AnchorWord.named : List AnchorWord := [start, stop, eol, contiguous, boundary, notboundary]

/-- All anchor words. -/
def AnchorWord.all : List AnchorWord := [caret, dollar] ++ named

/-- The words for groups around an expression. -/
inductive GroupWord where
  | capture | atomic | ahead | notahead | behind | notbehind
deriving DecidableEq, Repr

/-- The spelling of the word. -/
def GroupWord.spelling : GroupWord → Text
  | capture => "capture"
  | atomic => "atomic"
  | ahead => "ahead"
  | notahead => "notahead"
  | behind => "behind"
  | notbehind => "notbehind"

/-- All group words. -/
def GroupWord.all : List GroupWord := [capture, atomic, ahead, notahead, behind, notbehind]

/-- The words for leaves with a string argument. -/
inductive LeafWord where
  | char | raw | category | notcategory | hex | octal | unicode | control | comment
deriving DecidableEq, Repr

/-- The spelling of the word. -/
def LeafWord.spelling : LeafWord → Text
  | char => "char"
  | raw => "raw"
  | category => "category"
  | notcategory => "notcategory"
  | hex => "hex"
  | octal => "octal"
  | unicode => "unicode"
  | control => "control"
  | comment => "comment"

/-- All leaf words. -/
def LeafWord.all : List LeafWord :=
  [char, raw, category, notcategory, hex, octal, unicode, control, comment]

/-- The words for the zeros before a number. -/
inductive ZerosWord where
  | none | optional | required
deriving DecidableEq, Repr

/-- The spelling of the word. -/
def ZerosWord.spelling : ZerosWord → Text
  | none => "none"
  | optional => "optional"
  | required => "required"

/-- All words for zeros. -/
def ZerosWord.all : List ZerosWord := [none, optional, required]

/-- One entry of a set: a text, two texts, a category or a class. The type does not say which fields are set together.
-/
structure SetItem where
  first : Option Text
  last : Option Text
  categoryName : Option Text
  className : Option ClassWord
deriving DecidableEq, Repr

namespace SetItem

/-- Each character of the string. -/
def chars (text : Text) : SetItem := ⟨some text, none, none, none⟩

/-- The characters from one to another. -/
def range (first last : Text) : SetItem := ⟨some first, some last, none, none⟩

/-- A category. -/
def category (name : Text) : SetItem := ⟨none, none, some name, none⟩

/-- A class. -/
def cls (which : ClassWord) : SetItem := ⟨none, none, none, some which⟩

end SetItem

/-- One entry of a set and its place. -/
structure PlacedItem where
  pos : Position
  item : SetItem
deriving DecidableEq, Repr

/-- A set in brackets. -/
structure SetExpr where
  negated : Bool
  items : List PlacedItem
  except : List PlacedItem
deriving DecidableEq, Repr

/-- The names between `<` and `>`; what is left out is empty. -/
structure GroupLabel where
  name : Text
  other : Text
deriving DecidableEq, Repr

/-- A reference to a group by its number or its name. -/
structure GroupRef where
  number : Option Nat
  name : Option Text
deriving DecidableEq, Repr

/-- The group with the number. -/
def GroupRef.numbered (n : Nat) : GroupRef := ⟨some n, none⟩

/-- The group with the name. -/
def GroupRef.named (x : Text) : GroupRef := ⟨none, some x⟩

mutual

/-- A single operand. -/
inductive Atom where
  | literal (text : Text)
  | parens (body : List (List Term))
  | set (s : SetExpr)
  | range (min max : Number) (zeros : Option ZerosWord)
  | group (which : GroupWord) (label : Option GroupLabel) (body : List (List Term))
  | leaf (which : LeafWord) (arg : Text)
  | backref (group : GroupRef)
  | cond (test : GroupRef) (yes : List (List Term)) (no : Option (List (List Term)))
  | modify (flags : Text) (body : List (List Term))
  | cls (which : ClassWord)
  | anchor (which : AnchorWord)
  | ref (name : Text)

/-- An operand at a place, with or without a quantifier. -/
inductive Term where
  | mk (pos : Position) (atom : Atom) (quantifier : Option Quantifier)

end

/-- Terms one after another. -/
abbrev Sequence := List Term

/-- A choice of sequences. -/
abbrev Expr := List Sequence

/-- A name for an expression. -/
structure Definition where
  pos : Position
  name : Text
  expr : Expr

/-- The words that name no definition. -/
def keywords : List Text :=
  ClassWord.all.map ClassWord.spelling ++ AnchorWord.named.map AnchorWord.spelling ++
  GroupWord.all.map GroupWord.spelling ++ LeafWord.all.map LeafWord.spelling ++
  ZerosWord.all.map ZerosWord.spelling ++
  ["pattern", "range", "backref", "if", "modify", "except", "lazy"].map Text.ofString

end Description
end RegexBuilder
