/-
# Refused arguments

What a constructor can object to. Each cause knows the name of the argument, the value that was
given and the reason; the message is `invalid argument <name> <quoted value>: <reason>`.
-/

import RegexBuilder.Text.Quoted

namespace RegexBuilder

/-- Which of the two names of a group is meant. -/
inductive NameRole where
  | name | other
deriving DecidableEq, Repr

/-- Which end of a range is meant. -/
inductive RangeEnd where
  | start | stop
deriving DecidableEq, Repr

/-- Why an argument was refused. -/
inductive ArgumentError where
  | control (letter : Int32)
  | hex (digits : Text)
  | octal (digits : Text)
  | unicode (digits : Text)
  | emptyCategory
  | badCategory (name : Text)
  | emptyName (role : NameRole)
  | badName (role : NameRole) (name : Text)
  | comment (text : Text)
  /-- A range endpoint that is no character but a node called `found`. -/
  | endpoint (which : RangeEnd) (found : Text)
  | invertedRange (first last : Text)
  | optionLetter (letters : Text) (letter : Char)
  | paddingWord (word : Text)
  | paddingCode (shown : Text)
deriving DecidableEq, Repr

namespace ArgumentError

/-- The name that the argument goes by. -/
def argument : ArgumentError → Text
  | control _ => "control"
  | hex _ => "hex"
  | octal _ => "octal"
  | unicode _ => "unicode"
  | emptyCategory | badCategory _ => "category"
  | emptyName .name | badName .name _ => "name"
  | emptyName .other | badName .other _ => "other"
  | comment _ => "comment"
  | endpoint .start _ => "start"
  | endpoint .stop _ => "end"
  | invertedRange _ _ => "range"
  | optionLetter _ _ => "modifier"
  | paddingWord _ | paddingCode _ => "leading zeros"

/-- The value that was refused. -/
def value : ArgumentError → Text
  | control letter => [Glyph.ofCode letter]
  | hex digits | octal digits | unicode digits => digits
  | emptyCategory | emptyName _ => []
  | badCategory name | badName _ name => name
  | comment text => text
  | endpoint _ found => found
  | invertedRange first last => first ++ "-" ++ last
  | optionLetter letters _ => letters
  | paddingWord word => word
  | paddingCode shown => shown

/-- Why the value was refused. -/
def reason : ArgumentError → Text
  | control _ => "must be an ASCII letter"
  | hex _ => "must be two hex digits"
  | octal _ => "must be two or three octal digits"
  | unicode _ => "must be four hex digits"
  | emptyCategory | emptyName _ => "must not be empty"
  | badCategory _ => "must be an ASCII category or block name"
  | badName _ _ => "may only contain letters, digits and underscores"
  | comment _ => "must not contain ')'"
  | endpoint _ _ => "range endpoints must be character literals"
  | invertedRange _ _ => "start is greater than end"
  | optionLetter _ letter => "unknown option letter " ++ Text.quotedChar letter
  | paddingWord _ => "must be none, optional or required"
  | paddingCode _ => "unknown policy"

/-- The message for the cause. -/
def message (e : ArgumentError) : Text :=
  "invalid argument " ++ e.argument ++ " " ++ e.value.quoted ++ ": " ++ e.reason

end ArgumentError
end RegexBuilder
