/-
# The dialect of the engine that backtracks

Whether a text is a regular expression of the backtracking dialect, which has lookarounds, atomic
and balancing groups, references and conditions. The text is cut into tokens; while it is cut, the
groups that it defines are collected and the options that are in force are followed, since two of
them change how the text is read:

| option | effect |
| --- | --- |
| `n` | a plain parenthesis defines no group |
| `x` | blanks and comments from `#` to the end of the line are skipped |

The tokens are then checked for structure and for references to groups that are not defined
anywhere.
-/

import RegexBuilder.Engine.Linear
import RegexBuilder.Text.WordCharacter

namespace RegexBuilder
namespace Backtracking

open Linear (upTo number? octal isOctal isClassLetter)

/-- The largest number that can be written in a repetition or a reference. -/
def maxNumber : Nat := 0x7FFFFFFF

/-- A group that is referred to. -/
inductive Reference where
  | number (n : Nat)
  | name (cs : List Char)
deriving DecidableEq, Repr

/-- What a condition looks at. -/
inductive Test where
  | reference (r : Reference)
  /-- An expression, whose group is the next token. -/
  | expression
deriving DecidableEq, Repr

/-- What the text is cut into. -/
inductive Token where
  /-- Something that a repetition can follow. -/
  | unit
  /-- A unit that refers to a group. -/
  | reference (r : Reference)
  /-- `\` and a number of two digits or more: a group, or else, if the flag is set, a character
  code. -/
  | groupOrCode (n : Nat) (code : Bool)
  | repetition
  /-- A group, which may take back the capture of another one. -/
  | opening (other : Option Reference)
  /-- A group that begins with options. -/
  | optionsOpening
  /-- A change of options. -/
  | options
  | condition (test : Test)
  | bar
  | closing
deriving DecidableEq, Repr

/-- The two options that change how the text is read. -/
structure Options where
  explicitGroups : Bool
  skipBlanks : Bool
deriving DecidableEq, Repr

/-- What is known while the text is cut. -/
structure Scan where
  options : Options
  /-- The options outside each open parenthesis, the nearest first. -/
  outer : List Options
  /-- The next parenthesis holds the expression of a condition and is no group. -/
  inCondition : Bool
  /-- The number of plain parentheses that are groups. -/
  plain : Nat
  /-- The groups with numbers of their own. -/
  numbered : List Nat
  /-- The groups with names, each once, in order. -/
  named : List (List Char)
deriving DecidableEq, Repr

namespace Scan

/-- Nothing is read, and no option is set. -/
def start : Scan := ⟨⟨false, false⟩, [], false, 0, [], []⟩

/-- Inside one more parenthesis. -/
def push (s : Scan) : Scan := { s with outer := s.options :: s.outer, inCondition := false }

/-- Outside the innermost parenthesis. -/
def pop (s : Scan) : Scan :=
  match s.outer with
  | [] => s
  | o :: outer => { s with options := o, outer := outer }

/-- With one more plain parenthesis. -/
def addPlain (s : Scan) : Scan :=
  if s.options.explicitGroups || s.inCondition then s else { s with plain := s.plain + 1 }

/-- With a group of the reference `r`. -/
def add (s : Scan) : Reference → Scan
  | .number n => { s with numbered := n :: s.numbered }
  | .name cs => if s.named.contains cs then s else { s with named := s.named ++ [cs] }

end Scan

/-- The blanks that the option `x` skips. -/
def isPatternBlank (c : Char) : Bool := (9 ≤ c.toNat && c.toNat ≤ 13) || c = ' '

/-- The text without the blanks and comments at its front, skipped in `fuel` steps at most; none if
a comment does not end. -/
def skip? (blanks : Bool) : (fuel : Nat) → List Char → Option (List Char)
  | 0, cs => some cs
  | fuel + 1, '(' :: '?' :: '#' :: cs => do
    let (_, rest) ← upTo ')' cs
    skip? blanks fuel rest
  | fuel + 1, c :: cs =>
    if blanks && isPatternBlank c then skip? blanks fuel cs
    else if blanks && c = '#' then skip? blanks fuel (cs.dropWhile (· != '\n'))
    else some (c :: cs)
  | _ + 1, [] => some []

/-- The number at the front, which may have no digits, and the rest; none if it is too large. -/
def decimal? (cs : List Char) : Option (Nat × List Char) :=
  let digits := cs.takeWhile Char.isDigit
  let n := (number? 10 digits).getD 0
  if n ≤ maxNumber then some (n, cs.drop digits.length) else none

/-- The word characters at the front, and the rest. -/
def word (cs : List Char) : List Char × List Char :=
  (cs.takeWhile isWordCharacter, cs.dropWhile isWordCharacter)

/-- The number or the name of a group at the front, and the rest. -/
def group? : List Char → Option (Reference × List Char)
  | [] => none
  | c :: cs =>
    if c.isDigit then (decimal? (c :: cs)).map fun r => (.number r.1, r.2)
    else if isWordCharacter c then some (.name (word (c :: cs)).1, (word (c :: cs)).2)
    else none

/-- What follows a category; `\p` or `\P` is read already. -/
def category? : List Char → Option (List Char)
  | '{' :: cs =>
    let isNameChar := fun c => isWordCharacter c || c = '-'
    match cs.dropWhile isNameChar with
    | '}' :: rest => if isExactCategory (cs.takeWhile isNameChar) then some rest else none
    | _ => none
  | c :: rest => if isExactCategory [c] then some rest else none
  | [] => none

/-- The number of a control character `\cX`: `X` is a letter or one of the five signs beside the
letters. -/
def control? (c : Char) : Option Nat :=
  let c := c.toUpper
  if '@' ≤ c ∧ c ≤ '_' then some (c.toNat - 64) else none

/-- The number of the one character that is escaped, and the rest; the backslash is read already. -/
def escaped? : List Char → Option (Nat × List Char)
  | [] => none
  | 'x' :: '{' :: cs => do
    let (digits, rest) ← upTo '}' cs
    let n ← number? 16 digits
    if n ≤ 0x10FFFF then some (n, rest) else none
  | 'x' :: a :: b :: rest => do
    let n ← number? 16 [a, b]
    some (n, rest)
  | 'u' :: a :: b :: c :: d :: rest => do
    let n ← number? 16 [a, b, c, d]
    some (n, rest)
  | 'c' :: c :: rest => do
    let n ← control? c
    some (n, rest)
  | 'a' :: rest => some (7, rest)
  | 'b' :: rest => some (8, rest)
  | 'e' :: rest => some (27, rest)
  | 'f' :: rest => some (12, rest)
  | 'n' :: rest => some (10, rest)
  | 'r' :: rest => some (13, rest)
  | 't' :: rest => some (9, rest)
  | 'v' :: rest => some (11, rest)
  | c :: rest =>
    if isOctal c then some ((octal (c :: rest)).1 % 256, (octal (c :: rest)).2)
    else if isWordCharacter c then none
    else some (c.toNat, rest)

/-- The group that is referred to up to the sign `close`, and the rest. -/
def referenceUpTo? (close : Char) (cs : List Char) : Option (Reference × List Char) := do
  let (r, rest) ← group? cs
  match rest with
  | c :: rest => if c = close then some (r, rest) else none
  | [] => none

/-- An escaped character as a token. -/
def escapedToken? (cs : List Char) : Option (Token × List Char) :=
  (escaped? cs).map fun r => (.unit, r.2)

/-- A token that begins with a backslash, which is read already. -/
def backslash? : List Char → Option (Token × List Char)
  | [] => none
  | 'p' :: cs => (category? cs).map fun r => (.unit, r)
  | 'P' :: cs => (category? cs).map fun r => (.unit, r)
  | 'k' :: '<' :: cs => (referenceUpTo? '>' cs).map fun r => (.reference r.1, r.2)
  | 'k' :: '\'' :: cs => (referenceUpTo? '\'' cs).map fun r => (.reference r.1, r.2)
  | c :: cs =>
    if ['b', 'B', 'A', 'G', 'Z', 'z'].contains c || isClassLetter c then some (.unit, cs)
    else if c = '<' || c = '\'' then
      match referenceUpTo? (if c = '<' then '>' else c) cs with
      | some (r, rest) => some (.reference r, rest)
      | none => escapedToken? (c :: cs)
    else if c.isDigit && c != '0' then do
      let (n, rest) ← decimal? (c :: cs)
      if n ≤ 9 then some (.reference (.number n), rest)
      else some (.groupOrCode n (isOctal c), rest)
    else escapedToken? (c :: cs)

/-- Where the items of a set have come to. -/
structure SetScan where
  /-- No item is read. -/
  first : Bool
  /-- The start of a range whose end is next. -/
  low : Option Nat
deriving DecidableEq, Repr

/-- What follows a class `[:name:]` of which the `[` is read already, or else the text itself. -/
def skipClassName (cs : List Char) : List Char :=
  match cs with
  | ':' :: rest =>
    let rest := if rest.head? = some '^' && 2 ≤ rest.length then rest.tail else rest
    match (word rest).2 with
    | ':' :: ']' :: rest => rest
    | _ => cs
  | _ => cs

mutual

/-- What follows the items of a set and its `]`, read in `fuel` steps at most. -/
def setItems? : (fuel : Nat) → SetScan → List Char → Option (List Char)
  | 0, _, _ => none
  | _ + 1, _, [] => none
  | fuel + 1, s, c :: cs =>
    if c = ']' && !s.first then some cs
    else if c = '\\' then
      match cs with
      | [] => none
      | '-' :: rest => setItems? fuel { s with first := false } rest
      | d :: rest =>
        if isClassLetter d then
          if s.low.isSome then none else setItems? fuel { s with first := false } rest
        else if d = 'p' || d = 'P' then
          if s.low.isSome then none
          else (category? rest).bind (setItems? fuel { s with first := false })
        else
          match escaped? (d :: rest) with
          | none => none
          | some (n, rest) => setChar? fuel s n false rest
    else if c = '[' && s.low.isNone then setChar? fuel s c.toNat true (skipClassName cs)
    else setChar? fuel s c.toNat true cs

/-- What follows the items of a set of which the character of number `n` is read. If it stands for
itself (`plain`), it may open a subtraction, which must be the last item. -/
def setChar? : (fuel : Nat) → SetScan → (n : Nat) → (plain : Bool) → List Char → Option (List Char)
  | 0, _, _, _, _ => none
  | fuel + 1, s, n, plain, cs =>
    match s.low with
    | some low =>
      if n = '['.toNat && plain && !s.first then subtraction? fuel cs
      else if n < low then none
      else setItems? fuel ⟨false, none⟩ cs
    | none =>
      match cs with
      | '-' :: c :: rest =>
        if c = ']' then setItems? fuel ⟨false, none⟩ cs
        else setItems? fuel ⟨false, some n⟩ (c :: rest)
      | '[' :: rest =>
        if n = '-'.toNat && plain && !s.first then subtraction? fuel rest
        else setItems? fuel ⟨false, none⟩ cs
      | _ => setItems? fuel ⟨false, none⟩ cs

/-- What follows a subtraction and the end of the set that it stands in; its `[` is read already. -/
def subtraction? : (fuel : Nat) → List Char → Option (List Char)
  | 0, _ => none
  | fuel + 1, cs => do
    let cs := if cs.head? = some '^' then cs.tail else cs
    match ← setItems? fuel ⟨true, none⟩ cs with
    | ']' :: rest => some rest
    | _ => none

end

/-- What follows a set; its `[` is read already. The first item may be a `]`. -/
def set? (cs : List Char) : Option (List Char) :=
  let cs := if cs.head? = some '^' then cs.tail else cs
  setItems? (3 * cs.length + 3) ⟨true, none⟩ cs

/-- The options at the front as they change `o`, and the rest. -/
def scanOptions (off : Bool) (o : Options) : List Char → Options × List Char
  | [] => (o, [])
  | c :: cs =>
    if c = '-' then scanOptions true o cs
    else if c = '+' then scanOptions false o cs
    else if c.toLower = 'n' then scanOptions off { o with explicitGroups := !off } cs
    else if c.toLower = 'x' then scanOptions off { o with skipBlanks := !off } cs
    else if ['i', 'm', 's'].contains c.toLower then scanOptions off o cs
    else (o, c :: cs)

/-- A group with a name or number, up to the sign `close`: `name`, `name-other` or `-other`. -/
def namedGroup? (close : Char) (s : Scan) (cs : List Char) : Option (Token × Scan × List Char) :=
  match cs with
  | '-' :: cs => do
    let (other, rest) ← referenceUpTo? close cs
    some (.opening (some other), s.push, rest)
  | _ => do
    let (own, rest) ← group? cs
    if own = .number 0 then none
    else
      match rest with
      | '-' :: rest => do
        let (other, rest) ← referenceUpTo? close rest
        some (.opening (some other), (s.add own).push, rest)
      | c :: rest => if c = close then some (.opening none, (s.add own).push, rest) else none
      | [] => none

/-- A condition; its `(?` is read already, and the `(` of its test is still there. The test of an
expression may be neither a comment nor a group with a name. -/
def condition? (s : Scan) (cs : List Char) : Option (Token × Scan × List Char) :=
  let expression := some (.condition .expression, { s.push with inCondition := true }, cs)
  match cs with
  | '(' :: '?' :: '#' :: _ => none
  | '(' :: '?' :: '\'' :: _ => none
  | '(' :: '?' :: '<' :: c :: _ => if c = '!' || c = '=' then expression else none
  | '(' :: c :: rest =>
    if c.isDigit then do
      let (r, rest) ← referenceUpTo? ')' (c :: rest)
      some (.condition (.reference r), s.push, rest)
    else
      match referenceUpTo? ')' (c :: rest) with
      | some (r, rest) => some (.condition (.reference r), s.push, rest)
      | none => expression
  | _ => expression

/-- A token that begins with a parenthesis, which is read already. -/
def parenthesis? (s : Scan) : List Char → Option (Token × Scan × List Char)
  | '?' :: ':' :: cs => some (.opening none, s.push, cs)
  | '?' :: '=' :: cs => some (.opening none, s.push, cs)
  | '?' :: '!' :: cs => some (.opening none, s.push, cs)
  | '?' :: '>' :: cs => some (.opening none, s.push, cs)
  | '?' :: '<' :: '=' :: cs => some (.opening none, s.push, cs)
  | '?' :: '<' :: '!' :: cs => some (.opening none, s.push, cs)
  | '?' :: '<' :: cs => namedGroup? '>' s cs
  | '?' :: '\'' :: cs => namedGroup? '\'' s cs
  | '?' :: '(' :: cs => condition? s ('(' :: cs)
  | '?' :: ')' :: _ => none
  | '?' :: cs =>
    match scanOptions false s.options cs with
    | (o, ':' :: rest) => some (.optionsOpening, { s.push with options := o }, rest)
    | (o, ')' :: rest) => some (.options, { s with options := o, inCondition := false }, rest)
    | _ => none
  | cs => some (.opening none, s.addPlain.push, cs)

/-- What follows the counts of a repetition, if they are counts at all, and whether they are in
order and not too large; the `{` is read already. -/
def counts? (cs : List Char) : Option (Bool × List Char) :=
  let digits := cs.takeWhile Char.isDigit
  match number? 10 digits, cs.drop digits.length with
  | some min, '}' :: rest => some (min ≤ maxNumber, rest)
  | some min, ',' :: '}' :: rest => some (min ≤ maxNumber, rest)
  | some min, ',' :: tail =>
    let digits := tail.takeWhile Char.isDigit
    match number? 10 digits, tail.drop digits.length with
    | some max, '}' :: rest => some (min ≤ max && max ≤ maxNumber, rest)
    | _, _ => none
  | _, _ => none

/-- The text after a repetition without the `?` that makes it lazy. -/
def lazy? (s : Scan) (cs : List Char) : Option (List Char) :=
  (skip? s.options.skipBlanks cs.length cs).map Linear.lazy

/-- The token at the front of a text that begins with no blank and no comment, and the rest. -/
def next? (s : Scan) : List Char → Option (Token × Scan × List Char)
  | [] => none
  | '(' :: cs => parenthesis? s cs
  | ')' :: cs => some (.closing, s.pop, cs)
  | '|' :: cs => some (.bar, s, cs)
  | '[' :: cs => (set? cs).map fun r => (.unit, s, r)
  | '\\' :: cs => (backslash? cs).map fun r => (r.1, s, r.2)
  | '{' :: cs =>
    match counts? cs with
    | some (true, rest) => (lazy? s rest).map fun r => (.repetition, s, r)
    | some (false, _) => none
    | none => some (.unit, s, cs)
  | c :: cs =>
    if ['*', '+', '?'].contains c then (lazy? s cs).map fun r => (.repetition, s, r)
    else some (.unit, s, cs)

/-- The tokens of the text and what is known at its end, read in `fuel` steps at most. -/
def tokens? : (fuel : Nat) → Scan → List Char → Option (List Token × Scan)
  | fuel, s, cs =>
    match skip? s.options.skipBlanks cs.length cs with
    | none => none
    | some [] => some ([], s)
    | some (c :: cs) =>
      match fuel with
      | 0 => none
      | fuel + 1 => do
        let (t, s, rest) ← next? s (c :: cs)
        let (ts, s) ← tokens? fuel s rest
        return (t :: ts, s)

/-- The least number from `n` on that is not in the list; it is at most the list's length away. -/
def firstFree (used : List Nat) : (fuel : Nat) → (n : Nat) → Nat
  | 0, n => n
  | fuel + 1, n => if used.contains n then firstFree used fuel (n + 1) else n

/-- The numbers that `count` groups with names take, the first of them from `n` on. -/
def nameNumbers (used : List Nat) : (count n : Nat) → List Nat
  | 0, _ => []
  | count + 1, n =>
    let k := firstFree used used.length n
    k :: nameNumbers used count (k + 1)

/-- The numbers of all groups: `0` is the whole match, the plain groups follow, and groups with
names take numbers that are free after those. -/
def Scan.numbers (s : Scan) : List Nat :=
  let used := List.range (s.plain + 1) ++ s.numbered
  used ++ nameNumbers used s.named.length (s.plain + 1)

/-- The group is defined somewhere in the text. -/
def Scan.defines (s : Scan) : Reference → Bool
  | .number n => s.numbers.contains n
  | .name cs => s.named.contains cs

/-- A level of parentheses that is being read. -/
inductive Level where
  | group
  /-- A condition on a group, with the number of its bars. -/
  | referenceTest (bars : Nat)
  /-- A condition on an expression, which may still be missing, with the number of its bars. -/
  | expressionTest (hasTest : Bool) (bars : Nat)
deriving DecidableEq, Repr

namespace Level

/-- The level with one more bar. -/
def addBar : Level → Level
  | group => group
  | referenceTest bars => referenceTest (bars + 1)
  | expressionTest hasTest bars => expressionTest hasTest (bars + 1)

/-- A condition has at most two branches. -/
def canClose : Level → Bool
  | group => true
  | referenceTest bars => bars ≤ 1
  | expressionTest hasTest bars => hasTest && bars ≤ 1

/-- Options may begin a group of this level. -/
def takesOptions : Level → Bool
  | expressionTest _ _ => false
  | _ => true

end Level

/-- How far the tokens are read. -/
structure Reading where
  level : Level
  /-- The levels around it, the nearest first. -/
  outer : List Level
  /-- A repetition may follow. -/
  hasUnit : Bool
deriving DecidableEq, Repr

/-- Nothing is read. -/
def Reading.start : Reading := ⟨.group, [], false⟩

/-- The reading inside one more level. -/
def Reading.enter (r : Reading) (l : Level) : Reading := ⟨l, r.level :: r.outer, false⟩

/-- The reading after one more token, if it may stand there; `defines` tells the groups of the
text. -/
def Reading.step (defines : Reference → Bool) (r : Reading) : Token → Option Reading
  | .unit => some { r with hasUnit := true }
  | .reference ref => if defines ref then some { r with hasUnit := true } else none
  | .groupOrCode n code =>
    if defines (.number n) || code then some { r with hasUnit := true } else none
  | .repetition => if r.hasUnit then some { r with hasUnit := false } else none
  | .opening none => some (r.enter .group)
  | .opening (some other) => if defines other then some (r.enter .group) else none
  | .optionsOpening => if r.level.takesOptions then some (r.enter .group) else none
  | .options => if r.level.takesOptions then some { r with hasUnit := false } else none
  | .condition (.reference (.number n)) =>
    if defines (.number n) then some (r.enter (.referenceTest 0)) else none
  | .condition (.reference (.name cs)) =>
    some (r.enter (if defines (.name cs) then .referenceTest 0 else .expressionTest true 0))
  | .condition .expression => some (r.enter (.expressionTest false 0))
  | .bar => some { r with level := r.level.addBar, hasUnit := false }
  | .closing =>
    if !r.level.canClose then none
    else
      match r.outer with
      | [] => none
      | .expressionTest false bars :: outer => some ⟨.expressionTest true bars, outer, false⟩
      | l :: outer => some ⟨l, outer, true⟩

/-- The characters are a regular expression. -/
def accepts (cs : List Char) : Bool :=
  match tokens? cs.length Scan.start cs with
  | none => false
  | some (ts, s) =>
    match ts.foldlM (Reading.step s.defines) .start with
    | some r => r.outer.isEmpty
    | none => false

end Backtracking
end RegexBuilder
