/-
# The dialect of the engines that match in linear time

Whether a text is a regular expression of the linear-time dialect: no lookaround, no reference to a
group, no atomic group and no condition. The text is cut into tokens, and the tokens are then
checked for structure:

| rule | checked on |
| --- | --- |
| escapes, sets, group openings, categories | one token at a time |
| a repetition follows a piece and no other repetition | the sequence of tokens |
| parentheses are balanced | the stack of open levels |
| nested counted repetitions make at most 1000 copies | the weight of each piece |
| nothing is nested more than 1000 deep | the height of each piece |

The weight of a piece is the largest product of counts along a path into it. Its height counts the
groups that capture, the repetitions, the sequences and the choices on the longest path into it,
and what they end in; a sequence in a sequence counts once, and so does a choice in a choice.
-/

import RegexBuilder.Engine.CategoryName

namespace RegexBuilder
namespace Linear

/-- The largest count of a repetition, and the largest product of nested counts. -/
def maxCopies : Nat := 1000

/-- The greatest height of a regular expression. -/
def maxHeight : Nat := 1000

/-- What the text is cut into. -/
inductive Token where
  /-- A character that stands for itself. -/
  | literal
  /-- Something else that a repetition can follow. -/
  | piece
  /-- A change of options, which takes part in nothing. -/
  | nothing
  | opening (captures : Bool)
  | closing
  | bar
  /-- A repetition without counts. -/
  | repetition
  /-- A repetition with a least and, unless it is unbounded, a greatest count. -/
  | counted (min : Nat) (max : Option Nat)
deriving DecidableEq, Repr

/-- A letter, digit or underscore that a group name may hold. -/
def isNameChar (c : Char) : Bool := c.isAlphanum || c = '_'

/-- The characters before the first `close` and those after it. -/
def upTo (close : Char) (cs : List Char) : Option (List Char × List Char) :=
  match cs.dropWhile (· != close) with
  | [] => none
  | _ :: rest => some (cs.takeWhile (· != close), rest)

/-- The value of the digits in base `base`. -/
def number? (base : Nat) (digits : List Char) : Option Nat :=
  if digits.isEmpty then none else Text.ofDigits? base (digits.map .char)

/-- An octal digit. -/
def isOctal (c : Char) : Bool := '0' ≤ c && c ≤ '7'

/-- The value of at most three octal digits at the front, and the rest. -/
def octal (cs : List Char) : Nat × List Char :=
  let digits := (cs.take 3).takeWhile isOctal
  ((number? 8 digits).getD 0, cs.drop digits.length)

/-- The number of the one character that is escaped, and the rest; the backslash is read already. -/
def escaped? : List Char → Option (Nat × List Char)
  | 'x' :: '{' :: cs => do
    let (digits, rest) ← upTo '}' cs
    let n ← number? 16 digits
    if n ≤ 0x10FFFF then some (n, rest) else none
  | 'x' :: a :: b :: rest => do
    let n ← number? 16 [a, b]
    some (n, rest)
  | 'a' :: rest => some (7, rest)
  | 'f' :: rest => some (12, rest)
  | 'n' :: rest => some (10, rest)
  | 'r' :: rest => some (13, rest)
  | 't' :: rest => some (9, rest)
  | 'v' :: rest => some (11, rest)
  | '0' :: rest => some (octal ('0' :: rest))
  | c :: d :: rest =>
    if isOctal c && isOctal d then some (octal (c :: d :: rest))
    else if c.toNat < 0x80 && !c.isAlphanum then some (c.toNat, d :: rest)
    else none
  | [c] => if c.toNat < 0x80 && !c.isAlphanum then some (c.toNat, []) else none
  | [] => none

/-- What follows a category; `\p` or `\P` is read already. -/
def category? : List Char → Option (List Char)
  | '{' :: cs => do
    let (name, rest) ← upTo '}' cs
    let name := if name.head? = some '^' then name.tail else name
    if isLooseCategory name then some rest else none
  | c :: rest => if isLooseCategory [c] then some rest else none
  | [] => none

/-- The letters that stand for a class of characters after a backslash. -/
def isClassLetter (c : Char) : Bool := ['d', 'D', 's', 'S', 'w', 'W'].contains c

/-- The names of the classes that a set may hold as `[:name:]`. -/
def namedClasses : List String := [
  "alnum", "alpha", "ascii", "blank", "cntrl", "digit", "graph", "lower", "print", "punct", "space",
  "upper", "word", "xdigit"]

/-- The name between `[:` and the first `:]`, and what follows it. -/
def className? : List Char → Option (List Char × List Char)
  | ':' :: ']' :: rest => some ([], rest)
  | c :: rest => (className? rest).map fun r => (c :: r.1, r.2)
  | [] => none

/-- The name is that of a class, or `^` and the name of a class. -/
def isClassName (name : List Char) : Bool :=
  namedClasses.any fun s => s.toList = name || '^' :: s.toList = name

/-- One character of a set, and the rest. -/
def setChar? : List Char → Option (Nat × List Char)
  | '\\' :: cs => escaped? cs
  | c :: rest => some (c.toNat, rest)
  | [] => none

/-- What follows one character of a set or one range, whose end may not be less than its start. -/
def setRange? (cs : List Char) : Option (List Char) := do
  let (low, rest) ← setChar? cs
  match rest with
  | '-' :: c :: tail =>
    if c = ']' then some rest
    else do
      let (high, rest) ← setChar? (c :: tail)
      if low ≤ high then some rest else none
  | _ => some rest

/-- What follows one item of a set. -/
def setItem? : List Char → Option (List Char)
  | '[' :: ':' :: cs =>
    match className? cs with
    | some (name, rest) => if isClassName name then some rest else none
    | none => setRange? ('[' :: ':' :: cs)
  | '\\' :: 'p' :: cs => category? cs
  | '\\' :: 'P' :: cs => category? cs
  | '\\' :: c :: cs => if isClassLetter c then some cs else setRange? ('\\' :: c :: cs)
  | cs => setRange? cs

/-- What follows the items of a set and its `]`; of `fuel` items at most. -/
def setItems? : (fuel : Nat) → List Char → Option (List Char)
  | 0, _ => none
  | _ + 1, ']' :: rest => some rest
  | fuel + 1, cs => (setItem? cs).bind (setItems? fuel)

/-- What follows a set; its `[` is read already. The first item may be a `]`. -/
def set? (cs : List Char) : Option (List Char) := do
  let cs := if cs.head? = some '^' then cs.tail else cs
  setItems? (cs.length + 1) (← setItem? cs)

/-- What follows the options of a group: a token and the rest. Of the options `i`, `m`, `s` and `U`
there may be any number, a `-` may stand once, and an option must follow it. -/
def options? (negated seen : Bool) : List Char → Option (Token × List Char)
  | ':' :: rest => if negated && !seen then none else some (.opening false, rest)
  | ')' :: rest => if negated && !seen then none else some (.nothing, rest)
  | '-' :: rest => if negated then none else options? true false rest
  | c :: rest => if ['i', 'm', 's', 'U'].contains c then options? negated true rest else none
  | [] => none

/-- What follows the name of a group and its `>`. -/
def groupName? (cs : List Char) : Option (Token × List Char) := do
  let (name, rest) ← upTo '>' cs
  if name.isEmpty || !name.all isNameChar then none else some (.opening true, rest)

/-- A group opening; its `(` is read already. -/
def group? : List Char → Option (Token × List Char)
  | '?' :: 'P' :: '<' :: cs => groupName? cs
  | '?' :: '<' :: cs => groupName? cs
  | '?' :: cs => options? false false cs
  | cs => some (.opening true, cs)

/-- A count without superfluous zeros in front, and the rest. -/
def count? (cs : List Char) : Option (Nat × List Char) := do
  let digits := cs.takeWhile Char.isDigit
  if digits.length > 1 && digits.head? = some '0' then none
  else some (← number? 10 digits, cs.drop digits.length)

/-- The counts of a repetition; its `{` is read already. -/
def counts? (cs : List Char) : Option (Token × List Char) := do
  let (min, rest) ← count? cs
  match rest with
  | '}' :: rest => some (.counted min (some min), rest)
  | ',' :: '}' :: rest => some (.counted min none, rest)
  | ',' :: rest => do
    let (max, rest) ← count? rest
    match rest with
    | '}' :: rest => some (.counted min (some max), rest)
    | _ => none
  | _ => none

/-- The characters between `\Q` and `\E`, or to the end, and what follows them. -/
def literal : List Char → List Char × List Char
  | '\\' :: 'E' :: rest => ([], rest)
  | c :: rest => (c :: (literal rest).1, (literal rest).2)
  | [] => ([], [])

/-- The text after a repetition without the `?` that makes it lazy. -/
def lazy : List Char → List Char
  | '?' :: rest => rest
  | cs => cs

/-- The tokens at the front of a text that is not empty, and the rest. -/
def next? : List Char → Option (List Token × List Char)
  | [] => none
  | '(' :: cs => (group? cs).map fun r => ([r.1], r.2)
  | ')' :: cs => some ([.closing], cs)
  | '|' :: cs => some ([.bar], cs)
  | '[' :: cs => (set? cs).map fun r => ([.piece], r)
  | '\\' :: 'Q' :: cs => some ((literal cs).1.map fun _ => .literal, (literal cs).2)
  | '\\' :: 'p' :: cs => (category? cs).map fun r => ([.piece], r)
  | '\\' :: 'P' :: cs => (category? cs).map fun r => ([.piece], r)
  | '\\' :: c :: cs =>
    if ['A', 'b', 'B', 'z'].contains c || isClassLetter c then some ([.piece], cs)
    else (escaped? (c :: cs)).map fun r => ([.literal], r.2)
  | '\\' :: [] => none
  | '{' :: cs =>
    match counts? cs with
    | some (t, rest) => some ([t], lazy rest)
    | none => some ([.literal], cs)
  | c :: cs =>
    if ['*', '+', '?'].contains c then some ([.repetition], lazy cs)
    else if ['.', '^', '$'].contains c then some ([.piece], cs)
    else some ([.literal], cs)

/-- The tokens of the text, read in `fuel` steps at most. -/
def tokens? : (fuel : Nat) → List Char → Option (List Token)
  | _, [] => some []
  | 0, _ => none
  | fuel + 1, cs => do
    let (ts, rest) ← next? cs
    return ts ++ (← tokens? fuel rest)

/-- What a piece is made of. -/
inductive Shape where
  | literal | sequence | choice | other
deriving DecidableEq, Repr

/-- A part of the expression. -/
structure Piece where
  shape : Shape
  weight : Nat
  height : Nat
deriving DecidableEq, Repr

namespace Piece

/-- A piece in which nothing is nested. -/
def leaf (shape : Shape) : Piece := ⟨shape, 1, 1⟩

/-- The height that the piece has as a part of a sequence or a choice. The parts of one in another
become parts of the other. -/
def heightIn (shape : Shape) (p : Piece) : Nat :=
  if p.shape = shape then p.height - 1 else p.height

/-- A sequence or a choice of two pieces. -/
def combine (shape : Shape) (p q : Piece) : Piece :=
  ⟨shape, max p.weight q.weight, 1 + max (p.heightIn shape) (q.heightIn shape)⟩

/-- One piece after the other; literals are joined. -/
def followedBy (p q : Piece) : Piece :=
  if p.shape = .literal ∧ q.shape = .literal then leaf .literal else combine .sequence p q

/-- The piece inside a group or a repetition. -/
def enclosed (p : Piece) : Piece := ⟨.other, p.weight, p.height + 1⟩

end Piece

/-- A level of parentheses that is being read. -/
structure Level where
  /-- The parentheses capture what they match. -/
  captures : Bool
  /-- The branches before the present one. -/
  branches : Option Piece
  /-- The pieces of the branch before the last one. -/
  before : Option Piece
  /-- The piece that a repetition would follow. -/
  last : Option Piece
deriving DecidableEq, Repr

namespace Level

/-- A level of which nothing is read. -/
def start (captures : Bool) : Level := ⟨captures, none, none, none⟩

/-- The piece `p` after the pieces of the branch before the last one. -/
def appended (l : Level) (p : Piece) : Piece :=
  match l.before with
  | none => p
  | some b => b.followedBy p

/-- The level with one more piece. -/
def push (l : Level) (p : Piece) : Level :=
  { l with before := l.last.map l.appended, last := some p }

/-- The present branch. -/
def branch (l : Level) : Piece :=
  match l.last with
  | none => .leaf .other
  | some p => l.appended p

/-- All branches. -/
def whole (l : Level) : Piece :=
  match l.branches with
  | none => l.branch
  | some b => b.combine .choice l.branch

/-- The level at the start of its next branch. -/
def nextBranch (l : Level) : Level := ⟨l.captures, some l.whole, none, none⟩

/-- What the level is in the level around it. -/
def closed (l : Level) : Piece := if l.captures then l.whole.enclosed else l.whole

end Level

/-- The weight of a piece of weight `w` that is repeated, if it is not too great. -/
def repeated? (min : Nat) (max : Option Nat) (w : Nat) : Option Nat :=
  match max with
  | some 0 => if min = 0 then some 1 else none
  | some m =>
    if m < min || maxCopies < m || maxCopies < m * w then none else some (m * w)
  | none =>
    if maxCopies < min || maxCopies < min * w then none else some (if min = 0 then w else min * w)

/-- How far the tokens are read. -/
structure Reading where
  level : Level
  /-- The levels around it, the nearest first. -/
  outer : List Level
  /-- The last token was a repetition. -/
  justRepeated : Bool
deriving DecidableEq, Repr

namespace Reading

/-- Nothing is read. -/
def start : Reading := ⟨.start false, [], false⟩

/-- The reading after one more piece. -/
def push (r : Reading) (p : Piece) : Reading :=
  { r with level := r.level.push p, justRepeated := false }

/-- The reading after a repetition of the last piece, which becomes `f` of what it was. A repetition
follows a piece and no other repetition. -/
def repeatLast (r : Reading) (f : Piece → Option Piece) : Option Reading :=
  if r.justRepeated then none
  else do
    let p ← r.level.last
    let p ← f p
    return { r with level := { r.level with last := some p }, justRepeated := true }

/-- The reading after one more token, if it may stand there. -/
def step (r : Reading) : Token → Option Reading
  | .literal => some (r.push (.leaf .literal))
  | .piece => some (r.push (.leaf .other))
  | .nothing => some { r with justRepeated := false }
  | .opening captures => some ⟨.start captures, r.level :: r.outer, false⟩
  | .bar => some { r with level := r.level.nextBranch, justRepeated := false }
  | .closing =>
    match r.outer with
    | [] => none
    | l :: outer => some ⟨l.push r.level.closed, outer, false⟩
  | .repetition => r.repeatLast fun p => some p.enclosed
  | .counted min max => r.repeatLast fun p => do
    let w ← repeated? min max p.weight
    return { p.enclosed with weight := w }

end Reading

/-- The characters are a regular expression. -/
def accepts (cs : List Char) : Bool :=
  match (tokens? cs.length cs).bind (·.foldlM Reading.step .start) with
  | some r => r.outer.isEmpty && r.level.whole.height ≤ maxHeight
  | none => false

end Linear
end RegexBuilder
