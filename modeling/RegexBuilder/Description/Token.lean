/-
# Tokens of a description

A description is a text of tokens:

| token | form |
| --- | --- |
| `string` | `"…"`, where `\` escapes the next character |
| `int` | decimal digits |
| `ident` | a letter or `_`, then letters, digits and `_`, all of ASCII |
| `punct` | one of `-=\|*+?(){}[],;<>^$` |

Blanks (tab, newline, form feed, carriage return, space) and comments from `//` to the end of the
line stand between tokens and are dropped. The value of a string token is what the string stands
for.
-/

import RegexBuilder.Text.Quoted

namespace RegexBuilder
namespace Description

/-- A place in a description file; lines and columns count from 1, columns in glyphs. -/
structure Position where
  file : Text
  line : Nat
  column : Nat
deriving DecidableEq, Repr

namespace Position

/-- The line and the column. -/
def lineColumn (p : Position) : Text := Text.ofNat p.line ++ ":" ++ Text.ofNat p.column

/-- The file, if it has a name, the line and the column. -/
def shown (p : Position) : Text :=
  if p.file = [] then p.lineColumn else p.file ++ ":" ++ p.lineColumn

/-- The place behind the glyph `g`. -/
def next (p : Position) (g : Glyph) : Position :=
  if g = '\n' then { p with line := p.line + 1, column := 1 } else { p with column := p.column + 1 }

/-- The place behind a text. -/
def advance (p : Position) (t : Text) : Position := t.foldl next p

end Position

/-- The kinds of token. -/
inductive TokenKind where
  | string | int | ident | punct
  /-- The end of the description. -/
  | eof
deriving DecidableEq, Repr

/-- A token with its value and its place. -/
structure Token where
  kind : TokenKind
  value : Text
  pos : Position
  /-- The place right behind the token before it, where the blanks and comments in between start. -/
  gap : Position
deriving DecidableEq, Repr

/-- Why a text is not a description. -/
inductive SyntaxError where
  /-- No token starts here; `rest` is the text from here on. -/
  | noToken (pos : Position) (rest : Text)
  | badString (pos : Position) (lexeme : Text)
  | unexpected (token : Token)
  /-- An integer that is `tooLarge`, or has a digit that its base lacks. It is reported from the
  blanks in front of it on. -/
  | badInteger (token : Token) (tooLarge : Bool)
deriving DecidableEq, Repr

namespace SyntaxError

/-- How many characters of the rest are shown where no token starts. -/
def sampleLength : Nat := 16

/-- The beginning of the rest, as characters. -/
def sample (rest : Text) : Text :=
  let shown : Text := rest.map fun g => .char g.read
  if rest.length ≤ sampleLength then shown else shown.take sampleLength ++ "..."

/-- How the token is shown. -/
def tokenText (t : Token) : Text := if t.kind = .eof then "<EOF>" else t.value

/-- The message for the error. -/
def message : SyntaxError → Text
  | noToken pos rest => pos.shown ++ ": lexer: invalid input text " ++ (sample rest).quoted
  | badString pos lexeme =>
    pos.shown ++ ": invalid quoted string " ++ lexeme.quoted ++ ": invalid syntax"
  | unexpected t => t.pos.shown ++ ": unexpected token " ++ (tokenText t).quoted
  | badInteger t tooLarge =>
    t.gap.shown ++ ": failed to conform: strconv.ParseInt: parsing " ++ t.value.quoted ++ ": " ++
      (if tooLarge then "value out of range" else "invalid syntax")

end SyntaxError

/-! ## Strings -/

/-- The number that `n` digits at the start of `t` are in base `base`. -/
def leadingDigits? (base n : Nat) (t : Text) : Option Nat :=
  if n ≤ t.length then Text.ofDigits? base (t.take n) else none

/-- The character with number `n`, if it is at most `most`. -/
def charUpTo? (most n : Nat) : Option Char := if n ≤ most then Text.scalar? 0 n else none

/-- The character that is escaped by `t`, which follows a backslash, and the number of glyphs that
it takes. Three octal digits go up to 255. -/
def escape? (t : Text) : Option (Char × Nat) :=
  match t with
  | 'a' :: _ => some ('\x07', 1)
  | 'b' :: _ => some ('\x08', 1)
  | 'f' :: _ => some ('\x0c', 1)
  | 'n' :: _ => some ('\n', 1)
  | 'r' :: _ => some ('\r', 1)
  | 't' :: _ => some ('\t', 1)
  | 'v' :: _ => some ('\x0b', 1)
  | '\\' :: _ => some ('\\', 1)
  | '"' :: _ => some ('"', 1)
  | 'x' :: rest => do
    let n ← leadingDigits? 16 2 rest
    return (← Text.scalar? 0 n, 3)
  | 'u' :: rest => do
    let n ← leadingDigits? 16 4 rest
    return (← Text.scalar? 0 n, 5)
  | 'U' :: rest => do
    let n ← leadingDigits? 16 8 rest
    return (← Text.scalar? 0 n, 9)
  | _ => do
    let n ← leadingDigits? 8 3 t
    return (← charUpTo? 255 n, 3)

/-- What the text after its first `skip` glyphs stands for in a string. -/
def unescapeAfter : (skip : Nat) → Text → Option Text
  | _, [] => some []
  | skip + 1, _ :: rest => unescapeAfter skip rest
  | 0, g :: rest =>
    if g = '\\' then do
      let (c, width) ← escape? rest
      return .char c :: (← unescapeAfter width rest)
    else do
      return .char g.read :: (← unescapeAfter 0 rest)

/-- What a string token stands for; `lexeme` has its quotation marks. -/
def unquote (lexeme : Text) : Option Text := unescapeAfter 0 (lexeme.drop 1).dropLast

/-! ## Lexemes -/

/-- A letter of ASCII or `_`. -/
def isIdentStart (g : Glyph) : Bool := g.isChar fun c => c.isAlpha || c = '_'

/-- A letter or digit of ASCII or `_`. -/
def isIdentRest (g : Glyph) : Bool := g.isChar fun c => c.isAlphanum || c = '_'

/-- A mark that is a token of its own. -/
def isPunct (g : Glyph) : Bool := g.isChar fun c => c ∈ "-=|*+?()\x7b\x7d[],;<>^$".toList

/-- A blank between tokens. -/
def isSpace (g : Glyph) : Bool := g.isChar fun c => c ∈ ['\t', '\n', '\x0c', '\r', ' ']

/-- The rest of a string with its closing mark, and what follows it. A backslash takes the next
glyph with it, which must not be a newline. -/
def stringRest? : Text → Option (Text × Text)
  | [] => none
  | '"' :: rest => some (['"'], rest)
  | ['\\'] => none
  | '\\' :: g :: rest =>
    if g = '\n' then none
    else (stringRest? rest).map fun p => ('\\' :: g :: p.1, p.2)
  | g :: rest => (stringRest? rest).map fun p => (g :: p.1, p.2)

/-- The longest beginning of the text with glyphs of a class, and the rest. -/
def spanGlyphs (p : Glyph → Bool) (t : Text) : Text × Text := (t.takeWhile p, t.dropWhile p)

/-- The lexeme at the start of a text and what follows it; `none` is the kind of blanks and
comments. -/
def lexeme? (t : Text) : Option (Option TokenKind × Text × Text) :=
  match t with
  | [] => none
  | g :: rest =>
    if g = '/' then
      if rest.head? = some (.char '/') then some (none, spanGlyphs (· ≠ .char '\n') t) else none
    else if g = '"' then
      (stringRest? rest).map fun p => (some .string, g :: p.1, p.2)
    else if g.isDigit then some (some .int, spanGlyphs Glyph.isDigit t)
    else if isIdentStart g then some (some .ident, spanGlyphs isIdentRest t)
    else if isPunct g then some (some .punct, [g], rest)
    else if isSpace g then some (none, spanGlyphs isSpace t)
    else none

/-- The token of a lexeme. -/
def Token.ofLexeme (kind : TokenKind) (lexeme : Text) (pos gap : Position) :
    Except SyntaxError Token :=
  match kind with
  | .string =>
    match unquote lexeme with
    | some value => .ok ⟨.string, value, pos, gap⟩
    | none => .error (.badString pos lexeme)
  | _ => .ok ⟨kind, lexeme, pos, gap⟩

/-- The tokens of a text that starts at `pos`, in at most `steps` lexemes; the token before it ends
at `gap`. -/
def tokensFrom : (steps : Nat) → (pos gap : Position) → Text → Except SyntaxError (List Token)
  | _, pos, gap, [] => .ok [⟨.eof, [], pos, gap⟩]
  | 0, pos, _, t => .error (.noToken pos t)
  | steps + 1, pos, gap, t =>
    match lexeme? t with
    | none => .error (.noToken pos t)
    | some (none, lexeme, rest) => tokensFrom steps (pos.advance lexeme) gap rest
    | some (some kind, lexeme, rest) => do
      let token ← Token.ofLexeme kind lexeme pos gap
      let tokens ← tokensFrom steps (pos.advance lexeme) (pos.advance lexeme) rest
      return token :: tokens

/-- The tokens of a description, with the end of it as the last one. No lexeme is empty, so there
are no more of them than glyphs. -/
def tokens (file src : Text) : Except SyntaxError (List Token) :=
  tokensFrom src.length ⟨file, 1, 1⟩ ⟨file, 1, 1⟩ src

end Description
end RegexBuilder
