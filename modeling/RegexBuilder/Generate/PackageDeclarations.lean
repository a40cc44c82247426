/-
# Declarations in a package text

The text of a package may go on behind the name and declare something on its own: variables and types, each by the
name of a type. A semicolon or the end of the line ends the name and each declaration.

The declarations are written anew, one on a line. An empty line sets them off from the clause and variables from
types; between two of a kind an empty line is kept. No import can stand behind them, so that such a package can stand
only in a file that has none.
-/

import RegexBuilder.Generate.PackageClause

namespace RegexBuilder
namespace Generate

/-- A declaration of a variable or a type, and its line counted from that of the word `package`. -/
structure PlacedDeclaration where
  keyword : Text
  name : Text
  type : Text
  line : Nat
deriving DecidableEq, Repr

/-- A name and the declarations behind it. -/
structure DeclaringPackage where
  name : Text
  first : PlacedDeclaration
  rest : List PlacedDeclaration
deriving DecidableEq, Repr

/-- The words between the blanks of a line. -/
def lineWords (t : Text) : List Text :=
  (Text.split ' ' (t.map fun g => if isTokenBlank g then .char ' ' else g)).filter (· ≠ [])

/-- The words of each statement of the line with the given number. There is one before each semicolon. -/
def statements? (number : Nat) (line : Text) : Option (List (Nat × List Text)) :=
  let parts := (line.split ';').map lineWords
  if parts.dropLast.any (·.isEmpty) then none
  else some ((parts.filter (!·.isEmpty)).map (number, ·))

namespace PlacedDeclaration

/-- The declaration that words make: one of the two keywords, its own name and that of a type. -/
def ofWords? : Nat × List Text → Option PlacedDeclaration
  | (line, [keyword, name, type]) =>
    if (keyword = ("var" : Text) ∨ keyword = ("type" : Text)) ∧ isName name ∧ isName type then
      some ⟨keyword, name, type, line⟩
    else none
  | _ => none

/-- The declaration on a line. -/
def text (d : PlacedDeclaration) : Text := d.keyword ++ " " ++ d.name ++ " " ++ d.type

/-- What stands between a declaration and the next one. -/
def separator (d next : PlacedDeclaration) : Text :=
  if d.keyword = next.keyword then PackageClause.breaks (max (next.line - d.line) 1) else PackageClause.breaks 2

/-- Declarations behind `d`. -/
def textsBehind (d : PlacedDeclaration) : List PlacedDeclaration → Text
  | [] => []
  | next :: rest => d.separator next ++ next.text ++ textsBehind next rest

end PlacedDeclaration

namespace DeclaringPackage

/-- The name and the declarations that a text makes behind the word `package`. -/
def read? (t : Text) : Option DeclaringPackage := do
  let lines ← (t.split '\n').zipIdx.mapM fun (line, number) => statements? number line
  match lines.flatten with
  | (0, [name]) :: statements =>
    if !isName name then none
    match ← statements.mapM PlacedDeclaration.ofWords? with
    | [] => none
    | first :: rest => return ⟨name, first, rest⟩
  | _ => none

/-- The package without the end of its last line. -/
def text (p : DeclaringPackage) : Text :=
  "package " ++ p.name ++ "\n\n" ++ p.first.text ++ p.first.textsBehind p.rest

end DeclaringPackage
end Generate
end RegexBuilder
