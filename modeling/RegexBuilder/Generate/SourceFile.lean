/-
# Generated files

A generated file has a header, a package and declarations: for each entry a constant with the text
of its pattern and a variable that is compiled from the constant. The file of tests declares one
function, which compares each variable with its constant.

What makes the texts of the files is a `Printer`, which may refuse a file. The one of this module is `Printer.standard`.
-/

import RegexBuilder.Generate.Entry
import RegexBuilder.Generate.PackageDeclarations

namespace RegexBuilder
namespace Generate

/-- The comment line at the top of a generated file; `source` is the description that it comes from,
if it has a name. -/
def headerLine (source : Text) : Text :=
  if source = [] then "Code generated by regcraft. DO NOT EDIT."
  else "Code generated by regcraft from " ++ source ++ ". DO NOT EDIT."

/-- A declaration for the definition `of`. -/
inductive Declaration where
  /-- A constant with a text as its value. -/
  | constant (name of value : Text)
  /-- A variable that is compiled from a constant. -/
  | compiled (name of : Text) (engine : Engine) (constant : Text)
deriving DecidableEq, Repr

/-- The name that is declared. -/
def Declaration.name : Declaration → Text
  | constant name _ _ => name
  | compiled name _ _ _ => name

/-- How an engine compiles a constant. -/
def initializer (engine : Engine) (constant : Text) : Text :=
  match engine with
  | .regexp2 => "regexp2.MustCompile(" ++ constant ++ ", regexp2.None)"
  | .regexp => "regexp.MustCompile(" ++ constant ++ ")"
  | .coregex => "coregex.MustCompile(" ++ constant ++ ")"

/-- The import of an engine. -/
def importLine : Engine → Text
  | .regexp2 => "import regexp2 \"github.com/dlclark/regexp2\"\n"
  | .regexp => "import \"regexp\"\n"
  | .coregex => "import coregex \"github.com/coregx/coregex\"\n"

/-- The lines of a declaration. -/
def Declaration.text : Declaration → Text
  | constant name of value =>
    "// " ++ name ++ " is the source of the " ++ of ++ " pattern.\n" ++
      "const " ++ name ++ " = " ++ value.quoted ++ "\n"
  | compiled name of engine value =>
    "// " ++ name ++ " matches the " ++ of ++ " pattern.\n" ++
      "var " ++ name ++ " = " ++ initializer engine value ++ "\n"

/-- The two declarations of an entry. -/
def Entry.declarations (engine : Engine) (e : Entry) : List Declaration :=
  [.constant e.constant e.name e.source, .compiled e.ident e.name engine e.constant]

/-- A generated file. -/
structure SourceFile where
  headers : List Text
  package : Text
  engine : Engine
  declarations : List Declaration
deriving DecidableEq, Repr

namespace SourceFile

/-- The file with one more header and the declarations of the entries. -/
def extend (f : SourceFile) (header : Text) (es : List Entry) : SourceFile :=
  { f with
    headers := f.headers ++ [header]
    declarations := f.declarations ++ es.flatMap (Entry.declarations f.engine) }

/-- The header comments, one below the other. -/
def top? (f : SourceFile) : Option Text :=
  (f.headers.mapM headerComment?).map fun cs => cs.flatMap (· ++ Text.ofString "\n")

/-- The import, which a file without declarations does not need. -/
def imports (f : SourceFile) : Text :=
  if f.declarations.isEmpty then [] else "\n" ++ importLine f.engine

/-- The declarations, each after a blank line. -/
def body (f : SourceFile) : Text := f.declarations.flatMap fun d => Text.ofString "\n" ++ d.text

/-- The package with what it declares on its own, which only a file without an import can have. -/
def packageText? (f : SourceFile) : Option Text :=
  match PackageClause.read? f.package with
  | some clause => some clause.text
  | none =>
    if f.declarations.isEmpty then (DeclaringPackage.read? f.package).map DeclaringPackage.text else none

/-- The text of the file. It is refused if a header has no comment (`headerComment?`), or if the package is neither a
clause nor, in a file without declarations, followed by plain declarations (`DeclaringPackage.read?`). -/
def text? (f : SourceFile) : Option Text := do
  let top ← f.top?
  let package ← f.packageText?
  return top ++ "\n" ++ package ++ "\n" ++ f.imports ++ f.body

end SourceFile

/-- The function that the file of tests declares. -/
def testFunction : Text := "TestPatterns"

/-- A row of the table of tests. -/
def testRow (e : Entry) : Text :=
  "\x7b" ++ e.name.quoted ++ ", " ++ e.ident ++ ", " ++ e.constant ++ "\x7d"

/-- The import and the function of the file of tests. -/
def testBody (es : List Entry) : Text :=
  "import \"testing\"\n\n" ++
    "func " ++ testFunction ++ "(t *testing.T) \x7b\n" ++
    "\ttests := []struct \x7b\n" ++
    "\t\tname string\n" ++
    "\t\tre   interface \x7b\n" ++
    "\t\t\tString() string\n" ++
    "\t\t\x7d\n" ++
    "\t\twant string\n" ++
    "\t\x7d\x7b" ++ Text.join ", " (es.map testRow) ++ "\x7d\n\n" ++
    "\tfor _, tt := range tests \x7b\n" ++
    "\t\tif got := tt.re.String(); got != tt.want \x7b\n" ++
    "\t\t\tt.Errorf(\"%s.String() = %q, want %q\", tt.name, got, tt.want)\n" ++
    "\t\t\x7d\n" ++
    "\t\x7d\n" ++
    "\x7d\n"

/-- The text of the file of tests. It is refused if the header has no comment, or if the package is not a clause: the
file has an import. -/
def testText? (header package : Text) (es : List Entry) : Option Text := do
  let top ← headerComment? header
  let clause ← PackageClause.read? package
  return top ++ "\n\n" ++ clause.text ++ "\n\n" ++ testBody es

/-- What makes the texts of generated files and lays them out. -/
structure Printer where
  /-- The text of the main file, unless it is refused. -/
  main : SourceFile → Option Text
  /-- The text of the file of tests, unless it is refused. -/
  tests : (header package : Text) → List Entry → Option Text
  /-- A text in its layout, unless it is refused. -/
  format : Text → Option Text

/-- The printer of this module. It refuses more than a printer has to: packages that are neither a clause nor followed
by plain declarations, and headers of several lines with the end of a comment in them. -/
def Printer.standard : Printer := ⟨SourceFile.text?, testText?, some⟩

end Generate
end RegexBuilder
