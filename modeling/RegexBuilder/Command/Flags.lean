/-
# Flags of the command

Arguments of the form `-name`, `-name=value` and `-name value`, with one or two dashes. Switches
take a value only behind `=`. Flags end at the first argument that is none, or after `--`.

| flag | value | meaning |
| --- | --- | --- |
| `-in`, `-out` | path | the description and the generated file |
| `-pkg`, `-engine` | name | the package and the engine of the generated code |
| `-def` | name | a definition that is wanted; may be repeated |
| `-test`, `-print`, `-v`, `-help`, `-version` | switch | what else to do |
-/

import RegexBuilder.Text.Quoted

namespace RegexBuilder
namespace Command

/-- The flags that have a text as their value. -/
inductive TextFlag where
  | definition | engine | input | output | package
deriving DecidableEq, Repr

/-- The flags that are on or off. -/
inductive Switch where
  | help | print | test | verbose | version
deriving DecidableEq, Repr

namespace TextFlag

/-- All of them. -/
def all : List TextFlag := [definition, engine, input, output, package]

/-- The name of the flag. -/
def name : TextFlag → Text
  | definition => "def"
  | engine => "engine"
  | input => "in"
  | output => "out"
  | package => "pkg"

end TextFlag

namespace Switch

/-- All of them. -/
def all : List Switch := [help, print, test, verbose, version]

/-- The name of the switch. -/
def name : Switch → Text
  | help => "help"
  | print => "print"
  | test => "test"
  | verbose => "v"
  | version => "version"

end Switch

/-- The values of all flags. -/
structure Flags where
  definitions : List Text
  engine : Text
  input : Text
  output : Text
  package : Text
  /-- The switches that are on. -/
  on : List Switch
deriving DecidableEq, Repr

/-- Why the arguments have no flags. -/
inductive FlagError where
  /-- The list of flags is asked for. -/
  | usage
  | undefined (name : Text)
  | noValue (name : Text)
  | malformed (arg : Text)
  | notBoolean (value name : Text)
deriving DecidableEq, Repr

/-- The message for the error; there is none if the list is asked for. -/
def FlagError.message : FlagError → Text
  | usage => []
  | undefined name => "flag provided but not defined: -" ++ name ++ "\n"
  | noValue name => "flag needs an argument: -" ++ name ++ "\n"
  | malformed arg => "bad flag syntax: " ++ arg ++ "\n"
  | notBoolean value name =>
    "invalid boolean value " ++ value.quoted ++ " for -" ++ name ++ ": parse error\n"

/-- An argument by its form. -/
inductive Argument where
  /-- No flag, or the mark that ends the flags. -/
  | last
  | malformed
  | flag (name : Text) (value : Option Text)
deriving DecidableEq, Repr

/-- The flag in an argument without its dashes. -/
def Argument.ofName (t : Text) : Argument :=
  match t with
  | [] => .malformed
  | g :: rest =>
    if g = '-' ∨ g = '=' then .malformed
    else .flag (g :: (Text.cut '=' rest).1) (Text.cut '=' rest).2

/-- The form of an argument. -/
def Argument.ofText : Text → Argument
  | .char '-' :: .char '-' :: [] => .last
  | .char '-' :: .char '-' :: rest => .ofName rest
  | .char '-' :: g :: rest => .ofName (g :: rest)
  | _ => .last

/-- The value of a switch. -/
def boolean? (t : Text) : Option Bool :=
  if t ∈ ["1", "t", "T", "true", "TRUE", "True"].map Text.ofString then some true
  else if t ∈ ["0", "f", "F", "false", "FALSE", "False"].map Text.ofString then some false
  else none

namespace Flags

/-- The flags before any argument. -/
def start : Flags := ⟨[], "regexp2", [], [], [], []⟩

/-- The flags with the flag `f` set to the text `v`; definitions are collected. -/
def set (fs : Flags) (f : TextFlag) (v : Text) : Flags :=
  match f with
  | .definition => { fs with definitions := fs.definitions ++ [v] }
  | .engine => { fs with engine := v }
  | .input => { fs with input := v }
  | .output => { fs with output := v }
  | .package => { fs with package := v }

/-- The flags with the switch `s` on or off. -/
def turn (fs : Flags) (s : Switch) (value : Bool) : Flags :=
  { fs with on := if value then s :: fs.on else fs.on.filter (· ≠ s) }

/-- The switch is on. -/
def isOn (fs : Flags) (s : Switch) : Bool := fs.on.contains s

/-- The definitions that are wanted, as one text. -/
def shownDefinitions (fs : Flags) : Text := Text.join ", " fs.definitions

/-- The flags of the arguments, beginning with `fs`. -/
def parse : (fs : Flags) → (args : List Text) → Except FlagError Flags
  | fs, [] => .ok fs
  | fs, arg :: rest =>
    match Argument.ofText arg with
    | .last => .ok fs
    | .malformed => .error (.malformed arg)
    | .flag name value =>
      match TextFlag.all.find? (·.name = name), Switch.all.find? (·.name = name) with
      | some f, _ =>
        match value, rest with
        | some v, rest => parse (fs.set f v) rest
        | none, v :: rest => parse (fs.set f v) rest
        | none, [] => .error (.noValue name)
      | none, some s =>
        match value with
        | none => parse (fs.turn s true) rest
        | some v =>
          match boolean? v with
          | some b => parse (fs.turn s b) rest
          | none => .error (.notBoolean v name)
      | none, none => .error (if name = ("h" : Text) then .usage else .undefined name)

end Flags
end Command
end RegexBuilder
