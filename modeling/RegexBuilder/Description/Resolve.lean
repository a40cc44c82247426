/-
# From a description to patterns

Each definition becomes a group of one graph, and a reference to a definition is a reference to its
group. The groups are there before any expression is looked at, so definitions may refer to each
other in any order; one that refers to itself gives a cyclic pattern.
-/

import RegexBuilder.Description.Parser
import RegexBuilder.Pattern.NumericRange

namespace RegexBuilder
namespace Description

/-- A part of a term that is taken without a look whether it is there. -/
inductive Gap where
  /-- A count without a mark has no first bound. -/
  | bound
  /-- A reference without a name has no number. -/
  | number
  /-- An entry of a set has no text. -/
  | text
  /-- A class in a set is not one that can be a member of a set. -/
  | member
deriving DecidableEq, Repr

/-- Why a term has no pattern. A fault is no report: nothing says what is wrong with the term. -/
inductive TermProblem where
  | argument (e : ArgumentError)
  | numeric (e : NumericError)
  | notSingle (text : Text)
  | invertedQuantifier (min max : Nat)
  | cannotBeNamed (which : GroupWord)
  | unknownPattern (name : Text)
  | fault (gap : Gap)
deriving DecidableEq, Repr

/-- The message for the problem. -/
def TermProblem.message : TermProblem → Text
  | argument e => e.message
  | numeric e => e.message
  | notSingle text => text.quoted ++ " is not a single character"
  | invertedQuantifier min max =>
    "quantifier \x7b" ++ Text.ofNat min ++ "," ++ Text.ofNat max ++ "\x7d is inverted"
  | cannotBeNamed which => which.spelling ++ " cannot be named"
  | unknownPattern name => "unknown pattern " ++ name.quoted
  | fault _ => []

/-- Why a description has no patterns. -/
inductive LoadError where
  | badSyntax (e : SyntaxError)
  | keyword (pos : Position) (name : Text)
  | definedTwice (pos : Position) (name : Text)
  | badTerm (definition : Text) (pos : Position) (problem : TermProblem)
  | fault (gap : Gap)
deriving DecidableEq, Repr

/-- The message for the error. -/
def LoadError.message : LoadError → Text
  | badSyntax e => e.message
  | keyword pos name => pos.shown ++ ": " ++ name.quoted ++ " is a keyword"
  | definedTwice pos name => pos.shown ++ ": pattern " ++ name.quoted ++ " defined twice"
  | badTerm definition pos problem =>
    "pattern " ++ definition ++ ": " ++ pos.shown ++ ": " ++ problem.message
  | fault _ => []

/-- The error for a problem at a term of a definition. A fault passes through everything. -/
def LoadError.ofTerm (definition : Text) : Position × TermProblem → LoadError
  | (_, .fault gap) => .fault gap
  | (pos, problem) => .badTerm definition pos problem

/-- A problem and the place of its term. -/
abbrev Placed (α : Type) := Except (Position × TermProblem) α

/-- The result, or the problem at the place `pos`. -/
def locate {α : Type} (pos : Position) (r : Except TermProblem α) : Placed α :=
  r.mapError fun e => (pos, e)

/-- The result, or the refused argument as a problem. -/
def ofArgument {α : Type} (r : Except ArgumentError α) : Except TermProblem α :=
  r.mapError .argument

/-- The part, which is taken to be there. -/
def take {α : Type} (gap : Gap) : Option α → Except TermProblem α
  | some a => .ok a
  | none => .error (.fault gap)

/-- The number of the only character of a text. -/
def oneChar (t : Text) : Except TermProblem Int32 :=
  match t with
  | [g] => .ok g.code
  | _ => .error (.notSingle t)

/-- The class that a word names; `any` names none. -/
def ClassWord.kind? : ClassWord → Option ClassKind
  | digit => some .digit
  | notdigit => some .notDigit
  | word => some .word
  | notword => some .notWord
  | space => some .space
  | notspace => some .notSpace
  | any => none

/-- The leaf that a class word names. -/
def ClassWord.leaf (w : ClassWord) : Leaf :=
  match w.kind? with
  | some kind => .charClass { kind := kind }
  | none => .wildcard

/-- The anchor that a word or mark names. -/
def AnchorWord.kind : AnchorWord → AnchorKind
  | caret => .lineStart
  | dollar => .lineEnd
  | start => .textStart
  | stop => .textEnd
  | eol => .textEndOrNewline
  | contiguous => .contiguous
  | boundary => .wordBoundary
  | notboundary => .notWordBoundary

/-- The policy that a word names; without a word there are no zeros. -/
def zerosPadding : Option ZerosWord → Padding
  | none | some .none => .none
  | some .optional => .optional
  | some .required => .required

/-- The leaf of a word and its string. -/
def LeafWord.leaf (w : LeafWord) (arg : Text) : Except TermProblem Leaf :=
  match w with
  | char => (oneChar arg).map fun c => .character (.plain c)
  | raw => .ok (.raw arg)
  | category => ofArgument ((CharClass.inCategory arg).map .charClass)
  | notcategory => ofArgument ((CharClass.notInCategory arg).map .charClass)
  | hex => ofArgument ((Character.hex arg).map .character)
  | octal => ofArgument ((Character.octal arg).map .character)
  | unicode => ofArgument ((Character.unicode arg).map .character)
  | control => do
    let c ← oneChar arg
    ofArgument ((Character.control c).map .character)
  | comment => ofArgument (Leaf.checkedComment arg)

/-- The enclosure of a word and its names. Only captures have names. -/
def GroupWord.enclosure (w : GroupWord) (label : Option GroupLabel) :
    Except TermProblem Enclosure :=
  match w, label with
  | capture, none => .ok .capture
  | capture, some l =>
    ofArgument (if l.other = [] then Enclosure.checkedNamed l.name
      else Enclosure.checkedBalancing l.name l.other)
  | w, some _ => .error (.cannotBeNamed w)
  | atomic, none => .ok .atomic
  | ahead, none => .ok (.look .ahead)
  | notahead, none => .ok (.look .notAhead)
  | behind, none => .ok (.look .behind)
  | notbehind, none => .ok (.look .notBehind)

/-- A plain character as an element of a set. -/
def plainElement (n : Int32) : Element := .fresh (.character (.plain n))

/-- What an entry adds to the ranges and to the members of a set. A class comes before a category, and that before
texts. -/
def SetItem.elements (i : SetItem) : Except TermProblem (List (Range Element) × List Element) :=
  match i.className, i.categoryName, i.last with
  | some which, _, _ => do
    let kind ← take .member which.kind?
    return ([], [.fresh (.charClass { kind := kind })])
  | none, some name, _ => do
    let c ← ofArgument (CharClass.inCategory name)
    return ([], [.fresh (.charClass c)])
  | none, none, some last => do
    let first ← take .text i.first
    let a ← oneChar first
    let b ← oneChar last
    let _ ← ofArgument (Range.ofCharacters (.plain a) (.plain b))
    return ([⟨plainElement a, plainElement b⟩], [])
  | none, none, none => do
    let text ← take .text i.first
    return ([], text.map fun g => plainElement g.code)

/-- The ranges and the members of the entries of a set. -/
def itemElements : List PlacedItem → Placed (List (Range Element) × List Element)
  | [] => .ok ([], [])
  | i :: rest => do
    let (ranges, members) ← locate i.pos i.item.elements
    let (moreRanges, moreMembers) ← itemElements rest
    return (ranges ++ moreRanges, members ++ moreMembers)

/-- The tree of a set. -/
def SetExpr.tree (s : SetExpr) : Placed Tree := do
  let (ranges, members) ← itemElements s.items
  let (subtractedRanges, subtractedMembers) ← itemElements s.except
  return .set ⟨ranges, members, subtractedRanges, subtractedMembers, s.negated⟩

/-- The options that are turned on and off by letters such as `i-m`. -/
def optionSets (flags : Text) : Except TermProblem (Options × Options) := do
  let (on, off) := Text.cut '-' flags
  let on ← ofArgument (Options.ofLetters on)
  let off ← ofArgument (Options.ofLetters (off.getD []))
  return (on, off)

/-- The bounds of a quantifier. A mark comes before bounds, and a second bound without a comma before it does not
count. -/
def Quantifier.bounds (q : Quantifier) : Except TermProblem Bounds :=
  match q.count.mark with
  | some .star => .ok ⟨0, unbounded, !q.isLazy⟩
  | some .plus => .ok ⟨1, unbounded, !q.isLazy⟩
  | some .optional => .ok ⟨0, 1, !q.isLazy⟩
  | none => do
    let min ← take .bound q.count.min
    match q.count.comma, q.count.max with
    | false, _ => .ok ⟨min, min, !q.isLazy⟩
    | true, none => .ok ⟨min, unbounded, !q.isLazy⟩
    | true, some max =>
      if max < min then .error (.invertedQuantifier min max) else .ok ⟨min, max, !q.isLazy⟩

/-- The condition on a group. A name comes before a number. -/
def GroupRef.condition (x : GroupRef) : Except TermProblem Condition :=
  match x.name with
  | some name => ofArgument (Condition.checkedName name)
  | none => do
    let n ← take .number x.number
    return { kind := .groupNumber, group := n }

/-- The backreference to a group. A name comes before a number. -/
def GroupRef.backreference (x : GroupRef) : Except TermProblem Leaf :=
  match x.name with
  | some name => ofArgument (Leaf.namedBackreference name)
  | none => do
    let n ← take .number x.number
    return .backreference (.numbered n)

/-- One tree stands for itself. -/
def collapse (combine : List Tree → Tree) : List Tree → Tree
  | [t] => t
  | ts => combine ts

/-- The tree of an expression from the trees of its sequences. -/
def choice (branches : Placed (List Tree)) : Placed Tree := branches.map (collapse .alternation)

mutual

/-- The tree of an atom at `pos`; `nodes` gives the groups of the definitions. -/
def Atom.tree (nodes : Text → Option NodeId) (pos : Position) : Atom → Placed Tree
  | .literal text => .ok (.literal text)
  | .parens body => do return .group (← choice (sequenceTrees nodes body))
  | .set s => s.tree
  | .range min max zeros =>
    locate pos ((numericRange min.toInt max.toInt (zerosPadding zeros)).mapError .numeric)
  | .group which label body => do
    let body ← choice (sequenceTrees nodes body)
    let how ← locate pos (which.enclosure label)
    return .enclosed how body
  | .leaf which arg => do return .leaf (← locate pos (which.leaf arg))
  | .backref group => do return .leaf (← locate pos group.backreference)
  | .cond test yes none => do
    let yes ← choice (sequenceTrees nodes yes)
    let c ← locate pos test.condition
    return .conditional c .absent yes .absent
  | .cond test yes (some no) => do
    let yes ← choice (sequenceTrees nodes yes)
    let no ← choice (sequenceTrees nodes no)
    let c ← locate pos test.condition
    return .conditional c .absent yes no
  | .modify flags body => do
    let (on, off) ← locate pos (optionSets flags)
    let body ← choice (sequenceTrees nodes body)
    return .modified on off body
  | .cls which => .ok (.leaf which.leaf)
  | .anchor which => .ok (.leaf (.anchor which.kind))
  | .ref name =>
    match nodes name with
    | some i => .ok (.existing (some i))
    | none => .error (pos, .unknownPattern name)

/-- The tree of a term. -/
def Term.tree (nodes : Text → Option NodeId) : Term → Placed Tree
  | .mk pos a q => do
    let t ← a.tree nodes pos
    match q with
    | none => return t
    | some q => return .quantified (← locate pos q.bounds) t

/-- The trees of terms. -/
def termTrees (nodes : Text → Option NodeId) : List Term → Placed (List Tree)
  | [] => .ok []
  | t :: rest => do
    let tree ← t.tree nodes
    let trees ← termTrees nodes rest
    return tree :: trees

/-- The trees of sequences. -/
def sequenceTrees (nodes : Text → Option NodeId) : List (List Term) → Placed (List Tree)
  | [] => .ok []
  | s :: rest => do
    let terms ← termTrees nodes s
    let trees ← sequenceTrees nodes rest
    return collapse .concat terms :: trees

end

/-- The tree of an expression. -/
def exprTree (nodes : Text → Option NodeId) (e : List (List Term)) : Placed Tree :=
  choice (sequenceTrees nodes e)

/-- A definition with the group that stands for it. -/
structure NamedPattern where
  name : Text
  pos : Position
  node : NodeId
deriving DecidableEq, Repr

/-- Patterns with names in one graph. -/
structure Library where
  graph : Graph
  patterns : List NamedPattern

/-- Refuses keywords and names that are defined twice. -/
def checkNames : (seen : List Text) → List Definition → Except LoadError Unit
  | _, [] => .ok ()
  | seen, d :: rest =>
    if d.name ∈ keywords then .error (.keyword d.pos d.name)
    else if d.name ∈ seen then .error (.definedTwice d.pos d.name)
    else checkNames (d.name :: seen) rest

/-- The group of the definition called `name`: the definitions are numbered in order. -/
def nodeOf (ds : List Definition) (name : Text) : Option NodeId :=
  ds.findIdx? fun d => d.name = name

/-- The trees of the definitions' expressions. -/
def definitionTrees (nodes : Text → Option NodeId) : List Definition → Except LoadError (List Tree)
  | [] => .ok []
  | d :: rest => do
    let t ← (exprTree nodes d.expr).mapError (.ofTerm d.name)
    let ts ← definitionTrees nodes rest
    return t :: ts

/-- Plants the trees as the children of the groups from number `i` on. -/
def plantChildren : (i : NodeId) → List Tree → Planting Unit
  | _, [] => return ()
  | i, t :: rest => do
    let child ← t.plant
    modify fun g => g.put i (.group child)
    plantChildren (i + 1) rest

/-- The definitions with their groups, numbered from `i` on. -/
def namedFrom : (i : NodeId) → List Definition → List NamedPattern
  | _, [] => []
  | i, d :: rest => ⟨d.name, d.pos, i⟩ :: namedFrom (i + 1) rest

/-- The patterns of the definitions, in order. -/
def resolve (ds : List Definition) : Except LoadError Library := do
  checkNames [] ds
  let trees ← definitionTrees (nodeOf ds) ds
  let empty : Graph := ⟨Array.replicate ds.length (.group none)⟩
  return ⟨((plantChildren 0 trees).run empty).2, namedFrom 0 ds⟩

/-- The patterns of a description. -/
def load (file src : Text) : Except LoadError Library := do
  let ds ← (parse file src).mapError .badSyntax
  resolve ds

end Description
end RegexBuilder
