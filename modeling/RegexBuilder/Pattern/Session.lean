/-
# Sessions

One call of a question about a pattern is a session. It keeps the text written so far, whether a
subtraction was written, and one table per question with the answers found so far. The nodes whose
questions are still open are not part of the session but of the place from which one asks (`Open`).

The text that is kept for a node is what stands in the output from the place where the node's turn
began up to the end. Writing a digit may put a group around an escape before it
(`Session.separateEscape`), and that can move text across this place.
-/

import RegexBuilder.Pattern.Rule

namespace RegexBuilder

/-- Answers that were found, by node. -/
abbrev Memo (α : Type) := List (NodeId × α)

/-- What a session knows. -/
structure Session where
  out : Text := []
  subtraction : Bool := false
  texts : Memo Text := []
  cores : Memo Ref := []
  empties : Memo Bool := []
  singles : Memo Bool := []

namespace Session

/-- Appends to the text. -/
def write (t : Text) (s : Session) : Session := { s with out := s.out ++ t }

/-- The number of backslashes at the end of the text. -/
def backslashes (t : Text) : Nat := (t.reverse.takeWhile (· = .char '\\')).length

/-- Keeps a digit at the place `at_` from being read as part of an escape such as `\1` that ends
there: the escape is put into a group, `(?:\1)`. -/
def separate (at_ : Nat) (t : Text) : Text :=
  match (t.take at_).reverse, t.drop at_ with
  | d :: '\\' :: before, e :: _ =>
    if d.isDigit && e.isDigit && backslashes before.reverse % 2 = 0 then
      before.reverse ++ "(?:\\" ++ [d] ++ ")" ++ t.drop at_
    else t
  | _, _ => t

/-- `separate` on the text of the session. -/
def separateEscape (at_ : Nat) (s : Session) : Session := { s with out := separate at_ s.out }

/-- The answers to `q` that were found so far. -/
def kept : (q : Question) → Session → Memo q.Answer
  | .text, s => s.texts
  | .core, s => s.cores
  | .empty, s => s.empties
  | .single, s => s.singles

/-- Keeps the answer to `q` about node `i`. -/
def keep : (q : Question) → NodeId → q.Answer → Session → Session
  | .text, i, a, s => { s with texts := (i, a) :: s.texts }
  | .core, i, a, s => { s with cores := (i, a) :: s.cores }
  | .empty, i, a, s => { s with empties := (i, a) :: s.empties }
  | .single, i, a, s => { s with singles := (i, a) :: s.singles }

end Session

/-- The nodes for which each question is open, outermost first. -/
abbrev Open := Question → List NodeId

namespace Open

/-- No question is open. -/
def none : Open := fun _ => []

/-- The question `q` about `i` is now open, too. -/
def enter (o : Open) (q : Question) (i : NodeId) : Open :=
  fun p => if p = q then o p ++ [i] else o p

end Open

/-- A computation in a session. -/
abbrev Ask := StateT Session (Except Failure)

/-- A way to answer questions. -/
abbrev Asking := (q : Question) → Ref → Ask q.Answer

namespace Rule

/-- Runs a rule of a node whose text begins at `base`. -/
def run {α : Type} (asking : Asking) (base : Nat) : Rule α → Ask α
  | done a => return a
  | objection i why => throw (.invalid i why)
  | fault f => throw (.broken f)
  | output t next => do
    modify (Session.write t)
    next.run asking base
  | reading next => do (next ((← get).out.drop base)).run asking base
  | separation place next => do
    modify (Session.separateEscape (base + place))
    next.run asking base
  | subtraction next => do
    modify fun s => { s with subtraction := true }
    next.run asking base
  | question q r next => do
    let a ← asking q r
    (next a).run asking base

/-- Runs a rule of a node whose turn it is. -/
def start {α : Type} (p : Rule α) (asking : Asking) : Ask α := do
  p.run asking (← get).out.length

section

variable {α : Type} (asking : Asking) (base : Nat) (s : Session)

@[simp] theorem run_done (a : α) : (done a).run asking base s = .ok (a, s) := rfl

@[simp] theorem run_objection (i : NodeId) (why : Objection) :
    (objection i why : Rule α).run asking base s = .error (.invalid i why) := rfl

@[simp] theorem run_fault (f : Fault) :
    (fault f : Rule α).run asking base s = .error (.broken f) := rfl

@[simp] theorem run_output (t : Text) (next : Rule α) :
    (output t next).run asking base s = next.run asking base (s.write t) := rfl

/-- A rule reads its own text only. -/
@[simp] theorem run_reading (next : Text → Rule α) :
    (reading next).run asking base s = (next (s.out.drop base)).run asking base s := rfl

@[simp] theorem run_separation (place : Nat) (next : Rule α) :
    (separation place next).run asking base s =
      next.run asking base (s.separateEscape (base + place)) := rfl

@[simp] theorem run_subtraction (next : Rule α) :
    (subtraction next).run asking base s =
      next.run asking base { s with subtraction := true } := rfl

/-- A rule goes on with the answer to its question. -/
@[simp] theorem run_question (q : Question) (r : Ref) (next : q.Answer → Rule α) :
    (question q r next).run asking base s =
      asking q r s >>= fun x => (next x.1).run asking base x.2 := rfl

/-- The text of a rule begins where the output ends. -/
@[simp] theorem start_apply (p : Rule α) : p.start asking s = p.run asking s.out.length s := rfl

end

end Rule

/-- Answers the question `q` about node `i`: from the table, if answers are kept (`keep`) and there is one, or by the
node's own `rule`, unless the question about `i` is open already. -/
def visit (keep : Bool) (o : Open) (q : Question) (i : NodeId) (rule : Ask q.Answer) :
    Ask q.Answer := do
  let s ← get
  match if keep then (s.kept q).lookup i else none with
  | some a =>
    modify (Session.write (q.shown a))
    return a
  | none =>
    if i ∈ o q then
      throw (.recursion q.query (o q ++ [i]))
    let a ← rule
    if keep then
      modify (Session.keep q i a)
    return a

section

variable {keep : Bool} {o : Open} {q : Question} {i : NodeId} {rule : Ask q.Answer} {s : Session}

/-- An answer that was kept is shown again. -/
theorem visit_kept {a : q.Answer} (h : (if keep then (s.kept q).lookup i else none) = some a) :
    visit keep o q i rule s = .ok (a, s.write (q.shown a)) := by
  simp only [visit, bind, StateT.bind, get, getThe, MonadStateOf.get, StateT.get, pure, Except.pure,
    Except.bind, h]
  rfl

/-- A question that is open already is not answered. -/
theorem visit_open (h : (if keep then (s.kept q).lookup i else none) = none) (hi : i ∈ o q) :
    visit keep o q i rule s = .error (.recursion q.query (o q ++ [i])) := by
  simp only [visit, bind, StateT.bind, get, getThe, MonadStateOf.get, StateT.get, pure, Except.pure,
    Except.bind, h, if_pos hi]
  rfl

/-- Any other question is answered by the rule. -/
theorem visit_new (h : (if keep then (s.kept q).lookup i else none) = none) (hi : i ∉ o q) :
    visit keep o q i rule s =
      rule s >>= fun x => .ok (x.1, if keep then x.2.keep q i x.1 else x.2) := by
  simp only [visit, bind, StateT.bind, get, getThe, MonadStateOf.get, StateT.get, pure, Except.pure,
    Except.bind, h, if_neg hi]
  cases keep <;> rfl

end

end RegexBuilder
