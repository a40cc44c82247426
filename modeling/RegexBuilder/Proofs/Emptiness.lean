/-
# Emptiness and cores in the flattened tree

A pattern without cycles is empty exactly if it is flattened to nothing (`Graph.empty_eq`), and it is flattened as
what it comes down to (`Graph.core_eq`). The two are shown together, because quantifiers and sequences ask for the one
to tell the other.
-/

import RegexBuilder.Proofs.Flattened
import RegexBuilder.Proofs.Neat

namespace RegexBuilder

open List Node
open Shape (isNothing one)

/-! ### What a rule yields -/

namespace Rule

/-- If the rule answers, its answer and draft satisfy `Q`. -/
def Yields {α : Type} (A : Oracle) (Q : α → Draft → Prop) (p : Rule α) (dr : Draft) : Prop :=
  ∀ a dr', p.eval A dr = .ok (a, dr') → Q a dr'

namespace Yields

variable {α β : Type} {A : Oracle} {Q : α → Draft → Prop} {R : β → Draft → Prop} {dr : Draft}

theorem done {a : α} (h : Q a dr) : (Rule.done a).Yields A Q dr := by
  intro a' dr' h'
  cases h'
  exact h

/-- What follows a rule starts from what that yields. -/
theorem bind {p : Rule α} {k : α → Rule β} (h : p.Yields A Q dr)
    (hk : ∀ a dr', Q a dr' → (k a).Yields A R dr') : (p >>= k).Yields A R dr := by
  intro b dr' hb
  rw [eval_bind] at hb
  obtain ⟨⟨a, dr₁⟩, ha, hb⟩ := bind_eq_ok.1 hb
  exact hk a dr₁ (h a dr₁ ha) b dr' hb

theorem mono {p : Rule α} {Q' : α → Draft → Prop} (h : p.Yields A Q dr)
    (hQ : ∀ a dr', Q a dr' → Q' a dr') : p.Yields A Q' dr := fun a dr' ha => hQ a dr' (h a dr' ha)

theorem question {q : Question} {r : Ref} {next : q.Answer → Rule α}
    (h : ∀ x, A q r = .ok x → (next x.1).Yields A Q (dr.answered x)) : (Rule.question q r next).Yields A Q dr := by
  intro a dr' ha
  obtain ⟨x, hx, ha⟩ := bind_eq_ok.1 ha
  exact h x hx a dr' ha

theorem objection {i : NodeId} {why : Objection} : (Rule.objection i why).Yields A Q dr :=
  fun _ _ h => (nomatch h)

theorem fault {f : Fault} : (Rule.fault f).Yields A Q dr := fun _ _ h => (nomatch h)

end Yields
end Rule

namespace Graph

variable {g : Graph}

variable {i : NodeId} {n : Node} {e : Nat} {fl : Bool}

/-- The pattern comes down to itself. -/
def IsCore (g : Graph) (r : Ref) : Prop := ∃ e fl, g.meaning e .core r = .ok (r, fl)

/-- A suffix behind the pattern would bind to all of it. -/
def IsSingle (g : Graph) (r : Ref) : Prop := ∃ e fl, g.meaning e .single r = .ok (true, fl)

/-- What lies below a node does not come down to the node, unless there is a cycle. -/
theorem hasCycleFrom_of_core (hn : g.node? i = some n) {r : Ref} (hr : g.Below i r)
    (h : g.meaning e .core r = .ok (some i, fl)) : g.HasCycleFrom (some i) := by
  have hdown : g.Down r (some i) := sound_of_meaning_eq_ok e .core r _ h
  obtain ⟨k, m, rfl, hm, hki⟩ := hdown i n rfl hn
  exact ⟨i, ⟨i, rfl, .refl⟩, (hr k m rfl hm).trans_left hki⟩

/-- Below a node without cycles there are none. -/
theorem not_hasCycleFrom_of_mem_refs (hn : g.node? i = some n) (hi : ¬ g.HasCycleFrom (some i)) :
    ∀ r ∈ n.refs, ¬ g.HasCycleFrom r := fun _ hr hcycle =>
  hi (hcycle.of_below (below_of_mem_refs hn hr))

end Graph

/-! ### Nothing -/

namespace Shape

theorem isNothing_singleton (s : List Shape) : isNothing [s] = s.isEmpty := by
  cases s <;> rfl

theorem isNothing_of_length {bs : List (List Shape)} (h : 2 ≤ bs.length) : isNothing bs = false := by
  unfold isNothing
  split
  · exact absurd h (by decide)
  · rfl

/-- A sequence of parts of which none is nothing is nothing only without parts. -/
theorem isNothing_sequence {xs : List (List (List Shape))} (h : ∀ x ∈ xs, isNothing x = false) :
    isNothing (sequence xs) = xs.isEmpty := by
  match xs, h with
  | [], _ => rfl
  | [x], h => exact h x (mem_singleton.2 rfl)
  | x :: y :: xs, h =>
    have hx : parts x ≠ [] := by
      intro hx
      have := h x mem_cons_self
      rw [parts_eq_nil_iff.1 hx] at this
      cases this
    show isNothing [(x :: y :: xs).flatMap parts] = false
    rw [isNothing_singleton, flatMap_cons, isEmpty_eq_false_iff]
    exact append_ne_nil_of_left_ne_nil hx _

theorem sequence_ne_nil {xs : List (List (List Shape))} (h : ∀ x ∈ xs, x ≠ []) : sequence xs ≠ [] := by
  unfold sequence
  split
  · exact h _ (mem_singleton.2 rfl)
  · exact cons_ne_nil _ _

end Shape

theorem Leaf.isEmpty_atoms (l : Leaf) : l.atoms.isEmpty = l.isEmpty := by
  cases l with
  | literal t | raw t | comment t => cases t <;> rfl
  | character | charClass | wildcard | anchor | backreference => rfl

/-- A flattened node has a branch. -/
theorem Node.flat_ne_nil {g : Graph} {F : Ref → List (List Shape)} (hF : ∀ r, F r ≠ []) (n : Node) :
    n.flat g F ≠ [] := by
  cases n with
  | leaf => exact cons_ne_nil _ _
  | set =>
    rw [flat]
    split
    · split <;> exact cons_ne_nil _ _
    · exact cons_ne_nil _ _
  | concat =>
    refine Shape.sequence_ne_nil fun x hx => ?_
    obtain ⟨c, -, rfl⟩ := mem_map.1 (mem_filter.1 hx).1
    exact hF c
  | alternation cs =>
    cases cs with
    | nil => exact cons_ne_nil _ _
    | cons c cs => exact append_ne_nil_of_left_ne_nil (hF c) _
  | quantified b c =>
    rw [flat]
    split_ifs
    · exact cons_ne_nil _ _
    · exact hF c
    · exact cons_ne_nil _ _
  | group c => exact hF c
  | enclosed | conditional =>
    rw [flat]
    split_ifs <;> exact cons_ne_nil _ _
  | modified on off c =>
    rw [flat]
    split_ifs
    · exact cons_ne_nil _ _
    · exact cons_ne_nil _ _
    · exact cons_ne_nil _ _
    · exact hF c
    · exact cons_ne_nil _ _

namespace Node

variable {g : Graph} {F : Ref → List (List Shape)}

/-- A leaf is flattened to nothing if it is empty. -/
theorem isNothing_leaf (l : Leaf) : isNothing ((leaf l).flat g F) = l.isEmpty := by
  rw [flat, Shape.isNothing_singleton, isEmpty_map, Leaf.isEmpty_atoms]

/-- A set without elements is flattened to nothing. -/
theorem isNothing_set (s : CharacterSet Ref) : isNothing ((set s).flat g F) = (!s.hasBase && !s.hasSubtraction) := by
  rw [flat, ← Bool.not_or]
  cases s.hasBase || s.hasSubtraction with
  | false => rfl
  | true => cases s.atom g <;> rfl

/-- No times, or nothing any number of times, is nothing. -/
theorem isNothing_quantified (b : Bounds) (c : Ref) :
    isNothing ((quantified b c).flat g F) = (b.max = 0 || isNothing (F c)) := by
  rw [flat]
  split
  · next h => exact h.symm
  · next h =>
    have hfilled : isNothing (F c) = false := by
      rw [Bool.not_eq_true, Bool.or_eq_false_iff] at h
      exact h.2
    rw [Bool.eq_false_iff.2 h]
    split
    · exact hfilled
    · rfl

theorem isNothing_enclosed (how : Enclosure) (c : Ref) :
    isNothing ((enclosed how c).flat g F) = (isNothing (F c) && !how.isNegative) := by
  rw [flat]
  cases isNothing (F c) && !how.isNegative <;> rfl

theorem isNothing_conditional (t : Condition) (e yes no : Ref) :
    isNothing ((conditional t e yes no).flat g F) = (isNothing (F yes) && isNothing (F no)) := by
  rw [flat]
  cases isNothing (F yes) && isNothing (F no) <;> rfl

theorem isNothing_modified (on off : Options) (c : Ref) :
    isNothing ((modified on off c).flat g F) =
      if g.isAbsent c then on = .empty && off = .empty else isNothing (F c) := by
  rw [flat]
  split
  · cases on = .empty && off = .empty <;> rfl
  · cases hfilled : isNothing (F c) with
    | true => rfl
    | false =>
      rw [if_neg Bool.false_ne_true]
      split
      · exact hfilled
      · rfl

end Node

theorem Graph.flattenTo_ne_nil (g : Graph) : ∀ (d : Nat) (r : Ref), g.flattenTo d r ≠ []
  | 0, _ => cons_ne_nil _ _
  | d + 1, r => by
    rw [flattenTo]
    split
    · exact cons_ne_nil _ _
    · exact flat_ne_nil (g.flattenTo_ne_nil d) _

theorem Graph.flattened_ne_nil (g : Graph) (r : Ref) : g.flattened r ≠ [] := g.flattenTo_ne_nil _ r

/-! ### Emptiness and cores -/

/-- The children that are not flattened to nothing. -/
def Graph.filled (g : Graph) (cs : List Ref) : List Ref :=
  cs.filter fun c => !isNothing (g.flattened c)

/-- What the answers say of patterns without cycles: those that are flattened to nothing are empty, and a pattern is
flattened as what it comes down to. -/
structure Oracle.Flattens (g : Graph) (A : Oracle) : Prop where
  empty : ∀ {r x}, ¬ g.HasCycleFrom r → A .empty r = .ok x → x.1 = isNothing (g.flattened r)
  core : ∀ {r x}, ¬ g.HasCycleFrom r → A .core r = .ok x →
    g.flattened x.1 = g.flattened r ∧ ¬ g.HasCycleFrom x.1 ∧ g.IsCore x.1

section

variable {g : Graph} {A : Oracle}

/-- The parts that are not empty are those that are flattened to something. -/
theorem nonEmpty_yields (hA : A.Flattens g) {cs : List Ref} (hcs : ∀ c ∈ cs, ¬ g.HasCycleFrom c) (dr : Draft) :
    (nonEmpty cs).Yields A (fun rs dr' => rs = g.filled cs ∧ dr'.text = dr.text) dr := by
  induction cs generalizing dr with
  | nil => exact .done ⟨rfl, rfl⟩
  | cons c cs ih =>
    refine .question fun x hx => ?_
    have hempty := hA.empty (hcs c mem_cons_self) hx
    refine (ih (fun c' hc' => hcs c' (mem_cons_of_mem _ hc')) (dr.answered x)).bind ?_
    rintro rs dr' ⟨rfl, hdr'⟩
    refine .done ⟨?_, hdr'.trans (dr.text_answered (by decide) x)⟩
    unfold Graph.filled
    rw [hempty, filter_cons]
    cases isNothing (g.flattened c) <;> rfl

theorem Graph.flat_concat (g : Graph) (cs : List Ref) :
    (Node.concat cs).flat g g.flattened = Shape.sequence ((g.filled cs).map g.flattened) := by
  rw [Node.flat, filter_map]
  rfl

theorem Graph.isNothing_of_mem_filled {cs : List Ref} {c : Ref} (h : c ∈ g.filled cs) :
    isNothing (g.flattened c) = false := by
  have := (mem_filter.1 h).2
  rwa [Bool.not_eq_true_eq_eq_false] at this

theorem Graph.isNothing_concat (g : Graph) (cs : List Ref) :
    isNothing ((Node.concat cs).flat g g.flattened) = (g.filled cs).isEmpty := by
  have hfilled : ∀ x ∈ (g.filled cs).map g.flattened, isNothing x = false := by
    intro x hx
    obtain ⟨c, hc, rfl⟩ := mem_map.1 hx
    exact g.isNothing_of_mem_filled hc
  rw [g.flat_concat, Shape.isNothing_sequence hfilled, isEmpty_map]

theorem Graph.two_le_length_alternation (g : Graph) (r r' : Ref) (rest : List Ref) :
    2 ≤ ((Node.alternation (r :: r' :: rest)).flat g g.flattened).length := by
  have h := length_pos_iff.2 (g.flattened_ne_nil r)
  have h' := length_pos_iff.2 (g.flattened_ne_nil r')
  rw [Node.flat, flatMap_cons, flatMap_cons, length_append, length_append]
  omega

/-- Several branches are never nothing. -/
theorem Graph.isNothing_alternation (g : Graph) (r r' : Ref) (rest : List Ref) :
    isNothing ((Node.alternation (r :: r' :: rest)).flat g g.flattened) = false :=
  Shape.isNothing_of_length (g.two_le_length_alternation r r' rest)

namespace Node

variable {i : NodeId} {n : Node}

/-- **A node is empty exactly if it is flattened to nothing.** -/
theorem isEmpty_yields (hA : A.Flattens g) (hn : ∀ r ∈ n.refs, ¬ g.HasCycleFrom r) :
    (n.isEmpty g i).Yields A (fun b _ => b = isNothing (n.flat g g.flattened)) {} := by
  have hask : ∀ {r dr}, ¬ g.HasCycleFrom r →
      (Rule.ask .empty r).Yields A (fun b _ => b = isNothing (g.flattened r)) dr :=
    fun hr => .question fun x hx => .done (hA.empty hr hx)
  cases n with
  | leaf l => exact .done (isNothing_leaf l).symm
  | set s => exact .done (isNothing_set s).symm
  | concat cs =>
    refine (nonEmpty_yields hA hn {}).bind ?_
    rintro rs dr ⟨rfl, -⟩
    exact .done (g.isNothing_concat cs).symm
  | alternation cs =>
    match cs, hn with
    | [], _ => exact .done rfl
    | [r], hn =>
      refine (hask (hn r (mem_singleton.2 rfl))).mono fun b _ hb => ?_
      rw [hb, flat, flatMap_singleton]
    | r :: r' :: rest, _ => exact .done (g.isNothing_alternation r r' rest).symm
  | quantified b c =>
    rw [isNothing_quantified, isEmpty]
    split
    · exact .objection
    · split
      · next hmax => exact .done (by rw [decide_eq_true hmax]; rfl)
      · next hmax =>
        refine .question fun x hx => ?_
        obtain ⟨hu, hcycle, -⟩ := hA.core (hn c (mem_singleton.2 rfl)) hx
        refine (hask hcycle).mono fun a _ ha => ?_
        rw [ha, hu, decide_eq_false hmax, Bool.false_or]
  | group c => exact hask (hn c (mem_singleton.2 rfl))
  | enclosed how c =>
    have hpositive : how.isNegative = false → (Rule.ask .empty c).Yields A
        (fun b _ => b = (isNothing (g.flattened c) && !how.isNegative)) {} := by
      intro hhow
      refine (hask (hn c (mem_singleton.2 rfl))).mono fun b _ hb => ?_
      rw [hb, hhow, Bool.not_false, Bool.and_true]
    rw [isNothing_enclosed]
    cases how with
    | capture | named | balancing | atomic => exact hpositive rfl
    | look =>
      rw [isEmpty]
      split
      · next hkind => exact .done (by rw [Enclosure.isNegative, hkind, Bool.not_true, Bool.and_false])
      · next hkind => exact hpositive (Bool.eq_false_iff.2 hkind)
  | conditional t e yes no =>
    refine .question fun x hx => ?_
    have hyes := hA.empty (hn yes (by simp [refs])) hx
    obtain ⟨b, fl⟩ := x
    rw [isNothing_conditional, ← show b = _ from hyes]
    cases b with
    | true => exact hask (hn no (by simp [refs]))
    | false => exact .done rfl
  | modified on off c =>
    rw [isNothing_modified, isEmpty]
    split
    · exact .done rfl
    · exact hask (hn c (mem_singleton.2 rfl))

/-- The node only holds `r`: it comes down to what `r` comes down to. -/
inductive SeesThrough (g : Graph) : Node → Ref → Prop
  | concat {cs : List Ref} {r : Ref} (h : g.filled cs = [r]) : SeesThrough g (.concat cs) r
  | alternation (r : Ref) : SeesThrough g (.alternation [r]) r
  | once {b : Bounds} (h : b.isOnce = true) (r : Ref) : SeesThrough g (.quantified b r) r
  | group {r : Ref} (h : g.isAbsent r = false) : SeesThrough g (.group r) r

theorem SeesThrough.mem_refs {r : Ref} (h : n.SeesThrough g r) : r ∈ n.refs := by
  cases h with
  | @concat cs r h => exact (mem_filter.1 (h ▸ mem_singleton.2 rfl : r ∈ g.filled cs)).1
  | alternation | once | group => exact mem_singleton.2 rfl

/-- **What only holds a pattern is flattened as that pattern.** -/
theorem SeesThrough.flat_eq {r : Ref} (h : n.SeesThrough g r) : n.flat g g.flattened = g.flattened r := by
  cases h with
  | concat h => rw [g.flat_concat, h, map_singleton, Shape.sequence]
  | alternation => rw [flat, flatMap_singleton]
  | @once b h r =>
    have hmax : b.max ≠ 0 := by
      simp only [Bounds.isOnce, Bool.and_eq_true, decide_eq_true_eq] at h
      omega
    rw [flat, decide_eq_false hmax, Bool.false_or, if_pos h]
    split
    · next hnothing => exact (Shape.isNothing_iff.1 hnothing).symm
    · rfl
  | group => rfl

/-- **What a node comes down to:** itself, or what the pattern that it only holds comes down to. -/
theorem core_yields (hA : A.Flattens g) (hn : ∀ r ∈ n.refs, ¬ g.HasCycleFrom r) :
    (n.core g i).Yields A (fun u _ => (u = some i ∧ ∀ r, ¬ n.SeesThrough g r) ∨
      ∃ r fl, n.SeesThrough g r ∧ A .core r = .ok (u, fl)) {} := by
  have hask : ∀ {r dr}, n.SeesThrough g r →
      (Rule.ask .core r).Yields A (fun u _ => (u = some i ∧ ∀ r, ¬ n.SeesThrough g r) ∨
        ∃ r fl, n.SeesThrough g r ∧ A .core r = .ok (u, fl)) dr := fun {r _} hr =>
    .question fun x hx => .done (.inr ⟨r, x.2, hr, hx⟩)
  have hself : ∀ dr, (∀ r, ¬ n.SeesThrough g r) →
      (pure (some i) : Rule Ref).Yields A (fun u _ => (u = some i ∧ ∀ r, ¬ n.SeesThrough g r) ∨
        ∃ r fl, n.SeesThrough g r ∧ A .core r = .ok (u, fl)) dr := fun dr h => .done (.inl ⟨rfl, h⟩)
  cases n with
  | leaf | set | enclosed | conditional | modified => exact hself _ fun r hr => (nomatch hr)
  | concat cs =>
    refine (nonEmpty_yields hA hn {}).bind ?_
    rintro rs dr ⟨hrs, -⟩
    have hrs : g.filled cs = rs := hrs.symm
    match rs, hrs with
    | [r], hrs => exact hask (.concat hrs)
    | [], hrs | _ :: _ :: _, hrs =>
      refine hself dr fun r hr => ?_
      cases hr with
      | concat h => cases hrs.symm.trans h
  | alternation cs =>
    match cs with
    | [] | _ :: _ :: _ => exact hself _ fun r hr => (nomatch hr)
    | [r] => exact hask (.alternation r)
  | quantified b c =>
    rw [core]
    split
    · next honce => exact hask (.once honce c)
    · next honce =>
      refine hself _ fun r hr => ?_
      cases hr with
      | once h => exact honce h
  | group =>
    rw [core]
    split
    · next habsent =>
      refine hself _ fun r hr => ?_
      cases hr with
      | group h => exact absurd habsent (Bool.eq_false_iff.1 h)
    · next habsent => exact hask (.group (Bool.eq_false_iff.2 habsent))

end Node

end

namespace Graph

variable {g : Graph}

/-- **The meaning of emptiness and cores is seen in the flattened tree.** -/
theorem meaning_flattens : ∀ e, (g.meaning e).Flattens g
  | 0 => ⟨fun _ h => (nomatch h), fun _ h => (nomatch h)⟩
  | e + 1 => by
    have ih := meaning_flattens e
    constructor
    · rintro r ⟨b, fl⟩ hr h
      rcases g.absent_or_node r with hderef | ⟨i, n, rfl, hn⟩
      · rw [meaning_absent hderef] at h
        cases h
        rw [flattened_absent hderef]
        rfl
      · obtain ⟨e', dr, he, heval⟩ := exists_eval_of_meaning hn h
        cases he
        rw [flattened_node hn hr]
        exact isEmpty_yields ih (not_hasCycleFrom_of_mem_refs hn hr) _ _ heval
    · rintro r ⟨u, fl⟩ hr h
      rcases g.absent_or_node r with hderef | ⟨i, n, rfl, hn⟩
      · rw [meaning_absent hderef] at h
        cases h
        refine ⟨?_, not_hasCycleFrom_of_deref? rfl, 1, false, rfl⟩
        rw [flattened_absent hderef, flattened_absent (r := Question.core.absent) rfl]
      · obtain ⟨e', dr, he, heval⟩ := exists_eval_of_meaning hn h
        cases he
        have hrefs := not_hasCycleFrom_of_mem_refs hn hr
        rcases core_yields ih hrefs _ _ heval with ⟨rfl, -⟩ | ⟨r, fl', hthrough, hcore⟩
        · exact ⟨rfl, hr, e + 1, fl, h⟩
        · obtain ⟨hu, hcycle, hcore⟩ := ih.core (hrefs r hthrough.mem_refs) hcore
          rw [flattened_node hn hr, hthrough.flat_eq]
          exact ⟨hu, hcycle, hcore⟩

variable {r : Ref} {e : Nat} {fl c : Bool} {i : NodeId} {n : Node}

/-- **The empty patterns are those that are flattened to nothing.** -/
theorem empty_eq (hr : ¬ g.HasCycleFrom r) {b : Bool} (h : g.meaning e .empty r = .ok (b, fl)) :
    b = isNothing (g.flattened r) :=
  (meaning_flattens e).empty hr h

/-- **A pattern is flattened as what it comes down to.** -/
theorem core_eq {u : Ref} (hr : ¬ g.HasCycleFrom r) (h : g.meaning e .core r = .ok (u, fl)) :
    g.flattened u = g.flattened r ∧ ¬ g.HasCycleFrom u ∧ g.IsCore u :=
  (meaning_flattens e).core hr h

/-- A node that comes down to itself does not only hold a pattern. -/
theorem IsCore.not_seesThrough (hn : g.node? i = some n) (hi : ¬ g.HasCycleFrom (some i))
    (h : g.IsCore (some i)) (r : Ref) : ¬ n.SeesThrough g r := by
  obtain ⟨e, fl, h⟩ := h
  obtain ⟨e', dr, -, heval⟩ := exists_eval_of_meaning hn h
  rcases core_yields (meaning_flattens e') (not_hasCycleFrom_of_mem_refs hn hi) _ _ heval with
    ⟨-, hnot⟩ | ⟨r', fl', hthrough, hcore⟩
  · exact hnot r
  · exact absurd (hasCycleFrom_of_core hn (below_of_mem_refs hn hthrough.mem_refs) hcore) hi

/-- What a node only holds is single if the node is, unless it is nothing. -/
theorem single_of_seesThrough (hn : g.node? i = some n) (hi : ¬ g.HasCycleFrom (some i))
    (h : ∃ e fl, g.meaning e .single (some i) = .ok (c, fl)) (hr : n.SeesThrough g r)
    (hfilled : isNothing (g.flattened r) = false) : ∃ e fl, g.meaning e .single r = .ok (c, fl) := by
  obtain ⟨e, fl, h⟩ := h
  obtain ⟨e, dr, -, heval⟩ := exists_eval_of_meaning hn h
  have hask : ∀ {dr}, (Rule.ask .single r).Yields (g.meaning e)
      (fun b _ => ∃ e fl, g.meaning e .single r = .ok (b, fl)) dr := .question fun x hx => .done ⟨e, x.2, hx⟩
  have hyields : (n.isSingle i).Yields (g.meaning e) (fun b _ => ∃ e fl, g.meaning e .single r = .ok (b, fl)) {} := by
    cases hr with
    | concat hr =>
      refine (nonEmpty_yields (meaning_flattens e) (not_hasCycleFrom_of_mem_refs hn hi) {}).bind ?_
      rintro rs dr ⟨hrs, -⟩
      obtain rfl : rs = [r] := hrs.trans hr
      exact hask
    | alternation | group => exact hask
    | @once b honce r =>
      refine .question fun x hx => ?_
      have hempty := empty_eq hi hx
      rw [flattened_node hn hi, (SeesThrough.once honce r).flat_eq, hfilled] at hempty
      rw [hempty]
      show (if b.isOnce then Rule.ask .single r else pure false : Rule Bool).Yields _ _ _
      rw [if_pos honce]
      exact hask
  exact hyields _ _ heval

/-- **What a pattern comes down to is single if the pattern is,** unless it is nothing. -/
theorem single_core : ∀ (e : Nat) {r u : Ref} {fl : Bool}, ¬ g.HasCycleFrom r →
    (∃ e fl, g.meaning e .single r = .ok (c, fl)) → isNothing (g.flattened r) = false →
      g.meaning e .core r = .ok (u, fl) → ∃ e fl, g.meaning e .single u = .ok (c, fl)
  | 0, _, _, _, _, _, _, h => (nomatch h)
  | e + 1, r, u, fl, hr, hsingle, hfilled, h => by
    rcases g.absent_or_node r with hderef | ⟨i, n, rfl, hn⟩
    · rw [flattened_absent hderef] at hfilled
      cases hfilled
    · obtain ⟨e', dr, he, heval⟩ := exists_eval_of_meaning hn h
      cases he
      have hrefs := not_hasCycleFrom_of_mem_refs hn hr
      rcases core_yields (meaning_flattens e) hrefs _ _ heval with
        ⟨rfl, -⟩ | ⟨r, fl', hthrough, hcore⟩
      · exact hsingle
      · rw [flattened_node hn hr, hthrough.flat_eq] at hfilled
        exact single_core e (hrefs r hthrough.mem_refs)
          (single_of_seesThrough hn hr hsingle hthrough hfilled) hfilled hcore

end Graph

end RegexBuilder
