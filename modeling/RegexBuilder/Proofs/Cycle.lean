/-
# Recursion errors are about cycles

Rules ask downwards (`Node.rule_follows`), so the nodes that are open for one question lie below one another, and what
is asked next lies below the last of them; `Fits` is this invariant. A node that is met again therefore lies below
itself, and the report shows the way (`Graph.IsCycleReport`). The two questions of rank 0, which ask each other, go
down together.

A copy asks about every reference, so where it succeeds there is no cycle (`Graph.not_hasCycleFrom_of_copying_eq_ok`).
-/

import Mathlib.Data.List.Chain
import RegexBuilder.Proofs.Upheld

namespace RegexBuilder

open List Option Relation

/-! ### Stacks of open nodes -/

namespace Graph

/-- A stack of nodes that go down: they are pairwise distinct, and each lies below the one before
it. -/
structure IsDescent (g : Graph) (stack : List NodeId) : Prop where
  nodup : stack.Nodup
  chain : stack.IsChain (TransGen g.Child)

/-- What is referred to, if it is a node, lies below the top of the stack. -/
def Leads (g : Graph) (stack : List NodeId) (r : Ref) : Prop := ∀ i ∈ stack.getLast?, g.Below i r

/-- What a recursion error says: `path` is a descent that ends in a node of the descent, met again. -/
def IsCycleReport (g : Graph) (path : List NodeId) : Prop :=
  ∃ stack node, path = stack ++ [node] ∧ stack.Nodup ∧ stack.count node = 1 ∧
    path.IsChain (TransGen g.Child) ∧ TransGen g.Child node node

/-- Node `j` is what `r` refers to or lies below it. -/
def Reaches (g : Graph) (r : Ref) (j : NodeId) : Prop := ∃ i, r = some i ∧ ReflTransGen g.Child i j

/-- A node that is reached lies on a cycle. -/
def HasCycleFrom (g : Graph) (r : Ref) : Prop := ∃ j, g.Reaches r j ∧ TransGen g.Child j j

variable {g : Graph} {stack : List NodeId} {i : NodeId}

variable {j : NodeId} {r : Ref} {n : Node}

theorem exists_node?_of_transGen (h : TransGen g.Child i j) : ∃ n, g.node? i = some n := by
  obtain ⟨k, hik, -⟩ := TransGen.head'_iff.1 h
  exact hik.1.imp fun _ h => h.1

theorem exists_node?_of_reflTransGen {k : NodeId} (h : ReflTransGen g.Child k j)
    (hj : ∃ n, g.node? j = some n) : ∃ n, g.node? k = some n := by
  rcases h.cases_head with rfl | ⟨l, hkl, -⟩
  · exact hj
  · exact hkl.1.imp fun _ h => h.1

/-- What is reached from below a node is reached from the node. -/
theorem Reaches.of_below (hr : g.Below i r) (h : g.Reaches r j) (hj : ∃ n, g.node? j = some n) :
    g.Reaches (some i) j := by
  obtain ⟨k, rfl, hkj⟩ := h
  obtain ⟨n, hn⟩ := exists_node?_of_reflTransGen hkj hj
  exact ⟨i, rfl, (hr k n rfl hn).to_reflTransGen.trans hkj⟩

theorem HasCycleFrom.of_below (hr : g.Below i r) (h : g.HasCycleFrom r) : g.HasCycleFrom (some i) := by
  obtain ⟨j, hj, hcycle⟩ := h
  exact ⟨j, hj.of_below hr (exists_node?_of_transGen hcycle), hcycle⟩

theorem isDescent_nil (g : Graph) : g.IsDescent [] := ⟨.nil, .nil⟩

theorem leads_nil (g : Graph) (r : Ref) : g.Leads [] r := fun _ hi => by simp at hi

theorem leads_append_self (stack : List NodeId) (h : g.Below i r) : g.Leads (stack ++ [i]) r := by
  intro k hk
  rw [getLast?_append, getLast?_singleton, some_or, mem_some_iff] at hk
  exact hk ▸ h

theorem Leads.trans (h : g.Leads stack (some i)) (hn : g.node? i = some n) (hr : g.Below i r) :
    g.Leads stack r := fun k hk => (h k hk).trans hn hr

section

variable (h : g.IsDescent stack) (hi : g.Leads stack (some i)) (hn : g.node? i = some n)

include h hi hn

/-- A node below the top goes on with the descent, met before or not. -/
theorem IsDescent.isChain_append : (stack ++ [i]).IsChain (TransGen g.Child) := by
  refine List.isChain_append.2 ⟨h.chain, .singleton i, fun x hx y hy => ?_⟩
  obtain rfl : i = y := mem_some_iff.1 hy
  exact hi x hx i n rfl hn

/-- A descent goes on with a new node. -/
theorem IsDescent.append (hnew : i ∉ stack) : g.IsDescent (stack ++ [i]) := by
  refine ⟨nodup_append.2 ⟨h.nodup, nodup_singleton i, ?_⟩, h.isChain_append hi hn⟩
  rintro x hx y hy rfl
  exact hnew (mem_singleton.1 hy ▸ hx)

/-- **A node that is met again lies on a cycle.** -/
theorem IsDescent.isCycleReport (hmet : i ∈ stack) : g.IsCycleReport (stack ++ [i]) ∧ g.HasCycleFrom (some i) := by
  have hchain := h.isChain_append hi hn
  have hall := (pairwise_append.1 (isChain_iff_pairwise.1 hchain)).2.2
  have hcycle : TransGen g.Child i i := hall i hmet i (mem_singleton.2 rfl)
  exact ⟨⟨stack, i, rfl, h.nodup, count_eq_one_of_mem h.nodup hmet, hchain, hcycle⟩, i, ⟨i, rfl, .refl⟩, hcycle⟩

end

end Graph

/-- The question `q` about `r` can be asked while those of `o` are open: every stack of `o` goes down, no question of a
lower rank is open, and `r` lies below what is open for one of the same rank. -/
structure Fits (g : Graph) (o : Open) (q : Question) (r : Ref) : Prop where
  isDescent : ∀ p, g.IsDescent (o p)
  lower : ∀ p, p.rank < q.rank → o p = []
  same : ∀ p, p.rank = q.rank → g.Leads (o p) r

namespace Fits

variable {g : Graph} {o : Open} {q : Question} {i : NodeId} {n : Node}

theorem none (g : Graph) (q : Question) (r : Ref) : Fits g Open.none q r :=
  ⟨fun _ => g.isDescent_nil, fun _ _ => rfl, fun _ _ => g.leads_nil r⟩

/-- **What a rule may ask fits the place to which its own question leads.** -/
theorem enter (h : Fits g o q (some i)) (hn : g.node? i = some n) (hi : i ∉ o q) {q' : Question}
    {r : Ref} (hr : Permitted g i q q' r) : Fits g (o.enter q i) q' r := by
  obtain ⟨hrank, hbelow⟩ := hr
  refine ⟨fun p => ?_, fun p hp => ?_, fun p hp => ?_⟩
  · by_cases hpq : p = q
    · subst hpq
      rw [Open.enter_self]
      exact (h.isDescent p).append (h.same p rfl) hn hi
    · rw [Open.enter_of_ne o hpq]
      exact h.isDescent p
  · rw [Open.enter_of_ne o (fun hpq => by rw [hpq] at hp; omega)]
    exact h.lower p (by omega)
  · rcases hbelow with hbelow | ⟨-, hlt⟩
    · by_cases hpq : p = q
      · subst hpq
        rw [Open.enter_self]
        exact Graph.leads_append_self _ hbelow
      · rw [Open.enter_of_ne o hpq]
        by_cases hsame : p.rank = q.rank
        · exact (h.same p hsame).trans hn hbelow
        · rw [h.lower p (by omega)]
          exact g.leads_nil r
    · rw [Open.enter_of_ne o (fun hpq => by rw [hpq] at hp; omega), h.lower p (by omega)]
      exact g.leads_nil r

end Fits

/-! ### Questions -/

/-- How a question about `r` fails: with a report of a cycle that is reached from `r`, or with the objection or the
fault of a node that is reached and may object. -/
def Graph.FailsAs (g : Graph) (r : Ref) : Failure → Prop
  | .recursion _ path => g.IsCycleReport path ∧ g.HasCycleFrom r
  | .invalid i _ => g.Reaches r i ∧ g.Objects i
  | .broken _ => (∃ i, g.Reaches r i ∧ g.Objects i) ∧ g.LacksForm
  | .exhausted => True

variable {g : Graph} {i : NodeId} {own : Question} {r : Ref} {f : Failure} {α : Type}

theorem Graph.FailsAs.of_permitted {q : Question} (hr : Permitted g i own q r) (h : g.FailsAs r f) :
    g.FailsAs (some i) f := by
  have hreaches : ∀ {j}, g.Reaches r j → g.Objects j → g.Reaches (some i) j := by
    rintro j hj ⟨n, hn, -⟩
    rcases hr.2 with hbelow | ⟨rfl, -⟩
    · exact hj.of_below hbelow ⟨n, hn⟩
    · exact hj
  cases f with
  | recursion =>
    refine h.imp id fun hcycle => ?_
    rcases hr.2 with hbelow | ⟨rfl, -⟩
    · exact hcycle.of_below hbelow
    · exact hcycle
  | invalid => exact ⟨hreaches h.1 h.2, h.2⟩
  | broken =>
    obtain ⟨⟨j, hj, hobjects⟩, hlacks⟩ := h
    exact ⟨⟨j, hreaches hj hobjects, hobjects⟩, hlacks⟩
  | exhausted => trivial

/-- **What holds of the questions that a rule may ask holds of the rule.** -/
theorem Rule.Follows.run_ensures {Q : α → Prop} {asking : Asking} (hask : ∀ q r, Permitted g i own q r →
      Ensures (·.Upholds (Question.Sound g)) (asking q r) (Answered (Question.Sound g) q r) (g.FailsAs r))
    {p : Rule α} (h : p.Follows g i own Q) (base : Nat) : Ensures (·.Upholds (Question.Sound g)) (p.run asking base)
      (fun a s => Q a ∧ s.Upholds (Question.Sound g)) (g.FailsAs (some i)) := by
  induction p with
  | done => exact .pure fun s hs => ⟨h, hs⟩
  | objection j why =>
    obtain ⟨rfl, hobjects⟩ := h
    exact .throw ⟨⟨j, rfl, .refl⟩, hobjects⟩
  | fault => exact .throw ⟨⟨i, ⟨i, rfl, .refl⟩, h.1⟩, h.2⟩
  | output t next ih => exact fun s hs => ih h.2 _ (hs.of_kept (s.kept_write t))
  | reading next ih => exact fun s hs => ih _ (h.2 (s.out.drop base)) s hs
  | separation place next ih =>
    exact fun s hs => ih h.2 _ (hs.of_kept (s.kept_separateEscape (base + place)))
  | subtraction next ih => exact fun s hs => ih h.2 _ (hs.of_kept (s.kept_subtraction true))
  | question q r next ih =>
    have hq := (hask q r h.1).mono (fun _ hs => hs) (fun _ _ ha => ha) fun _ => Graph.FailsAs.of_permitted h.1
    refine hq.bind fun a s hs => ?_
    exact ih a (h.2 a hs.1) s hs.2

namespace Graph

/-- **A question fails as its reference tells,** wherever it fits. -/
theorem asking_failsAs {g : Graph} : ∀ (d : Nat) {o : Open} {q : Question} {r : Ref},
    Fits g o q r → Ensures (·.Upholds (Question.Sound g)) (g.asking true d o q r)
      (Answered (Question.Sound g) q r) (g.FailsAs r)
  | 0, _, _, _, _ => .throw trivial
  | d + 1, o, q, r, hfit => by
    rw [asking]
    rcases g.absent_or_node r with hr | ⟨i, n, rfl, hn⟩
    · intro s hs
      rw [level_absent hr]
      refine ⟨fun x s' hx => ?_, fun f hf => by cases hf⟩
      cases hx
      refine ⟨?_, hs⟩
      cases q with
      | core =>
        intro j m hj
        cases hj
      | text | empty | single => trivial
    · rw [level_node hn]
      refine visit_upholds (fun hi => ?_) fun hi s => ?_
      · exact (hfit.isDescent q).isCycleReport (hfit.same q rfl) hn hi
      · exact (Node.rule_follows hn q).run_ensures (fun q' r' hr' => asking_failsAs d (hfit.enter hn hi hr')) _ s

variable {r : Ref} {f : Failure} {i : NodeId} {n : Node}

theorem questions_failsAs {g : Graph} {q : Question} (h : g.questions true q r {} = .error f) : g.FailsAs r f :=
  (asking_failsAs _ (Fits.none g q r) {} (Session.upholds_empty _)).2 f h

/-! ### Copies -/

/-- Every set that is reached has all its members and endpoints. -/
def IsWholeFrom (g : Graph) (r : Ref) : Prop :=
  ∀ j n, g.Reaches r j → g.node? j = some n → n.IsWhole g

variable {g : Graph}

theorem not_hasCycleFrom_of_deref? (hr : g.deref? r = none) : ¬ g.HasCycleFrom r := by
  rintro ⟨j, ⟨i, rfl, hij⟩, hj⟩
  obtain ⟨n, hn⟩ := exists_node?_of_reflTransGen hij (exists_node?_of_transGen hj)
  have hi : g.node? i = none := hr
  rw [hi] at hn
  cases hn

/-- **There is no cycle below a node if there is none below its references.** -/
theorem not_hasCycleFrom_of_refs (hn : g.node? i = some n) (h : ∀ r ∈ n.refs, ¬ g.HasCycleFrom r) :
    ¬ g.HasCycleFrom (some i) := by
  have hchild : ∀ {k}, g.Child i k → ∃ r ∈ n.refs, g.Reaches r k := by
    rintro k ⟨⟨m, hm, hk⟩, -⟩
    obtain rfl : n = m := some_injective _ (hn.symm.trans hm)
    exact ⟨some k, hk, k, rfl, .refl⟩
  rintro ⟨j, ⟨_, ⟨⟩, hij⟩, hj⟩
  rcases hij.cases_head with rfl | ⟨k, hik, hkj⟩
  · -- a cycle through the node itself goes through one of its references
    obtain ⟨k, hik, hki⟩ := TransGen.head'_iff.1 hj
    obtain ⟨r, hr, hk⟩ := hchild hik
    exact h r hr ⟨k, hk, TransGen.tail' hki hik⟩
  · obtain ⟨r, hr, l, rfl, hlk⟩ := hchild hik
    exact h _ hr ⟨j, ⟨l, rfl, hlk.trans hkj⟩, hj⟩

/-- How a copy fails: at a cycle below `r`, or at a set below `r` that is not whole. -/
def CopyFails (g : Graph) (r : Ref) (f : Failure) : Prop :=
  f = .exhausted ∨ ((∃ path, f = .recursion .copy path ∧ g.IsCycleReport path) ∧ g.HasCycleFrom r) ∨
    (∃ b, f = .broken b) ∧ ¬ g.IsWholeFrom r

theorem CopyFails.of_mem_refs (hn : g.node? i = some n) (hr : r ∈ n.refs) (h : g.CopyFails r f) :
    g.CopyFails (some i) f := by
  refine h.imp id (Or.imp (And.imp id ?_) (And.imp id ?_))
  · exact .of_below (below_of_mem_refs hn hr)
  · intro hnot hwhole
    exact hnot fun j m hj hm => hwhole j m (hj.of_below (below_of_mem_refs hn hr) ⟨m, hm⟩) hm

/-- **A copy fails at a cycle or for want of a member or endpoint.** -/
theorem copying_ensures : ∀ (d : Nat) {o : List NodeId} {r : Ref}, g.IsDescent o → g.Leads o r →
    Ensures (fun _ => True) (g.copying d o r) (fun r' _ => True ∧ (g.deref? r ≠ none → r' ≠ none)) (g.CopyFails r)
  | 0, _, _, _, _ => .throw (.inl rfl)
  | d + 1, o, r, ho, hr => by
    refine fun s _ => ⟨fun r' s' hr' => ⟨trivial, ne_none_of_copyLevel_eq_ok hr'⟩, fun f hf => ?_⟩
    rw [copying] at hf
    rcases g.absent_or_node r with hn | ⟨i, n, rfl, hn⟩
    · rw [copyLevel_absent hn] at hf
      cases hf
    · by_cases hi : i ∈ o
      · rw [copyLevel_open hn hi] at hf
        cases hf
        obtain ⟨hreport, hcycle⟩ := ho.isCycleReport hr hn hi
        exact .inr (.inl ⟨⟨_, rfl, hreport⟩, hcycle⟩)
      · rw [copyLevel_new hn hi] at hf
        have hcopy : Ensures (fun _ => True) (n.copy (copyEndpoint g) (g.copying d (o ++ [i]))) (fun _ _ => True)
            (g.CopyFails (some i)) := by
          refine Node.copy_ensures (fun _ _ _ => trivial) (fun c hc => ?_) fun hw => ?_
          · have hlead : g.Leads (o ++ [i]) c := leads_append_self o (below_of_mem_refs hn hc)
            exact (copying_ensures d (ho.append hr hn hi) hlead).mono (fun _ h => h)
              (fun _ _ h => h) fun _ => .of_mem_refs hn hc
          · have hfrom : ¬ g.IsWholeFrom (some i) := fun h => hw (h i n ⟨i, rfl, .refl⟩ hn)
            exact ⟨.inr (.inr ⟨⟨_, rfl⟩, hfrom⟩), .inr (.inr ⟨⟨_, rfl⟩, hfrom⟩)⟩
        exact ((hcopy.bind fun _ => Growing.add_ensures fun _ _ => trivial) s trivial).2 f hf

/-- A character has no children. -/
theorem not_hasCycleFrom_of_character? {c : Character} (h : g.character? r = some c) : ¬ g.HasCycleFrom r := by
  obtain ⟨i, rfl, hn⟩ := bind_eq_some_iff.1 (deref?_of_character? h)
  exact not_hasCycleFrom_of_refs hn fun r hr => nomatch hr

/-- Nodes that refer to earlier nodes only are on no cycle. -/
theorem not_hasCycleFrom_of_lt (hrefs : ∀ i < g.size, ∀ n ∈ g.node? i, ∀ r ∈ n.refs, ∀ j ∈ r, j < i) (r : Ref) :
    ¬ g.HasCycleFrom r := by
  have hg : ∀ i n, g.node? i = some n → ∀ j, some j ∈ n.refs → j < i := fun i n hn j hj =>
    hrefs i (lt_size_of_node? hn) n hn _ hj j rfl
  have hchild : ∀ {i j}, TransGen g.Child i j → j < i := by
    intro i j hij
    induction hij with
    | single h =>
      obtain ⟨⟨n, hn, hj⟩, -⟩ := h
      exact hg _ n hn _ hj
    | tail _ h ih =>
      obtain ⟨⟨n, hn, hj⟩, -⟩ := h
      exact Nat.lt_trans (hg _ n hn _ hj) ih
  rintro ⟨j, -, hj⟩
  exact Nat.lt_irrefl j (hchild hj)

/-- **Where a copy succeeds there is no cycle.** -/
theorem not_hasCycleFrom_of_copying_eq_ok : ∀ (d : Nat) {o : List NodeId} {r r' : Ref} {s s' : Graph},
    g.copying d o r s = .ok (r', s') → ¬ g.HasCycleFrom r
  | 0, _, _, _, _, _, h => nomatch h
  | d + 1, o, r, r', s, s', h => by
    rw [copying] at h
    rcases g.absent_or_node r with hr | ⟨i, n, rfl, hn⟩
    · exact not_hasCycleFrom_of_deref? hr
    · obtain ⟨-, i', n', -, -, halike⟩ := alike_of_copyLevel_eq_ok (extends_of_copying_eq_ok d) hn h
      refine not_hasCycleFrom_of_refs hn fun c hc => ?_
      obtain ⟨c', s₁, s₂, -, hmade, -⟩ := halike.exists_of_mem_refs hc
      rcases hmade with hmade | hmade
      · exact not_hasCycleFrom_of_copying_eq_ok d hmade
      · obtain ⟨x, hx, -⟩ := copyEndpoint_eq_ok hmade
        exact not_hasCycleFrom_of_character? hx

/-- **A copy fails at a cycle or at a set that is not whole.** -/
theorem copyFails_of_copy_eq_error (h : g.copy r = .error f) :
    ((∃ path, f = .recursion .copy path ∧ g.IsCycleReport path) ∧ g.HasCycleFrom r) ∨
      (∃ b, f = .broken b) ∧ ¬ g.IsWholeFrom r := by
  rcases (copying_ensures _ g.isDescent_nil (g.leads_nil r) g trivial).2 f h with rfl | h
  · refine absurd rfl ((copying_ne_exhausted (o := []) ?_ r g trivial).2 _ h)
    exact Nat.lt_succ_of_le (g.uncopied_le [])
  · exact h

end Graph

/-- The failure is that of one of the five questions about `r`. -/
def Graph.FailsWith (g : Graph) (r : Ref) (f : Failure) : Prop :=
  g.render r = .error f ∨ g.core r = .error f ∨ g.isEmpty r = .error f ∨ g.isSingle r = .error f ∨
    g.copy r = .error f

theorem Ask.eq_error_of_answer {a : Ask α} (h : a.answer = .error f) : a {} = .error f := by
  rcases bind_eq_error.1 (show (a {} >>= fun x => .ok x.1) = _ from h) with h | ⟨x, -, h⟩
  · exact h
  · cases h

theorem Ask.eq_error_of_rendering {a : Ask Text} (h : a.rendering = .error f) : a {} = .error f := by
  rcases bind_eq_error.1 h with h | ⟨x, -, h⟩
  · exact h
  · cases h

theorem Graph.FailsWith.isCycleReport {q : Query} {path : List NodeId}
    (h : g.FailsWith r (.recursion q path)) : g.IsCycleReport path ∧ g.HasCycleFrom r := by
  rcases h with h | h | h | h | h
  · exact questions_failsAs (Ask.eq_error_of_rendering h)
  · exact questions_failsAs (Ask.eq_error_of_answer h)
  · exact questions_failsAs (Ask.eq_error_of_answer h)
  · exact questions_failsAs (Ask.eq_error_of_answer h)
  · rcases copyFails_of_copy_eq_error h with ⟨⟨p, hp, hreport⟩, hcycle⟩ | ⟨⟨b, hb⟩, -⟩
    · cases hp
      exact ⟨hreport, hcycle⟩
    · cases hb

/-- **Recursion errors are exactly about cycles.** A recursion error of any of the five questions
reports a descent along child edges that ends in a node of the descent, so that this node lies on a
cycle; where no cycle is reached there is no such error. Where no set that is reached lacks a member or an
endpoint, a copy fails exactly if a cycle is reached, and then with a recursion error. -/
theorem Graph.recursion_iff_cycle (g : Graph) (r : Ref) :
    (∀ q path, g.FailsWith r (.recursion q path) → g.IsCycleReport path) ∧
    (¬ g.HasCycleFrom r → ∀ q path, ¬ g.FailsWith r (.recursion q path)) ∧
    (g.IsWholeFrom r →
      ((∃ f, g.copy r = .error f) ↔ g.HasCycleFrom r) ∧
      ∀ f, g.copy r = .error f → ∃ path, f = .recursion .copy path) := by
  have hreport : ∀ q path, g.FailsWith r (.recursion q path) →
      g.IsCycleReport path ∧ g.HasCycleFrom r := fun q path h => h.isCycleReport
  have hcopy : g.IsWholeFrom r → ∀ f, g.copy r = .error f →
      (∃ path, f = .recursion .copy path) ∧ g.HasCycleFrom r := by
    intro hwhole f hf
    rcases copyFails_of_copy_eq_error hf with ⟨⟨path, hpath, -⟩, hcycle⟩ | ⟨-, hnot⟩
    · exact ⟨⟨path, hpath⟩, hcycle⟩
    · exact absurd hwhole hnot
  refine ⟨fun q path h => (hreport q path h).1, fun hacyclic q path h => ?_,
    fun hwhole => ⟨⟨?_, ?_⟩, ?_⟩⟩
  · exact hacyclic (hreport q path h).2
  · rintro ⟨f, hf⟩
    exact (hcopy hwhole f hf).2
  · intro hcycle
    cases hc : g.copy r with
    | error f => exact ⟨f, rfl⟩
    | ok => exact absurd hcycle (not_hasCycleFrom_of_copying_eq_ok _ hc)
  · intro f hf
    exact (hcopy hwhole f hf).1

/-- A group that contains itself is not copied. -/
theorem Graph.recursion_iff_cycle_group :
    ∃ path, (⟨#[.group (some 0)]⟩ : Graph).copy (some 0) = .error (.recursion .copy path) := by
  have hchild : (⟨#[.group (some 0)]⟩ : Graph).Child 0 0 :=
    ⟨⟨_, rfl, mem_singleton.2 rfl⟩, _, rfl⟩
  have hwhole : (⟨#[.group (some 0)]⟩ : Graph).IsWholeFrom (some 0) := by
    intro j n _ hn
    obtain rfl : j = 0 := Nat.lt_one_iff.1 (lt_size_of_node? hn)
    cases hn
    trivial
  obtain ⟨-, -, hcopy⟩ := recursion_iff_cycle ⟨#[.group (some 0)]⟩ (some 0)
  obtain ⟨hfails, hrecursion⟩ := hcopy hwhole
  obtain ⟨f, hf⟩ := hfails.2 ⟨0, ⟨0, rfl, .refl⟩, .single hchild⟩
  obtain ⟨path, rfl⟩ := hrecursion f hf
  exact ⟨path, hf⟩

end RegexBuilder
