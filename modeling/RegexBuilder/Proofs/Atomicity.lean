/-
# Single patterns are those whose text is one piece

A suffix behind the text of a single pattern binds to all of it (`Graph.isSingle_iff_atomic`), also with conditions
that are patterns: the text is read by `readNested?`, as the branches of `Graph.RendersAs`.
-/

import RegexBuilder.Proofs.Faithful
import RegexBuilder.Proofs.Unwrapping

namespace RegexBuilder
namespace Graph

variable {g : Graph}

/-- **A pattern is single exactly if its text is atomic.** Let no cycle be reached from `r` in a
checked graph, and let `r` be rendered. Then its text can be read, it is known whether `r` is single,
and it is exactly if the text is empty or is read as one piece without a suffix. A suffix behind such a
text binds to all of it. -/
theorem isSingle_iff_atomic (hg : g.IsChecked) {r : Ref} (hr : ¬ g.HasCycleFrom r) {x : Rendering}
    (h : g.render r = .ok x) :
    ∃ single bs, g.isSingle r = .ok single ∧ readNested? x.text = some bs ∧
      (single = true ↔ x.text = [] ∨ ∃ a, bs = [[a]] ∧ a.isRepeated = false) ∧
      ∀ a, bs = [[a]] → a.isRepeated = false → ∀ b : Bounds, b.objection? = none →
        readNested? (x.text ++ b.suffix) = some [[.repeated a b]] := by
  obtain ⟨bs, hwrites, -, hempty, -, hsingle⟩ := hg.isWritable.rendered_render hr h
  obtain ⟨-, ⟨empty, e, fl, he⟩, ⟨c, hc⟩⟩ := isClear_of_render h
  have hread := hwrites.readNested?_eq
  have hnothing := empty_eq hr he
  refine ⟨c, bs, isSingle_eq_ok_iff.2 hc, hread, ?_, fun a ha hrepeated b hb => ?_⟩
  · cases empty with
    | true =>
      cases hc.unique (means_single_of_empty ⟨e, fl, he⟩)
      cases h.symm.trans (render_of_means_empty ⟨e, fl, he⟩)
      exact iff_of_true rfl (.inl rfl)
    | false =>
      have hfilled : x.text ≠ [] := by
        intro hnil
        rw [hnil] at hread
        cases (show readNested? [] = some [[]] from rfl).symm.trans hread
        exact Bool.false_ne_true (hnothing.trans (hempty.2 rfl))
      rw [hsingle hc hnothing.symm, or_iff_right hfilled]
  · subst ha
    exact (hwrites.repeated hrepeated (Bounds.isLegible_times hb)).readNested?_eq

/-- A conditional whose condition is a pattern with a group in it. -/
def nestedCondition : Graph :=
  ⟨#[.leaf (.literal "a"), .leaf (.literal "b"), .alternation [some 0, some 1],
    .enclosed .capture (some 2), .concat [some 0, some 3],
    .conditional ⟨.expression, 0, []⟩ (some 4) (some 0) (some 1)]⟩

theorem isSingle_iff_atomic_nestedCondition :
    nestedCondition.render (some 5) = .ok ⟨"(?(a(a|b))a|b)", false⟩ ∧
      nestedCondition.isSingle (some 5) = .ok true ∧
      ∃ a, readNested? "(?(a(a|b))a|b)" = some [[a]] ∧ a.isRepeated = false ∧
        readNested? "(?(a(a|b))a|b)+?" = some [[.repeated a ⟨1, unbounded, false⟩]] := by
  have hrender : nestedCondition.render (some 5) = .ok ⟨"(?(a(a|b))a|b)", false⟩ := by
    decide +kernel
  have hsingle : nestedCondition.isSingle (some 5) = .ok true := by decide +kernel
  have hchecked : nestedCondition.IsChecked := by
    refine ⟨⟨?raw, ?category, ?backreference, ?named, ?balancing, ?condition⟩, ?kind, ?member, ?bracket⟩
    case condition =>
      intro i c ex yes no h hkind
      have hc : c = ⟨.expression, 0, []⟩ ∧ ex = some 4 ∧ yes = some 0 ∧ no = some 1 := by
        simpa [nestedCondition] using mem_nodes h
      rw [hc.1] at hkind
      cases hkind
    all_goals exact fun h => by simpa [nestedCondition] using mem_nodes h
  have hacyclic : ¬ nestedCondition.HasCycleFrom (some 5) := not_hasCycleFrom_of_lt (by decide) _
  obtain ⟨single, bs, hanswer, hread, hiff, hsuffix⟩ := isSingle_iff_atomic hchecked hacyclic hrender
  cases hanswer.symm.trans hsingle
  obtain hnil | ⟨a, rfl, ha⟩ := hiff.1 rfl
  · cases hnil
  · exact ⟨hrender, hsingle, a, hread, ha, hsuffix a rfl ha ⟨1, unbounded, false⟩ (by decide)⟩

end Graph
end RegexBuilder
