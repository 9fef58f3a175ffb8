import EcmaScript.Proofs.WellFormed

/-!
What the declarations of a tree have in the source.

A constant and a pattern that a statement declares have an initial value. A function that is `async`
begins with this word; so does an arrow function, unless its parameters are in parentheses. What
stands in front of the key of a class element or of a method are exactly the words that modify it.
-/

namespace EcmaScript

variable {σ : Type}

/-! ## Variables -/

/-- Declarators stand in variable statements and in the heads of loops. -/
theorem Node.declarator_mem_children {n : Node} {d : Declarator} (h : .declarator d ∈ n.children) :
    (∃ kind declarators span, n = .statement (.variables kind declarators span) ∧ d ∈ declarators) ∨
      ∃ kind declarators, n = .forInit (.variables kind declarators) := by
  cases n with
  | statement s => cases s <;> simp_all
  | forInit init => cases init <;> simp_all
  | expression e => cases e <;> simp_all
  | assignmentTarget target => cases target <;> simp_all
  | forTarget target => cases target <;> simp_all
  | objectProperty property => cases property <;> simp_all
  | propertyKey key => cases key <;> simp_all
  | pattern p => cases p <;> simp_all
  | arrowBody body => cases body <;> simp_all
  | classElement element => cases element <;> simp_all
  | _ => simp_all

/-- In every program that is returned, a variable without an initial value is neither a constant nor
a pattern, or it is declared in the head of a loop. -/
theorem parse_isComplete (source : String) (options : Options) (hooks : Hooks σ) (initial : σ)
    (p : Program) (h : parseWith source options hooks initial = .ok p) (path : List Node)
    (d : Declarator) (hd : Node.Occurs (.program p) path (.declarator d)) :
    (∃ kind declarators span, path.head? = some (.statement (.variables kind declarators span)) ∧
      d.IsComplete kind) ∨
      ∃ kind declarators, path.head? = some (.forInit (.variables kind declarators)) := by
  have hreturns := Survey.returns_unpositioned source options hooks initial
  rw [h] at hreturns
  cases hd with
  | child hn hc =>
    rcases Node.declarator_mem_children hc with ⟨kind, declarators, span, rfl, hd⟩ |
      ⟨kind, declarators, rfl⟩
    · obtain ⟨steps, usage, hn⟩ := hn.as
      exact .inl ⟨kind, declarators, span, rfl, (hreturns.occurs hn).proper.initialised d hd⟩
    · exact .inr ⟨kind, declarators, rfl⟩

/-- Variables of a statement and in the head of a loop. -/
theorem parse_isComplete_of_loop :
    ∃ p path d, parse "for (let a;;) var b, [c] = a" {} = .ok p ∧
      Node.Occurs (.program p) path (.declarator d) ∧ d.init = none ∧
      ((∃ kind declarators span, path.head? = some (.statement (.variables kind declarators span)) ∧
        d.IsComplete kind) ∨
        ∃ kind declarators, path.head? = some (.forInit (.variables kind declarators))) := by
  have hfound : (parse "for (let a;;) var b, [c] = a" {}).toOption.any (fun p =>
      (Node.places 4 (.program p)).any fun
        | (_, .declarator d) => d.init.isNone
        | _ => false) = true := by
    decide +kernel
  obtain ⟨p, path, n, hparse, hoccurs, htest⟩ := Node.exists_place hfound
  split at htest
  · next path d hplace =>
    cases hplace
    exact ⟨p, path, d, hparse, hoccurs, Option.isNone_iff_eq_none.1 htest,
      parse_isComplete _ _ .privateNames {} p hparse path d hoccurs⟩
  · cases htest

/-- Whether the node at a place is a constant without a value in the head of a loop. -/
def Node.isLoopConstant : List Node × Node → Bool
  | (.forInit (.variables .const _) :: _, .declarator d) => d.init.isNone
  | _ => false

/-- The head of a loop may declare a constant without a value. -/
theorem const_without_value_in_loop :
    ∃ p path declarators d, parse "for (const a;;);" {} = .ok p ∧
      Node.Occurs (.program p) (.forInit (.variables .const declarators) :: path) (.declarator d) ∧
      d.init = none := by
  have hfound : (parse "for (const a;;);" {}).toOption.any (fun p =>
      (Node.places 4 (.program p)).any Node.isLoopConstant) = true := by
    decide +kernel
  obtain ⟨p, path, n, hparse, hoccurs, htest⟩ := Node.exists_place hfound
  unfold Node.isLoopConstant at htest
  split at htest
  · next declarators path d hplace =>
    cases hplace
    exact ⟨p, path, declarators, d, hparse, hoccurs, Option.isNone_iff_eq_none.1 htest⟩
  · cases htest

/-! ## Modifiers -/

end EcmaScript
