import EcmaScript.Proofs.Settling

/-!
Which programs are accepted.

The parser resolves private names while it reads: it keeps a stack of open classes, moves names that
are not declared yet from class to class, and a flag says whether the innermost method is private.
What it accepts does not depend on any of this. A source is accepted exactly if it is accepted by
the parser that allows all private names, and the tree obeys the static rules.
-/

namespace EcmaScript

/-- The account of a program can be replayed exactly if the program obeys the rules. -/
theorem isSome_replay_iff {options : Options} {p : Program} :
    ((Node.program p).account.replay options ({}, [])).isSome = true ↔
      StaticRules p ∧ NamesAllowed options p := by
  have hsettled := @Node.settled options (.program p) (by simp) [] [] [] trivial
  rw [← everywhere_lawful_iff]
  exact hsettled.isSome_iff.trans (and_congr_right' (forall_prop_of_true rfl))

/-- A source is accepted exactly if it is accepted without regard to private names, and its tree
obeys the rules about them. The rules are about the tree alone, whatever the order is in which names
are declared and used. -/
theorem parse_eq_ok_iff_staticRules (source : String) (options : Options) (p : Program) :
    parse source options = .ok p ↔
      parseWith source options .permissive () = .ok p ∧
        StaticRules p ∧ NamesAllowed options p := by
  rw [parse_eq_ok_iff, isSome_replay_iff]

/-- Editions without private names accept none, not even those that obey the other rules. -/
theorem early_edition_refuses_privateName :
    ∃ p, parseWith "class A { #x; }" { ecmaVersion := 5 } .permissive () = .ok p ∧
      StaticRules p ∧ parse "class A { #x; }" { ecmaVersion := 5 } ≠ .ok p := by
  have hrefused : (parse "class A { #x; }" { ecmaVersion := 5 }).isOk = false := by
    decide +kernel
  -- The rules do not depend on the options, so they may be replayed under those of a later edition.
  have hreplay : (parseWith "class A { #x; }" { ecmaVersion := 5 } .permissive ()).toOption.any
      (fun p => ((Node.program p).account.replay {} ({}, [])).isSome) = true := by
    decide +kernel
  cases hparse : parseWith "class A { #x; }" { ecmaVersion := 5 } .permissive () with
  | error d =>
    rw [hparse] at hreplay
    cases hreplay
  | ok p =>
    rw [hparse] at hreplay
    refine ⟨p, rfl, (isSome_replay_iff.mp hreplay).1, fun haccepted => ?_⟩
    rw [haccepted] at hrefused
    cases hrefused

end EcmaScript
