import EcmaScript.Proofs.Orderly.Step

/-!
The rules for names, property keys and patterns are orderly.
-/

namespace EcmaScript

namespace Twins

variable {α β : Type} [Bare α] [Bare β] {a a' : α} {b b' : β}

theorem of_fst (h : Twins (a, b) (a', b')) : Twins a a' := @fst _ _ _ _ _ _ h

theorem of_snd (h : Twins (a, b) (a', b')) : Twins b b' := @snd _ _ _ _ _ _ h

/-- The twin of a key that is a name is the same name. -/
theorem eq_identifierKey {name : String} {span : Span} {key : PropertyKey}
    (h : Twins (.identifier name span) key) : ∃ span', key = .identifier name span' := by
  have hbare := h.bare_eq
  cases key with
  | identifier name' span' =>
    obtain rfl : name = name' := (PropertyKey.identifier.inj hbare).1
    exact ⟨span', rfl⟩
  | _ => cases hbare

end Twins

namespace Script

variable {place : Setting} {known : Known}

/-! ## Names and keys -/

theorem orderly_identifierReference :
    Orderly place known identifierReference identifierReference fun _ => known.further := by
  refine orderly_startPosition.bind fun start start' _ => ?_
  -- Every way to find the name goes on with a check of it.
  have hname (name : String) : Orderly place known.further
      (nameRules >>= fun rules => ensure (rules.checkWord name start) >>= fun _ =>
        spanFrom start >>= fun span => pure (name, span))
      (nameRules >>= fun rules => ensure (rules.checkWord name start') >>= fun _ =>
        spanFrom start' >>= fun span => pure (name, span)) fun _ => known.further :=
    orderly_nameRules.step fun _ => orderly_ensure.step fun _ => .spanned fun _ => .refl
  refine orderly_next.step fun token => ?_
  cases token with
  | identifier name escaped => exact .step (.ret .refl) hname
  | keyword word =>
    refine orderly_context.step fun context => .either (fun _ => ?_) fun _ => ?_
    · exact .step (.ret .refl) hname
    · exact .step (orderly_unexpectedAt start start') hname
  | _ => exact .step (orderly_unexpectedAt start start') hname

theorem orderly_bindingIdentifier :
    Orderly place known bindingIdentifier bindingIdentifier fun _ => known.further := by
  refine orderly_identifierReference.bind fun read read' hread => ?_
  obtain ⟨name, span⟩ := read
  obtain ⟨name', span'⟩ := read'
  obtain rfl : name = name' := hread.of_fst.eq
  exact orderly_nameRules.step fun rules => orderly_ensure.step fun _ => .ret .refl

theorem orderly_privateName :
    Orderly place known privateName privateName fun _ => known.further.naming true := by
  refine orderly_startPosition.bind fun start start' _ => ?_
  refine orderly_next.step fun token => ?_
  cases token with
  | privateName name =>
    exact .checked orderly_unexpected (.spanned fun _ => .refl)
  | _ => exact orderly_unexpectedAt _ _

theorem orderly_nextIsPrivateName :
    Orderly place known nextIsPrivateName nextIsPrivateName fun _ => known := by
  refine orderly_asking fun token => ?_
  cases token <;> exact ⟨_, rfl⟩

/-- The key of a property is no private name. -/
theorem orderly_propertyKey_naming :
    Orderly place known propertyKey propertyKey
      fun read => known.further.naming read.1.isPrivate := by
  refine orderly_startPosition.bind fun start start' _ => ?_
  refine orderly_next.step fun token => ?_
  cases token with
  | identifier name escaped => exact .spanned fun _ => .refl
  | keyword word => exact .spanned fun _ => .refl
  | string value => exact .spanned fun _ => .refl
  | bigInt text => exact .spanned fun _ => .refl
  | number value => exact .spanned fun _ => .refl
  | punctuator symbol =>
    cases symbol with
    | lBracket =>
      refine (orderly_allowingIn (orderly_assignment (.inl .behind))).bind fun _ _ hkey => ?_
      exact (orderly_expect rfl).step fun _ => .spanned fun _ => .refl
    | _ => exact orderly_unexpectedAt _ _
  | _ => exact orderly_unexpectedAt _ _

theorem orderly_propertyKey :
    Orderly place known propertyKey propertyKey fun _ => known.further :=
  .weaken .refl orderly_propertyKey_naming fun _ => .unnamed

/-! ## Patterns -/

theorem orderly_bindingElement (h : place.IsReady known) :
    Orderly place known bindingElement bindingElement fun _ => known.further := by
  refine orderly_startPosition.bind fun start start' _ => ?_
  refine (orderly_bindingTarget h).bind fun target target' htarget => ?_
  refine (orderly_accept rfl).choose ?_ (.ret .refl)
  refine (orderly_allowingIn (orderly_assignment (.inl .behind))).bind fun default default' _ => ?_
  exact .spanned fun _ => .refl

theorem orderly_restElement :
    Orderly place known restElement restElement fun _ => known.further := by
  refine orderly_startPosition.bind fun start start' _ => ?_
  refine (orderly_expect rfl).step fun _ => ?_
  refine (orderly_bindingTarget .behind).bind fun argument argument' _ => ?_
  exact .spanned fun _ => .refl

theorem orderly_arrayPatternRound (h : place.begun = true) {elements elements' : List (Option Pattern)}
    [Twins elements elements'] :
    Orderly place known.inRound (arrayPatternRound elements) (arrayPatternRound elements')
      (known.round known.opened) := by
  refine (orderly_accept rfl).choose (.ret .stopped) ?_
  refine (orderly_accept rfl).choose (.ret .refl) ?_
  refine (orderly_nextIs .spread).choose ?_ ?_
  · refine orderly_restElement.bind fun rest rest' _ => ?_
    exact (orderly_expect rfl).step fun _ => .ret .stopped
  refine (orderly_bindingElement (.begun h)).bind fun element element' _ => ?_
  refine (orderly_accept rfl).choose (.ret .refl) ?_
  exact (orderly_expect rfl).step fun _ => .ret .stopped

theorem orderly_arrayPattern :
    Orderly place known arrayPattern arrayPattern fun _ => known.further := by
  refine orderly_startPosition.bind fun start start' _ => ?_
  refine (orderly_expect rfl).step fun _ => ?_
  refine (Orderly.loop (fun _ _ _ => orderly_arrayPatternRound rfl) inferInstance).bind
    fun elements elements' _ => ?_
  exact .spanned fun _ => .refl

theorem orderly_patternProperty :
    Orderly place known patternProperty patternProperty fun _ => known.further := by
  refine orderly_propertyKey.bind fun read read' hread => ?_
  obtain ⟨key, computed⟩ := read
  obtain ⟨key', computed'⟩ := read'
  have hkey : Twins key key' := hread.of_fst
  refine (orderly_accept rfl).choose ?_ ?_
  · exact (orderly_bindingElement .behind).bind fun value value' _ => .ret .refl
  cases key with
  | identifier name span =>
    obtain ⟨span', rfl⟩ := hkey.eq_identifierKey
    refine orderly_nameRules.step fun rules => orderly_ensure.step fun _ => ?_
    refine (orderly_accept rfl).choose ?_ (.ret .refl)
    refine (orderly_allowingIn (orderly_assignment (.inl .behind))).bind fun _ _ hdefault => ?_
    exact .spanned fun _ => .refl
  | _ =>
    cases key' with
    | identifier name' span' =>
      obtain ⟨span, hsame⟩ := hkey.symm.eq_identifierKey
      cases hsame
    | _ => exact orderly_unexpected

theorem orderly_objectPatternRound {properties properties' : List PatternProperty}
    [Twins properties properties'] :
    Orderly place known.braced.inRound (objectPatternRound properties)
      (objectPatternRound properties') (known.braced.round known.opened) := by
  refine orderly_acceptClose.choose (.ret .stopped) ?_
  refine (orderly_nextIs .spread).choose ?_ ?_
  · refine orderly_restElement.bind fun rest rest' _ => ?_
    exact orderly_expectClose.step fun _ => .ret .stopped
  refine orderly_patternProperty.bind fun property property' _ => ?_
  refine (orderly_accept rfl).choose (.ret .refl) ?_
  exact orderly_expectClose.step fun _ => .ret .stopped

theorem orderly_objectPattern :
    Orderly place known objectPattern objectPattern fun _ => known.further := by
  refine orderly_startPosition.bind fun start start' _ => ?_
  refine orderly_expectOpen.step fun _ => ?_
  refine (Orderly.loop (fun _ _ _ => orderly_objectPatternRound) inferInstance).bind
    fun read read' hread => ?_
  obtain ⟨properties, rest⟩ := read
  obtain ⟨properties', rest'⟩ := read'
  have hproperties : Twins properties properties' := hread.of_fst
  have hrest : Twins rest rest' := hread.of_snd
  exact .spanned fun _ => .refl

theorem orderly_bindingTargetRule :
    Orderly place known bindingTargetRule bindingTargetRule fun _ => known.further := by
  refine orderly_look fun token => ?_
  have hname : Orderly place (known.facing token)
      (bindingIdentifier >>= fun read => pure (Pattern.identifier read.1 read.2))
      (bindingIdentifier >>= fun read => pure (Pattern.identifier read.1 read.2))
      fun _ => known.further := by
    refine orderly_bindingIdentifier.bind fun read read' hread => ?_
    obtain ⟨name, span⟩ := read
    obtain ⟨name', span'⟩ := read'
    obtain rfl : name = name' := hread.of_fst.eq
    exact .ret .refl
  cases token with
  | punctuator symbol =>
    cases symbol with
    | lBracket => exact orderly_arrayPattern
    | lBrace => exact orderly_objectPattern
    | _ => exact hname
  | _ => exact hname

end Script

end EcmaScript
