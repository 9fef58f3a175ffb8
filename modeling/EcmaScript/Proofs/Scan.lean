import EcmaScript.Proofs.Progress.Scan

/-!
What scans return.

A scan is run from a cursor step by step: each way of looking at the source or of taking a character
has a rule of its own, and a loop is its first round followed by the loop again. `Reads` says what a
scan reads wherever it stands.
-/

namespace EcmaScript

variable {α β : Type}

/-- The result of a loop is that of its last round. -/
theorem exists_last_round {σ : Type} {round : α → EStateM Failure σ (Round α β)} {bound : Nat}
    {a : α} {b : β} {s t : σ} (h : repeatRounds round bound a s = .ok b t) :
    ∃ a' middle, round a' middle = .ok (.stop b) t := by
  induction bound generalizing a s with
  | zero => cases h
  | succ bound ih =>
    simp only [repeatRounds, Bind.bind, EStateM.bind] at h
    cases hround : round a s with
    | error e middle =>
      rw [hround] at h
      cases h
    | ok next middle =>
      rw [hround] at h
      cases next with
      | again a' => exact ih h
      | stop b' =>
        cases h
        exact ⟨a, s, hround⟩

/-- A loop that ends goes on in the same way with more rounds to spare. -/
theorem repeatRounds_eq {σ : Type} {round : α → EStateM Failure σ (Round α β)} {m n : Nat} {a : α}
    {s : σ} (hm : ∀ s', repeatRounds round m a s ≠ .error .exhausted s')
    (hn : ∀ s', repeatRounds round n a s ≠ .error .exhausted s') :
    repeatRounds round m a s = repeatRounds round n a s := by
  induction m generalizing n a s with
  | zero => exact absurd rfl (hm s)
  | succ m ih =>
    cases n with
    | zero => exact absurd rfl (hn s)
    | succ n =>
      simp only [repeatRounds, Bind.bind, EStateM.bind] at hm hn ⊢
      cases hstep : round a s with
      | error e s' => rfl
      | ok next s' =>
        rw [hstep] at hm hn
        cases next with
        | stop b => rfl
        | again a' => exact ih hm hn

/-- Whether the token is one that is read without token rules and without reading anything
again. -/
def Token.isOfLanguage : Token → Bool
  | .privateName _ | .regExp _ _ | .templateMiddle _ | .templateTail _ | .endOfInput => false
  | _ => true

namespace Scan

def Returns (p : Scan α) (c : Cursor) (a : α) (c' : Cursor) : Prop := p c = .ok a c'

namespace Returns

variable {p : Scan α} {q : α → Scan β} {c c' c'' : Cursor} {a : α} {b : β}

theorem pure : Returns (Pure.pure a) c a c := rfl

theorem of_pure {a' : α} (h : Returns (Pure.pure a) c a' c') : a' = a ∧ c' = c := by
  cases h
  exact ⟨rfl, rfl⟩

theorem bind (hp : Returns p c a c') (hq : Returns (q a) c' b c'') : Returns (p >>= q) c b c'' := by
  unfold Returns at hp
  simp only [Returns, Bind.bind, EStateM.bind, hp]
  exact hq

/-- What a sequence returns its second part returns, behind the first one. -/
theorem of_bind (h : Returns (p >>= q) c b c'') :
    ∃ a c', Returns p c a c' ∧ Returns (q a) c' b c'' := by
  simp only [Returns, Bind.bind, EStateM.bind] at h
  cases hp : p c with
  | ok a c' =>
    rw [hp] at h
    exact ⟨a, c', hp, h⟩
  | error e c' =>
    rw [hp] at h
    cases h

theorem peek {q : Option Char → Scan β} (h : Returns (q c.rest.head?) c b c') :
    Returns (Scan.peek >>= q) c b c' := h

theorem peekSecond {q : Option Char → Scan β} (h : Returns (q c.rest.tail.head?) c b c') :
    Returns (Scan.peekSecond >>= q) c b c' := h

theorem nextIs {p : Char → Bool} {q : Bool → Scan β} (h : Returns (q (c.rest.head?.any p)) c b c') :
    Returns (Scan.nextIs p >>= q) c b c' := h

theorem of_ahead {q : List Char → Scan β} (h : Returns (Scan.ahead >>= q) c b c') :
    c.rest ≠ [] ∧ Returns (q c.rest) c b c' := by
  obtain ⟨_ | ⟨x, rest⟩, position⟩ := c
  · cases h
  · exact ⟨List.cons_ne_nil _ _, h⟩

theorem advance {x : Char} {rest : List Char} {position : Position} :
    Returns Scan.advance ⟨x :: rest, position⟩ x ⟨rest, position.past x rest.head?⟩ := rfl

theorem skip {x : Char} {rest : List Char} {position : Position} :
    Returns (Scan.skip 1) ⟨x :: rest, position⟩ () ⟨rest, position.past x rest.head?⟩ := rfl

end Returns

/-! ## Loops -/

/-- A scan that goes on does not run out of rounds. -/
theorem GoesOn.ne_exhausted {p : Scan α} {c : Cursor} (h : GoesOn p c) (c' : Cursor) :
    p c ≠ .error .exhausted c' := fun hp => by
  obtain ⟨-, d, hd⟩ := h.of_error hp
  cases hd

section

variable {round : α → Scan (Round α β)} {a : α} {c c' : Cursor}

/-- A loop is its first round and, if that goes on, the loop again. -/
theorem loop_eq (hgoes : ∀ a c, GoesOn (loop round a) c) (a : α) (c : Cursor) :
    loop round a c =
      match round a c with
      | .ok (.again a') c' => loop round a' c'
      | .ok (.stop b) c' => .ok b c'
      | .error e c' => .error e c' := by
  have hends := (hgoes a c).ne_exhausted
  change ∀ c', repeatAlong round c.rest a c ≠ _ at hends
  change repeatAlong round c.rest a c = _
  rw [repeatAlong_eq] at hends ⊢
  simp only [repeatRounds, Bind.bind, EStateM.bind] at hends ⊢
  cases hstep : round a c with
  | error e c' => rfl
  | ok next c' =>
    rw [hstep] at hends
    cases next with
    | stop b => rfl
    | again a' =>
      have hmore := (hgoes a' c').ne_exhausted
      change ∀ c'', repeatAlong round c'.rest a' c' ≠ _ at hmore
      change _ = repeatAlong round c'.rest a' c'
      rw [repeatAlong_eq] at hmore ⊢
      exact repeatRounds_eq hends hmore

/-- What a loop returns its first round returns, or the loop behind it. -/
theorem Returns.of_loop (hgoes : ∀ a c, GoesOn (loop round a) c) {b : β}
    (h : Returns (loop round a) c b c') :
    ∃ next middle, Returns (round a) c next middle ∧
      next.Holds (fun a' => Returns (loop round a') middle b c') fun b' => b' = b ∧ middle = c' := by
  rw [Returns, loop_eq hgoes] at h
  cases hstep : round a c with
  | error e middle =>
    rw [hstep] at h
    cases h
  | ok next middle =>
    rw [hstep] at h
    refine ⟨next, middle, hstep, ?_⟩
    cases next with
    | again a' => exact h
    | stop b' =>
      cases h
      exact ⟨rfl, rfl⟩

/-- A loop whose first round goes on. -/
theorem loop_again (hgoes : ∀ a c, GoesOn (loop round a) c) {a' : α}
    (h : Returns (round a) c (.again a') c') : loop round a c = loop round a' c' := by
  rw [loop_eq hgoes, h]

/-- A loop whose first round stops. -/
theorem loop_stop (hgoes : ∀ a c, GoesOn (loop round a) c) {b : β}
    (h : Returns (round a) c (.stop b) c') : Returns (loop round a) c b c' := by
  rw [Returns, loop_eq hgoes, h]

end

/-! ## What is read -/

def Reads (p : Scan α) (text : List Char) (a : α) (rest : List Char) : Prop :=
  ∀ position, ∃ position', Returns p ⟨text, position⟩ a ⟨rest, position'⟩

/-- The longest run of characters with a property is read to its end. -/
theorem reads_takeWhile (p : Char → Bool) (text : List Char) :
    Reads (takeWhile p) text (text.takeWhile p) (text.dropWhile p) := by
  -- The loop, with some characters of the run read before.
  have hloop (read : List Char) : Reads (loop (fun read => do
      if ← nextIs p then
        return .again ((← advance) :: read)
      else
        return .stop read.reverse) read) text (read.reverse ++ text.takeWhile p)
      (text.dropWhile p) := by
    have hgoes (read : List Char) (c : Cursor) : GoesOn (loop (fun read => do
        if ← nextIs p then
          return .again ((← advance) :: read)
        else
          return .stop read.reverse) read) c := by
      refine Goes.loopOn (fun read c => Goes.nextIs (fun hsome => ?_) fun _ => Goes.pure trivial) _
      refine (Goes.advance hsome).bind fun _ c' _ hone => Goes.pure ?_
      change c'.rest.length < c.rest.length
      omega
    induction text generalizing read with
    | nil =>
      rw [List.takeWhile_nil, List.append_nil]
      exact fun position => ⟨position, loop_stop hgoes rfl⟩
    | cons x text ih =>
      intro position
      cases hx : p x with
      | false =>
        rw [List.takeWhile_cons_of_neg (by simp [hx]), List.dropWhile_cons_of_neg (by simp [hx]),
          List.append_nil]
        refine ⟨position, loop_stop hgoes (.nextIs ?_)⟩
        rw [List.head?_cons, Option.any_some, hx]
        rfl
      | true =>
        obtain ⟨stop, hstop⟩ := ih (x :: read) (position.past x text.head?)
        rw [List.takeWhile_cons_of_pos hx, List.dropWhile_cons_of_pos hx]
        rw [List.reverse_cons, List.append_assoc, List.singleton_append] at hstop
        refine ⟨stop, (loop_again hgoes (.nextIs ?_)).trans hstop⟩
        rw [List.head?_cons, Option.any_some, hx]
        rfl
  exact hloop []

/-! ## What kind of token is read -/

/-- Whenever the scan succeeds, its result has the property. -/
def Yields (P : α → Prop) (p : Scan α) : Prop := ∀ c a c', p c = .ok a c' → P a

namespace Yields

variable {P : β → Prop}

theorem done {b : β} (h : P b) : Yields P (pure b) := by
  rintro c a c' ⟨⟩
  exact h

theorem failed (cause : ScanCause) (position : Position) : Yields P (fail cause position) := by
  rintro c a c' ⟨⟩

theorem failedThen (cause : ScanCause) (position : Position) {q : α → Scan β} :
    Yields P (fail cause position >>= q) := by
  rintro c a c' ⟨⟩

theorem step {p : Scan α} {q : α → Scan β} (hq : ∀ a, Yields P (q a)) : Yields P (p >>= q) := by
  intro c b c' h
  simp only [Bind.bind, EStateM.bind] at h
  cases hp : p c with
  | ok a between =>
    rw [hp] at h
    exact hq a between b c' h
  | error e between =>
    rw [hp] at h
    cases h

theorem ite {c : Prop} [Decidable c] {p q : Scan β} (hp : Yields P p) (hq : Yields P q) :
    Yields P (if c then p else q) := by
  by_cases h : c
  · rwa [if_pos h]
  · rwa [if_neg h]

theorem mono {Q : β → Prop} {p : Scan β} (h : Yields P p) (hPQ : ∀ b, P b → Q b) : Yields Q p :=
  fun c b c' hp => hPQ b (h c b c' hp)

end Yields

theorem yields_numericLiteral {P : Token → Prop} (hnumber : ∀ value, P (.number value))
    (hbigInt : ∀ text, P (.bigInt text)) (first : Char) (start : Position) :
    Yields P (numericLiteral first start) := by
  have hrest : ∀ token : Token, P token → Yields P (do
      if ← nextIs isIdStart then fail .identifierAfterNumber (← here)
      return token) := fun token htoken =>
    .step fun follows => .ite (.step fun _ => .step fun _ => .done htoken) (.done htoken)
  unfold numericLiteral
  refine .step fun literal => .step fun isBig => .ite ?_ ?_
  · cases literal.integerText? with
    | none => exact .failedThen _ _
    | some text => exact .step fun _ => hrest (.bigInt text) (hbigInt text)
  · cases literal.value? with
    | none => exact .failedThen _ _
    | some value => exact hrest (.number value) (hnumber value)

theorem yields_identifier (first : Char) (start : Position) :
    Yields (·.isOfLanguage) (identifier first start) := by
  unfold identifier
  refine .step fun cursor => .step fun text => .ite (.failedThen _ _) ?_
  refine .ite (.done rfl) ?_
  cases Keyword.ofWord? (String.ofList text) with
  | none => exact .done rfl
  | some keyword => exact .done rfl

theorem yields_templateStart {P : Token → Prop} (hwhole : ∀ cooked, P (.templateLiteral cooked))
    (hhead : ∀ cooked, P (.templateHead cooked)) (start : Position) :
    Yields P (templateStart start) := by
  unfold templateStart
  refine .step fun (cooked, ending) => ?_
  cases ending with
  | close => exact .done (hwhole _)
  | substitution => exact .done (hhead _)

theorem yields_languageToken (first : Char) (start : Position) :
    Yields (·.isOfLanguage) (languageToken first start) := by
  have hnumber (first : Char) : Yields (·.isOfLanguage) (numericLiteral first start) :=
    yields_numericLiteral (fun _ => rfl) (fun _ => rfl) first start
  unfold languageToken
  refine .step fun cursor => .ite (.step fun _ => hnumber _) ?_
  cases Punctuator.ofText? cursor.rest with
  | some symbol => exact .step fun _ => .done rfl
  | none =>
    refine .ite (.step fun _ => hnumber _) ?_
    refine .ite (.step fun _ => .step fun _ => .done rfl) ?_
    refine .ite (.step fun _ => yields_templateStart (fun _ => rfl) (fun _ => rfl) start) ?_
    exact .ite (yields_identifier first start) (.step fun _ => .failed _ _)

end Scan

end EcmaScript
