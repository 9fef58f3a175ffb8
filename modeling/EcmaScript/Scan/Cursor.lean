import EcmaScript.Diagnostic
import EcmaScript.Text.Classes

/-!
The scan cursor and the scanning monad.

A cursor is the rest of the source with the position in front of it. Reading moves it character by
character through `advance`, which is the only step that consumes input. Reading past the end,
looking for text behind it and going back past the start of a line fail with `overrun`. A scan that
fails keeps the cursor where the failure happened: what is read next starts there.
-/

namespace EcmaScript

/-- A place in a source: what is left to read, and the position in front of it. -/
structure Cursor where
  rest : List Char
  position : Position
deriving DecidableEq

/-- The cursor at the start of a source. -/
def Cursor.ofSource (source : List Char) : Cursor := ⟨source, .start⟩

/-- Outcome of one round of a loop: go on with a new state, or stop with a result. -/
inductive Round (α β : Type) where
  | again (state : α)
  | stop (result : β)

/-- Repeats `round` until it stops, at most `bound` times. -/
def repeatRounds {σ α β : Type} (round : α → EStateM Failure σ (Round α β)) :
    Nat → α → EStateM Failure σ β
  | 0, _ => throw .exhausted
  | bound + 1, a => do
    match ← round a with
    | .again a' => repeatRounds round bound a'
    | .stop b => pure b

/-- Repeats `round` until it stops, at most once more than the list is long. -/
def repeatAlong {σ τ α β : Type} (round : α → EStateM Failure σ (Round α β)) :
    List τ → α → EStateM Failure σ β
  | [], a => repeatRounds round 1 a
  | _ :: bound, a => do
    match ← round a with
    | .again a' => repeatAlong round bound a'
    | .stop b => pure b

/-- Counting along a list is counting to its length. -/
theorem repeatAlong_eq {σ τ α β : Type} (round : α → EStateM Failure σ (Round α β))
    (bound : List τ) (a : α) :
    repeatAlong round bound a = repeatRounds round (bound.length + 1) a := by
  induction bound generalizing a with
  | nil => rfl
  | cons _ bound ih => simp only [repeatAlong, List.length_cons, repeatRounds, ih]

abbrev Scan := EStateM Failure Cursor

namespace Scan

def fail {α : Type} (cause : ScanCause) (position : Position) : Scan α :=
  throw (.error (.located (.scan cause) position))

def here : Scan Position := do return (← get).position

def peek : Scan (Option Char) := do return (← get).rest.head?

/-- The character after the next one, if any. -/
def peekSecond : Scan (Option Char) := do return (← get).rest.tail.head?

/-- Reads one character; fails with `overrun` at the end. -/
def advance : Scan Char := fun cursor =>
  match cursor.rest with
  | [] => .error .overrun cursor
  | c :: rest => .ok c ⟨rest, cursor.position.past c rest.head?⟩

/-- Stands in front of `c` again, the last character that has been read, on the same line; fails
with `overrun` at the start of a line. -/
def back (c : Char) : Scan Unit := fun cursor =>
  match cursor.position with
  | ⟨line, column + 1, offset + 1⟩ => .ok () ⟨c :: cursor.rest, ⟨line, column, offset⟩⟩
  | _ => .error .overrun cursor

/-- Reads one character and goes back in front of it. -/
def revisit : Scan Unit := do back (← advance)

/-- Going back to where a character of the line was read. -/
theorem revisit_eq {x : Char} (hx : isLineTerminator x = false) (rest : List Char)
    (position : Position) : revisit ⟨x :: rest, position⟩ = .ok () ⟨x :: rest, position⟩ := by
  have hreturn : (x == '\r') = false := by
    rw [beq_eq_false_iff_ne]
    rintro rfl
    cases hx
  change back x ⟨rest, position.past x rest.head?⟩ = _
  simp only [Position.past, hreturn, hx, Bool.false_and, Bool.false_eq_true, if_false]
  rfl

/-- Whatever is revisited, the cursor stands where it was. -/
theorem eq_of_revisit {c c' : Cursor} (h : revisit c = .ok () c') : c' = c := by
  obtain ⟨rest, position⟩ := c
  cases rest with
  | nil => cases h
  | cons x rest =>
    change back x ⟨rest, position.past x rest.head?⟩ = _ at h
    unfold Position.past at h
    split at h
    · cases h
      rfl
    · split at h
      · cases h
      · cases h
        rfl

/-- The text in front of the cursor; fails with `overrun` at the end. -/
def ahead : Scan (List Char) := fun cursor =>
  match cursor.rest with
  | [] => .error .overrun cursor
  | c :: rest => .ok (c :: rest) cursor

def nextChar : Scan Char := do
  match ← peek with
  | some c => return c
  | none => throw .overrun

/-- Reads `n` characters and drops them. -/
def skip : Nat → Scan Unit
  | 0 => pure ()
  | n + 1 => do
    let _ ← advance
    skip n

def bump : Scan (Option Char) := do
  match ← peek with
  | none => pure none
  | some _ => some <$> advance

/-- Reads the next character if it is `expected`, and says whether it did. -/
def accept (expected : Char) : Scan Bool := do
  if (← peek) == some expected then
    let _ ← advance
    pure true
  else
    pure false

/-- Whether the next character exists and has the property. -/
def nextIs (p : Char → Bool) : Scan Bool := do return (← peek).any p

/-- Repeats a round that consumes a character whenever it goes on. -/
def loop {α β : Type} (round : α → Scan (Round α β)) (a : α) : Scan β := do
  repeatAlong round (← get).rest a

/-- Reads the longest run of characters with the property. -/
def takeWhile (p : Char → Bool) : Scan (List Char) :=
  loop (fun read => do
    if ← nextIs p then
      return .again ((← advance) :: read)
    else
      return .stop read.reverse) []

end Scan

end EcmaScript
