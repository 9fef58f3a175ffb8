import EcmaScript.Proofs.Scan

/-!
What stands between tokens, as text.

`Trivia following text` says that `text`, in front of `following`, is made of separators and
comments: a line comment ends in front of a line terminator or at the end of the source, a block
comment at the first mark that closes it. At whatever position, the scanner skips exactly the trivia
that no more trivia follows.
-/

namespace EcmaScript

def isSeparator (c : Char) : Bool := isBlank c || isLineTerminator c

/-- The text is what the scanner skips in front of `following`. -/
inductive Trivia (following : List Char) : List Char → Prop where
  | nil : Trivia following []
  | separator {c : Char} {text : List Char} (hc : isSeparator c = true)
      (rest : Trivia following text) : Trivia following (c :: text)
  /-- A line comment, which leaves its line terminator. -/
  | line {body text : List Char} (hbody : ∀ c ∈ body, isLineTerminator c = false)
      (hend : (text ++ following).head?.all isLineTerminator = true)
      (rest : Trivia following text) : Trivia following ('/' :: '/' :: (body ++ text))
  /-- A block comment through the first mark that closes it. -/
  | block {body text : List Char} (hbody : ¬['*', '/'] <:+: body)
      (rest : Trivia following text) : Trivia following ('/' :: '*' :: (body ++ '*' :: '/' :: text))

/-- Of what follows trivia only the first character matters to it. -/
theorem Trivia.congr {following following' text : List Char}
    (hhead : following.head? = following'.head?) (h : Trivia following text) :
    Trivia following' text := by
  induction h with
  | nil => exact .nil
  | separator hc _ ih => exact .separator hc ih
  | line hbody hend _ ih =>
    refine .line hbody ?_ ih
    rwa [List.head?_append, ← hhead, ← List.head?_append]
  | block hbody _ ih => exact .block hbody ih

/-- Whether the text begins with a separator or with the opening mark of a comment. -/
def opensTrivia : List Char → Bool
  | '/' :: '/' :: _ => true
  | '/' :: '*' :: _ => true
  | c :: _ => isSeparator c
  | [] => false

/-- Only a slash needs a second character to open trivia. -/
theorem opensTrivia_cons (x : Char) (text : List Char) : opensTrivia (x :: text) =
    if x = '/' then text.head?.any fun c => c == '/' || c == '*' else isSeparator x := by
  unfold opensTrivia
  split
  · next heq => cases heq; rfl
  · next heq => cases heq; rfl
  · next c rest hline hblock heq =>
    cases heq
    split
    · next hslash =>
      subst hslash
      cases text with
      | nil => rfl
      | cons c text =>
        have hc : ¬(c == '/' || c == '*') = true := by
          rw [Bool.or_eq_true, beq_iff_eq, beq_iff_eq]
          rintro (rfl | rfl)
          · exact hline _ rfl rfl
          · exact hblock _ rfl rfl
        rw [List.head?_cons, Option.any_some, Bool.eq_false_iff.2 hc]
        rfl
    · rfl
  · next heq => cases heq

theorem ne_lineFeed_of_not_opensTrivia {text : List Char} (h : opensTrivia text = false) :
    text.head? ≠ some '\n' := by
  rintro hhead
  obtain ⟨rest, rfl⟩ := List.head?_eq_some_iff.1 hhead
  cases h

namespace Scan

/-! ## Comments -/

theorem reads_skipLine (text : List Char) :
    Reads skipLine text () (text.dropWhile (!isLineTerminator ·)) := by
  intro position
  obtain ⟨stop, hstop⟩ := reads_takeWhile (!isLineTerminator ·) text position
  exact ⟨stop, hstop.bind .pure⟩

/-- A line comment is skipped up to its line terminator. -/
theorem reads_skipLine_append {body rest : List Char}
    (hbody : ∀ c ∈ body, isLineTerminator c = false)
    (hend : rest.head?.all isLineTerminator = true) : Reads skipLine (body ++ rest) () rest := by
  have hread := reads_skipLine (body ++ rest)
  rw [List.dropWhile_append_of_pos fun c hc => by simp [hbody c hc]] at hread
  cases rest with
  | nil => exact hread
  | cons c rest =>
    have hc : isLineTerminator c = true := hend
    rwa [List.dropWhile_cons_of_neg (by simp [hc])] at hread

/-- Skips a block comment behind its opening mark. -/
def closeComment (start : Position) : Scan Unit :=
  loop (fun _ => do
    match ← peek, ← peekSecond with
    | none, _ => fail .unterminatedComment start
    | some '*', some '/' =>
      skip 2
      return .stop ()
    | some _, _ =>
      skip 1
      return .again ()) ()

theorem closeComment_goesOn (start : Position) (c : Cursor) : GoesOn (closeComment start) c := by
  refine Goes.loopOn (fun _ c => Goes.peek (Goes.peekSecond ?_)) ()
  split
  · exact Goes.fail _ _
  · next hsecond =>
    exact (Goes.skip (Goes.length_of_peekSecond hsecond)).bind fun _ _ _ _ => Goes.pure trivial
  · next hnext _ =>
    exact Goes.one (Goes.length_pos_of_peek hnext) fun c' hless => Goes.pure hless

theorem closeComment_close (start position : Position) (rest : List Char) :
    Returns (closeComment start) ⟨'*' :: '/' :: rest, position⟩ ()
      ⟨rest, (position.past '*' (some '/')).past '/' rest.head?⟩ := rfl

theorem closeComment_cons (start position : Position) {x : Char} {rest : List Char}
    (h : ¬(x = '*' ∧ rest.head? = some '/')) :
    closeComment start ⟨x :: rest, position⟩ =
      closeComment start ⟨rest, position.past x rest.head?⟩ := by
  refine loop_again (fun _ => closeComment_goesOn start) (.peek (.peekSecond ?_))
  split
  · next hnone => cases hnone
  · next hx hsecond =>
    cases hx
    exact absurd ⟨rfl, hsecond⟩ h
  · rfl

/-- A block comment is skipped through the first closing mark. -/
theorem reads_closeComment (start : Position) {body : List Char} (hbody : ¬['*', '/'] <:+: body)
    (rest : List Char) : Reads (closeComment start) (body ++ '*' :: '/' :: rest) () rest := by
  induction body with
  | nil => exact fun position => ⟨_, closeComment_close start position rest⟩
  | cons x body ih =>
    intro position
    have hmore : ¬['*', '/'] <:+: body := fun h => hbody (h.trans (List.suffix_cons x body).isInfix)
    have hx : ¬(x = '*' ∧ (body ++ '*' :: '/' :: rest).head? = some '/') := by
      rintro ⟨rfl, hnext⟩
      cases body with
      | nil => cases hnext
      | cons y body =>
        cases hnext
        exact hbody ⟨[], body, rfl⟩
    obtain ⟨stop, hstop⟩ := ih hmore (position.past x _)
    exact ⟨stop, (closeComment_cons start position hx).trans hstop⟩

/-- What is skipped behind the opening mark ends with the first closing mark. -/
theorem closes_of_closeComment {start position : Position} {text : List Char} {c : Cursor}
    (h : Returns (closeComment start) ⟨text, position⟩ () c) :
    ∃ body, ¬['*', '/'] <:+: body ∧ text = body ++ '*' :: '/' :: c.rest := by
  induction text generalizing position with
  | nil => cases h
  | cons x text ih =>
    by_cases hx : x = '*' ∧ text.head? = some '/'
    · obtain ⟨rfl, hnext⟩ := hx
      obtain ⟨rest, rfl⟩ := List.head?_eq_some_iff.1 hnext
      cases h.symm.trans (closeComment_close start position rest)
      exact ⟨[], by simp, rfl⟩
    · rw [Returns, closeComment_cons start position hx] at h
      obtain ⟨body, hbody, rfl⟩ := ih h
      refine ⟨x :: body, fun hclosed => ?_, rfl⟩
      rcases List.infix_cons_iff.1 hclosed with hprefix | hinfix
      · obtain ⟨rest, hrest⟩ := hprefix
        cases hrest
        exact hx ⟨rfl, rfl⟩
      · exact hbody hinfix

/-! ## Trivia -/

theorem skipTrivia_separator {x : Char} (hx : isSeparator x = true) (rest : List Char)
    (position : Position) :
    skipTrivia ⟨x :: rest, position⟩ = skipTrivia ⟨rest, position.past x rest.head?⟩ := by
  refine loop_again (fun _ _ => Goes.skipTrivia) (.peek (.peekSecond ?_))
  split
  · next hslash _ =>
    cases hslash
    cases hx
  · next hslash _ =>
    cases hslash
    cases hx
  · next hsome _ _ =>
    cases hsome
    rw [if_pos (show (isBlank x || isLineTerminator x) = true from hx)]
    rfl
  · next hnone => cases hnone

theorem skipTrivia_line {rest : List Char} {position : Position} {c : Cursor}
    (h : Returns skipLine ⟨'/' :: '/' :: rest, position⟩ () c) :
    skipTrivia ⟨'/' :: '/' :: rest, position⟩ = skipTrivia c :=
  loop_again (fun _ _ => Goes.skipTrivia) (.peek (.peekSecond (h.bind .pure)))

theorem skipTrivia_block {rest : List Char} {position : Position} {c : Cursor}
    (h : Returns skipBlockComment ⟨'/' :: '*' :: rest, position⟩ () c) :
    skipTrivia ⟨'/' :: '*' :: rest, position⟩ = skipTrivia c :=
  loop_again (fun _ _ => Goes.skipTrivia) (.peek (.peekSecond (h.bind .pure)))

/-- A block comment that is not closed stops the scan. -/
theorem closes_of_skipTrivia {rest : List Char} {position : Position} {c : Cursor}
    (h : Returns skipTrivia ⟨'/' :: '*' :: rest, position⟩ () c) :
    ∃ c', Returns skipBlockComment ⟨'/' :: '*' :: rest, position⟩ () c' := by
  obtain ⟨next, _, hround, -⟩ := Returns.of_loop (fun _ _ => Goes.skipTrivia) h
  have hblock : Returns (skipBlockComment >>= fun _ => pure (Round.again ())) _ next _ := hround
  obtain ⟨_, c', hskip, -⟩ := hblock.of_bind
  exact ⟨c', hskip⟩

theorem skipTrivia_stop {text : List Char} (h : opensTrivia text = false) (position : Position) :
    Returns skipTrivia ⟨text, position⟩ () ⟨text, position⟩ := by
  refine loop_stop (fun _ _ => Goes.skipTrivia) (.peek (.peekSecond ?_))
  cases text with
  | nil => rfl
  | cons x rest =>
    split
    · next hx hsecond =>
      cases hx
      obtain ⟨rest, rfl⟩ := List.head?_eq_some_iff.1 hsecond
      cases h
    · next hx hsecond =>
      cases hx
      obtain ⟨rest, rfl⟩ := List.head?_eq_some_iff.1 hsecond
      cases h
    · next hsome hline hblock =>
      cases hsome
      have hx : isSeparator x = false := by
        unfold opensTrivia at h
        split at h
        · cases h
        · cases h
        · next heq => cases heq; exact h
        · next heq => cases heq
      unfold isSeparator at hx
      rw [hx]
      rfl
    · next hnone => cases hnone

/-- Trivia that no more trivia follows is skipped as a whole. -/
theorem reads_skipTrivia {following text : List Char} (h : Trivia following text)
    (hstop : opensTrivia following = false) : Reads skipTrivia (text ++ following) () following := by
  induction h with
  | nil => exact fun position => ⟨position, skipTrivia_stop hstop position⟩
  | separator hc _ ih =>
    intro position
    obtain ⟨stop, hstop⟩ := ih (position.past _ _)
    exact ⟨stop, (skipTrivia_separator hc _ _).trans hstop⟩
  | @line body text hbody hend _ ih =>
    intro position
    have hmarked : ∀ c ∈ '/' :: '/' :: body, isLineTerminator c = false := by
      simpa [show isLineTerminator '/' = false from rfl] using hbody
    obtain ⟨middle, hline⟩ := reads_skipLine_append hmarked hend position
    obtain ⟨stop, hrest⟩ := ih middle
    rw [List.cons_append, List.cons_append, List.append_assoc]
    exact ⟨stop, (skipTrivia_line hline).trans hrest⟩
  | @block body text hbody _ ih =>
    intro position
    obtain ⟨middle, hclose⟩ := reads_closeComment position hbody (text ++ following)
      ((position.past '/' (some '*')).past '*' (body ++ '*' :: '/' :: (text ++ following)).head?)
    obtain ⟨stop, hrest⟩ := ih middle
    simp only [List.cons_append, List.append_assoc]
    exact ⟨stop, (skipTrivia_block hclose).trans hrest⟩

/-- What is skipped is trivia, and no more trivia follows. -/
theorem trivia_of_skipTrivia {text : List Char} {position : Position} {c : Cursor}
    (h : Returns skipTrivia ⟨text, position⟩ () c) :
    ∃ gap, text = gap ++ c.rest ∧ Trivia c.rest gap ∧ opensTrivia c.rest = false := by
  induction hlength : text.length using Nat.strongRecOn generalizing text position with
  | _ n ih =>
    subst hlength
    cases hopens : opensTrivia text with
    | false =>
      cases h.symm.trans (skipTrivia_stop hopens position)
      exact ⟨[], rfl, .nil, hopens⟩
    | true =>
      unfold opensTrivia at hopens
      split at hopens
      · next rest =>
        obtain ⟨middle, hline⟩ := reads_skipLine ('/' :: '/' :: rest) position
        rw [Returns, skipTrivia_line hline] at h
        have hmark : isLineTerminator '/' = false := rfl
        simp only [List.dropWhile_cons, hmark, Bool.not_false, if_true] at h
        have hless : (rest.dropWhile (!isLineTerminator ·)).length <
            ('/' :: '/' :: rest).length := by
          have hle := (List.dropWhile_suffix (l := rest) (!isLineTerminator ·)).length_le
          simp only [List.length_cons]
          omega
        obtain ⟨gap, hgap, htrivia, hstop⟩ := ih _ hless h rfl
        refine ⟨'/' :: '/' :: (rest.takeWhile (!isLineTerminator ·) ++ gap), ?_,
          .line (fun c hc => ?_) ?_ htrivia, hstop⟩
        · rw [List.cons_append, List.cons_append, List.append_assoc, ← hgap,
            List.takeWhile_append_dropWhile]
        · simpa using List.all_eq_true.1 (List.all_takeWhile (p := (!isLineTerminator ·))) c hc
        · rw [← hgap]
          cases hhead : (rest.dropWhile (!isLineTerminator ·)).head? with
          | none => rfl
          | some c =>
            have hc := List.head?_dropWhile_not (!isLineTerminator ·) rest
            rw [hhead] at hc
            simpa using hc
      · next rest =>
        obtain ⟨middle, hblock⟩ := closes_of_skipTrivia h
        rw [Returns, skipTrivia_block hblock] at h
        obtain ⟨body, hbody, rfl⟩ := closes_of_closeComment hblock
        have hless : middle.rest.length <
            ('/' :: '*' :: (body ++ '*' :: '/' :: middle.rest)).length := by
          simp only [List.length_cons, List.length_append]
          omega
        obtain ⟨gap, hgap, htrivia, hstop⟩ := @ih _ hless middle.rest _ h rfl
        refine ⟨'/' :: '*' :: (body ++ '*' :: '/' :: gap), ?_, .block hbody htrivia, hstop⟩
        simp only [List.cons_append, List.append_assoc, ← hgap]
      · next x rest _ _ =>
        rw [Returns, skipTrivia_separator hopens] at h
        obtain ⟨gap, rfl, htrivia, hstop⟩ := ih _ (Nat.lt_succ_self _) h rfl
        exact ⟨x :: gap, rfl, .separator hopens htrivia, hstop⟩
      · cases hopens

end Scan

end EcmaScript
