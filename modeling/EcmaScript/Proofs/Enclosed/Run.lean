import EcmaScript.Proofs.Imitation

/-!
Runs up to the end of the source, copied in front of a closing parenthesis.

A part of a source that is read up to its end can also stand in parentheses. `Copies` compares two
rules: what the first one returns, the second one returns wherever it is fed the tokens that the
first one has consumed, up to positions. What stands behind these tokens may differ, and `Reach`
says how: with the reach `enclosed` there may be a closing parenthesis where the source of the first
rule ends.
-/

namespace EcmaScript

variable {σ α β γ κ : Type}

/-! ## The end of a source and a closing parenthesis -/

def Lexeme.ending (newline : Bool) : Lexeme := ⟨.endOfInput, newline, none⟩

def Lexeme.closing (newline : Bool) : Lexeme := ⟨.punctuator .rParen, newline, none⟩

/-- The tokens look alike, or the first ones end with the source where a closing parenthesis stands
in the other ones. -/
def LookEnclosed (tokens others : List Lexeme) : Prop :=
  LookAlike tokens others ∨ ∃ front newline behind,
    tokens = front ++ [.ending newline] ∧ others = front ++ .closing newline :: behind

/-- The tokens are the same, or the end of the source and a closing parenthesis. -/
def Lexeme.Encloses (lexeme other : Lexeme) : Prop :=
  other = lexeme ∨ ∃ newline, lexeme = .ending newline ∧ other = .closing newline

theorem LookAlike.exists_head {tokens others : List Lexeme} (h : LookAlike tokens others) :
    ∃ first rest rest', tokens = first :: rest ∧ others = first :: rest' := by
  obtain ⟨first, rest, rest', htokens, hothers, -⟩ := h
  exact ⟨first, rest, rest', htokens, hothers⟩

namespace LookEnclosed

variable {tokens others : List Lexeme}

theorem behind (front : List Lexeme) (h : LookEnclosed tokens others) :
    LookEnclosed (front ++ tokens) (front ++ others) := by
  obtain halike | ⟨front', newline, behind, rfl, rfl⟩ := h
  · exact .inl (halike.behind front)
  · exact .inr ⟨front ++ front', newline, behind, (List.append_assoc ..).symm,
      (List.append_assoc ..).symm⟩

theorem exists_heads (h : LookEnclosed tokens others) : ∃ first rest first' rest',
    tokens = first :: rest ∧ others = first' :: rest' ∧ first.Encloses first' := by
  obtain halike | ⟨front, newline, behind, rfl, rfl⟩ := h
  · obtain ⟨first, rest, rest', htokens, hothers⟩ := halike.exists_head
    exact ⟨first, rest, first, rest', htokens, hothers, .inl rfl⟩
  · cases front with
    | nil => exact ⟨_, [], _, behind, rfl, rfl, .inr ⟨newline, rfl, rfl⟩⟩
    | cons first front => exact ⟨first, _, first, _, rfl, rfl, .inl rfl⟩

end LookEnclosed

/-! ## How far a rule sees -/

/-- The last token, if there is one, is not the end of the source. -/
def Placed.StopsShort (consumed : List Placed) : Prop :=
  ∀ placed ∈ consumed.getLast?, placed.token ≠ .endOfInput

namespace Placed.StopsShort

theorem nil : StopsShort [] := by simp [StopsShort]

theorem singleton {placed : Placed} (h : placed.token ≠ .endOfInput) : StopsShort [placed] := by
  rintro _ ⟨⟩
  exact h

variable {consumed consumed' : List Placed}

theorem append_of_ne_nil (hne : consumed' ≠ []) (h : StopsShort consumed') :
    StopsShort (consumed ++ consumed') := by
  unfold StopsShort
  rwa [List.getLast?_append_of_ne_nil _ hne]

theorem append (h : StopsShort consumed) (h' : StopsShort consumed') :
    StopsShort (consumed ++ consumed') := by
  by_cases hnil : consumed' = []
  · rwa [hnil, List.append_nil]
  · exact h'.append_of_ne_nil hnil

theorem tail {placed : Placed} (h : StopsShort (placed :: consumed)) : StopsShort consumed := by
  cases consumed with
  | nil => exact nil
  | cons next consumed =>
    unfold StopsShort at h
    rwa [List.getLast?_cons_cons] at h

end Placed.StopsShort

/-- What may differ behind a rule, and how much it consumes. -/
inductive Reach where
  /-- What stands behind the rule looks alike. -/
  | alike
  /-- There may be a closing parenthesis in place of the end of the source. -/
  | enclosed
  /-- The same, and the rule consumes a token. -/
  | consuming
  /-- The same, and the rule consumes a token that is no word, or two tokens. -/
  | settled

namespace Reach

/-- What may stand behind the two rules. -/
def Admits : Reach → List Lexeme → List Lexeme → Prop
  | .alike => LookAlike
  | _ => LookEnclosed

/-- What has to be consumed. -/
def Asks : Reach → List Placed → Prop
  | .alike, _ => True
  | .enclosed, consumed => Placed.StopsShort consumed
  | .consuming, consumed => Placed.StopsShort consumed ∧ consumed ≠ []
  | .settled, consumed => Placed.StopsShort consumed ∧ ∃ first rest, consumed = first :: rest ∧
    (first.token.isWord = true → rest ≠ [])

def join : Reach → Reach → Reach
  | reach, .enclosed => reach
  | _, .alike => .alike
  | _, .settled => .settled
  | .alike, .consuming => .alike
  | .enclosed, .consuming => .consuming
  | .consuming, .consuming => .settled
  | .settled, .consuming => .settled

/-- The reach of a choice between two rules. -/
def meet : Reach → Reach → Reach
  | .settled, reach | reach, .settled => reach
  | .alike, _ | _, .alike => .alike
  | .consuming, .consuming => .consuming
  | .enclosed, _ | _, .enclosed => .enclosed

/-- The reach of a rule with a token in front of it, whichever it is. -/
def skipped : Reach → Reach
  | .alike | .enclosed => .alike
  | .consuming | .settled => .consuming

/-- A rule of the first reach has the second one, too. -/
structure Covers (reach reach' : Reach) : Prop where
  admits : ∀ {tokens others}, reach'.Admits tokens others → reach.Admits tokens others
  asks : ∀ {consumed}, reach.Asks consumed → reach'.Asks consumed

theorem Admits.enclosed {reach : Reach} {tokens others : List Lexeme}
    (h : reach.Admits tokens others) : LookEnclosed tokens others := by
  cases reach with
  | alike => exact .inl h
  | _ => exact h

theorem Covers.refl (reach : Reach) : reach.Covers reach := ⟨id, id⟩

theorem covers_alike (reach : Reach) : reach.Covers .alike :=
  ⟨fun h => by cases reach <;> first | exact h | exact .inl h, fun _ => trivial⟩

theorem covers_enclosed {reach : Reach} (h : reach ≠ .alike) : reach.Covers .enclosed := by
  refine ⟨fun hadmits => ?_, fun hasks => ?_⟩
  · cases reach with
    | alike => exact absurd rfl h
    | _ => exact hadmits
  · cases reach with
    | alike => exact absurd rfl h
    | enclosed => exact hasks
    | _ => exact hasks.1

theorem settled_covers (reach : Reach) : Reach.settled.Covers reach := by
  cases reach with
  | alike => exact covers_alike _
  | enclosed => exact covers_enclosed nofun
  | consuming =>
    refine ⟨id, ?_⟩
    rintro _ ⟨hstops, first, rest, rfl, -⟩
    exact ⟨hstops, List.cons_ne_nil _ _⟩
  | settled => exact .refl _

theorem covers_meet_left (reach reach' : Reach) : reach.Covers (reach.meet reach') := by
  cases reach <;> cases reach' <;> first
    | exact .refl _
    | exact covers_alike _
    | exact covers_enclosed nofun
    | exact settled_covers _

theorem covers_meet_right (reach reach' : Reach) : reach'.Covers (reach.meet reach') := by
  cases reach <;> cases reach' <;> first
    | exact .refl _
    | exact covers_alike _
    | exact covers_enclosed nofun
    | exact settled_covers _

theorem Admits.of_join {reach reach' : Reach} {tokens others : List Lexeme}
    (h : (reach.join reach').Admits tokens others) : reach'.Admits tokens others := by
  cases reach <;> cases reach' <;> first | exact h | exact .inl h

/-- What stands behind the first of two rules. -/
theorem Admits.behind {reach reach' : Reach} {tokens others : List Lexeme}
    (h : (reach.join reach').Admits tokens others) {consumed : List Placed}
    (hasks : reach'.Asks consumed) : reach.Admits (consumed.map Placed.toLexeme ++ tokens)
      (consumed.map Placed.toLexeme ++ others) := by
  have henclosed : LookEnclosed (consumed.map Placed.toLexeme ++ tokens)
      (consumed.map Placed.toLexeme ++ others) := h.enclosed.behind _
  cases reach with
  | alike =>
    cases reach' with
    | settled =>
      obtain ⟨-, first, rest, rfl, hword⟩ := hasks
      refine ⟨first.toLexeme, _, _, rfl, rfl, fun hfirst => ?_⟩
      obtain ⟨second, more, rfl⟩ := List.exists_cons_of_ne_nil (hword hfirst)
      exact ⟨second.toLexeme, _, _, rfl, rfl⟩
    | _ => exact LookAlike.behind _ h
  | _ => exact henclosed

theorem Admits.of_skipped {reach : Reach} {tokens others : List Lexeme}
    (h : reach.skipped.Admits tokens others) : reach.Admits tokens others := by
  cases reach <;> first | exact h | exact .inl h

theorem Asks.skipped {reach : Reach} {consumed : List Placed} (h : reach.Asks consumed)
    (front : List Placed) : reach.skipped.Asks (front ++ consumed) := by
  cases reach with
  | alike | enclosed => trivial
  | consuming => exact ⟨h.1.append_of_ne_nil h.2, List.append_ne_nil_of_right_ne_nil _ h.2⟩
  | settled =>
    obtain ⟨hstops, first, rest, rfl, -⟩ := h
    have hne := List.cons_ne_nil first rest
    exact ⟨hstops.append_of_ne_nil hne, List.append_ne_nil_of_right_ne_nil _ hne⟩

theorem Asks.join {reach reach' : Reach} {consumed consumed' : List Placed}
    (h : reach.Asks consumed) (h' : reach'.Asks consumed') :
    (reach.join reach').Asks (consumed ++ consumed') := by
  -- More tokens do no harm.
  have hmore (hstops : Placed.StopsShort consumed') (hsettled : Reach.settled.Asks consumed) :
      Reach.settled.Asks (consumed ++ consumed') := by
    obtain ⟨hstops', first, rest, rfl, hword⟩ := hsettled
    exact ⟨hstops'.append hstops, first, rest ++ consumed', rfl, fun hfirst =>
      List.append_ne_nil_of_left_ne_nil (hword hfirst) _⟩
  have hbehind (hsettled : Reach.settled.Asks consumed') :
      Reach.settled.Asks (consumed ++ consumed') := by
    obtain ⟨hstops, first, rest, rfl, hword⟩ := hsettled
    refine ⟨hstops.append_of_ne_nil (List.cons_ne_nil _ _), ?_⟩
    cases consumed with
    | nil => exact ⟨first, rest, rfl, hword⟩
    | cons first' rest' => exact ⟨first', _, rfl, fun _ => by simp⟩
  cases reach' with
  | alike => cases reach <;> trivial
  | enclosed =>
    cases reach with
    | settled => exact hmore h' h
    | consuming => exact ⟨h.1.append h', List.append_ne_nil_of_left_ne_nil h.2 _⟩
    | enclosed => exact Placed.StopsShort.append h h'
    | alike => trivial
  | consuming =>
    have hstops := @Placed.StopsShort.append_of_ne_nil consumed _ h'.2 h'.1
    cases reach with
    | settled => exact hmore h'.1 h
    | consuming =>
      refine ⟨hstops, ?_⟩
      obtain ⟨first, rest, rfl⟩ := List.exists_cons_of_ne_nil h.2
      exact ⟨first, _, rfl, fun _ => List.append_ne_nil_of_right_ne_nil _ h'.2⟩
    | enclosed => exact ⟨hstops, List.append_ne_nil_of_right_ne_nil _ h'.2⟩
    | alike => trivial
  | settled => cases reach <;> exact hbehind h'

end Reach

/-! ## Rules that copy a rule -/

structure Reach.Sights (reach : Reach) (lexer : Lexer) (tokens : List Placed)
    (others : List Lexeme) : Prop where
  feedsAt : lexer.FeedsAt tokens
  orderly : ∀ placed ∈ tokens, placed.IsOrderly
  admits : reach.Admits (tokens.map Placed.toLexeme) others

namespace Reach.Sights

variable {reach reach' : Reach} {lexer lexer' : Lexer} {tokens : List Placed} {others : List Lexeme}

theorem covers (h : reach'.Sights lexer tokens others) (hcovers : reach.Covers reach') :
    reach.Sights lexer tokens others :=
  ⟨h.feedsAt, h.orderly, hcovers.admits h.admits⟩

theorem of_join (h : (reach.join reach').Sights lexer tokens others) :
    reach'.Sights lexer tokens others :=
  ⟨h.feedsAt, h.orderly, h.admits.of_join⟩

/-- What is in sight in front of what is consumed. -/
theorem behind (h : (reach.join reach').Sights lexer' tokens others) {consumed : List Placed}
    (hasks : reach'.Asks consumed) (htrail : Trail consumed lexer lexer') :
    reach.Sights lexer (consumed ++ tokens) (consumed.map Placed.toLexeme ++ others) := by
  refine ⟨htrail.feedsAt tokens h.feedsAt, fun placed hplaced => ?_, ?_⟩
  · exact (List.mem_append.1 hplaced).elim (htrail.orderly placed) (h.orderly placed)
  · rw [List.map_append]
    exact h.admits.behind hasks

end Reach.Sights

/-- The two conditions hold together. -/
class SameTruth (p p' : Prop) : Prop where
  iff : p ↔ p'

instance (p : Prop) : SameTruth p p := ⟨.rfl⟩

instance {b b' : Bool} [h : Twins b b'] : SameTruth (b = true) (b' = true) := ⟨by rw [h.eq]⟩

/-- A value that is the same up to positions. -/
structure TwinOf [Bare α] (a : α) where
  value : α
  twins : Twins a value

instance [Bare α] {a : α} (x : TwinOf a) : Twins a x.value := x.twins

/-- What the first rule returns, each of the others returns wherever it is fed the tokens that the
first one has consumed, unless its rounds or its depth run out. -/
class Copies (R : σ → σ → Prop) (view : View) [Bare α] (p : Parse σ α) (p' : κ → Parse σ α)
    (reach : outParam Reach) : Prop where
  copies : ∀ {s t : ParserState σ} {a : α}, view.Sees s.lexer → p s = .ok a t →
    ∃ consumed, Trail consumed s.lexer t.lexer ∧ reach.Asks consumed ∧
      ∀ {tokens : List Placed} {others : List Lexeme} {s' : ParserState σ} (i : κ),
        reach.Sights t.lexer tokens others →
          Mirrors R (consumed.map Placed.toLexeme ++ others) s s' →
            Ends (fun e _ => e = .exhausted) (p' i) s' fun a' t' =>
              Twins a a' ∧ Mirrors R others t t'

namespace Copies

variable {R : σ → σ → Prop} {view : View} {reach reach' : Reach} [Bare α] [Bare β]

/-! ## How rules are built -/

theorem covers {p : Parse σ α} {p' : κ → Parse σ α} (h : Copies R view p p' reach)
    (hcovers : reach.Covers reach') : Copies R view p p' reach' := by
  refine ⟨fun hsees hrun => ?_⟩
  obtain ⟨consumed, htrail, hasks, hcopies⟩ := h.copies hsees hrun
  exact ⟨consumed, htrail, hcovers.asks hasks, fun i hsights => hcopies i (hsights.covers hcovers)⟩

/-- A rule with more reach than is asked for. -/
theorem atLeast {p : Parse σ α} {p' : κ → Parse σ α} (h : Copies R view p p' reach)
    (hreach : reach.meet reach' = reach') : Copies R view p p' reach' := by
  rw [← hreach]
  exact h.covers (Reach.covers_meet_left reach reach')

theorem anywhere {p : Parse σ α} {p' : κ → Parse σ α} (h : Copies R .any p p' reach) :
    Copies R view p p' reach :=
  ⟨fun _ => h.copies trivial⟩

theorem reindex {ι : Type} {p : Parse σ α} {p' : κ → Parse σ α} (h : Copies R view p p' reach)
    (f : ι → κ) : Copies R view p (fun i => p' (f i)) reach := by
  refine ⟨fun hsees hrun => ?_⟩
  obtain ⟨consumed, htrail, hasks, hcopies⟩ := h.copies hsees hrun
  exact ⟨consumed, htrail, hasks, fun i => hcopies (f i)⟩

/-- A rule that never returns. -/
theorem of_fails {p : Parse σ α} {p' : κ → Parse σ α} (h : ∀ s t a, p s ≠ .ok a t) :
    Copies R view p p' reach :=
  ⟨fun _ hrun => absurd hrun (h _ _ _)⟩

/-- Rules that run out of depth or rounds. -/
theorem exhausted {ι : Type} {p : Parse σ α} {p' : κ → Parse σ α} {q' : ι → Parse σ α}
    (h : Copies R view p p' reach) (hq' : ∀ i, q' i = MonadExcept.throw .exhausted) :
    Copies R view p q' reach := by
  refine ⟨fun hsees hrun => ?_⟩
  obtain ⟨consumed, htrail, hasks, -⟩ := h.copies hsees hrun
  refine ⟨consumed, htrail, hasks, fun i _ _ => ?_⟩
  rw [hq']
  rfl

/-- A rule that changes neither the lexer nor the context. -/
theorem still {p : Parse σ α} {p' : κ → Parse σ α}
    (h : ∀ {s t : ParserState σ} {a : α}, view.Sees s.lexer → p s = .ok a t → t.lexer = s.lexer ∧
      ∀ (i : κ) {others s'}, Mirrors R others s s' →
        Ends (fun e _ => e = .exhausted) (p' i) s' fun a' t' =>
          Twins a a' ∧ Mirrors R others t t') :
    Copies R view p p' .enclosed := by
  refine ⟨fun hsees hrun => ?_⟩
  obtain ⟨hlexer, hcopies⟩ := h hsees hrun
  rw [hlexer]
  exact ⟨[], .refl _, .nil, fun i _ hmirrors => hcopies i hmirrors⟩

instance pure {a : α} {a' : κ → α} [h : ∀ i, Twins a (a' i)] :
    Copies R view (Pure.pure a) (fun i => Pure.pure (a' i)) .enclosed :=
  still fun _ hrun => by
    cases hrun
    exact ⟨rfl, fun i _ _ hmirrors => ⟨h i, hmirrors⟩⟩

instance throw (failure : Failure) {p' : κ → Parse σ α} :
    Copies R view (MonadExcept.throw failure) p' .settled :=
  of_fails fun _ _ _ hrun => by cases hrun

/-- Sequencing, where the first rule ends in front of what the second one has to see. -/
theorem bindSeeing {view' : View} {p : Parse σ β} {p' : κ → Parse σ β} {q : β → Parse σ α}
    {q' : κ → β → Parse σ α}
    (hkeeps : ∀ {s t : ParserState σ} {b : β}, view.Sees s.lexer → p s = .ok b t →
      view'.Sees t.lexer) [hp : Copies R view p p' reach]
    [hq : ∀ b, Copies R view' (q b) (fun x : κ × TwinOf b => q' x.1 x.2.value) reach'] :
    Copies R view (p >>= q) (fun i => p' i >>= fun b => q' i b) (reach.join reach') := by
  refine ⟨fun hsees hrun => ?_⟩
  obtain ⟨b, middle, hrun, hrest⟩ := Parse.bind_eq_ok hrun
  obtain ⟨consumed, htrail, hasks, hcopies⟩ := hp.copies hsees hrun
  obtain ⟨consumed', htrail', hasks', hcopies'⟩ := (hq b).copies (hkeeps hsees hrun) hrest
  refine ⟨consumed ++ consumed', htrail.append htrail', hasks.join hasks', ?_⟩
  intro tokens others s' i hsights hmirrors
  rw [List.map_append, List.append_assoc] at hmirrors
  exact (hcopies i (hsights.behind hasks' htrail') hmirrors).bind fun b' middle' ⟨hb, hmiddle⟩ =>
    hcopies' ⟨i, b', hb⟩ hsights.of_join hmiddle

/-- Sequencing, where the answer of the first rule has positions. -/
theorem stepTwins {p : Parse σ β} {p' : κ → Parse σ β} {q : β → Parse σ α}
    {q' : κ → β → Parse σ α} [h : Copies R view p p' reach] (reach' : Reach) {whole : Reach}
    (hq : ∀ b, Copies R .any (q b) (fun x : κ × TwinOf b => q' x.1 x.2.value) reach')
    (hreach : reach.join reach' = whole) :
    Copies R view (p >>= q) (fun i => p' i >>= fun b => q' i b) whole := by
  have hany {s t : ParserState σ} {b : β} (_ : view.Sees s.lexer) (_ : p s = .ok b t) :
      View.any.Sees t.lexer := trivial
  exact hreach ▸ bindSeeing hany

/-- Behind an answer without positions its twin is the answer itself. -/
theorem ofExact [Exact β] {q : β → Parse σ α} {q' : κ → β → Parse σ α} {b : β}
    (hq : Copies R view (q b) (fun i => q' i b) reach) :
    Copies R view (q b) (fun x : κ × TwinOf b => q' x.1 x.2.value) reach := by
  have hvalue : (fun x : κ × TwinOf b => q' x.1 x.2.value) = fun x => q' x.1 b :=
    funext fun x => by rw [← x.2.twins.eq]
  rw [hvalue]
  exact hq.reindex Prod.fst

/-- Sequencing, where the answer of the first rule has no positions. -/
theorem step [Exact β] {p : Parse σ β} {p' : κ → Parse σ β} {q : β → Parse σ α}
    {q' : κ → β → Parse σ α} [h : Copies R view p p' reach] (reach' : Reach) {whole : Reach}
    (hq : ∀ b, Copies R .any (q b) (fun i => q' i b) reach')
    (hreach : reach.join reach' = whole) :
    Copies R view (p >>= q) (fun i => p' i >>= fun b => q' i b) whole :=
  stepTwins reach' (fun b => ofExact (hq b)) hreach

/-- Sequencing behind a pair, for a rest that takes it apart. -/
theorem stepBoth [Bare γ] {p : Parse σ (β × γ)} {p' : κ → Parse σ (β × γ)}
    {q : β × γ → Parse σ α} {q' : κ → β × γ → Parse σ α} [h : Copies R view p p' reach]
    (reach' : Reach) {whole : Reach}
    (hq : ∀ b c, Copies R .any (q (b, c))
      (fun x : (κ × TwinOf b) × TwinOf c => q' x.1.1 (x.1.2.value, x.2.value)) reach')
    (hreach : reach.join reach' = whole) :
    Copies R view (p >>= q) (fun i => p' i >>= fun x => q' i x) whole :=
  stepTwins reach' (fun (b, c) => (hq b c).reindex fun x : κ × TwinOf (b, c) =>
    ((x.1, ⟨x.2.value.1, @Twins.fst _ _ _ _ (b, c) _ x.2.twins⟩),
      ⟨x.2.value.2, @Twins.snd _ _ _ _ (b, c) _ x.2.twins⟩)) hreach

/-- Sequencing behind a pair whose first part has no positions. -/
theorem stepPair [Bare γ] [Exact β] {p : Parse σ (β × γ)} {p' : κ → Parse σ (β × γ)}
    {q : β × γ → Parse σ α} {q' : κ → β × γ → Parse σ α} [h : Copies R view p p' reach]
    (reach' : Reach) {whole : Reach}
    (hq : ∀ b c, Copies R .any (q (b, c)) (fun x : κ × TwinOf c => q' x.1 (b, x.2.value)) reach')
    (hreach : reach.join reach' = whole) :
    Copies R view (p >>= q) (fun i => p' i >>= fun x => q' i x) whole := by
  refine stepBoth reach' (fun b c => ?_) hreach
  have hvalue : (fun x : (κ × TwinOf b) × TwinOf c => q' x.1.1 (x.1.2.value, x.2.value)) =
      fun x => q' x.1.1 (b, x.2.value) :=
    funext fun x => by rw [← x.1.2.twins.eq]
  rw [hvalue]
  exact (hq b c).reindex fun x : (κ × TwinOf b) × TwinOf c => (x.1.1, x.2)

instance map {f : β → α} {f' : κ → β → α} {p : Parse σ β} {p' : κ → Parse σ β}
    [hp : Copies R view p p' reach]
    [h : ∀ b (x : κ × TwinOf b), Twins (f b) (f' x.1 x.2.value)] :
    Copies R view (f <$> p) (fun i => f' i <$> p' i) reach := by
  have hpure (b : β) : Copies R .any (Pure.pure (f b))
      (fun x : κ × TwinOf b => Pure.pure (f' x.1 x.2.value)) .enclosed := pure
  simp only [map_eq_pure_bind]
  exact stepTwins .enclosed hpure (by cases reach <;> rfl)

/-- A choice by conditions that hold together. -/
theorem either {c : Prop} {c' : κ → Prop} [Decidable c] [∀ i, Decidable (c' i)]
    [hc : ∀ i, SameTruth c (c' i)] {p q : Parse σ α} {p' q' : κ → Parse σ α}
    (reach reach' : Reach) {whole : Reach} (hp : Copies R view p p' reach)
    (hq : Copies R view q q' reach')
    (hreach : reach.meet reach' = whole) :
    Copies R view (if c then p else q) (fun i => if c' i then p' i else q' i) whole := by
  subst hreach
  by_cases h : c
  · have hall i : c' i := (hc i).iff.1 h
    simp only [if_pos h, if_pos (hall _)]
    exact hp.covers (Reach.covers_meet_left _ _)
  · have hall i : ¬ c' i := mt (hc i).iff.2 h
    simp only [if_neg h, if_neg (hall _)]
    exact hq.covers (Reach.covers_meet_right _ _)

end Copies

/-! ## Looking at the next token -/

/-- The rule leaves a token that is known where it is. -/
class Glances (p : Parse σ α) : Prop where
  glances : ∀ {token : Token} {s t : ParserState σ} {a : α}, (View.facing token).Sees s.lexer →
    p s = .ok a t → (View.facing token).Sees t.lexer

/-- Looking at a token that is known shows it again. -/
theorem View.Sees.looksTo {token : Token} {s t : ParserState σ} {next : Lookahead}
    (h : (View.facing token).Sees s.lexer) (hlook : s.LooksTo next t) :
    (View.facing token).Sees t.lexer := by
  obtain ⟨known, hknown, rfl⟩ := h
  obtain ⟨hnext, htake⟩ := hlook.takes
  rw [Lexing.takeLookahead_of_some hknown, Lexing.takeLookahead_of_some hnext] at htake
  exact ⟨next, hnext, congrArg Lookahead.token (EStateM.Result.ok.inj htake).1⟩

/-- The next tokens of the two lexers. -/
theorem Reach.exists_heads {reach : Reach} {consumed tokens : List Placed} {others : List Lexeme}
    (hasks : reach.Asks consumed) (hadmits : reach.Admits (tokens.map Placed.toLexeme) others) :
    ∃ placed ahead first rest, consumed ++ tokens = placed :: ahead ∧
      consumed.map Placed.toLexeme ++ others = first :: rest ∧
        (first = placed.toLexeme ∨ reach = .enclosed ∧ ∃ newline,
          placed.toLexeme = .ending newline ∧ first = .closing newline) := by
  cases consumed with
  | cons placed consumed => exact ⟨placed, _, placed.toLexeme, _, rfl, rfl, .inl rfl⟩
  | nil =>
    cases reach with
    | alike =>
      obtain ⟨first, rest, rest', htokens, rfl⟩ := hadmits.exists_head
      obtain ⟨placed, ahead, rfl, rfl, -⟩ := List.map_eq_cons_iff.1 htokens
      exact ⟨placed, ahead, _, rest', rfl, rfl, .inl rfl⟩
    | enclosed =>
      obtain ⟨first, rest, first', rest', htokens, rfl, hencloses⟩ := hadmits.exists_heads
      obtain ⟨placed, ahead, rfl, rfl, -⟩ := List.map_eq_cons_iff.1 htokens
      exact ⟨placed, ahead, first', rest', rfl, rfl, hencloses.imp_right fun h => ⟨rfl, h⟩⟩
    | consuming => exact absurd rfl hasks.2
    | settled =>
      obtain ⟨-, _, _, hnil, -⟩ := hasks
      cases hnil

/-- A look at the next token shows the same one, or a closing parenthesis in place of the end of
the source. -/
theorem Mirrors.exists_looksTo {R : σ → σ → Prop} {reach : Reach} {s middle t s' : ParserState σ}
    {next : Lookahead} {consumed tokens : List Placed} {others : List Lexeme}
    (h : Mirrors R (consumed.map Placed.toLexeme ++ others) s s') (hlook : s.LooksTo next middle)
    (htrail : Trail consumed middle.lexer t.lexer) (hasks : reach.Asks consumed)
    (hsights : reach.Sights t.lexer tokens others) :
    ∃ next' middle', s'.LooksTo next' middle' ∧ next'.newlineBefore = next.newlineBefore ∧
      (next'.token = next.token ∨ reach = .enclosed ∧ next.token = .endOfInput ∧
        next'.token = .punctuator .rParen) ∧
      Mirrors R (consumed.map Placed.toLexeme ++ others) middle middle' := by
  obtain ⟨placed, ahead, first, rest, htokens, hothers, hhead⟩ :=
    Reach.exists_heads hasks hsights.admits
  have hfeeds := htrail.feedsAt tokens hsights.feedsAt
  rw [htokens] at hfeeds
  obtain ⟨htoken, hnewline⟩ := hfeeds.token_eq hlook.takes.1
  have hfed := h.feeds
  rw [hothers] at hfed
  obtain ⟨next', lexer', hlook', htoken', hnewline', hfed'⟩ := hfed.lookahead
  refine ⟨next', { s' with lexer := lexer' }, ?_, ?_, ?_, ?_⟩
  · unfold ParserState.LooksTo Parse.lexing
    rw [hlook']
  · rw [hnewline', hnewline]
    obtain rfl | ⟨-, newline, hending, rfl⟩ := hhead
    · rfl
    · exact (congrArg Lexeme.newlineBefore hending).symm
  · rw [htoken', htoken]
    obtain rfl | ⟨hreach, newline, hending, rfl⟩ := hhead
    · exact .inl rfl
    · exact .inr ⟨hreach, congrArg Lexeme.token hending, rfl⟩
  · rw [hothers]
    refine ⟨?_, ?_, hfed'⟩
    · rw [hlook.context_eq]
      exact h.context
    · rw [hlook.hooks_eq]
      exact h.hooks

namespace Glances

instance startPosition : Glances (Parse.startPosition : Parse σ Position) :=
  ⟨fun hsees hrun => by
    obtain ⟨next, hlook, -⟩ := Parse.startPosition_eq_ok hrun
    exact hsees.looksTo hlook⟩

instance newlineBefore : Glances (Parse.newlineBefore : Parse σ Bool) :=
  ⟨fun hsees hrun => by
    obtain ⟨next, hlook, -⟩ := Parse.exists_of_look hrun
    exact hsees.looksTo hlook⟩

instance nameRules (g : Grammar σ) : Glances g.nameRules :=
  ⟨fun hsees hrun => by
    cases hrun
    exact hsees⟩

instance ensure (check : Except Diagnostic α) : Glances (Parse.ensure check : Parse σ α) :=
  ⟨fun hsees hrun => by
    obtain ⟨-, rfl⟩ := Parse.ensure_eq_ok hrun
    exact hsees⟩

end Glances

namespace Copies

variable {R : σ → σ → Prop} {view : View} {reach reach' : Reach} [Bare α] [Bare β]

/-- Sequencing behind a rule that only looks at the token that is known, by an answer with
positions. -/
theorem behindLookTwins {token : Token} {p : Parse σ β} {p' : κ → Parse σ β} {q : β → Parse σ α}
    {q' : κ → β → Parse σ α} [hp : Copies R (.facing token) p p' .enclosed]
    [hglances : Glances p] (reach : Reach) {whole : Reach}
    (hq : ∀ b, Copies R (.facing token) (q b) (fun x : κ × TwinOf b => q' x.1 x.2.value) reach)
    (hreach : Reach.enclosed.join reach = whole) :
    Copies R (.facing token) (p >>= q) (fun i => p' i >>= fun b => q' i b) whole :=
  hreach ▸ bindSeeing hglances.glances

/-- Sequencing behind a rule that only looks at the token that is known. -/
theorem behindLook {token : Token} [Exact β] {p : Parse σ β} {p' : κ → Parse σ β}
    {q : β → Parse σ α} {q' : κ → β → Parse σ α} [Copies R (.facing token) p p' .enclosed]
    [Glances p] (reach : Reach) {whole : Reach}
    (hq : ∀ b, Copies R (.facing token) (q b) (fun i => q' i b) reach)
    (hreach : Reach.enclosed.join reach = whole) :
    Copies R (.facing token) (p >>= q) (fun i => p' i >>= fun b => q' i b) whole :=
  behindLookTwins reach (fun b => ofExact (hq b)) hreach

/-- Looking at the next token: where there may be a closing parenthesis in place of the end of the
source, the rest does the same in front of both. -/
theorem peek {q : Token → Parse σ α} {q' : κ → Token → Parse σ α}
    (hq : ∀ token, Copies R (.facing token) (q token) (fun i => q' i token) reach)
    (hend : reach = .enclosed → ∀ i, q' i (.punctuator .rParen) = q' i .endOfInput) :
    Copies R view (Parse.peek >>= q) (fun i => Parse.peek >>= q' i) reach := by
  refine ⟨fun {s t a} _ hrun => ?_⟩
  obtain ⟨token, middle, hpeek, hrest⟩ := Parse.bind_eq_ok hrun
  obtain ⟨next, hlook, rfl⟩ := Parse.peek_eq_ok hpeek
  obtain ⟨consumed, htrail, hasks, hcopies⟩ :=
    (hq next.token).copies ⟨next, hlook.takes.1, rfl⟩ hrest
  refine ⟨consumed, ?_, hasks, fun i hsights hmirrors => ?_⟩
  · exact (Trail.nil hlook.takes.2 hlook.lastSpan_eq).append htrail
  · obtain ⟨next', middle', hlook', -, htoken, hmiddle⟩ :=
      hmirrors.exists_looksTo hlook htrail hasks hsights
    have hsame : q' i next'.token = q' i next.token := by
      obtain htoken | ⟨hreach, hending, hclosing⟩ := htoken
      · rw [htoken]
      · rw [hending, hclosing, hend hreach i]
    unfold Ends
    rw [Parse.bind_of_ok hlook'.peek, hsame]
    exact hcopies i hsights hmiddle

/-- A question about the next token. -/
theorem asking [Exact β] {f : Token → β}
    (hend : f (.punctuator .rParen) = f .endOfInput) :
    Copies R view (do return f (← Parse.peek)) (fun (_ : κ) => do return f (← Parse.peek))
      .enclosed :=
  peek (fun _ => pure) fun _ _ => by rw [hend]

/-- The punctuator is no closing parenthesis. -/
class IsInner (symbol : Punctuator) : Prop where
  ne : symbol ≠ .rParen

instance nextIs (symbol : Punctuator) [h : IsInner symbol] :
    Copies R view (Parse.nextIs symbol) (fun (_ : κ) => Parse.nextIs symbol) .enclosed :=
  asking <| by
    rw [beq_false_of_ne fun heq => h.ne (Token.punctuator.inj heq).symm]
    rfl

instance nextIsWord (word : Keyword) :
    Copies R view (Parse.nextIsWord word) (fun (_ : κ) => Parse.nextIsWord word) .enclosed :=
  asking rfl

instance nextIsIdentifier :
    Copies R view Parse.nextIsIdentifier (fun (_ : κ) => Parse.nextIsIdentifier) .enclosed :=
  asking rfl

/-- A look at the next token that does not tell the end of the source from a closing parenthesis. -/
theorem looking {f : Lookahead → β} {p : Parse σ β}
    (hp : ∀ {s t : ParserState σ} {next : Lookahead}, s.LooksTo next t → p s = .ok (f next) t)
    (hlooks : ∀ {s t : ParserState σ} {b : β}, p s = .ok b t → ∃ next, s.LooksTo next t)
    (hf : ∀ next next' : Lookahead, next'.newlineBefore = next.newlineBefore →
      Twins (f next) (f next')) :
    Copies R view p (fun (_ : κ) => p) .enclosed := by
  refine ⟨fun {s t b} _ hrun => ?_⟩
  obtain ⟨next, hlook⟩ := hlooks hrun
  have htrail := Trail.nil hlook.takes.2 hlook.lastSpan_eq
  have hasks : Reach.enclosed.Asks [] := .nil
  refine ⟨[], htrail, hasks, fun i hsights hmirrors => ?_⟩
  obtain ⟨next', t', hlook', hnewline, -, ht⟩ :=
    hmirrors.exists_looksTo hlook (.refl t.lexer) hasks hsights
  cases hrun.symm.trans (hp hlook)
  unfold Ends
  rw [hp hlook']
  exact ⟨hf _ _ hnewline, ht⟩

instance newlineBefore :
    Copies R view Parse.newlineBefore (fun (_ : κ) => Parse.newlineBefore) .enclosed :=
  looking (f := Lookahead.newlineBefore) ParserState.LooksTo.newlineBefore
    (fun hrun => (Parse.exists_of_look hrun).imp fun _ h => h.1)
    fun _ _ h => ⟨h.symm⟩

instance startPosition :
    Copies R view Parse.startPosition (fun (_ : κ) => Parse.startPosition) .enclosed :=
  looking (f := fun next => next.span.start) ParserState.LooksTo.startPosition
    (fun hrun => (Parse.startPosition_eq_ok hrun).imp fun _ h => h.1)
    fun _ _ _ => inferInstance

end Copies

/-! ## Consuming tokens -/

/-- A token that is consumed may be looked at before. -/
theorem Parse.next_bind (q : Token → Parse σ α) :
    (Parse.next >>= q) = Parse.peek >>= fun token => Parse.skip >>= fun _ => q token := by
  funext s
  simp only [Parse.skip, Parse.next, Parse.peek, Parse.lexing, Bind.bind, EStateM.bind]
  cases htake : Lexing.takeLookahead s.lexer with
  | error e lexer =>
    simp only [Lexing.next, Lexing.peek, Lexing.lookahead, Bind.bind, EStateM.bind, htake]
  | ok next lexer =>
    have hpeek : Lexing.peek s.lexer = .ok next.token { lexer with lookahead := some next } :=
      Lexing.look_of_lookahead (f := Lookahead.token) (Lexing.lookahead_of_take htake)
    rw [hpeek, Lexing.next_of_take htake]
    simp only [Lexing.next_of_take (Lexing.takeLookahead_again htake)]
    rfl

namespace Copies

variable {R : σ → σ → Prop} {view : View} {reach reach' : Reach} [Bare α] [Bare β]

omit [Bare α] in
/-- A step of the lexer that consumes a token. -/
theorem lexing {step : LexStep Token} (horderly : step.IsOrderly view)
    (hasks : ∀ {lexer lexer' token}, view.Sees lexer → step.run lexer = .ok token lexer' →
      reach.Asks (step.consumed lexer))
    (hfeeds : ∀ {lexer lexer' token}, view.Sees lexer → step.run lexer = .ok token lexer' →
      ∀ {others fed}, fed.Feeds ((step.consumed lexer).map Placed.toLexeme ++ others) →
        ∃ fed', step.run fed = .ok token fed' ∧ fed'.Feeds others) :
    Copies R view (Parse.lexing step.run) (fun (_ : κ) => Parse.lexing step.run) reach := by
  refine ⟨fun {s t token} hsees hrun => ?_⟩
  obtain ⟨lexer, hstep, rfl⟩ := Parse.lexing_eq_ok hrun
  refine ⟨step.consumed s.lexer, LexStep.trail horderly hsees hstep,
    hasks hsees hstep, fun i _ hmirrors => ?_⟩
  obtain ⟨fed', hfed, hfed'⟩ := hfeeds hsees hstep hmirrors.feeds
  unfold Ends Parse.lexing
  rw [hfed]
  exact ⟨.refl token, hmirrors.context, hmirrors.hooks, hfed'⟩

omit [Bare α] in
/-- A token that is consumed is the first one where it is fed. -/
theorem feeds_of_next {lexer lexer' : Lexer} {token : Token}
    (h : LexStep.next.run lexer = .ok token lexer') {others : List Lexeme} {fed : Lexer}
    (hfed : fed.Feeds ((LexStep.next.consumed lexer).map Placed.toLexeme ++ others)) :
    ∃ fed', LexStep.next.run fed = .ok token fed' ∧ fed'.Feeds others := by
  obtain ⟨taken, behind, htake, rfl, rfl⟩ := Lexing.of_next h
  simp only [LexStep.consumed, htake] at hfed
  exact hfed.next rfl

/-- The token is not the end of the source. -/
class IsReal (token : Token) : Prop where
  ne : token ≠ .endOfInput

instance (word : Keyword) : IsReal (.keyword word) := ⟨nofun⟩
instance (value : Binary64) : IsReal (.number value) := ⟨nofun⟩
instance (text : String) : IsReal (.bigInt text) := ⟨nofun⟩
instance (value : String) : IsReal (.string value) := ⟨nofun⟩

instance nextFacing {token : Token} [h : IsReal token] :
    Copies R (.facing token) Parse.next (fun (_ : κ) => Parse.next) .consuming := by
  refine lexing (show LexStep.next.IsOrderly _ from trivial) (fun hsees hstep => ?_)
    fun _ hstep => feeds_of_next hstep
  obtain ⟨known, hknown, rfl⟩ := hsees
  simp only [LexStep.consumed, Lexing.takeLookahead_of_some hknown]
  exact ⟨.singleton h.ne, List.cons_ne_nil _ _⟩

instance skipFacing {token : Token} [IsReal token] :
    Copies R (.facing token) Parse.skip (fun (_ : κ) => Parse.skip) .consuming := by
  unfold Parse.skip
  exact step _ (fun _ => pure) rfl

/-- Consuming a punctuator. -/
theorem skipSymbol (symbol : Punctuator) :
    Copies R (.facing (.punctuator symbol)) Parse.skip (fun (_ : κ) => Parse.skip) .settled := by
  have hnext : Copies R (.facing (.punctuator symbol)) Parse.next (fun (_ : κ) => Parse.next)
      .settled := by
    refine lexing (show LexStep.next.IsOrderly _ from trivial) (fun hsees hstep => ?_)
      fun _ hstep => feeds_of_next hstep
    obtain ⟨known, hknown, htoken⟩ := hsees
    simp only [LexStep.consumed, Lexing.takeLookahead_of_some hknown]
    refine ⟨.singleton ?_, _, [], rfl, fun hword => ?_⟩
    · change known.token ≠ _
      rw [htoken]
      nofun
    · change known.token.isWord = true at hword
      rw [htoken] at hword
      cases hword
  unfold Parse.skip
  exact step _ (fun _ => pure) rfl

/-- Consuming a token, for a rest that fails behind the end of the source. -/
theorem taking {q : Token → Parse σ α} {q' : κ → Token → Parse σ α}
    (hq : ∀ token, Copies R .any (q token) (fun i => q' i token) .enclosed)
    (hend : ∀ s t a, q .endOfInput s ≠ .ok a t) :
    Copies R view (Parse.next >>= q) (fun i => Parse.next >>= q' i) .consuming := by
  simp only [Parse.next_bind]
  refine peek (fun token => ?_) nofun
  by_cases htoken : token = .endOfInput
  · subst htoken
    refine of_fails fun s t a hrun => ?_
    obtain ⟨_, _, -, hrest⟩ := Parse.bind_eq_ok hrun
    exact hend _ _ _ hrest
  · have hreal : IsReal token := ⟨htoken⟩
    exact step .enclosed (fun _ => hq token) rfl

/-- Consuming a token, whichever it is. -/
theorem skipBefore {q : Unit → Parse σ α} {q' : κ → Unit → Parse σ α} (reach : Reach)
    {whole : Reach} (hq : ∀ u, Copies R .any (q u) (fun i => q' i u) reach)
    (hreach : reach.skipped = whole) :
    Copies R view (Parse.skip >>= q) (fun i => Parse.skip >>= q' i) whole := by
  subst hreach
  refine ⟨fun {s t a} hsees hrun => ?_⟩
  obtain ⟨_, middle, hskip, hrest⟩ := Parse.bind_eq_ok hrun
  obtain ⟨token, _, hnext, hpure⟩ := Parse.bind_eq_ok hskip
  cases hpure
  obtain ⟨lexer, hstep, rfl⟩ := Parse.lexing_eq_ok hnext
  have horderly : LexStep.next.IsOrderly view := trivial
  obtain ⟨consumed, htrail, hasks, hcopies⟩ := (hq ()).copies trivial hrest
  refine ⟨LexStep.next.consumed s.lexer ++ consumed,
    (LexStep.trail horderly hsees hstep).append htrail,
    hasks.skipped _, fun {tokens others s'} i hsights hmirrors => ?_⟩
  rw [List.map_append, List.append_assoc] at hmirrors
  obtain ⟨fed, hfed, hfeeds⟩ := feeds_of_next hstep hmirrors.feeds
  have hskip' : Parse.skip s' = .ok () { s' with lexer := fed } := by
    change (Parse.next >>= fun _ => Pure.pure ()) s' = _
    have hnext' : Parse.next s' = .ok token { s' with lexer := fed } := by
      unfold Parse.next Parse.lexing
      rw [show Lexing.next s'.lexer = _ from hfed]
    rw [Parse.bind_of_ok hnext']
    rfl
  unfold Ends
  rw [Parse.bind_of_ok hskip']
  exact hcopies i ⟨hsights.feedsAt, hsights.orderly, hsights.admits.of_skipped⟩
    ⟨hmirrors.context, hmirrors.hooks, hfeeds⟩

/-- Consuming a slash or a closing brace and reading it again. -/
theorem again {step : LexStep Token} {reading : LexerStep} {token : Token}
    (hrun : step.run = (do let _ ← Lexing.next; reading.run))
    (hconsumed : ∀ lexer, step.consumed lexer = lexer.consumedAgain reading)
    (horderly : step.IsOrderly (.facing token)) (hrereads : (View.facing token).Rereads reading) :
    Copies R (.facing token) (Parse.lexing step.run) (fun (_ : κ) => Parse.lexing step.run)
      .settled := by
  refine lexing horderly (fun hsees hstep => ?_) fun hsees hstep => ?_
  · rw [hrun] at hstep
    obtain ⟨taken, behind, htake, -, hagain⟩ := Lexing.of_again hstep
    obtain ⟨known, hknown, rfl⟩ := hsees
    cases htake.symm.trans (Lexing.takeLookahead_of_some hknown)
    rw [hconsumed, hagain]
    have hend : taken.token ≠ .endOfInput := by
      intro hend
      exact absurd hrereads.1 (by rw [hend]; cases reading <;> nofun)
    refine ⟨.singleton hend, _, [], rfl, fun hword => ?_⟩
    -- Neither a slash nor a closing brace is a word.
    have hreread : (⟨taken.token, taken.newlineBefore, some taken.token⟩ : Lexeme).IsOrderly :=
      fun _ => hrereads.1
    cases hreread.reread_eq hword
  · intro others fed hfed
    rw [hrun] at hstep ⊢
    rw [hconsumed] at hfed
    exact Lexer.imitated_again hrereads hsees hstep hfed

/-- Consuming a slash as the regular expression that it begins. -/
theorem regExp {token : Token} (h : token.isSlash = true) :
    Copies R (.facing token) (Parse.lexing LexStep.regExp.run)
      (fun (_ : κ) => Parse.lexing LexStep.regExp.run) .settled :=
  again rfl (fun _ => rfl) h (LexStep.IsOrderly.rereads_regExp h)

/-- Consuming a closing brace with the text of the template behind it. -/
theorem templateContinuation :
    Copies R (.facing (.punctuator .rBrace)) (Parse.lexing LexStep.templateContinuation.run)
      (fun (_ : κ) => Parse.lexing LexStep.templateContinuation.run) .settled :=
  again rfl (fun _ => rfl) rfl (LexStep.IsOrderly.rereads_template rfl)

/-! ## Failures and the context -/

instance fail (cause : Cause) (position : Position) {p' : κ → Parse σ α} :
    Copies R view (Parse.fail cause position) p' .settled :=
  throw _

instance unexpectedAt (position : Position) {p' : κ → Parse σ α} :
    Copies R view (Parse.unexpectedAt position) p' .settled :=
  throw _

instance unexpected {p' : κ → Parse σ α} : Copies R view Parse.unexpected p' .settled := by
  refine of_fails fun s t a hrun => ?_
  obtain ⟨_, _, -, hfail⟩ := Parse.bind_eq_ok hrun
  cases hfail

/-- Behind a failure nothing is read. -/
theorem unexpected_bind {q : γ → Parse σ α} {p' : κ → Parse σ α} :
    Copies R view (Parse.unexpected >>= q) p' .settled := by
  refine of_fails fun s t a hrun => ?_
  obtain ⟨_, _, hfails, -⟩ := Parse.bind_eq_ok hrun
  obtain ⟨_, _, -, hfail⟩ := Parse.bind_eq_ok hfails
  cases hfail

/-- Behind a failure nothing is read. -/
theorem fail_bind (cause : Cause) (position : Position) {q : γ → Parse σ α} {p' : κ → Parse σ α} :
    Copies R view (Parse.fail cause position >>= q) p' .settled := by
  refine of_fails fun s t a hrun => ?_
  obtain ⟨_, _, hfail, -⟩ := Parse.bind_eq_ok hrun
  cases hfail

instance lastEnd : Copies R view Parse.lastEnd (fun (_ : κ) => Parse.lastEnd) .enclosed :=
  still fun _ hrun => by
    cases hrun
    exact ⟨rfl, fun _ _ _ hmirrors => ⟨.position _ _, hmirrors⟩⟩

instance spanFrom (start : Position) {start' : κ → Position} :
    Copies R view (Parse.spanFrom start) (fun i => Parse.spanFrom (start' i)) .enclosed := by
  unfold Parse.spanFrom
  exact stepTwins _ (fun _ => pure) rfl

instance context : Copies R view Parse.context (fun (_ : κ) => Parse.context) .enclosed :=
  still fun _ hrun => by
    cases hrun
    refine ⟨rfl, fun _ others s' hmirrors => ⟨?_, hmirrors⟩⟩
    rw [hmirrors.context]
    exact .refl _

instance setContext (f : Context → Context) :
    Copies R view (Parse.setContext f) (fun (_ : κ) => Parse.setContext f) .enclosed :=
  still fun _ hrun => by
    cases hrun
    exact ⟨rfl, fun _ _ _ hmirrors =>
      ⟨.refl _, congrArg f hmirrors.context, hmirrors.hooks, hmirrors.feeds⟩⟩

/-- A rule in front of a step that reads nothing, and that states in step take in step. -/
theorem closedBy {close close' : Parse σ Unit}
    (hclose : ∀ {s t}, close s = .ok () t → t.lexer = s.lexer ∧
      ∀ {others s'}, Mirrors R others s s' → ∃ t', close' s' = .ok () t' ∧ Mirrors R others t t')
    {p : Parse σ α} {p' : κ → Parse σ α} (h : Copies R view p p' reach) :
    Copies R view (Parse.closing close p) (fun i => Parse.closing close' (p' i)) reach := by
  refine ⟨fun {s t a} hsees hrun => ?_⟩
  obtain ⟨between, hbody, hlast⟩ := Parse.closing_eq_ok hrun
  obtain ⟨hlexer, hmirror⟩ := hclose hlast
  obtain ⟨consumed, htrail, hasks, hcopies⟩ := h.copies hsees hbody
  rw [← hlexer] at htrail
  refine ⟨consumed, htrail, hasks, fun {tokens others s'} i hsights hmirrors => ?_⟩
  rw [hlexer] at hsights
  have hends := hcopies i hsights hmirrors
  unfold Ends at hends ⊢
  cases hbody' : p' i s' with
  | ok b' between' =>
    rw [hbody'] at hends
    obtain ⟨htwins, hbetween⟩ := hends
    obtain ⟨t', hlast', ht⟩ := hmirror hbetween
    rw [Parse.closing_of_ok hbody' hlast']
    exact ⟨htwins, ht⟩
  | error e stopped =>
    rw [hbody'] at hends
    subst hends
    simp only [Parse.closing, hbody']

instance leaving (leave : Context → Option Context) {p : Parse σ α} {p' : κ → Parse σ α}
    [h : Copies R view p p' reach] :
    Copies R view (Parse.closing (Parse.leaving leave) p)
      (fun i => Parse.closing (Parse.leaving leave) (p' i)) reach := by
  refine h.closedBy fun {s t} hleave => ?_
  obtain ⟨behind, hbehind, rfl⟩ := Parse.leaving_eq_ok hleave
  refine ⟨rfl, fun {others s'} hmirrors => ⟨{ s' with context := behind }, ?_, rfl,
    hmirrors.hooks, hmirrors.feeds⟩⟩
  rw [← hmirrors.context] at hbehind
  exact Parse.leaving_of_some hbehind

instance within (enter : Context → Context) (leave : Context → Context → Option Context)
    {p : Parse σ α}
    {p' : κ → Parse σ α} [h : Copies R .any p p' reach] :
    Copies R view (Parse.within enter leave p) (fun i => Parse.within enter leave (p' i))
      reach := by
  have hjoin : Reach.enclosed.join reach = reach := by cases reach <;> rfl
  exact step reach (fun before => step reach (fun _ => leaving _) hjoin) hjoin

instance allowingIn {p : Parse σ α} {p' : κ → Parse σ α} [h : Copies R .any p p' reach] :
    Copies R view (Parse.allowingIn p) (fun i => Parse.allowingIn (p' i)) reach :=
  within _ _

/-! ## Punctuators and words that are asked for -/

/-- A choice by whether the next token is consumed. -/
theorem choosing {symbol : Punctuator} {p q : Parse σ α} {p' q' : κ → Parse σ α}
    (reach reach' : Reach) {whole : Reach} (hp : Copies R .any p p' reach)
    (hq : Copies R .any q q' reach')
    (hreach : (Reach.settled.join reach).meet reach' = whole)
    (hclosing : symbol = .rParen → whole ≠ .enclosed) :
    Copies R view (Parse.accept symbol >>= fun accepted => if accepted then p else q)
      (fun i => Parse.accept symbol >>= fun accepted => if accepted then p' i else q' i)
      whole := by
  unfold Parse.accept Parse.nextIs
  simp only [bind_assoc, pure_bind]
  subst hreach
  refine peek (fun token => ?_) fun hreach i => ?_
  · by_cases htoken : token = .punctuator symbol
    · simp only [htoken, beq_self_eq_true, if_true, bind_assoc, pure_bind]
      have hskip : Copies R (.facing (.punctuator symbol)) Parse.skip
          (fun (_ : κ) => Parse.skip) .settled :=
        skipSymbol symbol
      exact covers (step reach (fun _ => hp) rfl) (Reach.covers_meet_left _ _)
    · simp only [beq_false_of_ne htoken, Bool.false_eq_true, if_false, pure_bind]
      exact hq.anywhere.covers (Reach.covers_meet_right _ _)
  · have hne : symbol ≠ .rParen := fun h => hclosing h hreach
    rw [beq_false_of_ne fun h => hne (Token.punctuator.inj h).symm]
    rfl

/-- A choice by whether the next token is consumed, which is no closing parenthesis. -/
theorem ifAccepts {symbol : Punctuator} [h : IsInner symbol] {p q : Parse σ α}
    {p' q' : κ → Parse σ α} (reach reach' : Reach) {whole : Reach}
    (hp : Copies R .any p p' reach) (hq : Copies R .any q q' reach')
    (hreach : (Reach.settled.join reach).meet reach' = whole) :
    Copies R view (Parse.accept symbol >>= fun accepted => if accepted then p else q)
      (fun i => Parse.accept symbol >>= fun accepted => if accepted then p' i else q' i) whole :=
  choosing reach reach' hp hq hreach fun heq => absurd heq h.ne

instance accept (symbol : Punctuator) [h : IsInner symbol] :
    Copies R view (Parse.accept symbol) (fun (_ : κ) => Parse.accept symbol) .enclosed := by
  have haccept : Copies R view
      (Parse.accept symbol >>= fun accepted => if accepted then Pure.pure true else Pure.pure false)
      (fun (_ : κ) => Parse.accept symbol >>= fun accepted =>
        if accepted then Pure.pure true else Pure.pure false) .enclosed :=
    ifAccepts _ _ pure pure rfl
  have hrest : (fun accepted : Bool => if accepted then Pure.pure true else Pure.pure false) =
      (Pure.pure : Bool → Parse σ Bool) := by
    funext accepted
    cases accepted <;> rfl
  simpa only [hrest, bind_pure] using haccept

instance expect (symbol : Punctuator) :
    Copies R view (Parse.expect symbol) (fun (_ : κ) => Parse.expect symbol) .settled :=
  choosing _ _ pure unexpected rfl fun _ => nofun

/-- A choice by whether the word is consumed. -/
theorem ifAcceptsWord {word : Keyword} {p q : Parse σ α} {p' q' : κ → Parse σ α}
    (reach reach' : Reach) {whole : Reach} (hp : Copies R .any p p' reach)
    (hq : Copies R .any q q' reach')
    (hreach : (Reach.consuming.join reach).meet reach' = whole) :
    Copies R view (Parse.acceptWord word >>= fun accepted => if accepted then p else q)
      (fun i => Parse.acceptWord word >>= fun accepted => if accepted then p' i else q' i)
      whole := by
  subst hreach
  unfold Parse.acceptWord Parse.nextIsWord
  simp only [bind_assoc, pure_bind]
  refine peek (fun token => ?_) fun _ _ => rfl
  by_cases htoken : token = .keyword word
  · simp only [htoken, beq_self_eq_true, if_true, bind_assoc, pure_bind]
    exact covers (step reach (fun _ => hp) rfl) (Reach.covers_meet_left _ _)
  · simp only [beq_false_of_ne htoken, Bool.false_eq_true, if_false, pure_bind]
    exact hq.anywhere.covers (Reach.covers_meet_right _ _)

/-- A choice by whether the word is next. -/
theorem ifNextIsWord (word : Keyword) {p q : Parse σ α} {p' q' : κ → Parse σ α}
    (hp : Copies R (.facing (.keyword word)) p p' reach) (hq : Copies R .any q q' reach') :
    Copies R view (Parse.nextIsWord word >>= fun is => if is then p else q)
      (fun i => Parse.nextIsWord word >>= fun is => if is then p' i else q' i)
      (reach.meet reach') := by
  unfold Parse.nextIsWord
  simp only [bind_assoc, pure_bind]
  refine peek (fun token => ?_) fun _ _ => rfl
  by_cases htoken : token = .keyword word
  · simp only [htoken, beq_self_eq_true, if_true]
    exact hp.covers (Reach.covers_meet_left _ _)
  · simp only [beq_false_of_ne htoken, Bool.false_eq_true, if_false]
    exact hq.anywhere.covers (Reach.covers_meet_right _ _)

instance expectWord (word : Keyword) :
    Copies R view (Parse.expectWord word) (fun (_ : κ) => Parse.expectWord word) .consuming := by
  unfold Parse.expectWord
  exact ifAcceptsWord _ _ pure unexpected rfl

end Copies

/-- A word that is fed is consumed as it is. -/
theorem Lexer.Feeds.peekSecond {first second : Lexeme} {rest : List Lexeme} {lexer : Lexer}
    (h : lexer.Feeds (first :: second :: rest)) (hkept : first.reread = none) :
    Lexing.peekSecond lexer = .ok (second.token, second.newlineBefore) lexer := by
  obtain ⟨next, behind, htake, -, -, hrest⟩ := h
  rw [hkept] at hrest
  obtain ⟨known, behind', htake', htoken, hnewline, -⟩ := hrest
  rw [Lexing.peekSecond_of_take htake htake', htoken, hnewline]

namespace Copies

variable {R : σ → σ → Prop} {view : View} {reach reach' : Reach} [Bare α] [Bare β]

/-- Looking at the token behind a word, which is then consumed. -/
theorem peekSecond {word : Token} (hword : word.isWord = true) {q : Token × Bool → Parse σ α}
    {q' : κ → Token × Bool → Parse σ α}
    (hq : ∀ answer, Copies R (.facing word) (q answer) (fun i => q' i answer) reach)
    (hreach : reach.Covers .consuming)
    (hend : ∀ i newline, q' i (.punctuator .rParen, newline) = q' i (.endOfInput, newline)) :
    Copies R (.facing word) (Parse.peekSecond >>= q) (fun i => Parse.peekSecond >>= q' i)
      reach := by
  refine ⟨fun {s t a} hsees hrun => ?_⟩
  obtain ⟨answer, middle, hpeek, hrest⟩ := Parse.bind_eq_ok hrun
  obtain ⟨lexer, hsecond, rfl⟩ := Parse.lexing_eq_ok hpeek
  obtain rfl := Lexing.lexer_of_peekSecond hsecond
  obtain ⟨consumed, htrail, hasks, hcopies⟩ := (hq answer).copies hsees hrest
  refine ⟨consumed, htrail, hasks, fun {tokens others s'} i hsights hmirrors => ?_⟩
  obtain ⟨placed, consumed, rfl⟩ := List.exists_cons_of_ne_nil (hreach.asks hasks).2
  -- The word is the token in front of the lexer.
  have hfeeds := htrail.feedsAt tokens hsights.feedsAt
  obtain ⟨known, hknown, rfl⟩ := hsees
  have hkept : placed.reread = none := by
    refine (htrail.orderly placed List.mem_cons_self).reread_eq ?_
    rw [← (hfeeds.token_eq hknown).1]
    exact hword
  have hbehind : Reach.enclosed.Asks consumed := (hreach.asks hasks).1.tail
  obtain ⟨second, ahead, first, rest, htokens, hothers, hhead⟩ :=
    Reach.exists_heads hbehind hsights.admits.enclosed
  rw [List.cons_append, htokens] at hfeeds
  obtain ⟨hanswer, -⟩ :=
    EStateM.Result.ok.inj (hsecond.symm.trans (hfeeds.feeds.peekSecond hkept))
  have hfed := hmirrors.feeds
  rw [List.map_cons, List.cons_append, hothers] at hfed
  have hsame : q' i (first.token, first.newlineBefore) =
      q' i (second.token, second.newlineBefore) := by
    obtain rfl | ⟨-, newline, hending, rfl⟩ := hhead
    · rfl
    · have htoken : second.token = .endOfInput := congrArg Lexeme.token hending
      have hnewline : second.newlineBefore = newline := congrArg Lexeme.newlineBefore hending
      rw [htoken, hnewline]
      exact hend i newline
  have hpeek' : Parse.peekSecond s' = .ok (first.token, first.newlineBefore) s' := by
    unfold Parse.peekSecond Parse.lexing
    rw [hfed.peekSecond hkept]
  unfold Ends
  rw [Parse.bind_of_ok hpeek', hsame, ← hanswer]
  exact hcopies i hsights hmirrors

/-! ## Checks and hooks -/

instance ensure {check : Except Diagnostic α} {check' : κ → Except Diagnostic α}
    [h : ∀ i, Agree check (check' i)] :
    Copies R view (Parse.ensure check) (fun i => Parse.ensure (check' i)) .enclosed :=
  still fun _ hrun => by
    obtain ⟨hcheck, rfl⟩ := Parse.ensure_eq_ok hrun
    refine ⟨rfl, fun i others s' hmirrors => ?_⟩
    obtain ⟨a', hcheck', htwins⟩ := (h i).of_ok hcheck
    unfold Ends
    rw [Parse.ensure_of_ok hcheck']
    exact ⟨htwins, hmirrors⟩

theorem hook {action : Hook σ β} {action' : κ → Hook σ β} (h : ∀ i, Echoed R action (action' i)) :
    Copies R view (Parse.hook action) (fun i => Parse.hook (action' i)) .enclosed :=
  still fun _ hrun => by
    refine ⟨Parse.lexer_of_hook hrun, fun i others s' hmirrors => ?_⟩
    obtain ⟨t', hrun', ht⟩ := (h i).hook hmirrors hrun
    unfold Ends
    rw [hrun']
    exact ⟨.refl _, ht⟩

theorem update {f : σ → σ} (h : ∀ {s s'}, R s s' → R (f s) (f s')) :
    Copies R view (Parse.update fun s => ((), f s)) (fun (_ : κ) => Parse.update fun s => ((), f s))
      .enclosed :=
  still fun _ hrun => by
    cases hrun
    exact ⟨rfl, fun _ _ _ hmirrors =>
      ⟨.refl _, hmirrors.context, h hmirrors.hooks, hmirrors.feeds⟩⟩

/-- A rule in front of a call of a hook. -/
theorem closing {action : Hook σ Unit} (haction : Echoed R action action) {p : Parse σ α}
    {p' : κ → Parse σ α} [h : Copies R view p p' reach] :
    Copies R view (Parse.closing (Parse.hook action) p)
      (fun i => Parse.closing (Parse.hook action) (p' i)) reach :=
  h.closedBy fun hclose =>
    ⟨Parse.lexer_of_hook hclose, fun hmirrors => haction.hook hmirrors hclose⟩

/-! ## Loops -/

omit [Bare α] [Bare β] in
def continued (rest : α → Parse σ β) : Round α β → Parse σ β
  | .again a => rest a
  | .stop b => Pure.pure b

omit [Bare α] [Bare β] in
/-- What follows a choice follows both of its sides. -/
theorem bind_ite {c : Prop} [Decidable c] (p q : Parse σ α) (rest : α → Parse σ β) :
    (if c then p else q) >>= rest = if c then p >>= rest else q >>= rest := by
  split <;> rfl

/-- Rounds behind each of which the loop has the given reach, if it has it where it goes on. -/
theorem rounds {ι : Type} {round : α → Parse σ (Round α β)}
    {round' : ι → α → Parse σ (Round α β)}
    (hround : ∀ (rest : α → Parse σ β) (rest' : ι → α → Parse σ β),
      (∀ a, Copies R .any (rest a) (fun x : ι × TwinOf a => rest' x.1 x.2.value) reach) →
        ∀ a, Copies R .any (round a >>= continued rest)
          (fun x : ι × TwinOf a => round' x.1 x.2.value >>= continued (rest' x.1)) reach)
    (bound bound' : Nat) (a : α) :
    Copies R .any (repeatRounds round bound a)
      (fun x : ι × TwinOf a => repeatRounds (round' x.1) bound' x.2.value) reach := by
  induction bound generalizing bound' a with
  | zero => exact of_fails fun _ _ _ hrun => by cases hrun
  | succ bound ih =>
    have hfirst (bound' : Nat) := hround _ (fun i => repeatRounds (round' i) bound')
      (fun b => ih bound' b) a
    cases bound' with
    | zero => exact (hfirst 0).exhausted fun _ => rfl
    | succ bound' => exact hfirst bound'

/-- What follows a round, where its rounds are copied. -/
theorem continuing {ι : Type} {rest : α → Parse σ β} {rest' : ι → α → Parse σ β}
    (hreach : Reach.enclosed.Covers reach)
    (hrest : ∀ a, Copies R .any (rest a) (fun x : ι × TwinOf a => rest' x.1 x.2.value) reach)
    (r : Round α β) :
    Copies R .any (continued rest r) (fun x : ι × TwinOf r => continued (rest' x.1) x.2.value)
      reach := by
  cases r with
  | stop b =>
    refine covers (still fun _ hrun => ?_) hreach
    cases hrun
    refine ⟨rfl, fun ⟨i, r', hr⟩ _ _ hmirrors => ?_⟩
    cases r' with
    | again a' => cases hr.bare_eq
    | stop b' => exact ⟨⟨Round.stop.inj hr.bare_eq⟩, hmirrors⟩
  | again a =>
    refine ⟨fun hsees hrun => ?_⟩
    obtain ⟨consumed, htrail, hasks, hcopies⟩ := (hrest a).copies hsees hrun
    refine ⟨consumed, htrail, hasks, fun ⟨i, r', hr⟩ => ?_⟩
    cases r' with
    | again a' => exact hcopies ⟨i, a', ⟨Round.again.inj hr.bare_eq⟩⟩
    | stop b' => cases hr.bare_eq

/-- A loop whose rounds are copied. -/
theorem loop {g g' : Grammar σ} {round : α → Parse σ (Round α β)}
    {round' : κ → α → Parse σ (Round α β)} {start : α} {start' : κ → α}
    [hstart : ∀ i, Twins start (start' i)] (reach : Reach) {whole : Reach}
    (hround : ∀ a, Copies R .any (round a) (fun x : κ × TwinOf a => round' x.1 x.2.value) reach)
    (hreach : reach.meet .enclosed = whole) :
    Copies R view (g.loop round start) (fun i => g'.loop (round' i) (start' i)) whole := by
  subst hreach
  have hcovers : Reach.enclosed.Covers (reach.meet .enclosed) :=
    Reach.covers_meet_right reach .enclosed
  have hjoin : ((reach.meet .enclosed).join (reach.meet .enclosed)).Covers
      (reach.meet .enclosed) := by
    cases reach <;> exact .refl _
  have hrounds : Copies R .any (repeatRounds round g.bound start)
      (fun x : κ × TwinOf start => repeatRounds (round' x.1) g'.bound x.2.value)
      (reach.meet .enclosed) := by
    refine rounds (fun rest rest' hrest a => ?_) g.bound g'.bound start
    have hround' := (hround a).covers (Reach.covers_meet_left reach .enclosed)
    have hcontinued (r : Round α β) := (continuing hcovers hrest r).reindex
      fun x : (κ × TwinOf a) × TwinOf r => (x.1.1, x.2)
    exact covers (stepTwins _ hcontinued rfl) hjoin
  exact (hrounds.reindex fun i => (i, ⟨start' i, hstart i⟩)).anywhere

/-- A loop that ends by consuming a bracket. -/
theorem loopSettled {g g' : Grammar σ} {round : α → Parse σ (Round α β)}
    {round' : κ → α → Parse σ (Round α β)} {start : α} {start' : κ → α}
    (hround : ∀ (rest : α → Parse σ β) (rest' : κ → α → Parse σ β),
      (∀ {ι : Type} {view : View} (a : α) (f : ι → κ) (a' : ι → α) [∀ i, Twins a (a' i)],
        Copies R view (rest a) (fun i => rest' (f i) (a' i)) .settled) →
          ∀ a, Copies R .any (round a >>= continued rest)
            (fun x : κ × TwinOf a => round' x.1 x.2.value >>= continued (rest' x.1)) .settled)
    [hstart : ∀ i, Twins start (start' i)] :
    Copies R view (g.loop round start) (fun i => g'.loop (round' i) (start' i)) .settled := by
  have hrounds := rounds (fun rest rest' hrest => hround rest rest' fun a f a' ha =>
    ((hrest a).reindex fun i => (f i, ⟨a' i, ha i⟩)).anywhere) g.bound g'.bound start
  exact (hrounds.reindex fun i => (i, ⟨start' i, hstart i⟩)).anywhere

end Copies

end EcmaScript
