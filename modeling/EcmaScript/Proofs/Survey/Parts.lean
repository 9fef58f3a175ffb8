import EcmaScript.Proofs.Survey.Rule

/-!
What rules add to what has been read.

A rule that reads a part of the tree begins in front of the next token, with parts that have been
read before it, and ends with more parts in front of the end of the last token. The parts of a node
are those between its start and its end; when it is made of them, it takes their place.
-/

namespace EcmaScript

namespace Survey

variable {σ α β : Type} (S : Survey σ)

/-! ## What has been read -/

/-- The parts are formed and lie in order behind `low`, in front of the next token. -/
structure Before (around : List Node.Step) (low : Nat) (ps : List Node.Part) (lexer : Lexer) : Prop where
  formed : S.AllFormed around ps
  inOrder : S.positioned → InOrder low (ps.map Node.Part.node) lexer.nextStart

/-- The parts are formed and lie in order behind `low`, in front of the end of the last token, which
is behind `low`. -/
structure Past (around : List Node.Step) (low : Nat) (ps : List Node.Part) (lexer : Lexer) : Prop where
  formed : S.AllFormed around ps
  inOrder : S.positioned → InOrder low (ps.map Node.Part.node) lexer.lastSpan.stop.offset
  less : S.positioned → low < lexer.lastSpan.stop.offset

/-- The parts are formed and fill the source in order from `low` on, up to `high`. -/
structure Fills (around : List Node.Step) (low : Nat) (ps : List Node.Part) (high : Nat) : Prop where
  formed : S.AllFormed around ps
  inOrder : S.positioned → InOrder low (ps.map Node.Part.node) high

/-- Both hold of the lexer. -/
def Also (P P' : Lexer → Prop) (lexer : Lexer) : Prop := P lexer ∧ P' lexer

/-- Nothing has been read behind `low`, and the next token is known not to be the end of the
source. -/
abbrev Facing (around : List Node.Step) (low : Nat) : Lexer → Prop :=
  Also (S.Before around low []) (Lexer.Faces (· ≠ .endOfInput))

/-- What a rule has made is fit, and its parts have been read. -/
def Made (around : List Node.Step) (low : Nat) (parts : α → List Node.Part) (fit : α → Prop) (a : α)
    (lexer : Lexer) : Prop :=
  fit a ∧ S.Past around low (parts a) lexer

abbrev one (make : α → Node) (a : α) : List Node.Part := plain [make a]

abbrev many (make : α → Node) (l : List α) : List Node.Part := plain (l.map make)

variable {S} {around : List Node.Step} {P P' : Lexer → Prop} {Q : α → Lexer → Prop}
  {lexer lexer' : Lexer} {low low' : Nat} {ps qs : List Node.Part}

theorem allFormed_nil : S.AllFormed around [] := by rintro _ ⟨⟩

theorem allFormed_append :
    S.AllFormed around (ps ++ qs) ↔ S.AllFormed around ps ∧ S.AllFormed around qs :=
  List.forall_mem_append

theorem Fills.le {high : Nat} (h : S.Fills around low ps high) (hpositioned : S.positioned) :
    low ≤ high :=
  (h.inOrder hpositioned).le

theorem many_append (make : α → Node) (l l' : List α) :
    many make (l ++ l') = many make l ++ many make l' := by
  simp [plain]

namespace Past

theorem before (htracks : S.positioned → lexer.Tracks S.source) (h : S.Past around low ps lexer) :
    S.Before around low ps lexer where
  formed := h.formed
  inOrder hpositioned := (h.inOrder hpositioned).mono (Nat.le_refl _)
    (htracks hpositioned).last_le_nextStart

/-- More parts, behind those that fill the source in front of them. -/
theorem append {middle : Nat} (h : S.Fills around low ps middle)
    (h' : S.Past around middle qs lexer) : S.Past around low (ps ++ qs) lexer where
  formed := allFormed_append.2 ⟨h.formed, h'.formed⟩
  inOrder hpositioned := by
    rw [List.map_append, InOrder.append]
    exact ⟨middle, h.inOrder hpositioned, h'.inOrder hpositioned⟩
  less hpositioned := Nat.lt_of_le_of_lt (h.le hpositioned) (h'.less hpositioned)

/-- The last token may end further behind. -/
theorem behind (h : S.Past around low ps lexer)
    (hle : S.positioned → lexer.lastSpan.stop.offset ≤ lexer'.lastSpan.stop.offset) :
    S.Past around low ps lexer' where
  formed := h.formed
  inOrder hpositioned := (h.inOrder hpositioned).mono (Nat.le_refl _) (hle hpositioned)
  less hpositioned := Nat.lt_of_lt_of_le (h.less hpositioned) (hle hpositioned)

theorem mono (h : S.Past around low ps lexer) (hlow : S.positioned → low' ≤ low) :
    S.Past around low' ps lexer where
  formed := h.formed
  inOrder hpositioned := (h.inOrder hpositioned).mono (hlow hpositioned) (Nat.le_refl _)
  less hpositioned := Nat.lt_of_le_of_lt (hlow hpositioned) (h.less hpositioned)

/-- The first parts may be left out. -/
theorem last (h : S.Past around low (ps ++ qs) lexer) : S.Past around low qs lexer where
  formed := (allFormed_append.1 h.formed).2
  inOrder hpositioned := by
    have hparts := h.inOrder hpositioned
    rw [List.map_append, InOrder.append] at hparts
    obtain ⟨middle, hps, hqs⟩ := hparts
    exact hqs.mono hps.le (Nat.le_refl _)
  less := h.less

/-- All parts may be left out. -/
theorem empty (h : S.Past around low ps lexer) : S.Past around low [] lexer where
  formed := by rintro _ ⟨⟩
  inOrder hpositioned := Nat.le_of_lt (h.less hpositioned)
  less := h.less

/-- Parts that can stand in place of the last ones. -/
theorem recast (ps : List Node.Part) {qs rs : List Node.Part}
    (h : S.Past around low (ps ++ qs) lexer) (hrecasts : S.Recasts around qs rs) :
    S.Past around low (ps ++ rs) lexer where
  formed := allFormed_append.2 ⟨(allFormed_append.1 h.formed).1, hrecasts.formed⟩
  inOrder hpositioned := by
    have hparts := h.inOrder hpositioned
    rw [List.map_append, InOrder.append] at hparts ⊢
    obtain ⟨middle, hps, hold⟩ := hparts
    exact ⟨middle, hps, hrecasts.inOrder hpositioned hold⟩
  less := h.less

/-- Parts that can stand in place of the first ones. -/
theorem recastFirst {ps rs : List Node.Part} (h : S.Past around low (ps ++ qs) lexer)
    (hrecasts : S.Recasts around ps rs) : S.Past around low (rs ++ qs) lexer where
  formed := allFormed_append.2 ⟨hrecasts.formed, (allFormed_append.1 h.formed).2⟩
  inOrder hpositioned := by
    have hparts := h.inOrder hpositioned
    rw [List.map_append, InOrder.append] at hparts ⊢
    obtain ⟨middle, hold, hqs⟩ := hparts
    exact ⟨middle, hrecasts.inOrder hpositioned hold, hqs⟩
  less := h.less

/-- A node without a span takes the place of its parts. -/
theorem wrap (ps : List Node.Part) (n : Node)
    (h : S.Past around low (ps ++ n.parts .ordinary) lexer) (hspan : n.span? = none)
    (hshorthand : n.isShorthand = false) (hallowed : n.isAllowedIn (Node.enclosures around))
    (hshaped : n.IsShaped) (hsettable : n.IsSettable := by exact ⟨trivial, trivial⟩)
    (hproper : S.Proper around .ordinary n := by exact ⟨trivial, trivial, fun _ => trivial⟩) :
    S.Past around low (ps ++ plain [n]) lexer := by
  have hparts := allFormed_append.1 h.formed
  have hinOrder : S.positioned → ∃ middle, InOrder low (ps.map Node.Part.node) middle ∧
      InOrder middle n.children lexer.lastSpan.stop.offset := by
    intro hpositioned
    rw [← Node.map_node_parts .ordinary, ← InOrder.append, ← List.map_append]
    exact h.inOrder hpositioned
  refine ⟨allFormed_append.2 ⟨hparts.1, allFormed_plain.2 (List.forall_mem_singleton.2 ?_)⟩, ?_,
    h.less⟩
  · refine .spanless hspan hshorthand hallowed hshaped (fun hpositioned => ?_) hparts.2 hsettable
      hproper
    obtain ⟨middle, -, hchildren⟩ := hinOrder hpositioned
    exact ⟨middle, _, hchildren⟩
  · intro hpositioned
    obtain ⟨middle, hfront, hchildren⟩ := hinOrder hpositioned
    rw [List.map_append, map_node_plain, InOrder.append]
    exact ⟨middle, hfront, InOrder.singleton.2 (InOrder.liesIn_of_children hspan hchildren)⟩

/-- A node with the span of its only part. -/
theorem same (ps : List Node.Part) (n : Node) {usage used : Node.Usage} {c : Node}
    {step : Option Node.Step} {span : Span}
    (h : S.Past around low (ps ++ [⟨step, used, c⟩]) lexer) (hc : c.span? = some span)
    (hprogram : c.isProgram = false) (hspan : n.span? = some span)
    (hparts : n.parts usage = [⟨step, used, c⟩]) (hshorthand : n.isShorthand = false)
    (hallowed : n.isAllowedIn (Node.enclosures around)) (hshaped : n.IsShaped)
    (hsettable : n.IsSettable := by exact ⟨trivial, trivial⟩)
    (hproper : S.Proper around usage n := by exact ⟨trivial, trivial, fun _ => trivial⟩) :
    S.Past around low (ps ++ [.here usage n]) lexer := by
  have hchildren : n.children = [c] := by
    rw [← Node.map_node_parts usage, hparts]
    rfl
  have hformed := allFormed_append.1 h.formed
  have hlawful := (hformed.2 _ List.mem_cons_self).lawful
  have hexact := hlawful.exact span hc
  have hnonempty (hpositioned : S.positioned) : span.start.offset < span.stop.offset :=
    hlawful.nonempty hpositioned hprogram span hc
  have hcovers : S.Covers span n.children := by
    refine ⟨hexact.1, hexact.2, hnonempty, fun hpositioned => ?_⟩
    rw [hchildren]
    refine InOrder.singleton.2 ((Node.liesIn_iff_of_span hc).2 ?_)
    exact ⟨Nat.le_refl _, hnonempty hpositioned, Nat.le_refl _⟩
  have hn : S.FormedAs around usage n :=
    .spanned hspan hshorthand hallowed hshaped hcovers (by rw [hparts]; exact hformed.2) hsettable
      hproper
  refine ⟨allFormed_append.2 ⟨hformed.1, List.forall_mem_singleton.2 hn⟩, ?_, h.less⟩
  intro hpositioned
  have hinOrder := h.inOrder hpositioned
  rw [List.map_append, InOrder.append] at hinOrder ⊢
  obtain ⟨middle, hps, hlast⟩ := hinOrder
  refine ⟨middle, hps, InOrder.singleton.2 ?_⟩
  exact liesIn_of_span_eq hc hspan (InOrder.singleton.1 hlast)

/-- From the start of the first part on, which another one takes the place of. -/
theorem fromFirst {p q : Node.Part} {span : Span} (h : S.Past around low (p :: ps) lexer)
    (hp : p.node.span? = some span) (hrecasts : S.Recasts around [p] [q]) :
    S.Past around span.start.offset (q :: ps) lexer := by
  have hinOrder : S.positioned → ∃ middle, span.LiesIn low middle ∧
      InOrder middle (ps.map Node.Part.node) lexer.lastSpan.stop.offset := by
    intro hpositioned
    obtain ⟨middle, hfirst, hrest⟩ := h.inOrder hpositioned
    exact ⟨middle, (Node.liesIn_iff_of_span hp).1 hfirst, hrest⟩
  refine ⟨List.forall_mem_cons.2 ⟨hrecasts.formed q List.mem_cons_self,
    (List.forall_mem_cons.1 h.formed).2⟩, ?_, ?_⟩
  · intro hpositioned
    obtain ⟨middle, hspan, hrest⟩ := hinOrder hpositioned
    have hfirst : p.node.LiesIn span.start.offset middle :=
      (Node.liesIn_iff_of_span hp).2 ⟨Nat.le_refl _, hspan.start_lt_stop, hspan.le_high⟩
    have hfirst' := hrecasts.inOrder hpositioned (InOrder.singleton.2 hfirst)
    exact ⟨middle, InOrder.singleton.1 hfirst', hrest⟩
  · intro hpositioned
    obtain ⟨middle, hspan, hrest⟩ := hinOrder hpositioned
    have hless := hspan.start_lt_stop
    have hle := hspan.le_high
    have hle' := hrest.le
    omega

/-- The parts of what a step leads into. -/
theorem enclosed {step : Node.Step} (nodes : List Node)
    (h : S.Past (step :: around) low (plain nodes) lexer) :
    S.Past around low (nodes.map fun n => ⟨some step, .ordinary, n⟩) lexer where
  formed := List.forall_mem_map.2 (allFormed_plain.1 h.formed)
  inOrder hpositioned := by
    have hparts := h.inOrder hpositioned
    rw [map_node_plain] at hparts
    rw [List.map_map]
    change InOrder low (nodes.map id) _
    rwa [List.map_id]
  less := h.less

end Past

/-! ## What looking and proceeding keep -/

/-- Looking at what is next keeps `P`. -/
class Stable (S : Survey σ) (P : Lexer → Prop) : Prop where
  stable : ∀ {lexer lexer'}, S.Same lexer lexer' → P lexer → P lexer'

/-- Going on keeps `P`. -/
class Steady (S : Survey σ) (P : Lexer → Prop) : Prop where
  steady : ∀ {lexer lexer'}, S.Onward lexer lexer' → P lexer → P lexer'

/-- Where `P` holds, the parts are in front of the next token. -/
class Reaches (S : Survey σ) (around : List Node.Step) (P : Lexer → Prop) (low : outParam Nat)
    (ps : outParam (List Node.Part)) : Prop where
  reaches : ∀ {lexer : Lexer}, (S.positioned → lexer.Tracks S.source) → P lexer →
    S.Before around low ps lexer

instance Steady.before : Steady S (S.Before around low ps) where
  steady honward h := ⟨h.formed, fun hpositioned =>
    (h.inOrder hpositioned).mono (Nat.le_refl _) (honward.next hpositioned)⟩

instance Steady.past : Steady S (S.Past around low ps) where
  steady honward h := h.behind honward.last

instance Steady.imp {c : Prop} [hP : Steady S P] : Steady S fun lexer => c → P lexer :=
  ⟨fun honward h hc => hP.steady honward (h hc)⟩

instance Steady.const {c : Prop} : Steady S fun _ => c := ⟨fun _ h => h⟩

instance Steady.also [hP : Steady S P] [hP' : Steady S P'] : Steady S (Also P P') :=
  ⟨fun honward h => ⟨hP.steady honward h.1, hP'.steady honward h.2⟩⟩

instance Stable.ofSteady [hP : Steady S P] : Stable S P := ⟨fun hsame h => hP.steady hsame.onward h⟩

instance Stable.also [hP : Stable S P] [hP' : Stable S P'] : Stable S (Also P P') :=
  ⟨fun hsame h => ⟨hP.stable hsame h.1, hP'.stable hsame h.2⟩⟩

instance Stable.faces (test : Token → Prop) : Stable S (Lexer.Faces test) where
  stable hsame := by
    rintro ⟨next, hnext, htest⟩
    exact ⟨next, hsame.known next hnext, htest⟩

instance Reaches.before : Reaches S around (S.Before around low ps) low ps := ⟨fun _ h => h⟩

instance Reaches.past : Reaches S around (S.Past around low ps) low ps :=
  ⟨fun htracks h => h.before htracks⟩

instance Reaches.also [hP : Reaches S around P low ps] : Reaches S around (Also P P') low ps :=
  ⟨fun htracks h => hP.reaches htracks h.1⟩

theorem Before.fills (h : S.Before around low ps lexer) :
    S.Fills around low ps lexer.nextStart :=
  ⟨h.formed, h.inOrder⟩

/-- Behind a token, what was in front of it is past. -/
theorem Before.past (h : S.Before around low ps lexer) (hadvanced : S.Advanced lexer lexer') :
    S.Past around low ps lexer' where
  formed := h.formed
  inOrder hpositioned :=
    (h.inOrder hpositioned).mono (Nat.le_refl _) (Nat.le_of_lt (hadvanced hpositioned))
  less hpositioned := Nat.lt_of_le_of_lt (h.inOrder hpositioned).le (hadvanced hpositioned)

class Tests (S : Survey σ) (p : Parse σ Bool) (test : outParam (Token → Bool)) : Prop where
  tests : ∀ around lexer, S.Does around (lexer = ·) p fun b lexer' =>
    S.Same lexer lexer' ∧ lexer'.Faces (test · = b)

namespace Tests

instance peeked (test : Token → Bool) :
    Tests S (do return test (← Parse.peek) : Parse σ Bool) test where
  tests around lexer := by
    refine Does.bind (Does.lookahead _ lexer) fun token => Does.pure ?_
    rintro lexer' ⟨next, hlooked, rfl⟩
    exact ⟨hlooked.same, next, hlooked.ahead, rfl⟩

instance nextIs (symbol : Punctuator) :
    Tests S (Parse.nextIs symbol : Parse σ Bool) (· == .punctuator symbol) :=
  peeked _

instance nextIsWord (word : Keyword) :
    Tests S (Parse.nextIsWord word : Parse σ Bool) (· == .keyword word) :=
  peeked _

end Tests

namespace Does

/-- What is past is in front of the next token. -/
theorem relax {p : Parse σ α} (h : S.Does around (S.Before around low ps) p Q) :
    S.Does around (S.Past around low ps) p Q :=
  h.weaken fun _ htracks hpast => hpast.before htracks

theorem observe {p : Parse σ β} {q : β → Parse σ α} [hp : Observes S p] [hP : Stable S P]
    (hq : ∀ b, S.Does around P (q b) Q) : S.Does around P (p >>= q) Q :=
  via (hp.observes around) (fun _ _ _ _ _ h hsame => hP.stable hsame h) hq

theorem proceed {p : Parse σ β} {q : β → Parse σ α} [hp : Proceeds S p] [hP : Steady S P]
    (hq : ∀ b, S.Does around P (q b) Q) : S.Does around P (p >>= q) Q :=
  via (hp.proceeds around) (fun _ _ _ _ _ h honward => hP.steady honward h) hq

theorem advance {p : Parse σ β} {q : β → Parse σ α} [hp : Advances S p]
    [hP : Reaches S around P low ps] (hq : ∀ b, S.Does around (S.Past around low ps) (q b) Q) :
    S.Does around P (p >>= q) Q :=
  via (hp.advances around)
    (fun _ _ _ htracks _ h hadvanced => (hP.reaches htracks h).past hadvanced) hq

/-- A token, with something else that going on keeps. -/
theorem advanceAlso {p : Parse σ β} {q : β → Parse σ α} [hp : Advances S p]
    [hP : Reaches S around P low ps] [hP' : Steady S P']
    (hq : ∀ b, S.Does around (Also (S.Past around low ps) P') (q b) Q) :
    S.Does around (Also P P') (p >>= q) Q :=
  via (hp.advances around) (fun _ _ _ htracks htracks' h hadvanced =>
    ⟨(hP.reaches htracks h.1).past hadvanced,
      hP'.steady (Advanced.onward htracks htracks' hadvanced) h.2⟩) hq

/-- A choice by the next token. -/
theorem ifNext {isNext : Parse σ Bool} {test : Token → Bool} {p q : Parse σ α}
    [htests : Tests S isNext test] [hP : Stable S P]
    (hp : S.Does around (Also P (Lexer.Faces (test · = true))) p Q)
    (hq : S.Does around (Also P (Lexer.Faces (test · = false))) q Q) :
    S.Does around P (isNext >>= fun b => if b = true then p else q) Q := by
  refine via (T := fun b => Also P (Lexer.Faces (test · = b))) (htests.tests around) ?_ fun b => ?_
  · exact fun _ _ _ _ _ h ⟨hsame, hfaces⟩ => ⟨hP.stable hsame h, hfaces⟩
  · cases b with
    | true => exact ite (fun _ => hp) fun h => absurd rfl h
    | false => exact ite nofun fun _ => hq

/-- A choice by a token that is consumed if it is the next one. -/
theorem ifAccepted {accept : Parse σ Bool} {test : Token → Prop} {p q : Parse σ α}
    [haccepts : Accepts S accept test] [hP : Reaches S around P low ps] [hstable : Stable S P]
    (hp : S.Does around (S.Past around low ps) p Q)
    (hq : S.Does around (Also P (Lexer.Faces test)) q Q) :
    S.Does around P (accept >>= fun b => if b = true then p else q) Q := by
  refine via (T := fun accepted lexer => if accepted then S.Past around low ps lexer
    else Also P (Lexer.Faces test) lexer) (haccepts.accepts around) ?_ fun accepted => ?_
  · rintro lexer lexer' (_ | _) htracks _ h hrelated
    · exact ⟨hstable.stable hrelated.1 h, hrelated.2⟩
    · exact (hP.reaches htracks h).past hrelated
  · cases accepted with
    | true => exact ite (fun _ => hp) fun h => absurd rfl h
    | false => exact ite nofun fun _ => hq

/-- The end of the last token. -/
theorem lastEnd {q : Position → Parse σ α}
    (hq : ∀ stop, S.Does around (Also P fun lexer => lexer.lastSpan.stop = stop) (q stop) Q) :
    S.Does around P (Parse.lastEnd >>= q) Q :=
  fun s hs h => hq s.lexer.lastSpan.stop s hs ⟨h, rfl⟩

theorem peeked {q : Token → Parse σ α} [hP : Stable S P]
    (hq : ∀ token, S.Does around (Also P (Lexer.Faces (· = token))) (q token) Q) :
    S.Does around P (Parse.peek >>= q) Q := by
  refine via (lookahead _) ?_ hq
  rintro _ lexer' token _ _ h ⟨next, hlooked, rfl⟩
  exact ⟨hP.stable hlooked.same h, next, hlooked.ahead, rfl⟩

/-- The start of what is read next. -/
theorem here {q : Position → Parse σ α} [hP : Stable S P]
    (hq : ∀ start, S.Exact start → S.Does around
      (Also P fun lexer => S.positioned → lexer.nextStart = start.offset) (q start) Q) :
    S.Does around P (Parse.startPosition >>= q) Q := by
  refine via (T := fun start => Also (fun _ => S.Exact start)
    (Also P fun lexer => S.positioned → lexer.nextStart = start.offset)) (lookahead _) ?_
    fun start => assume (fun _ h => h.1) fun hstart => (hq start hstart).weaken fun _ _ h => h.2
  rintro _ lexer' start _ _ h ⟨next, hlooked, rfl⟩
  exact ⟨hlooked.start, hP.stable hlooked.same h, fun _ => Lexer.nextStart_of_some hlooked.ahead⟩

/-- The start of what is read next, behind what fills the source in front of it. -/
theorem inner {q : Position → Parse σ α} [hP : Stable S P] [hreaches : Reaches S around P low ps]
    (hq : ∀ start, S.Exact start → S.Fills around low ps start.offset →
      S.Does around (S.Before around start.offset []) (q start) Q) :
    S.Does around P (Parse.startPosition >>= q) Q := by
  refine here fun start hstart => pointwise fun lexer htracks ⟨h, hnext⟩ => ?_
  have hbefore := hreaches.reaches htracks h
  refine (hq start hstart ⟨hbefore.formed, fun hpositioned => ?_⟩).weaken ?_
  · rw [← hnext hpositioned]
    exact hbefore.inOrder hpositioned
  · rintro _ _ rfl
    exact ⟨allFormed_nil, fun hpositioned => Nat.le_of_eq (hnext hpositioned).symm⟩

/-- A rule that begins by taking its start. -/
theorem start {q : Position → Parse σ α} {parts : α → List Node.Part} {fit : α → Prop}
    (hq : ∀ start, S.Exact start →
      S.Does around (S.Before around start.offset []) (q start)
        (S.Made around start.offset parts fit)) :
    S.Does around (S.Before around low []) (Parse.startPosition >>= q)
      (S.Made around low parts fit) := by
  refine inner fun start hstart hfront => (hq start hstart).mono (fun _ _ h => h) ?_
  exact fun a lexer _ ⟨hfit, hpast⟩ => ⟨hfit, hpast.mono hfront.le⟩

/-- A rule that begins by taking its start, in front of a token that is known. -/
theorem startFacing {q : Position → Parse σ α} {parts : α → List Node.Part} {fit : α → Prop}
    {test : Token → Prop}
    (hq : ∀ start, S.Exact start →
      S.Does around (Also (S.Before around start.offset []) (Lexer.Faces test)) (q start)
        (S.Made around start.offset parts fit)) :
    S.Does around (Also (S.Before around low []) (Lexer.Faces test)) (Parse.startPosition >>= q)
      (S.Made around low parts fit) := by
  refine here fun start hstart => pointwise fun lexer _ ⟨⟨h, hfaces⟩, hnext⟩ => ?_
  refine (hq start hstart).mono ?_ fun a lexer' _ ⟨hfit, hpast⟩ => ⟨hfit, hpast.mono ?_⟩
  · rintro _ _ rfl
    exact ⟨⟨allFormed_nil, fun hpositioned => Nat.le_of_eq (hnext hpositioned).symm⟩, hfaces⟩
  · intro hpositioned
    rw [← hnext hpositioned]
    exact h.inOrder hpositioned

/-- A token that is known is consumed. -/
theorem skipping {test : Token → Prop} {q : Unit → Parse σ α} [hP : Reaches S around P low ps]
    (htest : ∀ token, test token → token ≠ .endOfInput)
    (hq : S.Does around (S.Past around low ps) (q ()) Q) :
    S.Does around (Also P (Lexer.Faces test)) (Parse.skip >>= q) Q := by
  refine bind (R := fun _ => S.Past around low ps) ?_ fun _ => hq
  refine via (T := fun _ => S.Past around low ps) next ?_ fun _ => pure fun _ h => h
  rintro lexer lexer' token htracks _ ⟨h, known, hknown, hend⟩ htook
  refine (hP.reaches htracks h).past (htook.advanced ?_)
  rw [htook.token_eq known hknown]
  exact htest _ hend

/-- A token that has been looked at is not the end of the source. -/
theorem facing {p : Parse σ α} {token : Token} (htoken : token ≠ .endOfInput)
    (h : S.Does around (S.Facing around low) p Q) :
    S.Does around (Also (S.Before around low []) (Lexer.Faces (· = token))) p Q :=
  h.weaken fun _ _ hlooked => ⟨hlooked.1, hlooked.2.mono fun _ hother => hother ▸ htoken⟩

/-- The next token is consumed, and is not the end of the source if the rest is to succeed. -/
theorem token {q : Token → Parse σ α} [hP : Reaches S around P low ps]
    (hend : Halts S (q .endOfInput))
    (hq : ∀ token, S.Does around (S.Past around low ps) (q token) Q) :
    S.Does around P (Parse.next >>= q) Q := by
  refine via (T := fun token lexer => token ≠ .endOfInput → S.Past around low ps lexer) next ?_
    fun token => ?_
  · intro lexer lexer' token htracks _ h htook hne
    exact (hP.reaches htracks h).past (htook.advanced hne)
  · by_cases htoken : token = .endOfInput
    · subst htoken
      exact halt hend
    · exact (hq token).weaken fun _ _ h => h htoken

/-- A rule that begins with its first token, which is written at its start. -/
theorem startToken {q : Position → Token → Parse σ α} {parts : α → List Node.Part} {fit : α → Prop}
    (hend : ∀ start, S.Exact start → Halts S (q start .endOfInput))
    (hq : ∀ start token, S.Exact start →
      (S.positioned → ∃ stop, token.IsWritten S.source start.offset stop) →
      S.Does around (S.Past around start.offset []) (q start token)
        (S.Made around start.offset parts fit)) :
    S.Does around (S.Before around low [])
      (Parse.startPosition >>= fun start => Parse.next >>= q start)
      (S.Made around low parts fit) := by
  refine here fun start hstart => pointwise fun lexer htracks ⟨h, hnext⟩ => ?_
  have hlow : S.positioned → low ≤ start.offset := fun hpositioned => by
    rw [← hnext hpositioned]
    exact h.inOrder hpositioned
  refine via (T := fun token lexer' => (token ≠ .endOfInput → S.Past around start.offset [] lexer') ∧
    (S.positioned → ∃ stop, token.IsWritten S.source start.offset stop)) next ?_ fun token => ?_
  · rintro _ lexer' token htracks _ rfl htook
    refine ⟨fun hne => ?_, fun hpositioned => ⟨_, hnext hpositioned ▸ htook.written hpositioned⟩⟩
    have hbefore : S.Before around start.offset [] lexer :=
      ⟨allFormed_nil, fun hpositioned => Nat.le_of_eq (hnext hpositioned).symm⟩
    exact hbefore.past (htook.advanced hne)
  · by_cases htoken : token = .endOfInput
    · subst htoken
      exact halt (hend start hstart)
    · refine assume (fun _ h => h.2) fun hwritten => ?_
      refine (hq start token hstart hwritten).mono (fun _ _ h => h.1 htoken) ?_
      exact fun a lexer' _ ⟨hfit, hpast⟩ => ⟨hfit, hpast.mono hlow⟩

end Does

/-! ## Nodes made of parts -/

variable (S) in
structure Composed (around : List Node.Step) (usage : Node.Usage) (n : Node) (span : Span)
    (ps : List Node.Part) : Prop where
  span : n.span? = some span
  parts : n.parts usage = ps
  shorthand : n.isShorthand = false
  allowed : n.isAllowedIn (Node.enclosures around)
  shaped : n.IsShaped
  settable : n.IsSettable
  proper : S.Proper around usage n

/-- A node of which nothing is asked but that its children are ordinary. -/
theorem Composed.plain {usage : Node.Usage} {n : Node} {span : Span}
    (hordinary : ∀ c ∈ n.children, c.isOrdinary)
    (hproper : S.Proper around usage n := by exact ⟨trivial, trivial, fun _ => trivial⟩)
    (hparts : n.parts usage = ps := by rfl) (hspan : n.span? = some span := by rfl)
    (hshorthand : n.isShorthand = false := by rfl)
    (hallowed : n.isAllowedIn (Node.enclosures around) = true := by rfl)
    (hshaped : n.IsShaped = (∀ c ∈ n.children, c.isOrdinary) := by rfl)
    (hsettable : n.IsSettable := by exact ⟨trivial, trivial⟩) :
    S.Composed around usage n span ps :=
  ⟨hspan, hparts, hshorthand, hallowed, hshaped ▸ hordinary, hsettable, hproper⟩

/-- The parts between the start of a span and its end are covered by it. -/
theorem Past.covers {start : Position} (htracks : S.positioned → lexer.Tracks S.source)
    (hstart : S.Exact start) (h : S.Past around start.offset ps lexer) :
    S.Covers ⟨start, lexer.lastSpan.stop⟩ (ps.map Node.Part.node) where
  start := hstart
  stop hpositioned := (htracks hpositioned).last_stop
  nonempty := h.less
  inOrder := h.inOrder

/-- A node takes the place of its parts. -/
theorem Past.compose {usage : Node.Usage} {start : Position} {n : Node}
    (htracks : S.positioned → lexer.Tracks S.source) (hstart : S.Exact start)
    (h : S.Past around start.offset ps lexer)
    (hn : S.Composed around usage n ⟨start, lexer.lastSpan.stop⟩ ps) :
    S.Past around start.offset [.here usage n] lexer := by
  have hcovers := h.covers htracks hstart
  have hformed : S.FormedAs around usage n := by
    refine .spanned hn.span hn.shorthand hn.allowed hn.shaped ?_ ?_ hn.settable hn.proper
    · rw [← Node.map_node_parts usage, hn.parts]
      exact hcovers
    · rw [hn.parts]
      exact h.formed
  refine ⟨List.forall_mem_singleton.2 hformed, fun hpositioned => ?_, h.less⟩
  refine InOrder.singleton.2 ((Node.liesIn_iff_of_span hn.span).2 ?_)
  exact ⟨Nat.le_refl _, hcovers.nonempty hpositioned, Nat.le_refl _⟩

namespace Does

/-- The end of a node, which is made of what has been read from its start on; it may stand inside
of the code that the rule goes on with. -/
theorem made {inner : List Node.Step} {usage : Node.Usage} (n : Span → Node) {start : Position}
    {q : Span → Parse σ α} (hstart : S.Exact start)
    (hn : ∀ stop, S.Composed inner usage (n ⟨start, stop⟩) ⟨start, stop⟩ ps)
    (hq : ∀ span, S.Does around (S.Past inner start.offset [.here usage (n span)]) (q span) Q) :
    S.Does around (S.Past inner start.offset ps) (Parse.spanFrom start >>= q) Q :=
  fun s hs h => hq _ s hs (h.compose hs.tracks hstart (hn _))

/-- The end of a node, with something else that holds of the lexer. -/
theorem madeAlso (n : Span → Node) {start : Position} {q : Span → Parse σ α}
    (hstart : S.Exact start)
    (hn : ∀ stop, S.Composed around .ordinary (n ⟨start, stop⟩) ⟨start, stop⟩ ps)
    (hq : ∀ span, S.Does around (Also (S.Past around start.offset (Survey.plain [n span])) P) (q span)
      Q) :
    S.Does around (Also (S.Past around start.offset ps) P) (Parse.spanFrom start >>= q) Q :=
  fun s hs h => hq _ s hs ⟨h.1.compose hs.tracks hstart (hn _), h.2⟩

/-- The end of a node of which something is asked that depends on where it ends. -/
theorem madeWith {inner : List Node.Step} (usage : Node.Usage) (n : Span → Node) {start : Position}
    {q : Span → Parse σ α} (hstart : S.Exact start)
    (hpast : ∀ lexer, P lexer → S.Past inner start.offset ps lexer)
    (hn : ∀ lexer, P lexer → S.Composed inner usage (n ⟨start, lexer.lastSpan.stop⟩)
      ⟨start, lexer.lastSpan.stop⟩ ps)
    (hq : ∀ span, S.Does around (Also (S.Past inner start.offset [.here usage (n span)]) fun lexer =>
      P lexer ∧ span = ⟨start, lexer.lastSpan.stop⟩) (q span) Q) :
    S.Does around P (Parse.spanFrom start >>= q) Q :=
  fun s hs h => hq _ s hs ⟨(hpast _ h).compose hs.tracks hstart (hn _ h), h, rfl⟩

/-- The end of a rule, with a node of which something is asked that depends on where it ends. -/
theorem doneWith {usage : Node.Usage} {start : Position} {make : Span → α} {node : α → Node}
    {fit : α → Prop} (hstart : S.Exact start)
    (hpast : ∀ lexer, P lexer → S.Past around start.offset ps lexer)
    (hn : ∀ lexer, P lexer → S.Composed around usage (node (make ⟨start, lexer.lastSpan.stop⟩))
      ⟨start, lexer.lastSpan.stop⟩ ps)
    (hfit : ∀ span, fit (make span)) :
    S.Does around P (Parse.spanFrom start >>= fun span => Pure.pure (make span))
      (S.Made around start.offset (fun a => [.here usage (node a)]) fit) :=
  madeWith usage (fun span => node (make span)) hstart hpast hn
    fun span => pure fun _ h => ⟨hfit span, h.1⟩

/-- The end of a rule, with the node that it has made. -/
theorem done {usage : Node.Usage} {start : Position} {make : Span → α} {node : α → Node}
    {fit : α → Prop} (hstart : S.Exact start)
    (hn : ∀ stop, S.Composed around usage (node (make ⟨start, stop⟩)) ⟨start, stop⟩ ps)
    (hfit : ∀ span, fit (make span)) :
    S.Does around (S.Past around start.offset ps)
      (Parse.spanFrom start >>= fun span => Pure.pure (make span))
      (S.Made around start.offset (fun a => [.here usage (node a)]) fit) :=
  made (fun span => node (make span)) hstart hn fun span => pure fun _ h => ⟨hfit span, h⟩

end Does

/-! ## Rules that yield parts -/

/-- The rule adds the parts of its result, which is fit. -/
class Yields (S : Survey σ) (p : Parse σ α) (parts : outParam (α → List Node.Part))
    (fit : outParam (α → Prop)) : Prop where
  yields : ∀ around low, S.Does around (S.Before around low []) p (S.Made around low parts fit)

/-- The rule adds the parts of its result, which begins at `start`. -/
class Continues (S : Survey σ) (start : Position) (p : Parse σ α)
    (parts : outParam (α → List Node.Part)) (fit : outParam (α → Prop)) : Prop where
  continues : ∀ around, S.Exact start →
    S.Does around (S.Before around start.offset []) p (S.Made around start.offset parts fit)

/-- The rule adds the parts of its result, which begins at `start` with a token that is known. -/
class Opens (S : Survey σ) (start : Position) (p : Parse σ α)
    (parts : outParam (α → List Node.Part)) (fit : outParam (α → Prop)) : Prop where
  opens : ∀ around, S.Exact start →
    S.Does around (S.Facing around start.offset) p (S.Made around start.offset parts fit)

section Yields

variable {p : Parse σ β} {parts : β → List Node.Part} {fit : β → Prop}

/-- What has been made, and then the rest. -/
theorem Does.after {inner : List Node.Step} {q : β → Parse σ α}
    (hp : S.Does around P p (S.Made inner low parts fit))
    (hq : ∀ b, fit b → S.Does around (S.Past inner low (parts b)) (q b) Q) :
    S.Does around P (p >>= q) Q :=
  bind hp fun b => assume (fun _ h => h.1) fun hfit => (hq b hfit).weaken fun _ _ h => h.2

/-- A rule that yields parts, behind other parts. -/
theorem Does.yield [hp : Yields S p parts fit] [hP : Reaches S around P low ps] :
    S.Does around P p (S.Made around low (fun b => ps ++ parts b) fit) := by
  refine pointwise fun lexer htracks h => ?_
  refine (hp.yields around lexer.nextStart).mono ?_ fun b lexer' _ ⟨hfit, hpast⟩ => ⟨hfit, ?_⟩
  · rintro _ _ rfl
    exact ⟨allFormed_nil, fun _ => Nat.le_refl _⟩
  · exact .append (hP.reaches htracks h).fills hpast

theorem Does.step {q : β → Parse σ α} [Yields S p parts fit] [Reaches S around P low ps]
    (hq : ∀ b, fit b → S.Does around (S.Past around low (ps ++ parts b)) (q b) Q) :
    S.Does around P (p >>= q) Q :=
  after yield hq

/-- The node that has been read is formed. -/
theorem Does.formed {n : Node} {q : Parse σ α}
    (hq : S.Formed around n → S.Does around (S.Past around low (plain [n])) q Q) :
    S.Does around (S.Past around low (plain [n])) q Q :=
  assume (fun _ h => allFormed_plain.1 h.formed n List.mem_cons_self) hq

/-- A rule that reads a node from its first token on. -/
theorem Does.opening {start : Position} [hp : Opens S start p parts fit] (hstart : S.Exact start) :
    S.Does around (S.Facing around start.offset) p (S.Made around start.offset parts fit) :=
  hp.opens around hstart

instance Opens.ofContinues {start : Position} [hp : Continues S start p parts fit] :
    Opens S start p parts fit where
  opens around hstart := (hp.continues around hstart).weaken fun _ _ h => h.1

instance Continues.ofYields {start : Position} [hp : Yields S p parts fit] :
    Continues S start p parts fit where
  continues around _ := hp.yields around _

/-- What a rule yields is read by tokens. -/
instance (priority := low) Advances.ofYields [hp : Yields S p parts fit] : Advances S p where
  advances around lexer := by
    refine (hp.yields around lexer.nextStart).mono ?_ fun _ _ _ h => h.2.less
    rintro _ _ rfl
    exact ⟨allFormed_nil, fun _ => Nat.le_refl _⟩

instance (priority := low) Proceeds.ofAdvances [hp : Advances S p] : Proceeds S p where
  proceeds around lexer := by
    refine Does.pointwise fun l htracks hl => ?_
    subst hl
    exact (hp.advances around lexer).mono (fun _ _ h => h) fun _ _ htracks' h =>
      Advanced.onward htracks htracks' h

end Yields

/-! ## Choices -/

section Choices

variable {p : Parse σ β} {fit : β → Prop} {c : Prop} [Decidable c]

theorem Does.map {γ : Type} {f : β → γ} {q : γ → Parse σ α}
    (h : S.Does around P (p >>= fun b => q (f b)) Q) : S.Does around P (f <$> p >>= q) Q := by
  rw [map_eq_pure_bind, bind_assoc]
  simpa only [pure_bind] using h

/-- A part that is read if a condition holds. -/
theorem Does.optional {make : β → Node} {q : Option β → Parse σ α} [Yields S p (one make) fit]
    (hq : ∀ o : Option β, (∀ b ∈ o, fit b) →
      S.Does around (S.Past around low (ps ++ many make o.toList)) (q o) Q) :
    S.Does around (S.Past around low ps)
      (if c then some <$> p >>= q else Pure.pure none >>= q) Q := by
  refine ite (fun _ => map (step fun b hb => hq (some b) ?_)) fun _ => ?_
  · rintro _ ⟨⟩
    exact hb
  · have h := hq none (by rintro _ ⟨⟩)
    change S.Does around (S.Past around low (ps ++ [])) (q none) Q at h
    rwa [List.append_nil] at h

/-- A part that is read unless a condition holds. -/
theorem Does.optionalUnless {make : β → Node} {q : Option β → Parse σ α}
    [Yields S p (one make) fit]
    (hq : ∀ o : Option β, (∀ b ∈ o, fit b) →
      S.Does around (S.Past around low (ps ++ many make o.toList)) (q o) Q) :
    S.Does around (S.Past around low ps)
      (if c then Pure.pure none >>= q else some <$> p >>= q) Q := by
  have h := optional (p := p) (c := ¬c) hq
  rwa [ite_not] at h

/-- Where one of two rules is chosen, the rest is the same behind both. -/
theorem Does.choice {p' : Parse σ β} {parts : β → List Node.Part} {q : β → Parse σ α}
    [Yields S p parts fit] [Yields S p' parts fit] [Reaches S around P low ps]
    (hq : ∀ b, fit b → S.Does around (S.Past around low (ps ++ parts b)) (q b) Q) :
    S.Does around P (if c then p >>= q else p' >>= q) Q :=
  ite (fun _ => step hq) fun _ => step hq

end Choices

/-! ## Regions -/

/-- What holds of the code around a region holds of the code in it. -/
theorem Strict.inside (step : Option Node.Step) (h : S.Strict around) :
    S.Strict (step.toList ++ around) :=
  h.imp id fun hclass => List.mem_append.2 (.inr hclass)

/-- Entering a region keeps what the context has to do with the surroundings. -/
theorem Stands.enter {s : ParserState σ} (h : S.Stands around s) (region : Region) :
    S.Stands (region.step?.toList ++ around) { s with context := region.enter s.context } where
  grants := by
    rw [Region.enclosures_step?]
    exact h.grants.enter region
  strict hstrict := by
    cases region with
    | classCode => rfl
    | _ =>
      refine h.strict (hstrict.imp id fun hclass => ?_)
      simpa [Region.step?, Region.enclosure?] using hclass
  fine := h.fine
  tracks := h.tracks

/-- Leaving a region, too. -/
theorem Stands.leave {s s' : ParserState σ} (h : S.Stands around s) (region : Region)
    (h' : S.Stands (region.step?.toList ++ around) s') {behind : Context}
    (hkept : s.context.Kept behind)
    (hleave : region.leave s.context s'.context = some behind) :
    S.Stands around { s' with context := behind } where
  grants := h.grants.kept hkept
  strict hstrict := by
    cases hrestores : region.restoresStrict with
    | true => exact (Region.strict_leave_restores hrestores hleave).trans (h.strict hstrict)
    | false =>
      exact (Region.strict_leave hrestores hleave).trans (h'.strict (hstrict.inside region.step?))
  fine := h'.fine
  tracks := h'.tracks

/-- There is a way out of a region whose context has been kept. -/
theorem Stands.ends_leaving {s s' : ParserState σ} (h : S.Stands around s) (region : Region)
    {R : Lexer → Prop} (hkept : (region.enter s.context).Kept s'.context)
    (h' : S.Stands (region.step?.toList ++ around) s') (hR : R s'.lexer) :
    Ends S.Refuses (Parse.leaving (region.leave s.context)) s' fun _ s'' =>
      s.context.Kept s''.context ∧ S.Stands around s'' ∧ R s''.lexer := by
  obtain ⟨behind, hleave, hbehind⟩ := hkept.leave region
  unfold Ends Parse.leaving
  rw [hleave]
  exact ⟨hbehind, h.leave region h' hbehind hleave, hR⟩

/-- Behind an error no step refuses anything more. -/
theorem Refuses.ends_behind {d : Diagnostic} {s : ParserState σ} (h : S.Refuses (.error d) s)
    (close : Parse σ Unit) :
    Ends (fun e s' => S.Refuses (e.behind d) s') close s fun _ s' => S.Refuses (.error d) s' := by
  unfold Ends
  rcases close s with ⟨_, _⟩ | ⟨_ | _ | _, _⟩
  · exact h
  · exact h
  · exact fun _ => nofun
  · exact fun _ => nofun

/-- A rule in a region, which is a part of the surroundings if it is anything in the tree. -/
theorem Does.within (region : Region) {p : Parse σ α}
    (h : S.Does (region.step?.toList ++ around) P p Q) :
    S.Does around P (Parse.within region.enter region.leave p) Q := by
  intro s hs hP
  have hinside := h { s with context := region.enter s.context } (hs.enter region) hP
  refine hinside.within (fun a s' ⟨hkept, hs', hQ⟩ => ?_) fun d s' hrefused => ?_
  · exact hs.ends_leaving region hkept hs' hQ
  · exact Refuses.ends_behind hrefused _

theorem Does.allowingIn {p : Parse σ α} (h : S.Does around P p Q) :
    S.Does around P (Parse.allowingIn p) Q :=
  within .brackets h

instance Yields.allowingIn {p : Parse σ α} {parts : α → List Node.Part} {fit : α → Prop}
    [hp : Yields S p parts fit] : Yields S (Parse.allowingIn p) parts fit :=
  ⟨fun around low => Does.allowingIn (hp.yields around low)⟩

instance Yields.withoutIn {p : Parse σ α} {parts : α → List Node.Part} {fit : α → Prop}
    [hp : Yields S p parts fit] : Yields S (Parse.withoutIn p) parts fit :=
  ⟨fun around low => Does.within .loopHead (hp.yields around low)⟩

/-- The step into a region that is something in the tree. -/
theorem Yields.within (region : Region) (nodes : α → List Node) {step : Node.Step}
    (hstep : region.step? = some step) {p : Parse σ α} {fit : α → Prop}
    [hp : Yields S p (fun a => plain (nodes a)) fit] :
    Yields S (Parse.within region.enter region.leave p)
      (fun a => (nodes a).map fun n => ⟨some step, .ordinary, n⟩) fit where
  yields around low := by
    refine Does.within region ?_
    rw [hstep]
    refine (hp.yields (step :: around) low).mono (fun _ _ h => ⟨allFormed_nil, h.inOrder⟩) ?_
    exact fun _ _ _ ⟨hfit, hpast⟩ => ⟨hfit, hpast.enclosed _⟩

/-! ## Hooks -/

variable (S) in
/-- The answer of a hook leaves its state fine, or refuses the source at an exact position. -/
def Answer : EStateM.Result Diagnostic σ α → Prop
  | .ok _ s => S.fine s
  | .error d _ => S.Located d

variable (S) in
def Answers (action : Hook σ α) : Prop := ∀ s, S.fine s → S.Answer (action s)

variable (S) in
/-- The hooks keep their state fine and report exact positions, if they are given such. -/
structure Suits (hooks : Hooks σ) : Prop where
  reset : ∀ s, S.fine s → S.fine (hooks.reset s)
  enterClass : ∀ s, S.fine s → S.fine (hooks.enterClass s)
  exitClass : S.Answers hooks.exitClass
  declareMember : ∀ name kind start options, S.Exact name.span.start → S.Exact start →
    S.Answers (hooks.declareMember name kind start options)
  enterMethod : ∀ key s, S.fine s → S.fine (hooks.enterMethod key s).2
  exitMethod : ∀ saved s, S.fine s → S.fine (hooks.exitMethod saved s)
  referenceName : ∀ name options, S.Exact name.span.start →
    S.Answers (hooks.referenceName name options)
  afterUnary : ∀ e, S.Exact e.span.start → S.Answers (hooks.afterUnary e)
  afterAtom : ∀ e token, S.Exact e.span.start → S.Answers (hooks.afterAtom e token)

namespace Does

theorem hook {action : Hook σ α} (h : S.Answers action) :
    S.Does around P (Parse.hook action) fun _ => P := by
  intro s hs hP
  have hanswer := h s.hooks hs.fine
  unfold Ends Parse.hook
  cases haction : action s.hooks with
  | ok a hooks =>
    rw [haction] at hanswer
    exact ⟨.refl _, ⟨hs.grants, hs.strict, hanswer, hs.tracks⟩, hP⟩
  | error d hooks =>
    rw [haction] at hanswer
    exact fun hpositioned => .error (hanswer hpositioned)

theorem update {f : σ → α × σ} (h : ∀ s, S.fine s → S.fine (f s).2) :
    S.Does around P (Parse.update f) fun _ => P :=
  fun s hs hP => ⟨.refl _, ⟨hs.grants, hs.strict, h s.hooks hs.fine, hs.tracks⟩, hP⟩

/-- A closing step that does not touch the lexer. -/
theorem closing {close : Parse σ Unit} {p : Parse σ α}
    (hclose : ∀ P, S.Does around P close fun _ => P) (h : S.Does around P p Q) :
    S.Does around P (Parse.closing close p) Q := by
  intro s hs hP
  refine (h s hs hP).closing (fun a s' ⟨hkept, hs', hQ⟩ => ?_) fun d s' hrefused => ?_
  · refine (hclose (Q a) s' hs' hQ).mono ?_ fun _ _ he => he
    rintro _ s'' ⟨hkept', hs'', hQ'⟩
    exact ⟨hkept.trans hkept', hs'', hQ'⟩
  · exact Refuses.ends_behind hrefused close

end Does

/-- A rule with a closing step that does not touch the lexer. -/
theorem Yields.closing {close : Parse σ Unit} {p : Parse σ α} {parts : α → List Node.Part}
    {fit : α → Prop} [hp : Yields S p parts fit]
    (hclose : ∀ around P, S.Does around P close fun _ => P) :
    Yields S (Parse.closing close p) parts fit :=
  ⟨fun around low => Does.closing (hclose around) (hp.yields around low)⟩

/-! ## Lists -/

variable (S) in
/-- The items of a list are fit, and they are the last parts. -/
def Gathered (around : List Node.Step) (low : Nat) (ps : List Node.Part) (make : β → Node)
    (fit : β → Prop) (items : List β) (lexer : Lexer) : Prop :=
  (∀ b ∈ items, fit b) ∧ S.Past around low (ps ++ many make items) lexer

variable (S) in
/-- The items of a list are fit, and they are all that has been read. -/
def Listed (around : List Node.Step) (low : Nat) (make : β → Node) (fit : β → Prop)
    (items : List β) (lexer : Lexer) : Prop :=
  (∀ b ∈ items, fit b) ∧ S.Before around low (many make items) lexer

section Gathered

variable {make : β → Node} {fit : β → Prop} {items : List β} {b : β}

theorem Past.gathered (h : S.Past around low ps lexer) :
    S.Gathered around low ps make fit [] lexer := by
  refine ⟨by rintro _ ⟨⟩, ?_⟩
  change S.Past around low (ps ++ []) lexer
  rwa [List.append_nil]

theorem Gathered.snoc (hitems : ∀ b ∈ items, fit b) (hb : fit b)
    (h : S.Past around low (ps ++ many make items ++ one make b) lexer) :
    S.Gathered around low ps make fit (items ++ [b]) lexer := by
  refine ⟨List.forall_mem_append.2 ⟨hitems, List.forall_mem_singleton.2 hb⟩, ?_⟩
  rwa [many_append, ← List.append_assoc]

theorem Gathered.listed (htracks : S.positioned → lexer.Tracks S.source)
    (h : S.Gathered around low [] make fit items lexer) :
    S.Listed around low make fit items lexer :=
  ⟨h.1, h.2.before htracks⟩

/-- One more item in front of those that are listed last one first. -/
theorem Gathered.cons (h : S.Gathered around low ps make fit (items.reverse ++ [b]) lexer) :
    S.Gathered around low ps make fit (b :: items).reverse lexer := by
  rwa [List.reverse_cons]

instance Steady.gathered : Steady S (S.Gathered around low ps make fit items) :=
  ⟨fun honward h => ⟨h.1, Steady.past.steady honward h.2⟩⟩

instance Reaches.gathered :
    Reaches S around (S.Gathered around low ps make fit items) low (ps ++ many make items) :=
  ⟨fun htracks h => h.2.before htracks⟩

/-- One more item of a list. -/
theorem Does.item {p : Parse σ β} {q : β → Parse σ α} [Yields S p (one make) fit]
    (hq : ∀ b, S.Does around (S.Gathered around low ps make fit (items ++ [b])) (q b) Q) :
    S.Does around (S.Gathered around low ps make fit items) (p >>= q) Q :=
  assume (fun _ h => h.1) fun hitems => step fun b hb =>
    (hq b).weaken fun _ _ h => .snoc hitems hb h

variable (S) in
/-- The rounds of a loop gather the items of a list, last one first. -/
def Gathers (around : List Node.Step) (low : Nat) (ps : List Node.Part) (make : β → Node)
    (fit : β → Prop) (round : List β → Parse σ (Round (List β) (List β))) : Prop :=
  ∀ items, S.Does around (S.Gathered around low ps make fit items.reverse) (round items)
    fun r lexer => r.Holds (fun items => S.Gathered around low ps make fit items.reverse lexer)
      fun items => S.Gathered around low ps make fit items.reverse lexer

theorem Does.gatherFrom {g : Grammar σ} {round : List β → Parse σ (Round (List β) (List β))}
    (hround : S.Gathers around low ps make fit round) (items : List β) :
    S.Does around (S.Gathered around low ps make fit items.reverse) (g.loop round items)
      (S.Made around low (fun items => ps ++ many make items.reverse)
        fun items => ∀ b ∈ items.reverse, fit b) :=
  loop hround fun _ h => h

/-- A loop that gathers the items of a list from the first one on. -/
theorem Does.gather {g : Grammar σ} {round : List β → Parse σ (Round (List β) (List β))}
    (hround : S.Gathers around low ps make fit round) :
    S.Does around (S.Past around low ps) (g.loop round [])
      (S.Made around low (fun items => ps ++ many make items.reverse)
        fun items => ∀ b ∈ items.reverse, fit b) :=
  (gatherFrom hround []).weaken fun _ _ h => h.gathered

end Gathered

end Survey

end EcmaScript
