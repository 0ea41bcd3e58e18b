import CssLocator.Proofs.ReaderBounds

/-!
# Rules of phrases

How the phrases of expressions are put together, one lemma for each rule of the grammar. Each kind
of phrase is read whatever follows it, as long as this does not belong to it as well. The rounds of a
loop do not matter, so one more round is the same as starting anew.
-/

namespace CssLocator.XPath

open Reader

variable {n rounds : Nat} {e e' : Expr} {ts us vs rest : List Token} {steps : List Step} {ps es : List Expr}

private theorem bind_congr_of_ok {ε α β : Type} {x : Except ε α} {f g : α → Except ε β}
    (h : ∀ a, x = .ok a → f a = g a) : x >>= f = x >>= g := by
  cases x with
  | error error => rfl
  | ok a => exact h a rfl

/-- After a step a path goes on as it does after a primary expression. -/
private theorem stepsFrom_eq_continuation (hrounds : ts.length ≤ rounds) :
    stepsFrom (expression n) rounds ts = continuation (expression n) ts := by
  cases rounds with
  | zero =>
    obtain rfl := List.eq_nil_of_length_eq_zero (Nat.le_zero.1 hrounds)
    rfl
  | succ rounds =>
    have hmore : ∀ {us afterStep : List Token} {s : Step}, us.length ≤ rounds →
        step (expression n) us = .ok (s, afterStep) →
        stepsFrom (expression n) rounds afterStep =
          stepsFrom (expression n) afterStep.length afterStep := by
      intro us afterStep s hus hs
      have hlength := ((agreeBelow_expression _ n).step (Nat.le_refl _)).2 s afterStep hs
      exact (loopsEnd_expression n afterStep).steps rounds (by omega)
    by_cases hslash : ts.head? = some .slash
    · obtain ⟨us, rfl⟩ := List.head?_eq_some_iff.1 hslash
      refine bind_congr_of_ok ?_
      rintro ⟨s, afterStep⟩ hs
      dsimp only
      rw [hmore (Nat.le_of_succ_le_succ hrounds) hs]
    by_cases hdouble : ts.head? = some .doubleSlash
    · obtain ⟨us, rfl⟩ := List.head?_eq_some_iff.1 hdouble
      rw [continuation, relativePath, bind_assoc]
      refine bind_congr_of_ok ?_
      rintro ⟨s, afterStep⟩ hs
      dsimp only
      rw [hmore (Nat.le_of_succ_le_succ hrounds) hs, bind_assoc]
      rfl
    rw [stepsFrom_of_head _ hslash hdouble, continuation_of_head hslash hdouble]

private theorem predicates_leftBracket :
    predicates (expression n) (.leftBracket :: ts) = (do
      let (p, ts) ← expression n ts
      let ts ← expect .rightBracket ts
      let (ps, ts) ← predicates (expression n) ts
      .ok (p :: ps, ts)) := by
  refine bind_congr_of_ok ?_
  rintro ⟨p, afterPredicate⟩ hp
  refine bind_congr_of_ok fun afterBracket hbracket => ?_
  have hlength := (agreeBelow_expression (ts.length + 1) n ts (by omega)).2 p afterPredicate hp
  cases expect_eq_ok hbracket
  rw [List.length_cons] at hlength
  rw [(loopsEnd_expression n afterBracket).predicates ts.length (by omega)]
  rfl

private theorem argumentsFrom_comma (hrounds : ts.length ≤ rounds) (h : ts.head? ≠ some .rightParen) :
    argumentsFrom (expression n) (rounds + 1) (.comma :: ts) =
      arguments (expression n) (.leftParen :: ts) := by
  rw [arguments_of_head h]
  refine bind_congr_of_ok ?_
  rintro ⟨e, afterArgument⟩ he
  have hlength := (agreeBelow_expression (ts.length + 1) n ts (by omega)).2 e afterArgument he
  dsimp only
  rw [(loopsEnd_expression n afterArgument).arguments rounds (by omega)]

/-- Tokens with which a path may go on. -/
def continuesPath : Token → Bool
  | .leftBracket | .slash | .doubleSlash => true
  | t => startsStep t

def EndsPath (rest : List Token) : Prop := rest.head?.any continuesPath = false

private theorem EndsPath.head_ne {t : Token} (h : EndsPath rest) (ht : continuesPath t = true) :
    rest.head? ≠ some t := by
  intro heq
  rw [EndsPath, heq, Option.any_some, ht] at h
  cases h

private theorem continuesPath_of_startsStep {t : Token} (h : startsStep t = true) :
    continuesPath t = true := by
  cases t <;> first | rfl | cases h

private theorem EndsPath.any_startsStep (h : EndsPath rest) : rest.head?.any startsStep = false := by
  cases rest with
  | nil => rfl
  | cons t rest =>
    rw [Bool.eq_false_iff]
    intro ht
    exact h.head_ne (continuesPath_of_startsStep ht) rfl

private theorem Stops.endsPath {k : Nat} (h : Stops k rest) : EndsPath rest := by
  cases rest with
  | nil => rfl
  | cons t rest => rcases h t rfl with rfl | rfl | rfl | ⟨_, _, _, _, _, rfl⟩ <;> rfl

private theorem head_append {p : Token → Prop} (h : ∃ t ts', ts = t :: ts' ∧ p t) (us : List Token) :
    ∃ t ts', ts ++ us = t :: ts' ∧ p t := by
  obtain ⟨t, ts, rfl, ht⟩ := h
  exact ⟨t, ts ++ us, rfl, ht⟩

/-- The tokens are read as the expression as long as what follows does not belong to a path. -/
structure PathPhrase (e : Expr) (ts : List Token) : Prop where
  head : ∃ t ts', ts = t :: ts' ∧ t ≠ .operator .subtract
  read : ∀ n, ts.length ≤ n → ∀ rest, EndsPath rest →
    Reader.pathExpression (expression n) (ts ++ rest) = .ok (e, rest)

/-- The tokens are read as the step. -/
structure StepPhrase (s : Step) (ts : List Token) : Prop where
  head : ∃ t ts', ts = t :: ts' ∧ startsStep t
  read : ∀ n, ts.length ≤ n → ∀ rest, rest.head? ≠ some .leftBracket →
    step (expression n) (ts ++ rest) = .ok (s, rest)

/-- The tokens are paths and operators that are read as their union, before the reading goes on. -/
structure UnionPhrase (e : Expr) (ts : List Token) : Prop where
  head : ∃ t ts', ts = t :: ts' ∧ t ≠ .operator .subtract
  read : ∀ n, ts.length ≤ n → ∀ rest, EndsPath rest →
    chain [.union] (Reader.pathExpression (expression n)) (ts ++ rest) =
      chainFrom [.union] (Reader.pathExpression (expression n)) rest.length e rest

/-- The tokens are read as the expression before predicates and steps are looked for. -/
structure FilterPhrase (e : Expr) (ts : List Token) : Prop where
  head : ∃ t ts', ts = t :: ts' ∧ t ≠ .operator .subtract
  read : ∀ n, ts.length ≤ n → ∀ rest,
    Reader.pathExpression (expression n) (ts ++ rest) = filtered (expression n) e rest

/-- The tokens are read as the steps. -/
structure StepsPhrase (steps : List Step) (ts : List Token) : Prop where
  head : ∃ t ts', ts = t :: ts' ∧ startsStep t = true
  read : ∀ n, ts.length ≤ n → ∀ rest, EndsPath rest →
    relativePath (expression n) (ts ++ rest) = .ok (steps, rest)

def PredicatesPhrase (ps : List Expr) (ts : List Token) : Prop :=
  ∀ n, ts.length ≤ n → ∀ rest, rest.head? ≠ some .leftBracket →
    predicates (expression n) (ts ++ rest) = .ok (ps, rest)

/-- The tokens are read as the arguments when they stand in parentheses. -/
def ArgumentsPhrase (es : List Expr) (ts : List Token) : Prop :=
  ∀ n, ts.length < n → ∀ rest,
    arguments (expression n) (.leftParen :: (ts ++ .rightParen :: rest)) = .ok (es, rest)

theorem PathPhrase.union (h : PathPhrase e ts) : UnionPhrase e ts where
  head := h.head
  read n hn rest hrest := by
    rw [chain, h.read n hn rest hrest]
    rfl

theorem UnionPhrase.binary (h : UnionPhrase e ts) (h' : PathPhrase e' us) :
    UnionPhrase (.binary .union e e') (ts ++ .operator .union :: us) where
  head := head_append h.head _
  read n hn rest hrest := by
    rw [List.length_append, List.length_cons] at hn
    have hleft := h.read n (by omega) (.operator .union :: (us ++ rest)) rfl
    have hright := h'.read n (by omega) rest hrest
    rw [List.append_assoc, List.cons_append, hleft, List.length_cons,
      chainFrom_operator _ (by simp) hright]
    exact (loopsEnd_expression n rest).unions _ _ (by simp)

theorem UnionPhrase.phrase (h : UnionPhrase e ts) : Phrase 0 e ts := by
  intro n hn rest hrest
  have hread := h.read n hn rest hrest.endsPath
  obtain ⟨t, ts, rfl, ht⟩ := h.head
  show negation (chain [.union] (Reader.pathExpression (expression n))) (t :: (ts ++ rest)) = _
  rw [negation_of_head ht]
  rw [List.cons_append] at hread
  rw [hread]
  exact chainFrom_stops _ fun t ht => (operatorAmong?_of_endsPhrase (hrest t ht)).1

theorem PathPhrase.phrase (h : PathPhrase e ts) : Phrase 0 e ts := h.union.phrase

private theorem predicates_of_head {expression : Reader Expr} (h : rest.head? ≠ some .leftBracket) :
    predicates expression rest = .ok ([], rest) :=
  predicatesFrom_of_head h

theorem predicatesPhrase_nil : PredicatesPhrase [] [] := fun _ _ _ hrest => predicates_of_head hrest

theorem PredicatesPhrase.cons (h : Phrase 6 e ts) (h' : PredicatesPhrase ps us) :
    PredicatesPhrase (e :: ps) (.leftBracket :: (ts ++ .rightBracket :: us)) := by
  intro n hn rest hrest
  simp only [List.length_cons, List.length_append] at hn
  have hinside := h.inside (n := n) (by omega) (.rightBracket :: (us ++ rest)) (.cons (.inr (.inl rfl)))
  have hmore := h' n (by omega) rest hrest
  rw [List.cons_append, List.append_assoc, List.cons_append, predicates_leftBracket, hinside]
  show (predicates (expression n) (us ++ rest) >>= _) = _
  rw [hmore]
  rfl

theorem filterPhrase_literal (value : Text) : FilterPhrase (.literal value) [.literal value] where
  head := ⟨_, _, rfl, by simp⟩
  read _ _ _ := rfl

theorem filterPhrase_number (value : Double) : FilterPhrase (.number value) [.number value] where
  head := ⟨_, _, rfl, by simp⟩
  read _ _ _ := rfl

theorem Phrase.filterPhrase (h : Phrase 6 e ts) :
    FilterPhrase e (.leftParen :: (ts ++ [.rightParen])) where
  head := ⟨_, _, rfl, by decide⟩
  read n hn rest := by
    simp only [List.length_cons, List.length_append, List.length_nil] at hn
    have hinside := h.inside (n := n) (by omega) (.rightParen :: rest) (.cons (.inl rfl))
    rw [List.cons_append, List.append_assoc, List.singleton_append, Reader.pathExpression, hinside]
    rfl

theorem ArgumentsPhrase.filterPhrase (name : Text) (h : ArgumentsPhrase es ts) :
    FilterPhrase (.call name es) (.function name :: .leftParen :: (ts ++ [.rightParen])) where
  head := ⟨_, _, rfl, by simp⟩
  read n hn rest := by
    simp only [List.length_cons, List.length_append, List.length_nil] at hn
    rw [List.cons_append, List.cons_append, List.append_assoc, List.singleton_append,
      Reader.pathExpression, h n (by omega) rest]
    rfl

/-- The tokens are read as the steps after a primary expression and its predicates. -/
structure ContinuationPhrase (steps : List Step) (ts : List Token) : Prop where
  head : ts.head? ≠ some .leftBracket
  read : ∀ n, ts.length ≤ n → ∀ rest, EndsPath rest →
    continuation (expression n) (ts ++ rest) = .ok (steps, rest)

private theorem continuationPhrase_nil : ContinuationPhrase [] [] where
  head := nofun
  read _ _ _ hrest := continuation_of_head (hrest.head_ne rfl) (hrest.head_ne rfl)

theorem StepsPhrase.continuation_slash (h : StepsPhrase steps ts) :
    ContinuationPhrase steps (.slash :: ts) where
  head := nofun
  read n hn rest hrest := h.read n (by rw [List.length_cons] at hn; omega) rest hrest

theorem StepsPhrase.continuation_doubleSlash (h : StepsPhrase steps ts) :
    ContinuationPhrase (.anyDepth :: steps) (.doubleSlash :: ts) where
  head := nofun
  read n hn rest hrest := by
    have hread := h.read n (by rw [List.length_cons] at hn; omega) rest hrest
    rw [List.cons_append, continuation, hread]
    rfl

private theorem ContinuationPhrase.head_append (h : ContinuationPhrase steps ts) (hrest : EndsPath rest) :
    (ts ++ rest).head? ≠ some .leftBracket := by
  cases ts with
  | nil => exact hrest.head_ne rfl
  | cons t ts => exact h.head

/-- Predicates and steps narrow and continue a primary expression. Without any it stands alone. -/
theorem FilterPhrase.path (h : FilterPhrase e ts) (hp : PredicatesPhrase ps us)
    (hs : ContinuationPhrase steps vs) :
    PathPhrase (if ps.isEmpty && steps.isEmpty then e else .filter e ps steps)
      (ts ++ (us ++ vs)) where
  head := head_append h.head _
  read n hn rest hrest := by
    simp only [List.length_append] at hn
    have hpredicates := hp n (by omega) (vs ++ rest) (hs.head_append hrest)
    have hsteps := hs.read n (by omega) rest hrest
    rw [List.append_assoc, List.append_assoc, h.read n (by omega), filtered, hpredicates]
    show (continuation (expression n) (vs ++ rest) >>= _) = _
    rw [hsteps]
    rfl

theorem FilterPhrase.bare (h : FilterPhrase e ts) : PathPhrase e ts := by
  simpa using h.path predicatesPhrase_nil continuationPhrase_nil

theorem FilterPhrase.narrowed {p : Expr} (h : FilterPhrase e ts) (hp : PredicatesPhrase (p :: ps) us) :
    PathPhrase (.filter e (p :: ps) []) (ts ++ us) := by
  simpa using h.path hp continuationPhrase_nil

theorem FilterPhrase.continued (h : FilterPhrase e ts) (hp : PredicatesPhrase ps us)
    (hs : ContinuationPhrase steps vs) (hne : steps ≠ []) :
    PathPhrase (.filter e ps steps) (ts ++ (us ++ vs)) := by
  simpa [hne] using h.path hp hs

theorem argumentsPhrase_nil : ArgumentsPhrase [] [] := fun _ _ _ => rfl

/-- Nothing is read as a first argument if a closing parenthesis comes first. -/
theorem ArgumentsPhrase.head_ne (h : ArgumentsPhrase (e :: es) ts) (rest : List Token) :
    (ts ++ .rightParen :: rest).head? ≠ some .rightParen := by
  have hread := h (ts.length + 1) (Nat.lt_succ_self _) rest
  cases ts with
  | nil => cases hread
  | cons t ts =>
    intro heq
    cases Option.some.inj heq
    cases hread

theorem Phrase.lastArgument (h : Phrase 6 e ts) : ArgumentsPhrase [e] ts := by
  intro n hn rest
  have hinside := h.inside hn (.rightParen :: rest) (.cons (.inl rfl))
  obtain ⟨t, ts, rfl, ht⟩ := h.starts
  rw [arguments_of_head (by simpa using ht), hinside]
  rfl

theorem Phrase.argument (h : Phrase 6 e ts) (h' : ArgumentsPhrase (e' :: es) us) :
    ArgumentsPhrase (e :: e' :: es) (ts ++ .comma :: us) := by
  intro n hn rest
  rw [List.length_append, List.length_cons] at hn
  have hinside := h.inside (n := n) (by omega) (.comma :: (us ++ .rightParen :: rest))
    (.cons (.inr (.inr (.inl rfl))))
  have hmore := h' n (by omega) rest
  rw [← argumentsFrom_comma (Nat.le_refl _) (h'.head_ne rest)] at hmore
  obtain ⟨t, ts, rfl, ht⟩ := h.starts
  rw [List.append_assoc, List.cons_append, List.cons_append]
  rw [List.cons_append] at hinside
  rw [arguments_of_head (by simpa using ht), hinside]
  show (argumentsFrom (expression n) _ (.comma :: (us ++ .rightParen :: rest)) >>= _) = _
  rw [List.length_cons, hmore]
  rfl

@[simp] theorem Axis.ofName?_name (a : Axis) : Axis.ofName? a.name = some a := by cases a <;> rfl

private theorem nodeTest_testTokens {test : NodeTest} (ht : TestTokens us test) (rest : List Token) :
    nodeTest (us ++ rest) = .ok (test, rest) := by
  cases ht with
  | any => rfl
  | name hname => rw [List.singleton_append, nodeTest, if_neg hname]
  | type => rfl

/-- Without an axis the test of a step comes first, and it does not look like an axis. -/
theorem axis_axisTokens {a : Axis} {test : NodeTest} (ha : AxisTokens ts a) (ht : TestTokens us test)
    (rest : List Token) : axis (ts ++ (us ++ rest)) = .ok (a, us ++ rest) := by
  cases ha with
  | child => cases ht <;> rfl
  | atSign => rfl
  | named =>
    rw [List.cons_append, axis, Axis.ofName?_name]
    rfl

theorem PredicatesPhrase.step {a : Axis} {test : NodeTest} (ha : AxisTokens ts a)
    (ht : TestTokens us test) (hp : PredicatesPhrase ps vs) :
    StepPhrase (.mk a test ps) (ts ++ (us ++ vs)) where
  head := by cases ha <;> cases ht <;> exact ⟨_, _, rfl, rfl⟩
  read n hn rest hrest := by
    simp only [List.length_append] at hn
    have hstart : ∀ later, Reader.step (expression n) (ts ++ (us ++ later)) =
        axis (ts ++ (us ++ later)) >>= fun p => nodeTest p.2 >>= fun q =>
          predicates (expression n) q.2 >>= fun r => .ok (.mk p.1 q.1 r.1, r.2) := by
      intro later
      cases ha <;> cases ht <;> rfl
    rw [List.append_assoc, List.append_assoc, hstart, axis_axisTokens ha ht]
    show (nodeTest (us ++ (vs ++ rest)) >>= _) = _
    rw [nodeTest_testTokens ht]
    show (predicates (expression n) (vs ++ rest) >>= _) = _
    rw [hp n (by omega) rest hrest]
    rfl

theorem stepPhrase_dot : StepPhrase (.mk .self (.type .node) []) [.dot] where
  head := ⟨_, _, rfl, rfl⟩
  read _ _ _ _ := rfl

theorem stepPhrase_doubleDot : StepPhrase (.mk .parent (.type .node) []) [.doubleDot] where
  head := ⟨_, _, rfl, rfl⟩
  read _ _ _ _ := rfl

/-- A step, and the steps after it. -/
theorem StepPhrase.continued {s : Step} (h : StepPhrase s ts) (h' : ContinuationPhrase steps us) :
    StepsPhrase (s :: steps) (ts ++ us) where
  head := head_append h.head _
  read n hn rest hrest := by
    rw [List.length_append] at hn
    have hstep := h.read n (by omega) (us ++ rest) (h'.head_append hrest)
    have hmore := h'.read n (by omega) rest hrest
    rw [List.append_assoc, Reader.relativePath, hstep]
    show (stepsFrom (expression n) (us ++ rest).length (us ++ rest) >>= _) = _
    rw [stepsFrom_eq_continuation (Nat.le_refl _), hmore]
    rfl

theorem StepPhrase.last {s : Step} (h : StepPhrase s ts) : StepsPhrase [s] ts := by
  simpa using h.continued continuationPhrase_nil

theorem pathPhrase_root : PathPhrase (.path true []) [.slash] where
  head := ⟨_, _, rfl, by simp⟩
  read n _ rest hrest := by
    show locationPath (expression n) (.slash :: rest) = _
    rw [locationPath, if_neg (by rw [hrest.any_startsStep]; simp)]

theorem StepsPhrase.absolute (h : StepsPhrase steps ts) :
    PathPhrase (.path true steps) (.slash :: ts) where
  head := ⟨_, _, rfl, by simp⟩
  read n hn rest hrest := by
    have hread := h.read n (by rw [List.length_cons] at hn; omega) rest hrest
    obtain ⟨t, ts, rfl, ht⟩ := h.head
    show locationPath (expression n) (.slash :: t :: (ts ++ rest)) = _
    rw [locationPath, if_pos (by simpa using ht)]
    rw [List.cons_append] at hread
    rw [hread]
    rfl

theorem StepsPhrase.belowRoot (h : StepsPhrase steps ts) :
    PathPhrase (.path true (.anyDepth :: steps)) (.doubleSlash :: ts) where
  head := ⟨_, _, rfl, by simp⟩
  read n hn rest hrest := by
    have hread := h.read n (by rw [List.length_cons] at hn; omega) rest hrest
    show locationPath (expression n) (.doubleSlash :: (ts ++ rest)) = _
    rw [locationPath, hread]
    rfl

theorem StepsPhrase.relative (h : StepsPhrase steps ts) : PathPhrase (.path false steps) ts where
  head := by
    obtain ⟨t, ts, rfl, ht⟩ := h.head
    refine ⟨t, ts, rfl, ?_⟩
    rintro rfl
    cases ht
  read n hn rest hrest := by
    have hread := h.read n hn rest hrest
    obtain ⟨t, ts, rfl, ht⟩ := h.head
    rw [List.cons_append, locationPath_of_startsStep ht]
    rw [List.cons_append] at hread
    rw [hread]
    rfl

end CssLocator.XPath
