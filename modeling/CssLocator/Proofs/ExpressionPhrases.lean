import CssLocator.XPathParsing

/-!
# Phrases of expressions

Which tokens are read as which expression. A phrase has a rank, the number of kinds of binary
operators that it may hold outside brackets, and it is read whatever follows it, as long as this
cannot continue it.
-/

namespace CssLocator.XPath

open Reader

variable {k j n : Nat} {e e' : Expr} {ts ts' rest : List Token}

/-- Binary operators by rank, from the tightest to the loosest binding. -/
def operatorsOf : Nat → List Operator
  | 0 => [.multiply, .divide, .modulo]
  | 1 => [.add, .subtract]
  | 2 => [.less, .lessEqual, .greater, .greaterEqual]
  | 3 => [.equal, .notEqual]
  | 4 => [.and]
  | _ => [.or]

/-- The reader of phrases of a rank. -/
def phraseReader (expression : Reader Expr) : Nat → Reader Expr
  | 0 => negation (chain [.union] (Reader.pathExpression expression))
  | k + 1 => chain (operatorsOf k) (phraseReader expression k)

/-- Tokens after which a phrase of the rank ends: closing brackets, commas and looser operators. -/
def EndsPhrase (k : Nat) (t : Token) : Prop :=
  t = .rightParen ∨ t = .rightBracket ∨ t = .comma ∨
    ∃ j o, k ≤ j ∧ j < 6 ∧ o ∈ operatorsOf j ∧ t = .operator o

def Stops (k : Nat) (rest : List Token) : Prop := ∀ t ∈ rest.head?, EndsPhrase k t

theorem Stops.nil (k : Nat) : Stops k [] := by simp [Stops]

theorem Stops.cons {t : Token} (h : EndsPhrase k t) : Stops k (t :: rest) := by simpa [Stops] using h

theorem Stops.operator {o : Operator} (hkj : k ≤ j) (hj : j < 6) (ho : o ∈ operatorsOf j) :
    Stops k (.operator o :: rest) := Stops.cons (.inr (.inr (.inr ⟨j, o, hkj, hj, ho, rfl⟩)))

theorem Stops.mono (h : Stops k rest) (hjk : j ≤ k) : Stops j rest := by
  intro t ht
  rcases h t ht with h | h | h | ⟨i, o, hki, hi, ho, h⟩
  · exact .inl h
  · exact .inr (.inl h)
  · exact .inr (.inr (.inl h))
  · exact .inr (.inr (.inr ⟨i, o, by omega, hi, ho, h⟩))

private theorem operatorsOf_disjoint :
    ∀ j < 6, ∀ o ∈ operatorsOf j, o ≠ .union ∧ ∀ k < j, o ∉ operatorsOf k := by
  decide

theorem operatorAmong?_of_endsPhrase {t : Token} (h : EndsPhrase k t) :
    operatorAmong? [.union] t = none ∧ ∀ j < k, operatorAmong? (operatorsOf j) t = none := by
  rcases h with rfl | rfl | rfl | ⟨i, o, hki, hi, ho, rfl⟩
  · exact ⟨rfl, fun _ _ => rfl⟩
  · exact ⟨rfl, fun _ _ => rfl⟩
  · exact ⟨rfl, fun _ _ => rfl⟩
  · obtain ⟨hunion, hother⟩ := operatorsOf_disjoint i hi o ho
    refine ⟨by simp [operatorAmong?, hunion], fun j hj => ?_⟩
    simp [operatorAmong?, hother j (by omega)]

/-- The tokens are read as the expression by the reader of the rank. -/
def Phrase (k : Nat) (e : Expr) (ts : List Token) : Prop :=
  ∀ n, ts.length ≤ n → ∀ rest, Stops k rest →
    phraseReader (expression n) k (ts ++ rest) = .ok (e, rest)

/-- The tokens are operands and operators of the rank that are read as the expression, before the
reading goes on. -/
def Chained (k : Nat) (e : Expr) (ts : List Token) : Prop :=
  ∀ n, ts.length ≤ n → ∀ rest, Stops k rest → ∃ rounds, rest.length ≤ rounds ∧
    phraseReader (expression n) (k + 1) (ts ++ rest) =
      chainFrom (operatorsOf k) (phraseReader (expression n) k) rounds e rest

theorem chainFrom_stops {operators : List Operator} {operand : Reader Expr} (rounds : Nat)
    (h : ∀ t ∈ rest.head?, operatorAmong? operators t = none) :
    chainFrom operators operand rounds e rest = .ok (e, rest) := by
  cases rounds with
  | zero => rfl
  | succ rounds =>
    cases rest with
    | nil => rfl
    | cons t rest => rw [chainFrom, h t rfl]

theorem chainFrom_operator {operators : List Operator} {operand : Reader Expr} {o : Operator}
    (rounds : Nat) (ho : o ∈ operators) (h : operand ts = .ok (e', rest)) :
    chainFrom operators operand (rounds + 1) e (.operator o :: ts) =
      chainFrom operators operand rounds (.binary o e e') rest := by
  have hamong : operatorAmong? operators (.operator o) = some o := by simp [operatorAmong?, ho]
  rw [chainFrom, hamong]
  dsimp only
  rw [h]
  rfl

theorem Phrase.chained (h : Phrase k e ts) : Chained k e ts := by
  intro n hn rest hrest
  refine ⟨rest.length, Nat.le_refl _, ?_⟩
  show chain (operatorsOf k) (phraseReader (expression n) k) (ts ++ rest) = _
  rw [chain, h n hn rest hrest]
  rfl

theorem Chained.phrase (h : Chained k e ts) : Phrase (k + 1) e ts := by
  intro n hn rest hrest
  obtain ⟨rounds, -, hread⟩ := h n hn rest (hrest.mono (Nat.le_succ k))
  rw [hread]
  exact chainFrom_stops rounds fun t ht =>
    (operatorAmong?_of_endsPhrase (hrest t ht)).2 k (Nat.lt_succ_self k)

/-- Operators of one rank group to the left. -/
theorem Chained.binary {o : Operator} (h : Chained k e ts) (h' : Phrase k e' ts') (hk : k < 6)
    (ho : o ∈ operatorsOf k) : Chained k (.binary o e e') (ts ++ .operator o :: ts') := by
  intro n hn rest hrest
  rw [List.length_append, List.length_cons] at hn
  obtain ⟨rounds, hrounds, hread⟩ := h n (by omega) (.operator o :: (ts' ++ rest))
    (.operator (Nat.le_refl k) hk ho)
  rw [List.length_cons, List.length_append] at hrounds
  obtain ⟨rounds, rfl⟩ : ∃ r, rounds = r + 1 := ⟨rounds - 1, by omega⟩
  refine ⟨rounds, by omega, ?_⟩
  have hoperand := h' n (by omega) rest hrest
  rw [List.append_assoc, List.cons_append, hread]
  exact chainFrom_operator rounds ho hoperand

theorem Phrase.raise (h : Phrase k e ts) (hkj : k ≤ j) : Phrase j e ts := by
  induction hkj with
  | refl => exact h
  | step _ ih => exact ih.chained.phrase

theorem negation_of_head {operand : Reader Expr} {t : Token} (ht : t ≠ .operator .subtract) :
    negation operand (t :: rest) = operand (t :: rest) := by
  unfold negation
  split
  · rename_i heq
    cases heq
    exact absurd rfl ht
  · rfl

theorem Phrase.negate (h : Phrase 0 e ts) : Phrase 0 (.negate e) (.operator .subtract :: ts) := by
  intro n hn rest hrest
  have hread : negation (chain [.union] (Reader.pathExpression (expression n))) (ts ++ rest) =
      .ok (e, rest) := h n (by rw [List.length_cons] at hn; omega) rest hrest
  show negation _ (.operator .subtract :: (ts ++ rest)) = _
  rw [negation, hread]
  rfl

/-- A whole expression inside brackets. -/
theorem Phrase.inside (h : Phrase 6 e ts) (hn : ts.length < n) (rest : List Token)
    (hrest : Stops 6 rest) :
    expression n (ts ++ rest) = .ok (e, rest) := by
  obtain ⟨n, rfl⟩ : ∃ i, n = i + 1 := ⟨n - 1, by omega⟩
  exact h n (by omega) rest hrest

/-- Nothing is read at the end or before a closing parenthesis. -/
theorem exists_phraseReader_eq_error (expression : Reader Expr) (h : ∀ t ∈ ts.head?, t = .rightParen)
    (k : Nat) : ∃ error, phraseReader expression k ts = .error error := by
  induction k with
  | zero =>
    cases ts with
    | nil => exact ⟨_, rfl⟩
    | cons t ts =>
      rw [h t rfl]
      exact ⟨_, rfl⟩
  | succ k ih =>
    obtain ⟨error, herror⟩ := ih
    refine ⟨error, ?_⟩
    show chain (operatorsOf k) (phraseReader expression k) ts = _
    rw [chain, herror]
    rfl

/-- No phrase is empty or begins with a closing parenthesis. -/
theorem Phrase.starts (h : Phrase k e ts) : ∃ t ts', ts = t :: ts' ∧ t ≠ .rightParen := by
  have hread := h ts.length (Nat.le_refl _) [] (.nil k)
  rw [List.append_nil] at hread
  have hhead : ¬ ∀ t ∈ ts.head?, t = .rightParen := by
    intro hall
    obtain ⟨error, herror⟩ := exists_phraseReader_eq_error (expression ts.length) hall k
    rw [herror] at hread
    cases hread
  cases ts with
  | nil => exact absurd nofun hhead
  | cons t ts => exact ⟨t, ts, rfl, fun heq => hhead (by simpa using heq)⟩

/-- A phrase that is a whole list of tokens. -/
theorem Phrase.ofTokens (h : Phrase 6 e ts) : ofTokens ts = .ok e := by
  have hread := h.inside (n := ts.length + 1) (by omega) [] (.nil 6)
  obtain ⟨t, ts, rfl, -⟩ := h.starts
  rw [List.append_nil] at hread
  rw [XPath.ofTokens, if_neg (by simp), hread]
  rfl

theorem predicatesFrom_of_head {expression : Reader Expr} {rounds : Nat}
    (h : rest.head? ≠ some .leftBracket) : predicatesFrom expression rounds rest = .ok ([], rest) := by
  unfold predicatesFrom
  split
  · exact absurd rfl h
  · rfl

theorem stepsFrom_of_head {expression : Reader Expr} (rounds : Nat)
    (hslash : rest.head? ≠ some .slash) (hdouble : rest.head? ≠ some .doubleSlash) :
    stepsFrom expression rounds rest = .ok ([], rest) := by
  unfold stepsFrom
  split
  · exact absurd rfl hslash
  · exact absurd rfl hdouble
  · rfl

theorem continuation_of_head {expression : Reader Expr} (hslash : rest.head? ≠ some .slash)
    (hdouble : rest.head? ≠ some .doubleSlash) : continuation expression rest = .ok ([], rest) := by
  unfold continuation
  split
  · exact absurd rfl hdouble
  · exact absurd rfl hslash
  · rfl

theorem argumentsFrom_of_head {expression : Reader Expr} (rounds : Nat)
    (h : rest.head? ≠ some .comma) :
    argumentsFrom expression rounds rest =
      Reader.expect .rightParen rest >>= fun ts => .ok ([], ts) := by
  unfold argumentsFrom
  split
  · exact absurd rfl h
  · rfl

theorem arguments_of_head {expression : Reader Expr} (h : ts.head? ≠ some .rightParen) :
    arguments expression (.leftParen :: ts) = (do
      let (e, ts) ← expression ts
      let (more, ts) ← argumentsFrom expression ts.length ts
      .ok (e :: more, ts)) := by
  cases ts with
  | nil => rfl
  | cons t ts => cases t <;> first | rfl | exact absurd rfl h

theorem locationPath_of_startsStep {expression : Reader Expr} {t : Token} (ht : startsStep t) :
    Reader.pathExpression expression (t :: rest) =
      relativePath expression (t :: rest) >>= fun p => .ok (.path false p.1, p.2) := by
  cases t <;> first | rfl | cases ht

end CssLocator.XPath
