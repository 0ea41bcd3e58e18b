import CssLocator.Proofs.ExpressionPhrases
import CssLocator.Proofs.LoopResults

/-!
# The grammar of expressions

The rules by which tokens form expressions and location paths, with the trees that they stand for.
Whatever a reader takes from the front of a list of tokens is formed by the rule of the reader.
-/

namespace CssLocator.XPath

/-- What the rules with an expression as their tree are about. -/
inductive Rule where
  | or
  | and
  | equality
  | relation
  | sum
  | product
  | unary
  | union
  | path
  | location
  | primary

/-- The first rule forms chains of what the third one forms, joined by any of the operators. -/
inductive Rule.Joins : Rule → List Operator → Rule → Prop
  | or : Joins .or [.or] .and
  | and : Joins .and [.and] .equality
  | equality : Joins .equality [.equal, .notEqual] .relation
  | relation : Joins .relation [.less, .lessEqual, .greater, .greaterEqual] .sum
  | sum : Joins .sum [.add, .subtract] .product
  | product : Joins .product [.multiply, .divide, .modulo] .unary
  | union : Joins .union [.union] .path

/-- The axis of a step, the one of attributes being written with an at sign as well. -/
inductive AxisTokens : List Token → Axis → Prop
  | child : AxisTokens [] .child
  | atSign : AxisTokens [.atSign] .attributes
  | named (a : Axis) : AxisTokens [.axis a.name, .doubleColon] a

inductive TestTokens : List Token → NodeTest → Prop
  | any : TestTokens [.name "*"] .any
  | name {name : Text} (h : name ≠ "*") : TestTokens [.name name] (.name name)
  | type (t : NodeType) : TestTokens [.nodeType t, .leftParen, .rightParen] (.type t)

/-- What tokens can form. -/
inductive Symbol where
  | expr (rule : Rule)
  | relativePath
  | step
  | predicates
  | arguments

abbrev Symbol.Tree : Symbol → Type
  | expr _ => Expr
  | relativePath => List Step
  | step => Step
  | predicates => List Expr
  | arguments => List Expr

/-- The tokens, all of them, form the tree. Chains are grouped to the left. -/
inductive Derives : (s : Symbol) → List Token → s.Tree → Prop
  | operand {r r' : Rule} {os : List Operator} {ts : List Token} {e : Expr} (hr : r.Joins os r')
      (h : Derives (.expr r') ts e) : Derives (.expr r) ts e
  | join {r r' : Rule} {os : List Operator} {o : Operator} {ts us : List Token} {e e' : Expr}
      (hr : r.Joins os r') (ho : o ∈ os) (h : Derives (.expr r) ts e)
      (h' : Derives (.expr r') us e') :
      Derives (.expr r) (ts ++ .operator o :: us) (.binary o e e')
  | minus {ts : List Token} {e : Expr} (h : Derives (.expr .unary) ts e) :
      Derives (.expr .unary) (.operator .subtract :: ts) (.negate e)
  | unsigned {ts : List Token} {e : Expr} (h : Derives (.expr .union) ts e) :
      Derives (.expr .unary) ts e
  | located {ts : List Token} {e : Expr} (h : Derives (.expr .location) ts e) :
      Derives (.expr .path) ts e
  | bare {ts : List Token} {e : Expr} (h : Derives (.expr .primary) ts e) :
      Derives (.expr .path) ts e
  | narrowed {ts us : List Token} {e p : Expr} {ps : List Expr} (h : Derives (.expr .primary) ts e)
      (hp : Derives .predicates us (p :: ps)) :
      Derives (.expr .path) (ts ++ us) (.filter e (p :: ps) [])
  | continued {ts us vs : List Token} {e : Expr} {ps : List Expr} {steps : List Step}
      (h : Derives (.expr .primary) ts e) (hp : Derives .predicates us ps)
      (hs : Derives .relativePath vs steps) :
      Derives (.expr .path) (ts ++ (us ++ .slash :: vs)) (.filter e ps steps)
  | continuedBelow {ts us vs : List Token} {e : Expr} {ps : List Expr} {steps : List Step}
      (h : Derives (.expr .primary) ts e) (hp : Derives .predicates us ps)
      (hs : Derives .relativePath vs steps) :
      Derives (.expr .path) (ts ++ (us ++ .doubleSlash :: vs)) (.filter e ps (.anyDepth :: steps))
  | root : Derives (.expr .location) [.slash] (.path true [])
  | absolute {ts : List Token} {steps : List Step} (h : Derives .relativePath ts steps) :
      Derives (.expr .location) (.slash :: ts) (.path true steps)
  | belowRoot {ts : List Token} {steps : List Step} (h : Derives .relativePath ts steps) :
      Derives (.expr .location) (.doubleSlash :: ts) (.path true (.anyDepth :: steps))
  | relative {ts : List Token} {steps : List Step} (h : Derives .relativePath ts steps) :
      Derives (.expr .location) ts (.path false steps)
  | lastStep {ts : List Token} {s : Step} (h : Derives .step ts s) : Derives .relativePath ts [s]
  | slash {ts us : List Token} {s : Step} {steps : List Step} (h : Derives .step ts s)
      (h' : Derives .relativePath us steps) :
      Derives .relativePath (ts ++ .slash :: us) (s :: steps)
  | doubleSlash {ts us : List Token} {s : Step} {steps : List Step} (h : Derives .step ts s)
      (h' : Derives .relativePath us steps) :
      Derives .relativePath (ts ++ .doubleSlash :: us) (s :: .anyDepth :: steps)
  | self : Derives .step [.dot] (.mk .self (.type .node) [])
  | parent : Derives .step [.doubleDot] (.mk .parent (.type .node) [])
  | tested {ts us vs : List Token} {a : Axis} {test : NodeTest} {ps : List Expr}
      (ha : AxisTokens ts a) (ht : TestTokens us test) (hp : Derives .predicates vs ps) :
      Derives .step (ts ++ (us ++ vs)) (.mk a test ps)
  | literal (value : Text) : Derives (.expr .primary) [.literal value] (.literal value)
  | number (value : Double) : Derives (.expr .primary) [.number value] (.number value)
  | parenthesized {ts : List Token} {e : Expr} (h : Derives (.expr .or) ts e) :
      Derives (.expr .primary) (.leftParen :: (ts ++ [.rightParen])) e
  | call {ts : List Token} {es : List Expr} (name : Text) (h : Derives .arguments ts es) :
      Derives (.expr .primary) (.function name :: .leftParen :: (ts ++ [.rightParen])) (.call name es)
  | noPredicate : Derives .predicates [] ([] : List Expr)
  | predicate {ts us : List Token} {e : Expr} {es : List Expr} (h : Derives (.expr .or) ts e)
      (h' : Derives .predicates us es) :
      Derives .predicates (.leftBracket :: (ts ++ .rightBracket :: us)) (e :: es)
  | noArgument : Derives .arguments [] ([] : List Expr)
  | lastArgument {ts : List Token} {e : Expr} (h : Derives (.expr .or) ts e) :
      Derives .arguments ts [e]
  | argument {ts us : List Token} {e e' : Expr} {es : List Expr} (h : Derives (.expr .or) ts e)
      (h' : Derives .arguments us (e' :: es)) :
      Derives .arguments (ts ++ .comma :: us) (e :: e' :: es)

open Reader

variable {r r' : Rule} {os : List Operator} {ts rest : List Token} {e e' : Expr} {n rounds : Nat}
variable {expression : Reader Expr}

/-- What the reader takes from the front of any tokens forms the tree that it gives. -/
def Sound (s : Symbol) (read : Reader s.Tree) : Prop :=
  ∀ ts tree rest, read ts = .ok (tree, rest) → ∃ us, ts = us ++ rest ∧ Derives s us tree

private theorem operatorAmong?_eq_some {t : Token} {o : Operator} (h : operatorAmong? os t = some o) :
    t = .operator o ∧ o ∈ os := by
  unfold operatorAmong? at h
  split at h
  · split at h
    · cases h
      exact ⟨rfl, ‹_›⟩
    · cases h
  · cases h

theorem expect_eq_ok {wanted : Token} (h : expect wanted ts = .ok rest) : ts = wanted :: rest := by
  cases ts with
  | nil => cases h
  | cons t ts =>
    rw [expect] at h
    split at h
    · cases h
      rw [‹t = wanted›]
    · cases h

/-- A chain goes on from what was read before. -/
theorem Sound.chainFrom {operand : Reader Expr} (h : Sound (.expr r') operand)
    (hr : r.Joins os r') {read : List Token} (hread : Derives (.expr r) read e)
    (heq : Reader.chainFrom os operand rounds e ts = .ok (e', rest)) :
    ∃ us, ts = us ++ rest ∧ Derives (.expr r) (read ++ us) e' := by
  induction rounds generalizing ts read e with
  | zero =>
    cases heq
    exact ⟨[], rfl, by rwa [List.append_nil]⟩
  | succ rounds ih =>
    cases ts with
    | nil =>
      cases heq
      exact ⟨[], rfl, by rwa [List.append_nil]⟩
    | cons t ts =>
      rw [Reader.chainFrom] at heq
      split at heq
      · cases heq
        exact ⟨[], rfl, by rwa [List.append_nil]⟩
      · rename_i o hamong
        obtain ⟨rfl, ho⟩ := operatorAmong?_eq_some hamong
        obtain ⟨⟨right, later⟩, hright, hmore⟩ := bind_eq_ok.1 heq
        obtain ⟨us, hts, hus⟩ := h _ _ _ hright
        obtain ⟨vs, hlater, hvs⟩ := ih (.join hr ho hread hus) hmore
        rw [List.append_assoc, List.cons_append] at hvs
        exact ⟨.operator o :: (us ++ vs), by simp [hts, hlater], hvs⟩

theorem Sound.chain {operand : Reader Expr} (h : Sound (.expr r') operand) (hr : r.Joins os r') :
    Sound (.expr r) (Reader.chain os operand) := by
  intro ts e rest heq
  obtain ⟨⟨left, later⟩, hleft, hmore⟩ := bind_eq_ok.1 heq
  obtain ⟨us, hts, hus⟩ := h _ _ _ hleft
  obtain ⟨vs, hlater, hvs⟩ := h.chainFrom hr (.operand hr hus) hmore
  exact ⟨us ++ vs, by simp [hts, hlater], hvs⟩

theorem Sound.negation {operand : Reader Expr} (h : Sound (.expr .union) operand) :
    Sound (.expr .unary) (Reader.negation operand) := by
  intro ts
  induction ts with
  | nil =>
    intro e rest heq
    obtain ⟨us, hts, hus⟩ := h _ _ _ heq
    exact ⟨us, hts, .unsigned hus⟩
  | cons t ts ih =>
    intro e rest heq
    by_cases ht : t = .operator .subtract
    · cases ht
      obtain ⟨⟨inner, later⟩, hinner, hend⟩ := bind_eq_ok.1 heq
      cases hend
      obtain ⟨us, rfl, hus⟩ := ih _ _ hinner
      exact ⟨.operator .subtract :: us, rfl, .minus hus⟩
    · rw [negation_of_head ht] at heq
      obtain ⟨us, hts, hus⟩ := h _ _ _ heq
      exact ⟨us, hts, .unsigned hus⟩

section

variable (h : Sound (.expr .or) expression)
include h

theorem Sound.predicatesFrom (rounds : Nat) :
    Sound .predicates (Reader.predicatesFrom expression rounds) := by
  induction rounds with
  | zero =>
    intro ts ps rest heq
    cases heq
    exact ⟨[], rfl, .noPredicate⟩
  | succ rounds ih =>
    intro ts ps rest heq
    unfold Reader.predicatesFrom at heq
    split at heq
    · rename_i later hrounds
      cases hrounds
      obtain ⟨⟨p, afterPredicate⟩, hp, heq⟩ := bind_eq_ok.1 heq
      obtain ⟨afterBracket, hbracket, heq⟩ := bind_eq_ok.1 heq
      obtain ⟨⟨more, afterAll⟩, hmore, heq⟩ := bind_eq_ok.1 heq
      cases heq
      obtain ⟨us, hlater, hus⟩ := h _ _ _ hp
      obtain ⟨vs, hafter, hvs⟩ := ih _ _ _ hmore
      refine ⟨.leftBracket :: (us ++ .rightBracket :: vs), ?_, .predicate hus hvs⟩
      rw [hlater, expect_eq_ok hbracket, hafter]
      simp
    · cases heq
      exact ⟨[], rfl, .noPredicate⟩

theorem Sound.predicates : Sound .predicates (Reader.predicates expression) :=
  fun ts => h.predicatesFrom ts.length ts

omit h in
theorem exists_axisTokens {a : Axis} (heq : Reader.axis ts = .ok (a, rest)) :
    ∃ us, ts = us ++ rest ∧ AxisTokens us a := by
  unfold Reader.axis at heq
  split at heq
  · cases heq
    exact ⟨[.atSign], rfl, .atSign⟩
  · rename_i name later
    split at heq
    · cases heq
    · rename_i a ha
      obtain ⟨afterColons, hcolons, heq⟩ := bind_eq_ok.1 heq
      cases heq
      have hname : a.name = name := by simpa using List.find?_some ha
      exact ⟨[.axis a.name, .doubleColon], by rw [expect_eq_ok hcolons, hname]; rfl, .named a⟩
  · cases heq
    exact ⟨[], rfl, .child⟩

omit h in
theorem exists_testTokens {test : NodeTest} (heq : Reader.nodeTest ts = .ok (test, rest)) :
    ∃ us, ts = us ++ rest ∧ TestTokens us test := by
  unfold Reader.nodeTest at heq
  split at heq
  · rename_i name later
    cases heq
    by_cases hname : name = "*"
    · rw [if_pos hname, hname]
      exact ⟨[.name "*"], rfl, .any⟩
    · rw [if_neg hname]
      exact ⟨[.name name], rfl, .name hname⟩
  · rename_i type later
    obtain ⟨afterLeft, hleft, heq⟩ := bind_eq_ok.1 heq
    obtain ⟨afterRight, hright, heq⟩ := bind_eq_ok.1 heq
    cases heq
    exact ⟨[.nodeType type, .leftParen, .rightParen], by
      rw [expect_eq_ok hleft, expect_eq_ok hright]; rfl, .type type⟩
  · cases heq

theorem Sound.step : Sound .step (Reader.step expression) := by
  intro ts s rest heq
  unfold Reader.step at heq
  split at heq
  · cases heq
    exact ⟨[.dot], rfl, .self⟩
  · cases heq
    exact ⟨[.doubleDot], rfl, .parent⟩
  · obtain ⟨⟨a, afterAxis⟩, ha, heq⟩ := bind_eq_ok.1 heq
    obtain ⟨⟨test, afterTest⟩, htest, heq⟩ := bind_eq_ok.1 heq
    obtain ⟨⟨ps, afterAll⟩, hps, heq⟩ := bind_eq_ok.1 heq
    cases heq
    obtain ⟨us, rfl, hus⟩ := exists_axisTokens ha
    obtain ⟨vs, rfl, hvs⟩ := exists_testTokens htest
    obtain ⟨ws, rfl, hws⟩ := h.predicates _ _ _ hps
    exact ⟨us ++ (vs ++ ws), by simp, .tested hus hvs hws⟩

/-- Steps go on from one that was read before. -/
theorem Sound.stepsFrom {read : List Token} {s : Step} {more : List Step}
    (hread : Derives .step read s)
    (heq : Reader.stepsFrom expression rounds ts = .ok (more, rest)) :
    ∃ us, ts = us ++ rest ∧ Derives .relativePath (read ++ us) (s :: more) := by
  induction rounds generalizing ts read s more with
  | zero =>
    cases heq
    exact ⟨[], rfl, by rw [List.append_nil]; exact .lastStep hread⟩
  | succ rounds ih =>
    unfold Reader.stepsFrom at heq
    split at heq
    · rename_i later hrounds
      cases hrounds
      obtain ⟨⟨s', afterStep⟩, hs, heq⟩ := bind_eq_ok.1 heq
      obtain ⟨⟨more', afterAll⟩, hmore, heq⟩ := bind_eq_ok.1 heq
      cases heq
      obtain ⟨us, rfl, hus⟩ := h.step _ _ _ hs
      obtain ⟨vs, rfl, hvs⟩ := ih hus hmore
      exact ⟨.slash :: (us ++ vs), by simp, .slash hread hvs⟩
    · rename_i later hrounds
      cases hrounds
      obtain ⟨⟨s', afterStep⟩, hs, heq⟩ := bind_eq_ok.1 heq
      obtain ⟨⟨more', afterAll⟩, hmore, heq⟩ := bind_eq_ok.1 heq
      cases heq
      obtain ⟨us, rfl, hus⟩ := h.step _ _ _ hs
      obtain ⟨vs, rfl, hvs⟩ := ih hus hmore
      exact ⟨.doubleSlash :: (us ++ vs), by simp, .doubleSlash hread hvs⟩
    · cases heq
      exact ⟨[], rfl, by rw [List.append_nil]; exact .lastStep hread⟩

theorem Sound.relativePath : Sound .relativePath (Reader.relativePath expression) := by
  intro ts steps rest heq
  obtain ⟨⟨s, afterStep⟩, hs, heq⟩ := bind_eq_ok.1 heq
  obtain ⟨⟨more, afterAll⟩, hmore, heq⟩ := bind_eq_ok.1 heq
  cases heq
  obtain ⟨us, rfl, hus⟩ := h.step _ _ _ hs
  obtain ⟨vs, rfl, hvs⟩ := h.stepsFrom hus hmore
  exact ⟨us ++ vs, (List.append_assoc us vs _).symm, hvs⟩

theorem Sound.locationPath : Sound (.expr .location) (Reader.locationPath expression) := by
  intro ts e rest heq
  unfold Reader.locationPath at heq
  split at heq
  · obtain ⟨⟨steps, afterAll⟩, hsteps, heq⟩ := bind_eq_ok.1 heq
    cases heq
    obtain ⟨us, rfl, hus⟩ := h.relativePath _ _ _ hsteps
    exact ⟨.doubleSlash :: us, rfl, .belowRoot hus⟩
  · split at heq
    · obtain ⟨⟨steps, afterAll⟩, hsteps, heq⟩ := bind_eq_ok.1 heq
      cases heq
      obtain ⟨us, rfl, hus⟩ := h.relativePath _ _ _ hsteps
      exact ⟨.slash :: us, rfl, .absolute hus⟩
    · cases heq
      exact ⟨[.slash], rfl, .root⟩
  · obtain ⟨⟨steps, afterAll⟩, hsteps, heq⟩ := bind_eq_ok.1 heq
    cases heq
    obtain ⟨us, rfl, hus⟩ := h.relativePath _ _ _ hsteps
    exact ⟨us, rfl, .relative hus⟩

/-- Arguments go on, up to the closing parenthesis, from one that was read before. -/
theorem Sound.argumentsFrom {read : List Token} {es : List Expr}
    (hread : Derives (.expr .or) read e)
    (heq : Reader.argumentsFrom expression rounds ts = .ok (es, rest)) :
    ∃ us, ts = us ++ .rightParen :: rest ∧ Derives .arguments (read ++ us) (e :: es) := by
  have hend : ∀ {read e ts es}, Derives (.expr .or) read e →
      (Reader.expect .rightParen ts >>= fun ts => .ok ([], ts)) = .ok (es, rest) →
        ∃ us, ts = us ++ .rightParen :: rest ∧ Derives .arguments (read ++ us) (e :: es) := by
    intro read e ts es hread heq
    obtain ⟨afterParen, hparen, heq⟩ := bind_eq_ok.1 heq
    cases heq
    exact ⟨[], expect_eq_ok hparen, by rw [List.append_nil]; exact .lastArgument hread⟩
  induction rounds generalizing ts read e es with
  | zero => exact hend hread heq
  | succ rounds ih =>
    unfold Reader.argumentsFrom at heq
    split at heq
    · rename_i later hrounds
      cases hrounds
      obtain ⟨⟨e', afterArgument⟩, he, heq⟩ := bind_eq_ok.1 heq
      obtain ⟨⟨more, afterAll⟩, hmore, heq⟩ := bind_eq_ok.1 heq
      cases heq
      obtain ⟨us, rfl, hus⟩ := h _ _ _ he
      obtain ⟨vs, rfl, hvs⟩ := ih hus hmore
      exact ⟨.comma :: (us ++ vs), by simp, .argument hread hvs⟩
    · exact hend hread heq

theorem Sound.arguments {es : List Expr} (heq : Reader.arguments expression ts = .ok (es, rest)) :
    ∃ us, ts = .leftParen :: (us ++ .rightParen :: rest) ∧ Derives .arguments us es := by
  obtain ⟨afterParen, hparen, hinside⟩ := bind_eq_ok.1 heq
  cases expect_eq_ok hparen
  split at hinside
  · cases hinside
    exact ⟨[], rfl, .noArgument⟩
  · obtain ⟨⟨e, afterArgument⟩, he, heq⟩ := bind_eq_ok.1 hinside
    obtain ⟨⟨more, afterAll⟩, hmore, heq⟩ := bind_eq_ok.1 heq
    cases heq
    obtain ⟨us, rfl, hus⟩ := h _ _ _ he
    obtain ⟨vs, rfl, hvs⟩ := h.argumentsFrom hus hmore
    exact ⟨us ++ vs, by simp, hvs⟩

/-- A primary expression goes on with predicates and steps. -/
theorem Sound.filtered {read : List Token} (hread : Derives (.expr .primary) read e)
    (heq : Reader.filtered expression e ts = .ok (e', rest)) :
    ∃ us, ts = us ++ rest ∧ Derives (.expr .path) (read ++ us) e' := by
  obtain ⟨⟨ps, afterPredicates⟩, hps, heq⟩ := bind_eq_ok.1 heq
  obtain ⟨⟨steps, afterAll⟩, hsteps, heq⟩ := bind_eq_ok.1 heq
  cases heq
  obtain ⟨us, rfl, hus⟩ := h.predicates _ _ _ hps
  unfold Reader.continuation at hsteps
  split at hsteps
  · obtain ⟨⟨steps, afterAll⟩, hrelative, heq⟩ := bind_eq_ok.1 hsteps
    cases heq
    obtain ⟨vs, rfl, hvs⟩ := h.relativePath _ _ _ hrelative
    refine ⟨us ++ .doubleSlash :: vs, by simp, ?_⟩
    rw [List.isEmpty_cons, Bool.and_false]
    exact .continuedBelow hread hus hvs
  · obtain ⟨vs, rfl, hvs⟩ := h.relativePath _ _ _ hsteps
    refine ⟨us ++ .slash :: vs, by simp, ?_⟩
    have hne : steps.isEmpty = false := by cases hvs <;> rfl
    rw [hne, Bool.and_false]
    exact .continued hread hus hvs
  · cases hsteps
    refine ⟨us, rfl, ?_⟩
    cases ps with
    | nil =>
      cases hus
      rw [List.append_nil]
      exact .bare hread
    | cons p ps => exact .narrowed hread hus

theorem Sound.pathExpression : Sound (.expr .path) (Reader.pathExpression expression) := by
  intro ts e rest heq
  unfold Reader.pathExpression at heq
  split at heq
  · obtain ⟨us, rfl, hus⟩ := h.filtered (.literal _) heq
    exact ⟨_ :: us, rfl, hus⟩
  · obtain ⟨us, rfl, hus⟩ := h.filtered (.number _) heq
    exact ⟨_ :: us, rfl, hus⟩
  · obtain ⟨⟨inner, afterInner⟩, hinner, heq⟩ := bind_eq_ok.1 heq
    obtain ⟨afterParen, hparen, hfiltered⟩ := bind_eq_ok.1 heq
    cases expect_eq_ok hparen
    obtain ⟨us, hts, hus⟩ := h _ _ _ hinner
    obtain ⟨vs, hafter, hvs⟩ := h.filtered (.parenthesized hus) hfiltered
    exact ⟨_, by simp [hts, hafter], hvs⟩
  · obtain ⟨⟨es, afterArguments⟩, hes, hfiltered⟩ := bind_eq_ok.1 heq
    obtain ⟨us, hts, hus⟩ := h.arguments hes
    obtain ⟨vs, hafter, hvs⟩ := h.filtered (.call _ hus) hfiltered
    exact ⟨_, by simp [hts, hafter], hvs⟩
  · obtain ⟨us, hts, hus⟩ := h.locationPath _ _ _ heq
    exact ⟨us, hts, .located hus⟩

theorem Sound.disjunction : Sound (.expr .or) (Reader.disjunction expression) := by
  have hunary := (h.pathExpression.chain .union).negation
  have hsum := (hunary.chain .product).chain .sum
  have hequality := (hsum.chain .relation).chain .equality
  exact (hequality.chain .and).chain .or

end

theorem sound_expression (nesting : Nat) : Sound (.expr .or) (Reader.expression nesting) := by
  induction nesting with
  | zero => nofun
  | succ nesting ih => exact ih.disjunction

end CssLocator.XPath
