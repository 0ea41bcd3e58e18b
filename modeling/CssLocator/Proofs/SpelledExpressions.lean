import CssLocator.Proofs.ExpressionTokens
import CssLocator.Proofs.PhraseRules
import CssLocator.XPathFunctions

/-!
# Texts of expressions

Which texts are parsed as which expressions, by the rules after which expressions are written: with
blanks around binary operators and after commas, and none elsewhere.
-/

namespace CssLocator.XPath

variable {k j : Nat} {s s' : Text} {e e' : Expr} {o : Operator}

/-- The text is an operand that is parsed as the expression. -/
def Spelled (k : Nat) (s : Text) (e : Expr) : Prop := ∃ ts, Cut true s ts false ∧ Phrase k e ts

/-- The text is a chain of operands, joined by operators of one rank. -/
def SpelledChain (k : Nat) (s : Text) (e : Expr) : Prop := ∃ ts, Cut true s ts false ∧ Chained k e ts

theorem Spelled.raise (h : Spelled k s e) (hkj : k ≤ j) : Spelled j s e := by
  obtain ⟨ts, hcut, hphrase⟩ := h
  exact ⟨ts, hcut, hphrase.raise hkj⟩

theorem Spelled.chain (h : Spelled k s e) : SpelledChain k s e := by
  obtain ⟨ts, hcut, hphrase⟩ := h
  exact ⟨ts, hcut, hphrase.chained⟩

theorem SpelledChain.spelled (h : SpelledChain k s e) : Spelled (k + 1) s e := by
  obtain ⟨ts, hcut, hchain⟩ := h
  exact ⟨ts, hcut, hchain.phrase⟩

/-- The whole text is parsed as the expression. -/
theorem Spelled.tokens (h : Spelled 6 s e) :
    ∃ ts, XPath.tokens s = .ok ts ∧ ofTokens ts = .ok e := by
  obtain ⟨ts, hcut, hphrase⟩ := h
  refine ⟨ts, ?_, hphrase.ofTokens⟩
  have hwhole := hcut [] fun _ => .nil
  rw [List.append_nil] at hwhole
  have hnil : tokensFrom false [] = .ok [] := by
    unfold tokensFrom
    rfl
  rw [XPath.tokens, hwhole, hnil]
  simp [Except.map]

theorem Spelled.parse (h : Spelled 6 s e) : parse s = .ok e := by
  obtain ⟨ts, htokens, hparse⟩ := h.tokens
  rw [XPath.parse, htokens]
  exact hparse

/-- The operators that conditions are written with. -/
def writtenOperators : List Operator := [.or, .and, .equal, .greaterEqual, .add, .subtract, .modulo]

/-- An operator between blanks. -/
def infixText (o : Operator) : Text := ' ' :: (o.text ++ [' '])

private theorem cut_operator (ho : o ∈ writtenOperators) :
    Cut false (infixText o) [.operator o] true := by
  have hname : ∀ (name : Text) {operator : Operator}, isName name →
      operatorOfName? name = some operator →
      Cut false (' ' :: (name ++ [' '])) [.operator operator] true := fun _ _ h h' =>
    (cut_operatorName h h').blank_left
  simp only [writtenOperators, List.mem_cons, List.not_mem_nil, or_false] at ho
  rcases ho with rfl | rfl | rfl | rfl | rfl | rfl | rfl
  · exact hname "or" (by decide +kernel) rfl
  · exact hname "and" (by decide +kernel) rfl
  · exact (cut_equal false).blank_right.blank_left
  · exact (cut_greaterEqual false).blank_right.blank_left
  · exact (cut_plus false).blank_right.blank_left
  · exact (cut_minus false).blank_right.blank_left
  · exact hname "mod" (by decide +kernel) rfl

private theorem endsToken_operator (ho : o ∈ writtenOperators) (r : Text) :
    EndsToken (infixText o ++ r) := by
  simp only [writtenOperators, List.mem_cons, List.not_mem_nil, or_false] at ho
  rcases ho with rfl | rfl | rfl | rfl | rfl | rfl | rfl <;> exact .blank (by decide) (by decide)

theorem SpelledChain.binary (h : SpelledChain k s e) (h' : Spelled k s' e')
    (ho : o ∈ operatorsOf k) (hk : k < 6) (hwritten : o ∈ writtenOperators) :
    SpelledChain k (s ++ infixText o ++ s') (.binary o e e') := by
  obtain ⟨ts, hcut, hchain⟩ := h
  obtain ⟨ts', hcut', hphrase'⟩ := h'
  have hleft := hcut.append (cut_operator hwritten) fun _ => endsToken_operator hwritten
  have hboth := hleft.then hcut'
  rw [List.append_assoc ts, List.singleton_append] at hboth
  exact ⟨_, hboth, hchain.binary hphrase' hk ho⟩

theorem Spelled.binary (h : Spelled k s e) (h' : Spelled k s' e') (ho : o ∈ operatorsOf k)
    (hk : k < 6) (hwritten : o ∈ writtenOperators) :
    Spelled (k + 1) (s ++ infixText o ++ s') (.binary o e e') :=
  (h.chain.binary h' ho hk hwritten).spelled

theorem spelled_literal {quote : Char} (hquote : quote = '"' ∨ quote = '\'') (value : Text)
    (h : quote ∉ value) : Spelled 0 (quote :: (value ++ [quote])) (.literal value) :=
  ⟨_, cut_literal hquote h, (filterPhrase_literal value).bare.phrase⟩

theorem spelled_number (n : Nat) : Spelled 0 (Text.ofNat n) (.number (.ofNat n)) :=
  ⟨_, cut_number n, (filterPhrase_number _).bare.phrase⟩

theorem Spelled.negate (h : Spelled 0 s e) : Spelled 0 ('-' :: s) (.negate e) := by
  obtain ⟨ts, hcut, hphrase⟩ := h
  exact ⟨_, (cut_minus true).then hcut, hphrase.negate⟩

/-- Every token ends before one of these marks. -/
theorem endsToken_mark {c : Char} (hc : c ∈ [')', ',', '[', ']', '/']) (r : Text) :
    EndsToken (c :: r) := by
  simp only [List.mem_cons, List.not_mem_nil, or_false] at hc
  rcases hc with rfl | rfl | rfl | rfl | rfl <;> exact .cons (by decide) (by decide) (by decide)

/-- The text with a closing parenthesis or bracket after it is cut into tokens that are parsed as the
expression, and the one that closes them. -/
def Enclosed (s : Text) (e : Expr) : Prop :=
  ∃ ts, Cut true (s ++ [')']) (ts ++ [.rightParen]) false ∧
    Cut true (s ++ [']']) (ts ++ [.rightBracket]) false ∧ Phrase 6 e ts

theorem Spelled.enclosed (h : Spelled 6 s e) : Enclosed s e := by
  obtain ⟨ts, hcut, hphrase⟩ := h
  have hparen := hcut.append (cut_rightParen false) fun _ => endsToken_mark (by decide)
  have hbracket := hcut.append (cut_rightBracket false) fun _ => endsToken_mark (by decide)
  exact ⟨ts, hparen, hbracket, hphrase⟩

theorem Enclosed.filterPhrase (h : Enclosed s e) :
    ∃ ts, Cut true ('(' :: (s ++ [')'])) ts false ∧ FilterPhrase e ts := by
  obtain ⟨ts, hparen, -, hphrase⟩ := h
  exact ⟨_, (cut_leftParen true).then hparen, hphrase.filterPhrase⟩

theorem Spelled.parenthesized (h : Spelled 6 s e) : Spelled 0 ('(' :: (s ++ [')'])) e := by
  obtain ⟨ts, hcut, hfilter⟩ := h.enclosed.filterPhrase
  exact ⟨ts, hcut, hfilter.bare.phrase⟩

/-- Arguments with commas and blanks between them, and the closing parenthesis. -/
theorem cut_arguments {ss : List Text} {es : List Expr} (h : List.Forall₂ (Spelled 6) ss es) :
    ∃ ts, Cut true (Text.join [',', ' '] ss ++ [')']) (ts ++ [.rightParen]) false ∧
      ArgumentsPhrase es ts := by
  induction h with
  | nil => exact ⟨[], cut_rightParen true, argumentsPhrase_nil⟩
  | @cons s e ss es hs hss ih =>
    obtain ⟨ts, hcut, hphrase⟩ := hs
    obtain ⟨us, hcuts, hphrases⟩ := ih
    cases hss with
    | nil =>
      have hlast := hcut.append (cut_rightParen false) fun _ => endsToken_mark (by decide)
      exact ⟨ts, hlast, hphrase.lastArgument⟩
    | @cons s' e' ss es hs' hss =>
      have hcomma : Cut false [',', ' '] [.comma] true := (cut_comma false).blank_right
      have hleft := hcut.append hcomma fun _ _ => endsToken_mark (by decide) _
      have hboth := hleft.then hcuts
      exact ⟨ts ++ .comma :: us, by simpa [Text.join] using hboth, hphrase.argument hphrases⟩

theorem Function.mem_all (f : Function) : f ∈ Function.all := by
  cases f <;> decide

/-- The names of functions are names of nothing else. -/
theorem isName_text (f : Function) : isName f.text ∧ nodeTypeOfName? f.text = none := by
  have hall : Function.all.all
      fun f => isName f.text && (nodeTypeOfName? f.text).isNone := by decide +kernel
  have hf := List.all_eq_true.1 hall f f.mem_all
  rwa [Bool.and_eq_true, Option.isNone_iff_eq_none] at hf

/-- A call of a function. -/
theorem spelled_call (f : Function) {ss : List Text} {es : List Expr}
    (h : List.Forall₂ (Spelled 6) ss es) :
    Spelled 0 (f.text ++ '(' :: (Text.join [',', ' '] ss ++ [')'])) (.call f.text es) := by
  obtain ⟨ts, hcut, harguments⟩ := cut_arguments h
  have hwhole := (cut_function (isName_text f).1 (isName_text f).2).then hcut
  rw [List.append_assoc] at hwhole
  exact ⟨_, hwhole, (harguments.filterPhrase f.text).bare.phrase⟩

/-- The text is a step that is parsed as the given one. -/
def SpelledStep (s : Text) (p : Step) : Prop := ∃ ts, Cut true s ts false ∧ StepPhrase p ts

theorem SpelledStep.path {p : Step} (h : SpelledStep s p) : Spelled 0 s (.path false [p]) := by
  obtain ⟨ts, hcut, hstep⟩ := h
  exact ⟨ts, hcut, hstep.last.relative.phrase⟩

/-- A predicate, or none. -/
def predicateText (ss : List Text) : Text := ss.flatMap fun s => '[' :: (s ++ [']'])

theorem cut_predicates {ss : List Text} {es : List Expr} (h : List.Forall₂ Enclosed ss es) :
    ∃ ts, (∀ {u : Text} {us : List Token}, Cut true u us false →
      Cut true (u ++ predicateText ss) (us ++ ts) false) ∧ PredicatesPhrase es ts := by
  induction h with
  | nil => exact ⟨[], fun h => by simpa [predicateText] using h, predicatesPhrase_nil⟩
  | @cons s e ss es hs _ ih =>
    obtain ⟨ts, -, hcut, hphrase⟩ := hs
    obtain ⟨vs, hcuts, hphrases⟩ := ih
    refine ⟨_, ?_, .cons hphrase hphrases⟩
    intro u us hu
    have hopen := hu.append (cut_leftBracket false) fun _ => endsToken_mark (by decide)
    have hwhole := hcuts (hopen.then hcut)
    simpa [predicateText] using hwhole

theorem spelledStep_attribute {name : Text} (hname : isName name) (hne : name ≠ "*") :
    SpelledStep ('@' :: name) (.mk .attributes (.name name) []) :=
  ⟨_, (cut_atSign true).then (cut_name hname), predicatesPhrase_nil.step .atSign (.name hne)⟩

theorem spelledStep_anyAttribute {ss : List Text} {es : List Expr}
    (h : List.Forall₂ Enclosed ss es) :
    SpelledStep ('@' :: '*' :: predicateText ss) (.mk .attributes .any es) := by
  obtain ⟨ts, hcuts, hpredicates⟩ := cut_predicates h
  exact ⟨_, hcuts ((cut_atSign true).then cut_asterisk), hpredicates.step .atSign .any⟩

theorem spelledStep_child {ss : List Text} {es : List Expr} (h : List.Forall₂ Enclosed ss es) :
    SpelledStep ('*' :: predicateText ss) (.mk .child .any es) := by
  obtain ⟨ts, hcuts, hpredicates⟩ := cut_predicates h
  exact ⟨_, hcuts cut_asterisk, hpredicates.step .child .any⟩

theorem spelledStep_text : SpelledStep "text()" (.mk .child (.type .text) []) :=
  ⟨_, (cut_nodeType .text).then (cut_rightParen true), predicatesPhrase_nil.step .child (.type .text)⟩

@[simp] theorem isName_axis (a : Axis) : isName a.name := by
  cases a <;> decide +kernel

/-- All nodes of an axis. -/
theorem spelledStep_anyNode (a : Axis) :
    SpelledStep (a.name ++ "::node()") (.mk a (.type .node) []) := by
  have hnode := (cut_nodeType .node).then (cut_rightParen true)
  have hwhole := (cut_axis a.name (isName_axis a)).then hnode
  rw [List.append_assoc] at hwhole
  have hstep : StepPhrase (.mk a (.type .node) []) ([.axis a.name, .doubleColon] ++
      ([.nodeType .node, .leftParen, .rightParen] ++ [])) :=
    predicatesPhrase_nil.step (.named a) (.type .node)
  exact ⟨_, hwhole, hstep⟩

theorem spelledStep_parent : SpelledStep "parent::*" (.mk .parent .any []) := by
  have haxis := cut_axis "parent" (isName_axis .parent)
  exact ⟨_, haxis.then cut_asterisk, predicatesPhrase_nil.step (.named .parent) .any⟩

private theorem cut_dot (o : Bool) : Cut o ['.'] [.dot] false := by
  apply cut_token (by decide)
  intro r hr
  cases r with
  | nil => rfl
  | cons c r =>
    obtain ⟨hdigit, hdot⟩ := isDigit_of_not_isNameChar ((hr rfl).head c rfl)
    have hnumber : ¬ startsNumber '.' (c :: r) = true := by simp [startsNumber, hdigit]
    have hpair : pair? '.' (c :: r) = none := by
      unfold pair?
      split <;> simp_all
    show scan o '.' (c :: r) = _
    rw [scan, if_neg hnumber, if_neg (by decide), if_neg (by decide), hpair]
    rfl

/-- Any element at the step one level, or any number of levels, below the context. -/
theorem spelled_below {ss : List Text} {es : List Expr} (h : List.Forall₂ Enclosed ss es) :
    Spelled 0 ("./*" ++ predicateText ss)
        (.path false [.mk .self (.type .node) [], .mk .child .any es]) ∧
      Spelled 0 (".//*" ++ predicateText ss)
        (.path false [.mk .self (.type .node) [], .anyDepth, .mk .child .any es]) := by
  obtain ⟨ts, hcuts, hpredicates⟩ := cut_predicates h
  have hstep := (hpredicates.step .child .any).last
  constructor
  · have hasterisk : Cut false ['/', '*'] [.slash, .name "*"] false :=
      cut_asterisk.slash ⟨'*', rfl, by decide⟩
    have hstart := (cut_dot true).append hasterisk fun _ _ => endsToken_mark (by decide) _
    exact ⟨_, hcuts hstart, (stepPhrase_dot.continued hstep.continuation_slash).relative.phrase⟩
  · have hslashes := (cut_dot true).append (cut_doubleSlash false) fun _ _ => endsToken_mark (by decide) _
    have hstart := hslashes.then cut_asterisk
    exact ⟨_, hcuts hstart, (stepPhrase_dot.continued hstep.continuation_doubleSlash).relative.phrase⟩

end CssLocator.XPath
