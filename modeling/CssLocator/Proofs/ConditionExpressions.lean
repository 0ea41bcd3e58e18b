import CssLocator.Proofs.CompiledPlans
import CssLocator.Proofs.SpelledExpressions
import CssLocator.Proofs.Texts

/-!
# Expressions of conditions

The XPath predicates of conditions as expressions, and that their texts are parsed as these. The
query of a compound has one predicate at most, the conjunction of all of its conditions.
-/

namespace CssLocator

namespace XPath

/-- A quoted value. With both kinds of quotes in it, it is put together from pieces. -/
def valueExpr (value : Text) : Expr :=
  if '\'' ∉ value ∨ '"' ∉ value then .literal value
  else .call "concat" (((Text.splitAt (· == '\'') value).map .literal).intersperse (.literal ['\'']))

theorem forall₂_intersperse {α β : Type} {r : α → β → Prop} {l : List α} {l' : List β} {a : α} {b : β}
    (h : List.Forall₂ r l l') (hab : r a b) :
    List.Forall₂ r (l.intersperse a) (l'.intersperse b) := by
  induction h with
  | nil => exact .nil
  | cons hx hrest ih =>
    cases hrest with
    | nil => exact .cons hx .nil
    | cons hy hrest =>
      rw [List.intersperse_cons_cons, List.intersperse_cons_cons]
      exact .cons hx (.cons hab ih)

theorem spelled_value (value : Text) : Spelled 0 (quoteLiteral value) (valueExpr value) := by
  unfold quoteLiteral valueExpr
  by_cases happostrophe : '\'' ∉ value
  · rw [if_pos happostrophe, if_pos (.inl happostrophe)]
    exact spelled_literal (.inr rfl) value happostrophe
  · rw [if_neg happostrophe]
    by_cases hquote : '"' ∉ value
    · rw [if_pos hquote, if_pos (.inr hquote)]
      exact spelled_literal (.inl rfl) value hquote
    · rw [if_neg hquote, if_neg (by tauto)]
      have hpieces : List.Forall₂ (Spelled 6)
          ((Text.splitAt (· == '\'') value).map fun piece : Text => ("'" ++ piece ++ "'" : Text))
          ((Text.splitAt (· == '\'') value).map .literal) := by
        rw [List.forall₂_map_left_iff, List.forall₂_map_right_iff, List.forall₂_same]
        intro piece hpiece
        have hfree : '\'' ∉ piece := by
          intro hmem
          simpa using Text.of_mem_splitAt hpiece _ hmem
        exact (spelled_literal (.inr rfl) piece hfree).raise (Nat.zero_le 6)
      have hseparator : Spelled 6 ['"', '\'', '"'] (.literal ['\'']) :=
        (spelled_literal (.inl rfl) ['\''] (by decide)).raise (Nat.zero_le 6)
      have hcall := spelled_call .concat (forall₂_intersperse hpieces hseparator)
      rw [Text.join_intersperse] at hcall
      exact hcall

/-- An integer; a negative one is a negated number. -/
def integerExpr (i : Int) : Expr :=
  if i < 0 then .negate (.number (.ofNat i.natAbs)) else .number (.ofNat i.natAbs)

private theorem spelled_integer (i : Int) : Spelled 0 (Text.ofInt i) (integerExpr i) := by
  unfold Text.ofInt integerExpr
  by_cases hi : i < 0
  · rw [if_pos hi, if_pos hi]
    exact (spelled_number _).negate
  · rw [if_neg hi, if_neg hi]
    exact spelled_number _

/-- The attribute with a name. -/
def attributeExpr (name : Text) : Expr :=
  .path false [
    if isPlainName name then .mk .attributes (.name name) []
    else .mk .attributes .any [.binary .equal (.call "name" []) (valueExpr name)]]

private theorem isName_of_isPlainName {name : Text} (h : isPlainName name) : isName name := by
  cases name with
  | nil => cases h
  | cons c s =>
    simp only [isPlainName, Bool.and_eq_true, Bool.or_eq_true, beq_iff_eq, List.all_eq_true] at h
    obtain ⟨hc, hs⟩ := h
    simp only [isName, Bool.and_eq_true, Bool.not_eq_true', List.all_eq_true]
    refine ⟨⟨?_, ?_⟩, ?_⟩
    · rcases hc with hc | rfl
      · simp [isNameStart, Identifier.isStart, hc]
      · decide
    · rcases hc with hc | rfl
      · exact Identifier.isSpace_of_isAlpha hc
      · decide
    · intro d hd
      rcases hs d hd with ((hd | rfl) | rfl) | rfl
      · simp only [Char.isAlphanum, Bool.or_eq_true] at hd
        simp only [isNameChar, Identifier.isContinue, Identifier.isStart, Bool.or_eq_true]
        tauto
      all_goals decide

theorem spelled_attribute (name : Text) : Spelled 0 (attributePath name) (attributeExpr name) := by
  unfold attributePath attributeExpr
  cases hplain : isPlainName name with
  | true =>
    rw [if_pos rfl, if_pos rfl]
    have hne : name ≠ "*" := by
      rintro rfl
      revert hplain
      decide
    exact (spelledStep_attribute (isName_of_isPlainName hplain) hne).path
  | false =>
    rw [if_neg Bool.false_ne_true, if_neg Bool.false_ne_true]
    have hname : Spelled 3 "name()" (.call "name" []) :=
      (spelled_call .name
        .nil).raise (Nat.zero_le 3)
    have hequal := hname.binary (o := .equal) ((spelled_value name).raise (Nat.zero_le 3)) (by decide)
      (by decide) (by decide)
    have hstep := spelledStep_anyAttribute (.cons (hequal.raise (j := 6) (by decide)).enclosed .nil)
    have htext : ("@*[name() = " ++ quoteLiteral name ++ "]" : Text) =
        '@' :: '*' :: predicateText ["name() = " ++ quoteLiteral name] := by
      simp [predicateText]
    rw [htext]
    exact hstep.path

private theorem spelled_blank : Spelled 6 "' '" (.literal [' ']) :=
  (spelled_literal (.inr rfl) [' '] (by decide)).raise (Nat.zero_le 6)

private theorem Spelled.of_eq {k : Nat} {s s' : Text} {e : Expr} (h : Spelled k s e) (hs : s' = s) :
    Spelled k s' e := hs ▸ h

/-- Whether a word is among those of an attribute. -/
def wordExpr (subject : Expr) (word : Text) : Expr :=
  .call "contains" [
    .call "concat" [.literal [' '], .call "normalize-space" [subject], .literal [' ']],
    valueExpr (" " ++ word ++ " ")]

theorem spelled_word {path : Text} {subject : Expr} (h : Spelled 0 path subject) (word : Text) :
    Spelled 0 (wordPath path word) (wordExpr subject word) := by
  have hnormal := spelled_call .normalizeSpace
    (.cons (h.raise (Nat.zero_le 6)) .nil)
  have hconcat := spelled_call .concat
    (.cons spelled_blank (.cons (hnormal.raise (Nat.zero_le 6)) (.cons spelled_blank .nil)))
  have hvalue := (spelled_value (" " ++ word ++ " ")).raise (Nat.zero_le 6)
  have hcontains := spelled_call .contains
    (.cons (hconcat.raise (Nat.zero_le 6)) (.cons hvalue .nil))
  apply hcontains.of_eq
  unfold wordPath
  simp only [Text.join, List.append_assoc, List.cons_append]
  rfl

/-- The comparison of an attribute with a value. -/
def comparisonExpr (o : AttributeOperator) (subject : Expr) (value : Text) : Expr :=
  match o with
  | .equal => .binary .equal subject (valueExpr value)
  | .word => wordExpr subject value
  | .dash =>
    .binary .or (.binary .equal subject (valueExpr value))
      (.call "starts-with" [subject, valueExpr (value ++ "-")])
  | .start => .call "starts-with" [subject, valueExpr value]
  | .finish =>
    .binary .equal
      (.call "substring" [subject,
        .binary .add
          (.binary .subtract (.call "string-length" [subject]) (.call "string-length" [valueExpr value]))
          (.number (.ofNat 1))])
      (valueExpr value)
  | .anywhere => .call "contains" [subject, valueExpr value]

private theorem spelled_comparison (o : AttributeOperator) {path : Text} {subject : Expr}
    (h : Spelled 0 path subject) (value : Text) :
    Spelled 4 (o.pathText path value) (comparisonExpr o subject value) := by
  have hvalue := spelled_value value
  have hequal := (h.raise (j := 3) (by decide)).binary (o := .equal) (hvalue.raise (by decide))
    (by decide) (by decide) (by decide)
  cases o with
  | equal =>
    apply hequal.of_eq
    unfold AttributeOperator.pathText
    simp only [List.append_assoc]
    rfl
  | word => exact (spelled_word h value).raise (by decide)
  | dash =>
    have hstarts := spelled_call .startsWith (.cons (h.raise (Nat.zero_le 6))
      (.cons ((spelled_value (value ++ "-")).raise (Nat.zero_le 6)) .nil))
    have hor := (hequal.raise (j := 5) (by decide)).binary (o := .or) (hstarts.raise (by decide))
      (by decide) (by decide) (by decide)
    apply (hor.parenthesized.raise (j := 4) (by decide)).of_eq
    unfold AttributeOperator.pathText
    simp only [Text.join, List.append_assoc, List.cons_append]
    rfl
  | start =>
    have hstarts := spelled_call .startsWith (.cons (h.raise (Nat.zero_le 6))
      (.cons (hvalue.raise (Nat.zero_le 6)) .nil))
    apply (hstarts.raise (j := 4) (by decide)).of_eq
    unfold AttributeOperator.pathText
    simp only [Text.join, List.append_assoc, List.cons_append]
    rfl
  | finish =>
    have hlengthOf : ∀ {s : Text} {e : Expr}, Spelled 0 s e →
        Spelled 0 ("string-length" ++ '(' :: (s ++ [')'])) (.call "string-length" [e]) := fun h =>
      spelled_call .stringLength (.cons (h.raise (Nat.zero_le 6)) .nil)
    have hlength := hlengthOf h
    have hlength' := hlengthOf hvalue
    have hdifference := (hlength.raise (j := 1) (by decide)).chain.binary (o := .subtract)
      (hlength'.raise (by decide)) (by decide) (by decide) (by decide)
    have hsum := hdifference.binary (o := .add) ((spelled_number 1).raise (by decide)) (by decide)
      (by decide) (by decide)
    have hsubstring := spelled_call .substring
      (.cons (h.raise (Nat.zero_le 6)) (.cons (hsum.spelled.raise (by decide)) .nil))
    have hfinish := (hsubstring.raise (j := 3) (by decide)).binary (o := .equal)
      (hvalue.raise (by decide)) (by decide) (by decide) (by decide)
    apply hfinish.of_eq
    unfold AttributeOperator.pathText
    simp only [Text.join, List.append_assoc, List.cons_append]
    rfl
  | anywhere =>
    have hcontains := spelled_call .contains (.cons (h.raise (Nat.zero_le 6))
      (.cons (hvalue.raise (Nat.zero_le 6)) .nil))
    apply (hcontains.raise (j := 4) (by decide)).of_eq
    unfold AttributeOperator.pathText
    simp only [Text.join, List.append_assoc, List.cons_append]
    rfl

/-- An attribute condition. -/
def attributeCondition (name : Text) : Option (AttributeOperator × Text) → Expr
  | none => attributeExpr name
  | some (o, value) => comparisonExpr o (attributeExpr name) value

theorem spelled_attributeCondition (name : Text) (test : Option (AttributeOperator × Text)) :
    Spelled 4 (attributePathText name test) (attributeCondition name test) := by
  rcases test with _ | ⟨o, value⟩
  · exact (spelled_attribute name).raise (by decide)
  · exact spelled_comparison o (spelled_attribute name) value

theorem spelled_class (name : Text) :
    Spelled 4 (classPathText name) (wordExpr (attributeExpr "class") name) :=
  (spelled_word (spelled_attribute "class") name).raise (by decide)

private theorem spelled_id (name : Text) :
    Spelled 4 (idPathText name) (comparisonExpr .equal (attributeExpr "id") name) :=
  spelled_comparison .equal (spelled_attribute "id") name

def tagExpr (name : Text) : Expr := .binary .equal (.call "local-name" []) (valueExpr name)

private theorem spelled_tag (name : Text) : Spelled 4 (tagPathText name) (tagExpr name) := by
  have hname := spelled_call .localName .nil
  have hequal := (hname.raise (j := 3) (by decide)).binary (o := .equal)
    ((spelled_value name).raise (by decide)) (by decide) (by decide) (by decide)
  exact hequal

/-- The condition on a position. -/
def positionExpr (position : Expr) (r : AnPlusB) : Expr :=
  let offset := integerExpr (r.offset.getD 0)
  if r.step.getD 0 = 0 then .binary .equal position offset
  else
    .binary .and
      (.binary .equal
        (.binary .modulo (.binary .subtract position offset) (integerExpr (r.step.getD 0)))
        (.number (.ofNat 0)))
      (.binary .greaterEqual position offset)

private theorem spelled_position {text : Text} {position : Expr} (h : Spelled 0 text position)
    (r : AnPlusB) : Spelled 6 (r.pathText text) (positionExpr position r) := by
  have hoffset := spelled_integer (r.offset.getD 0)
  unfold AnPlusB.pathText positionExpr
  dsimp only
  by_cases hstep : r.step.getD 0 = 0
  · rw [if_pos hstep, if_pos hstep]
    have hequal := (h.raise (j := 3) (by decide)).binary (o := .equal) (hoffset.raise (by decide))
      (by decide) (by decide) (by decide)
    apply (hequal.raise (j := 6) (by decide)).of_eq
    simp only [List.append_assoc]
    rfl
  · rw [if_neg hstep, if_neg hstep]
    have hdifference := (h.raise (j := 1) (by decide)).binary (o := .subtract)
      (hoffset.raise (by decide)) (by decide) (by decide) (by decide)
    have hinside := (hdifference.raise (j := 6) (by decide)).parenthesized
    have hmodulo := hinside.binary (o := .modulo) (spelled_integer (r.step.getD 0)) (by decide)
      (by decide) (by decide)
    have hequal := (hmodulo.raise (j := 3) (by decide)).binary (o := .equal)
      ((spelled_number 0).raise (by decide)) (by decide) (by decide) (by decide)
    have hbound := (h.raise (j := 2) (by decide)).binary (o := .greaterEqual)
      (hoffset.raise (by decide)) (by decide) (by decide) (by decide)
    have hand := hequal.binary (o := .and) (hbound.raise (j := 4) (by decide)) (by decide) (by decide)
      (by decide)
    apply (hand.raise (j := 6) (by decide)).of_eq
    simp only [List.append_assoc, List.cons_append]
    rfl

def fromStart : Expr := .call "position" []

def fromEnd : Expr :=
  .binary .add (.binary .subtract (.call "last" []) (.call "position" [])) (.number (.ofNat 1))

def structuralExpr : Structural → AnPlusB → Expr
  | .nthChild, r => positionExpr fromStart r
  | .nthLastChild, r => positionExpr fromEnd r
  | .firstChild, _ => .binary .equal fromStart (.number (.ofNat 1))
  | .lastChild, _ => .binary .equal fromStart (.call "last" [])
  | .onlyChild, _ => .binary .equal (.call "last" []) (.number (.ofNat 1))
  | .empty, _ =>
    .binary .and (.call "not" [.path false [.mk .child .any []]])
      (.call "not" [.path false [.mk .child (.type .text) []]])
  | .root, _ => .call "not" [.path false [.mk .parent .any []]]

theorem spelled_structural (kind : Structural) (r : AnPlusB) :
    Spelled 6 (kind.pathSpelling r) (structuralExpr kind r) := by
  have hstart : Spelled 0 "position()" fromStart := spelled_call .position .nil
  have hlast : Spelled 0 "last()" (.call "last" []) := spelled_call .last .nil
  have hone : Spelled 0 "1" (.number (.ofNat 1)) := spelled_number 1
  have hequal : ∀ {s s' : Text} {e e' : Expr}, Spelled 0 s e → Spelled 0 s' e' →
      Spelled 6 (s ++ infixText .equal ++ s') (.binary .equal e e') := fun h h' =>
    ((h.raise (j := 3) (by decide)).binary (h'.raise (by decide)) (by decide) (by decide)
      (by decide)).raise (by decide)
  have hnot : ∀ {s : Text} {e : Expr}, Spelled 0 s e →
      Spelled 0 ("not" ++ '(' :: (s ++ [')'])) (.call "not" [e]) := fun h =>
    spelled_call .not (.cons (h.raise (Nat.zero_le 6)) .nil)
  cases kind with
  | nthChild => exact spelled_position hstart r
  | nthLastChild =>
    have hdifference := (hlast.raise (j := 1) (by decide)).chain.binary (o := .subtract)
      (hstart.raise (by decide)) (by decide) (by decide) (by decide)
    have hsum := hdifference.binary (o := .add) (hone.raise (by decide)) (by decide) (by decide)
      (by decide)
    exact spelled_position (hsum.spelled.raise (j := 6) (by decide)).parenthesized r
  | firstChild => exact hequal hstart hone
  | lastChild => exact hequal hstart hlast
  | onlyChild => exact hequal hlast hone
  | empty =>
    have hchild := hnot (spelledStep_child .nil).path
    have htext := hnot spelledStep_text.path
    have hand := (hchild.raise (j := 4) (by decide)).binary (o := .and) (htext.raise (by decide))
      (by decide) (by decide) (by decide)
    exact hand.raise (by decide)
  | root => exact (hnot spelledStep_parent.path).raise (by decide)

end XPath

open XPath

/-- The predicate of a condition, if it has one. -/
def SimpleSelector.condition? : SimpleSelector → Option Expr
  | universal => none
  | tag name => some (tagExpr name)
  | className name => some (wordExpr (attributeExpr "class") name)
  | id name => some (comparisonExpr .equal (attributeExpr "id") name)
  | hasAttribute name test => some (attributeCondition name test)
  | pseudo use =>
    match PseudoClass.ofName? use.name with
    | some (.structural kind) => (kind.read use).toOption.map (structuralExpr kind)
    | _ => none

theorem forall₂_spelled {known : Answers} {nested : SelectorList → Plan → Prop} {compound : Compound}
    {parts : List StepPart} (h : List.Forall₂ (PartOf known nested) compound parts) :
    List.Forall₂ (Spelled 4) (parts.filterMap (·.predicate?)) (compound.filterMap (·.condition?)) := by
  induction h with
  | nil => exact .nil
  | @cons x part _ _ hpart _ ih =>
    cases hpart with
    | universal => exact ih
    | tag name => exact .cons (spelled_tag name) ih
    | className name => exact .cons (spelled_class name) ih
    | id name => exact .cons (spelled_id name) ih
    | hasAttribute name test => exact .cons (spelled_attributeCondition name test) ih
    | @structural use kind a b hname hread hknown =>
      have hcondition : SimpleSelector.condition? (.pseudo use) = some (structuralExpr kind a) := by
        simp [SimpleSelector.condition?, hname, hread, Except.toOption]
      rw [List.filterMap_cons_some hcondition]
      exact .cons ((spelled_structural kind a).parenthesized.raise (by decide)) ih
    | @refining use kind f hname hfilter =>
      have hcondition : SimpleSelector.condition? (.pseudo use) = none := by
        simp [SimpleSelector.condition?, hname]
      rw [List.filterMap_cons_none hcondition]
      exact ih

/-- All of the predicates in one. -/
def conjunction : List Expr → List Expr
  | [] => []
  | e :: es => [es.foldl (.binary .and) e]

private theorem spelledChain_and {s : Text} {e : Expr} {ss : List Text} {es : List Expr}
    (h : SpelledChain 4 s e) (hs : List.Forall₂ (Spelled 4) ss es) :
    SpelledChain 4 (s ++ ss.flatMap (infixText .and ++ ·)) (es.foldl (.binary .and) e) := by
  induction hs generalizing s e with
  | nil =>
    rw [List.flatMap_nil, List.append_nil]
    exact h
  | cons hs' _ ih =>
    have hboth := ih (h.binary (o := .and) hs' (by decide) (by decide) (by decide))
    rw [List.flatMap_cons, ← List.append_assoc, ← List.append_assoc]
    exact hboth

/-- The path of a compound without predicates. -/
def elementsText (combinator : Combinator) : Text :=
  if combinator = .descendant then ".//*" else "./*"

/-- The expression of a compound is a path to elements with at most one predicate. -/
theorem pathExpression_eq {parts : List StepPart} {es : List Expr} (combinator : Combinator)
    (h : List.Forall₂ (Spelled 4) (parts.filterMap (·.predicate?)) es) :
    ∃ ss, List.Forall₂ (Spelled 6) ss (conjunction es) ∧
      pathExpression combinator parts = elementsText combinator ++ predicateText ss := by
  unfold pathExpression
  generalize parts.filterMap (·.predicate?) = predicates at h
  cases h with
  | nil => exact ⟨[], .nil, (List.append_nil _).symm⟩
  | @cons s e ss es hs hss =>
    have hall := (spelledChain_and hs.chain hss).spelled.raise (j := 6) (by decide)
    refine ⟨[_], .cons hall .nil, ?_⟩
    dsimp only
    rw [Text.join_cons, predicateText, List.flatMap_singleton, List.append_assoc, List.append_assoc]
    rfl

end CssLocator
