import CssLocator.Proofs.PathValues

/-!
# Truth of conditions in expressions

What the XPath predicate of a simple selector says about an element and its place among its
siblings. The numbers in it are doubles, and nothing is assumed about their size.
-/

namespace CssLocator

open XPath

variable {d : Document}

/-- What an expression makes of the comparison of an attribute with a value. A missing attribute has
an empty text. -/
def AttributeOperator.pathHolds (o : AttributeOperator) (found : Option Text) (wanted : Text) : Bool :=
  let text := found.getD []
  match o with
  | equal => found == some wanted
  | word =>
    Text.occursIn (" " ++ wanted ++ " ") (" " ++ (Text.join " " (Text.words Text.isSpace text) ++ " "))
  | dash => found == some wanted || (wanted ++ "-").isPrefixOf text
  | start => wanted.isPrefixOf text
  | finish =>
    let first := Double.ofNat text.length - .ofNat wanted.length + .ofNat 1
    XPath.substring text (roundHalfUp first) (.infinite false) == wanted
  | anywhere => Text.occursIn wanted text

/-- What an expression makes of the condition on a position. -/
def AnPlusB.pathSelects (r : AnPlusB) (position : Double) : Bool :=
  let offset := integer (r.offset.getD 0)
  if r.step.getD 0 = 0 then position.equals offset
  else
    ((position - offset) % integer (r.step.getD 0)).equals (.ofNat 0) && offset.atMost position

def Structural.pathHolds (d : Document) (focus : Focus) (r : AnPlusB) : Structural → Bool
  | nthChild => r.pathSelects (.ofNat focus.position)
  | nthLastChild => r.pathSelects (.ofNat focus.size - .ofNat focus.position + .ofNat 1)
  | firstChild => (Double.ofNat focus.position).equals (.ofNat 1)
  | lastChild => (Double.ofNat focus.position).equals (.ofNat focus.size)
  | onlyChild => (Double.ofNat focus.size).equals (.ofNat 1)
  | empty =>
    (d.children focus.node.id).all fun child =>
      !d.isElement child && (d.text? child).isNone
  | root => !(d.parent? focus.node.id).any d.isElement

/-- What the expressions of a compound say about an element. Refining pseudo-classes are not among
them. -/
def SimpleSelector.pathHolds (d : Document) (focus : Focus) : SimpleSelector → Bool
  | universal => true
  | tag name => d.tag focus.node.id == name
  | className name => AttributeOperator.word.pathHolds (d.attribute? focus.node.id "class") name
  | id name => AttributeOperator.equal.pathHolds (d.attribute? focus.node.id "id") name
  | hasAttribute name none => (d.attribute? focus.node.id name).isSome
  | hasAttribute name (some (o, value)) => o.pathHolds (d.attribute? focus.node.id name) value
  | pseudo use =>
    match PseudoClass.ofName? use.name with
    | some (.structural kind) =>
      match kind.read use with
      | .ok r => kind.pathHolds d focus r
      | .error _ => true
    | _ => true

/-- What the expression of a compound says about an element. -/
def Compound.pathHolds (d : Document) (focus : Focus) (c : Compound) : Bool :=
  c.all (·.pathHolds d focus)

namespace XPath

variable {order : List Nat} {focus : Focus}

@[simp] theorem toText_attributeNodes (id : Nat) (name : Text) :
    (Value.nodes (attributeNodes d id name)).toText d = (d.attribute? id name).getD [] := by
  unfold attributeNodes
  cases h : d.attribute? id name with
  | none => rfl
  | some value =>
    show (d.attribute? id name).getD [] = _
    rw [h]

@[simp] theorem compare_attributeNodes (id : Nat) (name value : Text) :
    Operator.equal.compare d (.nodes (attributeNodes d id name)) (.string value) =
      (d.attribute? id name == some value) := by
  unfold attributeNodes
  cases h : d.attribute? id name with
  | none => rfl
  | some found =>
    have hvalue : (Node.attributeOf id name).stringValue d = found := by
      show (d.attribute? id name).getD [] = _
      rw [h]
      rfl
    show ([Node.attributeOf id name].any fun a =>
      Operator.equal.compareAtoms d (a.asComparedTo d (.string value)) (.string value)) = _
    rw [List.any_cons, List.any_nil, Bool.or_false]
    show ((Node.attributeOf id name).stringValue d == value) = _
    rw [hvalue]
    rfl

theorem HasValue.stringLength {e : Expr} {v : Value} (h : HasValue d order focus e v) :
    HasValue d order focus (.call "string-length" [e]) (.number (.ofNat (v.toText d).length)) :=
  HasValue.call .stringLength rfl (.cons h .nil) rfl

theorem HasValue.startsWith {e e' : Expr} {u v : Value} (h : HasValue d order focus e u)
    (h' : HasValue d order focus e' v) :
    HasValue d order focus (.call "starts-with" [e, e'])
      (.boolean ((v.toText d).isPrefixOf (u.toText d))) :=
  HasValue.call .startsWith rfl (.cons h (.cons h' .nil)) rfl

theorem HasValue.contains {e e' : Expr} {u v : Value} (h : HasValue d order focus e u)
    (h' : HasValue d order focus e' v) :
    HasValue d order focus (.call "contains" [e, e'])
      (.boolean (Text.occursIn (v.toText d) (u.toText d))) :=
  HasValue.call .contains rfl (.cons h (.cons h' .nil)) rfl

theorem HasValue.substring {e e' : Expr} {u v : Value} (h : HasValue d order focus e u)
    (h' : HasValue d order focus e' v) :
    HasValue d order focus (.call "substring" [e, e'])
      (.string (XPath.substring (u.toText d) (roundHalfUp (v.toNumber d)) (.infinite false))) :=
  HasValue.call .substring rfl (.cons h (.cons h' .nil)) rfl

theorem HasValue.concat (es : List Expr) {vs : List Value} (hlength : 2 ≤ es.length)
    (h : List.Forall₂ (HasValue d order focus) es vs) :
    HasValue d order focus (.call "concat" es) (.string (vs.flatMap (·.toText d))) :=
  HasValue.call .concat (by simpa [Function.arity, Arity.admits] using hlength) h rfl

theorem hasValue_comparison (o : AttributeOperator) (name value : Text) (id position size : Nat) :
    HasValue d order ⟨.tree id, position, size⟩ (comparisonExpr o (attributeExpr name) value)
      (.boolean (o.pathHolds (d.attribute? id name) value)) := by
  have hattribute := @hasValue_attribute d order name id position size
  have htext := toText_attributeNodes (d := d) id name
  have hvalue : ∀ s, HasValue d order ⟨.tree id, position, size⟩ (valueExpr s) (.string s) :=
    hasValue_value
  have hequal := hattribute.binary (o := .equal) (hvalue value)
    (congrArg (Except.ok ∘ Value.boolean) (compare_attributeNodes id name value))
  cases o with
  | equal => exact hequal
  | word =>
    have hnormal : HasValue d order ⟨.tree id, position, size⟩
        (.call "normalize-space" [attributeExpr name])
        (.string (Text.join " " (Text.words Text.isSpace ((d.attribute? id name).getD [])))) := by
      rw [← htext]
      exact HasValue.call .normalizeSpace rfl (.cons hattribute .nil) rfl
    have hconcat := HasValue.concat [.literal [' '], .call "normalize-space" [attributeExpr name],
      .literal [' ']] (by simp)
      (.cons (hasValue_literal [' ']) (.cons hnormal (.cons (hasValue_literal [' ']) .nil)))
    exact hconcat.contains (hvalue (" " ++ value ++ " "))
  | dash =>
    have hstarts := hattribute.startsWith (hvalue (value ++ "-"))
    rw [htext] at hstarts
    exact hequal.binary (o := .or) hstarts rfl
  | start =>
    have hstarts := hattribute.startsWith (hvalue value)
    rw [htext] at hstarts
    exact hstarts
  | finish =>
    have hlength := hattribute.stringLength
    rw [htext] at hlength
    have hdifference := hlength.binary (o := .subtract) (hvalue value).stringLength rfl
    have hfirst := hdifference.binary (o := .add) (hasValue_number (.ofNat 1)) rfl
    have hsubstring := hattribute.substring hfirst
    rw [htext] at hsubstring
    exact hsubstring.binary (o := .equal) (hvalue value) rfl
  | anywhere =>
    have hcontains := hattribute.contains (hvalue value)
    rw [htext] at hcontains
    exact hcontains

private theorem hasValue_tag (name : Text) (id position size : Nat) :
    HasValue d order ⟨.tree id, position, size⟩ (tagExpr name) (.boolean (d.tag id == name)) := by
  have hcall : HasValue d order ⟨.tree id, position, size⟩ (.call "local-name" [])
      (.string (d.tag id)) := HasValue.call .localName rfl .nil rfl
  exact hcall.binary (o := .equal) (hasValue_value name) rfl

theorem hasValue_start : HasValue d order focus fromStart (.number (.ofNat focus.position)) :=
  HasValue.call .position rfl .nil rfl

private theorem hasValue_last :
    HasValue d order focus (.call "last" []) (.number (.ofNat focus.size)) :=
  HasValue.call .last rfl .nil rfl

theorem hasValue_end : HasValue d order focus fromEnd
    (.number (.ofNat focus.size - .ofNat focus.position + .ofNat 1)) := by
  have hlast : HasValue d order focus (.call "last" []) (.number (.ofNat focus.size)) := hasValue_last
  have hdifference := hlast.binary (o := .subtract) hasValue_start rfl
  exact hdifference.binary (o := .add) (hasValue_number (.ofNat 1)) rfl

theorem HasValue.position {e : Expr} {x : Double} (h : HasValue d order focus e (.number x))
    (r : AnPlusB) : HasValue d order focus (positionExpr e r) (.boolean (r.pathSelects x)) := by
  have hoffset : HasValue d order focus (integerExpr (r.offset.getD 0))
      (.number (integer (r.offset.getD 0))) := hasValue_integer _
  unfold positionExpr AnPlusB.pathSelects
  dsimp only
  split
  · exact h.binary (o := .equal) hoffset rfl
  · have hdifference := h.binary (o := .subtract) hoffset rfl
    have hmodulo := hdifference.binary (o := .modulo) (hasValue_integer (r.step.getD 0)) rfl
    have hequal := hmodulo.binary (o := .equal) (hasValue_number (.ofNat 0)) rfl
    have hbound := h.binary (o := .greaterEqual) hoffset rfl
    exact hequal.binary (o := .and) hbound rfl

theorem HasValue.not {e : Expr} {v : Value} (h : HasValue d order focus e v) :
    HasValue d order focus (.call "not" [e]) (.boolean !v.toBoolean) :=
  HasValue.call .not rfl (.cons h .nil) rfl

@[simp] theorem isEmpty_sort (l : List Node) : (Node.sort order l).isEmpty = l.isEmpty := by
  rw [Bool.eq_iff_iff, List.isEmpty_iff, List.isEmpty_iff, List.eq_nil_iff_forall_not_mem,
    List.eq_nil_iff_forall_not_mem]
  simp

/-- A path of one step without predicates leads somewhere. -/
theorem hasValue_not_step (axis : Axis) (test : NodeTest) (id position size : Nat) :
    HasValue d order ⟨.tree id, position, size⟩ (.call "not" [.path false [.mk axis test []]])
      (.boolean ((axis.nodes d (.tree id)).all fun n => !test.admits d axis n)) := by
  have hadvance : advance d order (.mk axis test []) (.tree id) =
      .ok ((axis.nodes d (.tree id)).filter (test.admits d axis)) := by
    rw [advance, narrow]
  have hstep : HasValue d order ⟨.tree id, position, size⟩ (.path false [.mk axis test []])
      (.nodes (Node.sort order ((axis.nodes d (.tree id)).filter (test.admits d axis)))) :=
    .step hadvance
  have hnot := hstep.not
  have hall : (!(Value.nodes (Node.sort order
      ((axis.nodes d (.tree id)).filter (test.admits d axis)))).toBoolean) =
      (axis.nodes d (.tree id)).all fun n => !test.admits d axis n := by
    show (!!(Node.sort order _).isEmpty) = _
    rw [Bool.not_not, isEmpty_sort, Bool.eq_iff_iff, List.isEmpty_iff, List.filter_eq_nil_iff,
      List.all_eq_true]
    simp
  rwa [hall] at hnot

@[simp] theorem admits_any (axis : Axis) (id : Nat) :
    NodeTest.any.admits d axis (.tree id) = d.isElement id := by
  unfold NodeTest.admits Document.isElement Document.element?
  dsimp only
  cases d.kind? id with
  | none => rfl
  | some kind => cases kind <;> rfl

@[simp] theorem admits_text (axis : Axis) (id : Nat) :
    (NodeTest.type .text).admits d axis (.tree id) = (d.text? id).isSome := by
  unfold NodeTest.admits Document.text?
  dsimp only
  cases d.kind? id with
  | none => rfl
  | some kind => cases kind <;> rfl

@[simp] theorem nodes_child (id : Nat) :
    Axis.child.nodes d (.tree id) = (d.children id).map .tree := rfl

@[simp] theorem nodes_parent (id : Nat) :
    Axis.parent.nodes d (.tree id) = ((d.parent? id).map Node.tree).toList := rfl

theorem hasValue_structural (kind : Structural) (r : AnPlusB) (id position size : Nat) :
    HasValue d order ⟨.tree id, position, size⟩ (structuralExpr kind r)
      (.boolean (kind.pathHolds d ⟨.tree id, position, size⟩ r)) := by
  cases kind with
  | nthChild => exact hasValue_start.position r
  | nthLastChild => exact hasValue_end.position r
  | firstChild => exact hasValue_start.binary (o := .equal) (hasValue_number (.ofNat 1)) rfl
  | lastChild => exact hasValue_start.binary (o := .equal) hasValue_last rfl
  | onlyChild => exact hasValue_last.binary (o := .equal) (hasValue_number (.ofNat 1)) rfl
  | empty =>
    have helements := @hasValue_not_step d order .child .any id position size
    have htexts := @hasValue_not_step d order .child (.type .text) id position size
    have hboth := helements.binary (o := .and) htexts rfl
    have hall : (((Axis.child.nodes d (.tree id)).all fun n => !NodeTest.any.admits d .child n) &&
        ((Axis.child.nodes d (.tree id)).all fun n => !(NodeTest.type .text).admits d .child n)) =
        (d.children id).all fun child => !d.isElement child && (d.text? child).isNone := by
      rw [nodes_child, Bool.eq_iff_iff]
      simp [imp_and, forall_and]
    exact (congrArg (fun b => HasValue d order _ _ (.boolean b)) hall).mp hboth
  | root =>
    have hparent := @hasValue_not_step d order .parent .any id position size
    have hall : ((Axis.parent.nodes d (.tree id)).all fun n => !NodeTest.any.admits d .parent n) =
        !(d.parent? id).any d.isElement := by
      rw [nodes_parent]
      cases d.parent? id <;> simp
    exact (congrArg (fun b => HasValue d order _ _ (.boolean b)) hall).mp hparent

/-- Whatever node of the tree is in focus, the expression has a truth value, and it is the one that
the test gives. -/
def Decides (d : Document) (order : List Nat) (e : Expr) (test : Focus → Bool) : Prop :=
  ∀ id position size, ∃ v, HasValue d order ⟨.tree id, position, size⟩ e v ∧
    v.toBoolean = test ⟨.tree id, position, size⟩ ∧ v.keeps position = v.toBoolean

private theorem decides_of_boolean {e : Expr} {test : Focus → Bool} (h : ∀ id position size,
    HasValue d order ⟨.tree id, position, size⟩ e (.boolean (test ⟨.tree id, position, size⟩))) :
    Decides d order e test := fun id position size => ⟨_, h id position size, rfl, rfl⟩

theorem Decides.and {e e' : Expr} {test test' : Focus → Bool} (h : Decides d order e test)
    (h' : Decides d order e' test') :
    Decides d order (.binary .and e e') fun focus => test focus && test' focus := by
  intro id position size
  obtain ⟨u, hu, htest, -⟩ := h id position size
  obtain ⟨v, hv, htest', -⟩ := h' id position size
  have hboth := hu.binary (o := .and) hv rfl
  rw [htest, htest'] at hboth
  exact ⟨_, hboth, rfl, rfl⟩

theorem Decides.congr {e : Expr} {test test' : Focus → Bool} (h : Decides d order e test)
    (heq : ∀ focus, test focus = test' focus) : Decides d order e test' := by
  have hfun : test = test' := funext heq
  exact hfun ▸ h

theorem decides_condition {x : SimpleSelector} {e : Expr} (h : x.condition? = some e) :
    Decides d order e (x.pathHolds d) := by
  cases x with
  | universal => cases h
  | tag name =>
    cases h
    exact decides_of_boolean fun id position size => hasValue_tag name id position size
  | className name =>
    cases h
    exact decides_of_boolean fun id position size =>
      hasValue_comparison .word "class" name id position size
  | id name =>
    cases h
    exact decides_of_boolean fun id position size =>
      hasValue_comparison .equal "id" name id position size
  | hasAttribute name test =>
    cases h
    rcases test with _ | ⟨o, value⟩
    · intro id position size
      refine ⟨_, hasValue_attribute name id position size, ?_, rfl⟩
      show (!(attributeNodes d id name).isEmpty) = (d.attribute? id name).isSome
      unfold attributeNodes
      cases (d.attribute? id name).isSome <;> rfl
    · exact decides_of_boolean fun id position size =>
        hasValue_comparison o name value id position size
  | pseudo use =>
    unfold SimpleSelector.condition? at h
    dsimp only at h
    split at h
    · rename_i kind hname
      cases hread : kind.read use with
      | error e => simp [hread, Except.toOption] at h
      | ok r =>
        obtain rfl : structuralExpr kind r = e := by simpa [hread, Except.toOption] using h
        apply decides_of_boolean
        intro id position size
        have hholds : SimpleSelector.pathHolds d ⟨.tree id, position, size⟩ (.pseudo use) =
            kind.pathHolds d ⟨.tree id, position, size⟩ r := by
          simp [SimpleSelector.pathHolds, hname, hread]
        rw [hholds]
        exact hasValue_structural kind r id position size
    · cases h

private theorem pathHolds_of_no_condition {x : SimpleSelector} (h : x.condition? = none)
    (focus : Focus) : x.pathHolds d focus = true := by
  cases x with
  | universal => rfl
  | pseudo use =>
    unfold SimpleSelector.pathHolds
    dsimp only
    split
    · rename_i kind hname
      cases hread : kind.read use with
      | error e => rfl
      | ok r => simp [SimpleSelector.condition?, hname, hread, Except.toOption] at h
    · rfl
  | _ => cases h

private theorem decides_foldl {compound : Compound} {e : Expr} {test : Focus → Bool}
    (h : Decides d order e test) :
    Decides d order ((compound.filterMap (·.condition?)).foldl (.binary .and) e)
      fun focus => test focus && compound.pathHolds d focus := by
  induction compound generalizing e test with
  | nil => exact h.congr fun focus => (Bool.and_true _).symm
  | cons x xs ih =>
    have hcons : ∀ focus, Compound.pathHolds d focus (x :: xs) =
        (x.pathHolds d focus && Compound.pathHolds d focus xs) := fun _ => rfl
    cases hx : x.condition? with
    | none =>
      rw [List.filterMap_cons_none hx]
      refine (ih h).congr fun focus => ?_
      rw [hcons, pathHolds_of_no_condition hx, Bool.true_and]
    | some e' =>
      rw [List.filterMap_cons_some hx, List.foldl_cons]
      refine (ih (h.and (decides_condition hx))).congr fun focus => ?_
      rw [hcons, Bool.and_assoc]

/-- The only predicate of a compound, if there is one, decides all of its conditions. -/
theorem decides_conjunction (compound : Compound) :
    (conjunction (compound.filterMap (·.condition?)) = [] ∧
      ∀ focus, compound.pathHolds d focus = true) ∨
    ∃ e, conjunction (compound.filterMap (·.condition?)) = [e] ∧
      Decides d order e (compound.pathHolds d) := by
  induction compound with
  | nil => exact .inl ⟨rfl, fun _ => rfl⟩
  | cons x xs ih =>
    have hcons : ∀ focus, Compound.pathHolds d focus (x :: xs) =
        (x.pathHolds d focus && Compound.pathHolds d focus xs) := fun _ => rfl
    cases hx : x.condition? with
    | none =>
      have hsame : ∀ focus, Compound.pathHolds d focus (x :: xs) = Compound.pathHolds d focus xs := by
        intro focus
        rw [hcons, pathHolds_of_no_condition hx, Bool.true_and]
      rw [List.filterMap_cons_none hx]
      simp only [hsame]
      exact ih
    | some e =>
      rw [List.filterMap_cons_some hx]
      refine .inr ⟨_, rfl, ?_⟩
      exact (decides_foldl (decides_condition hx)).congr fun focus => (hcons focus).symm

end XPath

end CssLocator
