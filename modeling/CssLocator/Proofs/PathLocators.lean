import CssLocator.Proofs.ExecutedBranches

/-!
# Path locators

Which expressions the path locators of a plan are parsed as. The names and values of a selector only
become literals and names to test for, whatever characters they have, and no such query fails.
-/

namespace CssLocator

open XPath

variable {known : Answers} {nested : SelectorList → Plan → Prop} {compound : Compound}
  {parts : List StepPart}

/-- The expression is a text, as one literal or put together from several. -/
inductive Quotes (text : Text) : Expr → Prop
  | literal : Quotes text (.literal text)
  | concat {pieces : List Text} (htext : pieces.flatten = text) (hlength : 2 ≤ pieces.length) :
      Quotes text (.call "concat" (pieces.map .literal))

/-- The expression is the attribute with a name, which is tested for or compared with. -/
inductive NamesAttribute (name : Text) : Expr → Prop
  | tested : NamesAttribute name (.path false [.mk .attributes (.name name) []])
  | compared {e : Expr} (hname : Quotes name e) :
      NamesAttribute name (.path false [.mk .attributes .any [.binary .equal (.call "name" []) e]])

/-- The expression compares an attribute with a value. -/
inductive Compares (subject : Expr) (value : Text) : AttributeOperator → Expr → Prop
  | equal {e : Expr} (he : Quotes value e) :
      Compares subject value .equal (.binary .equal subject e)
  | word {e : Expr} (he : Quotes (" " ++ value ++ " ") e) :
      Compares subject value .word (.call "contains" [
        .call "concat" [.literal " ", .call "normalize-space" [subject], .literal " "], e])
  | dash {e e' : Expr} (he : Quotes value e) (he' : Quotes (value ++ "-") e') :
      Compares subject value .dash
        (.binary .or (.binary .equal subject e) (.call "starts-with" [subject, e']))
  | start {e : Expr} (he : Quotes value e) :
      Compares subject value .start (.call "starts-with" [subject, e])
  | finish {e : Expr} (he : Quotes value e) :
      Compares subject value .finish (.binary .equal
        (.call "substring" [subject,
          .binary .add
            (.binary .subtract (.call "string-length" [subject]) (.call "string-length" [e]))
            (.number (.ofNat 1))]) e)
  | anywhere {e : Expr} (he : Quotes value e) :
      Compares subject value .anywhere (.call "contains" [subject, e])

/-- The expression says what a simple selector says. -/
inductive Expresses : SimpleSelector → Expr → Prop
  | tag {name : Text} {e : Expr} (he : Quotes name e) :
      Expresses (.tag name) (.binary .equal (.call "local-name" []) e)
  | className {name : Text} {subject e : Expr} (hsubject : NamesAttribute "class" subject)
      (he : Compares subject name .word e) : Expresses (.className name) e
  | id {name : Text} {subject e : Expr} (hsubject : NamesAttribute "id" subject)
      (he : Compares subject name .equal e) : Expresses (.id name) e
  | hasAttribute {name : Text} {e : Expr} (he : NamesAttribute name e) :
      Expresses (.hasAttribute name none) e
  | comparison {name value : Text} {o : AttributeOperator} {subject e : Expr}
      (hsubject : NamesAttribute name subject) (he : Compares subject value o e) :
      Expresses (.hasAttribute name (some (o, value))) e
  | structural {use : PseudoUse} {kind : Structural} {r : AnPlusB}
      (hname : PseudoClass.ofName? use.name = some (.structural kind)) (hread : kind.read use = .ok r) :
      Expresses (.pseudo use) (structuralExpr kind r)

/-- The steps to those children of a node, or elements at any depth below it, that a predicate
keeps. -/
def elementSteps (deep : Bool) (predicate : Expr) : List XPath.Step :=
  if deep then [.mk .self (.type .node) [], .anyDepth, .mk .child .any [predicate]]
  else [.mk .self (.type .node) [], .mk .child .any [predicate]]

private theorem quotes_value (value : Text) : Quotes value (valueExpr value) := by
  unfold valueExpr
  split
  · exact .literal
  · rename_i hquotes
    have happostrophe : '\'' ∈ value := by
      by_contra happostrophe
      exact hquotes (.inl happostrophe)
    obtain ⟨u, v, ws, hsplit⟩ := Text.exists_splitAt_of_mem happostrophe
    rw [← Text.map_intersperse]
    apply Quotes.concat
    · simp
    · rw [hsplit, List.intersperse_cons_cons]
      exact Nat.le_add_left 2 _

private theorem namesAttribute_attributeExpr (name : Text) :
    NamesAttribute name (attributeExpr name) := by
  unfold attributeExpr
  split
  · exact .tested
  · exact .compared (quotes_value name)

private theorem compares_comparisonExpr (o : AttributeOperator) (subject : Expr) (value : Text) :
    Compares subject value o (comparisonExpr o subject value) := by
  have hvalue := quotes_value value
  cases o with
  | equal => exact .equal hvalue
  | word => exact .word (quotes_value _)
  | dash => exact .dash hvalue (quotes_value _)
  | start => exact .start hvalue
  | finish => exact .finish hvalue
  | anywhere => exact .anywhere hvalue

/-- The queried conditions of a compound are expressed one by one, in their order. -/
theorem forall₂_expresses (h : List.Forall₂ (PartOf known nested) compound parts) :
    List.Forall₂ Expresses compound.queried (compound.filterMap (·.condition?)) := by
  induction h with
  | nil => exact .nil
  | cons hpart _ ih =>
    cases hpart with
    | universal => exact ih
    | tag name => exact .cons (.tag (quotes_value name)) ih
    | className name =>
      exact .cons (.className (namesAttribute_attributeExpr _) (compares_comparisonExpr .word _ name)) ih
    | id name =>
      exact .cons (.id (namesAttribute_attributeExpr _) (compares_comparisonExpr .equal _ name)) ih
    | hasAttribute name test =>
      have hname := namesAttribute_attributeExpr name
      rcases test with _ | ⟨o, value⟩
      · exact .cons (.hasAttribute hname) ih
      · exact .cons (.comparison hname (compares_comparisonExpr o _ value)) ih
    | @structural use kind r _ hname hread =>
      have hqueried := isQueried_pseudo hname
      have hcondition : SimpleSelector.condition? (.pseudo use) = some (structuralExpr kind r) := by
        simp [SimpleSelector.condition?, hname, hread, Except.toOption]
      rw [Compound.queried, List.filter_cons_of_pos hqueried, List.filterMap_cons_some hcondition]
      exact .cons (.structural hname hread) ih
    | @refining use kind f hname hfilter =>
      have hqueried : ¬ SimpleSelector.isQueried (.pseudo use) = true := by
        simp [SimpleSelector.isQueried, hname]
      have hcondition : SimpleSelector.condition? (.pseudo use) = none := by
        simp [SimpleSelector.condition?, hname]
      rw [Compound.queried, List.filter_cons_of_neg hqueried, List.filterMap_cons_none hcondition]
      exact ih

/-- A step has a path only because of a condition that the engine does not know. -/
theorem condition_of_unknown (h : List.Forall₂ (PartOf known nested) compound parts)
    (hknown : parts.all (·.known) = false) : compound.filterMap (·.condition?) ≠ [] := by
  rw [List.all_eq_false] at hknown
  obtain ⟨part, hpart, hunknown⟩ := hknown
  obtain ⟨x, hx, hpartOf⟩ := forall₂_exists_left h hpart
  intro hnil
  have hnone := List.filterMap_eq_nil_iff.1 hnil x hx
  cases hpartOf with
  | structural hname hread =>
    simp [SimpleSelector.condition?, hname, hread, Except.toOption] at hnone
  | _ => exact hunknown rfl

namespace XPath

variable {d : Document} {order : List Nat}

/-- From every node of the tree the step leads to nodes of the tree. -/
def LeadsOn (d : Document) (order : List Nat) (s : XPath.Step) : Prop :=
  ∀ id, ∃ found, advance d order s (.tree id) = .ok found ∧ ∀ n ∈ found, n = .tree n.id

private theorem exists_keepWhere {e : Expr} {test : Focus → Bool} (h : Decides d order e test)
    (size position : Nat) {nodes : List Node} (hnodes : ∀ n ∈ nodes, n = .tree n.id) :
    ∃ kept, keepWhere (eval d order e) size position nodes = .ok kept ∧ kept.Sublist nodes := by
  induction nodes generalizing position with
  | nil => exact ⟨[], rfl, .slnil⟩
  | cons n rest ih =>
    obtain ⟨v, hv, -⟩ := h n.id position size
    rw [← hnodes n List.mem_cons_self] at hv
    obtain ⟨kept, hkept, hsublist⟩ :=
      ih (position + 1) fun m hm => hnodes m (List.mem_cons_of_mem n hm)
    rw [keepWhere, hv, hkept]
    refine ⟨_, rfl, ?_⟩
    split
    · exact hsublist.cons_cons n
    · exact hsublist.cons n

private theorem exists_narrow {es : List Expr} (h : ∀ e ∈ es, ∃ holds, Decides d order e holds)
    {nodes : List Node} (hnodes : ∀ n ∈ nodes, n = .tree n.id) :
    ∃ found, narrow d order es nodes = .ok found ∧ found.Sublist nodes := by
  induction es generalizing nodes with
  | nil => exact ⟨nodes, by rw [narrow], List.Sublist.refl nodes⟩
  | cons e es ih =>
    obtain ⟨holds, hholds⟩ := h e List.mem_cons_self
    obtain ⟨kept, hkept, hsublist⟩ := exists_keepWhere hholds nodes.length 1 hnodes
    obtain ⟨found, hfound, hsub⟩ := ih (fun e' he' => h e' (List.mem_cons_of_mem e he'))
      fun n hn => hnodes n (hsublist.subset hn)
    rw [narrow, hkept]
    exact ⟨found, hfound, hsub.trans hsublist⟩

private theorem leadsOn_of_decides {axis : Axis} {test : NodeTest} {es : List Expr}
    (haxis : ∀ id, ∀ n ∈ axis.nodes d (.tree id), n = .tree n.id)
    (h : ∀ e ∈ es, ∃ holds, Decides d order e holds) : LeadsOn d order (.mk axis test es) := by
  intro id
  have hnodes : ∀ n ∈ (axis.nodes d (.tree id)).filter (test.admits d axis), n = .tree n.id :=
    fun n hn => haxis id n (List.mem_of_mem_filter hn)
  obtain ⟨found, hfound, hsublist⟩ := exists_narrow h hnodes
  rw [advance]
  exact ⟨found, hfound, fun n hn => hnodes n (hsublist.subset hn)⟩

private theorem exists_walk {steps : List XPath.Step} (h : ∀ s ∈ steps, LeadsOn d order s)
    {nodes : List Node}
    (hnodes : ∀ n ∈ nodes, n = .tree n.id) : ∃ found, walk d order steps nodes = .ok found := by
  induction steps generalizing nodes with
  | nil =>
    rw [walk]
    exact ⟨_, rfl⟩
  | cons s steps ih =>
    have hrounds : ∀ n ∈ nodes, ∃ found, advance d order s n = .ok found ∧
        ∀ m ∈ found, m = .tree m.id := by
      intro n hn
      rw [hnodes n hn]
      exact h s List.mem_cons_self n.id
    obtain ⟨found, hfound, htrees⟩ := Loop.exists_flatMap hrounds
    rw [walk, hfound]
    exact ih (fun p hp => h p (List.mem_cons_of_mem s hp)) fun n hn => htrees n (Node.mem_sort.1 hn)

private theorem exists_select {s : Text} {steps : List XPath.Step}
    (hs : parse s = .ok (.path false steps))
    (h : ∀ p ∈ steps, LeadsOn d d.order p) (c : Nat) : ∃ found, select d c s = .ok found := by
  have hwalk : ∃ found, walk d d.order steps [.tree c] = .ok found :=
    exists_walk h (by simp [Node.id])
  obtain ⟨found, hfound⟩ := hwalk
  have hvalue : evaluate d c s = .ok (.nodes found) := by
    rw [evaluate, hs]
    show eval d d.order (.path false steps) ⟨.tree c, 1, 1⟩ = _
    rw [eval, if_neg Bool.false_ne_true, hfound]
    rfl
  rw [select, hvalue]
  exact ⟨_, rfl⟩

end XPath

/-- Whatever the predicate of a compound says, the path to its elements can be followed. -/
theorem leadsOn_elementSteps {e : Expr}
    (h : conjunction (compound.filterMap (·.condition?)) = [e]) (deep : Bool) (d : Document) :
    ∀ s ∈ elementSteps deep e, LeadsOn d d.order s := by
  have hself : LeadsOn d d.order (.mk .self (.type .node) []) := by
    refine leadsOn_of_decides (fun id n hn => ?_) nofun
    obtain rfl := List.mem_singleton.1 hn
    rfl
  have hdeep : LeadsOn d d.order .anyDepth := by
    refine leadsOn_of_decides (fun id n hn => ?_) nofun
    obtain ⟨x, -, rfl⟩ := List.mem_map.1 hn
    rfl
  have hchild : LeadsOn d d.order (.mk .child .any [e]) := by
    rcases @decides_conjunction d d.order compound with ⟨hnil, -⟩ | ⟨e', he', hdecides⟩
    · rw [hnil] at h
      cases h
    · obtain rfl : e' = e := by simpa using he'.symm.trans h
      refine leadsOn_of_decides (fun id n hn => ?_) (by simpa using ⟨_, hdecides⟩)
      obtain ⟨x, -, rfl⟩ := List.mem_map.1 hn
      rfl
  unfold elementSteps
  split <;> simp [hself, hdeep, hchild]

/-- A path locator and its widening are parsed as paths to the elements that all conditions keep. -/
theorem parse_path_assembleStep (h : List.Forall₂ (PartOf known nested) compound parts)
    (combinator : Combinator) (hkind : (assembleStep combinator parts).locator.kind = .path) :
    ∃ e es, compound.filterMap (·.condition?) = e :: es ∧
      parse (assembleStep combinator parts).locator.expression =
        .ok (.path false (elementSteps (combinator = .descendant) (es.foldl (.binary .and) e))) ∧
      (assembleStep combinator parts).locator.widened.kind = .path ∧
      parse (assembleStep combinator parts).locator.widened.expression =
        .ok (.path false (elementSteps true (es.foldl (.binary .and) e))) := by
  rcases locator_cases h combinator with ⟨-, hnative⟩ | ⟨hunknown, ss, hss, hpath⟩
  · rw [hnative] at hkind
    cases hkind
  · obtain ⟨e, es, hconditions⟩ := List.exists_cons_of_ne_nil (condition_of_unknown h hunknown)
    rw [hconditions] at hss
    obtain ⟨hchild, hdeep⟩ := spelled_below (hss.imp fun _ _ => Spelled.enclosed)
    have hparse := (hdeep.raise (j := 6) (by decide)).parse
    rw [hpath, widened_path]
    refine ⟨e, es, hconditions, ?_, rfl, hparse⟩
    cases combinator with
    | descendant => exact hparse
    | _ => exact (hchild.raise (j := 6) (by decide)).parse

variable {m : Type → Type} [Monad m] [LawfulMonad m] {ν : Type}

/-- Whatever engine a selector is compiled for and whatever characters its names and values have: if
a step of the plan, nested plans included, has a path locator, the locator and its widening are
parsed as paths with one predicate, the conjunction of what expresses the queried conditions of the
compound that the step was compiled from. Neither fails from any node of any document. -/
theorem path_locators_parse (settings : Settings) (engine : Engine m ν) (table : SupportTable)
    (selector : Text) :
    Returns
      (fun r => ∀ plan, r.1 = .ok plan → ∃ list, SelectorList.read false selector = .ok list ∧
        (∀ branch, plan.HasBranch branch → ∀ step ∈ branch,
          ∃ compound, Origin list plan compound step) ∧
        ∀ compound step, Origin list plan compound step → step.locator.kind = .path →
          ∃ e es, List.Forall₂ Expresses compound.queried (e :: es) ∧
            parse step.locator.expression =
              .ok (.path false
                (elementSteps (step.combinator = .descendant) (es.foldl (.binary .and) e))) ∧
            step.locator.widened.kind = .path ∧
            parse step.locator.widened.expression =
              .ok (.path false (elementSteps true (es.foldl (.binary .and) e))) ∧
            ∀ (d : Document) (c : Nat), (∃ found, select d c step.locator.expression = .ok found) ∧
              ∃ found, select d c step.locator.widened.expression = .ok found)
      ((compile settings engine selector).run.run table) := by
  have htells : table.Tells AnyAnswer engine.capability := fun _ _ _ => trivial
  refine (yields_compile (answersTo_anyAnswer settings engine) selector table htells).imp ?_
  rintro ⟨r, table'⟩ ⟨houtcome, -⟩ plan hr
  obtain rfl : r = .ok plan := hr
  obtain ⟨-, list, hlist, hplan⟩ := houtcome
  refine ⟨list, hlist, fun branch hbranch => exists_origin hbranch hplan, ?_⟩
  intro compound step horigin hkind
  obtain ⟨n, combinator, parts, hparts, rfl⟩ := horigin.assembled hplan
  obtain ⟨e, es, hconditions, hparse, hwidenedKind, hwidened⟩ :=
    parse_path_assembleStep hparts combinator hkind
  have hexpresses := forall₂_expresses hparts
  rw [hconditions] at hexpresses
  refine ⟨e, es, hexpresses, hparse, hwidenedKind, hwidened, fun d c => ?_⟩
  have hleads := leadsOn_elementSteps (e := es.foldl (.binary .and) e) (by rw [hconditions]; rfl)
  exact ⟨exists_select hparse (hleads _ d) c, exists_select hwidened (hleads _ d) c⟩

/-- The locators of the branches of the plan for an engine that is not asked what it knows. -/
def unprobedLocators (selector : Text) : Option (List (List Locator)) :=
  ((compile ⟨false, 8⟩ blankEngine selector).run.run .empty).1.toOption.map fun plan =>
    plan.map (·.map (·.locator))

theorem path_locators_parse_quotes :
    unprobedLocators "a:root > [\\'='\\'\"] or (']:first-child" = some [
      [.path ".//*[local-name() = 'a' and (not(parent::*))]",
        .path "./*[@*[name() = \"'\"] = concat('', \"'\", '\"] or (') and (position() = 1)]"]] ∧
    ∃ plan list, ((compile ⟨false, 8⟩ blankEngine
        "a:root > [\\'='\\'\"] or (']:first-child").run.run .empty).1 = .ok plan ∧
      SelectorList.read false "a:root > [\\'='\\'\"] or (']:first-child" = .ok list ∧
      ∀ compound step, Origin list plan compound step → step.locator.kind = .path →
        ∃ e es, List.Forall₂ Expresses compound.queried (e :: es) ∧
          parse step.locator.expression =
            .ok (.path false
              (elementSteps (step.combinator = .descendant) (es.foldl (.binary .and) e))) := by
  have hlocators : unprobedLocators "a:root > [\\'='\\'\"] or (']:first-child" = some [
      [.path ".//*[local-name() = 'a' and (not(parent::*))]",
        .path "./*[@*[name() = \"'\"] = concat('', \"'\", '\"] or (') and (position() = 1)]"]] := by
    decide +kernel
  refine ⟨hlocators, ?_⟩
  have hparse := Returns.of_id (path_locators_parse ⟨false, 8⟩ blankEngine .empty
    "a:root > [\\'='\\'\"] or (']:first-child")
  unfold unprobedLocators at hlocators
  cases hplan : ((compile ⟨false, 8⟩ blankEngine
      "a:root > [\\'='\\'\"] or (']:first-child").run.run .empty).1 with
  | error e =>
    rw [hplan] at hlocators
    cases hlocators
  | ok plan =>
    obtain ⟨list, hlist, -, horigin⟩ := hparse plan hplan
    refine ⟨plan, list, rfl, hlist, fun compound step hstep hkind => ?_⟩
    obtain ⟨e, es, hexpresses, hparsed, -⟩ := horigin compound step hstep hkind
    exact ⟨e, es, hexpresses, hparsed⟩

end CssLocator
