import CssLocator.Proofs.LoopResults
import CssLocator.Proofs.TreeEngineProbes
import CssLocator.ScriptedEngines

/-!
# Plans as renderings of selectors

A compilation asks an engine what it knows, and the answers decide in which of two languages a
compound is written. They decide nothing else: whether and why a selector is refused, and the
branches, combinators and filters of its plan are the same for all engines.
-/

namespace CssLocator

variable {known : Answers} {nested nested' : SelectorList → Plan → Prop}

/-- What a simple selector contributes to the texts of its compound. Refining pseudo-classes are not
written. -/
def SimpleSelector.wording : SimpleSelector → StepPart
  | universal => .nothing
  | tag name => .tag name
  | className name => .condition (classNativeText name) (classPathText name) true
  | id name => .condition (idNativeText name) (idPathText name) true
  | hasAttribute name test =>
    .condition (attributeNativeText name test) (attributePathText name test) true
  | pseudo use =>
    match PseudoClass.ofName? use.name with
    | some (.structural kind) =>
      match kind.nativeText use, kind.pathText use with
      | .ok native, .ok path => .condition native ("(" ++ path ++ ")") true
      | _, _ => .nothing
    | _ => .nothing

namespace Compound

/-- The compound as a selector. -/
def nativeLocator (c : Compound) : Locator := .native (nativeExpression (c.map (·.wording)))

/-- The compound as an XPath expression. -/
def pathLocator (combinator : Combinator) (c : Compound) : Locator :=
  .path (pathExpression combinator (c.map (·.wording)))

end Compound

/-- A part says what the wording says, whether or not the engine knows it. -/
theorem PartOf.wording {x : SimpleSelector} {part : StepPart} (h : PartOf known nested x part) :
    part.nativeText = x.wording.nativeText ∧ part.tag? = x.wording.tag? ∧
      part.predicate? = x.wording.predicate? := by
  cases h with
  | structural hname hread =>
    rw [SimpleSelector.wording, hname]
    simp [Structural.nativeText_eq, Structural.pathText_eq, hread, Except.map, StepPart.nativeText,
      StepPart.tag?, StepPart.predicate?]
  | refining hname =>
    rw [SimpleSelector.wording, hname]
    exact ⟨rfl, rfl, rfl⟩
  | _ => exact ⟨rfl, rfl, rfl⟩

private theorem expressions_eq {compound : Compound} {parts : List StepPart}
    (h : List.Forall₂ (PartOf known nested) compound parts) (combinator : Combinator) :
    nativeExpression parts = nativeExpression (compound.map (·.wording)) ∧
      pathExpression combinator parts = pathExpression combinator (compound.map (·.wording)) := by
  have hsame : parts.flatMap (·.nativeText) = (compound.map (·.wording)).flatMap (·.nativeText) ∧
      parts.findSome? (·.tag?) = (compound.map (·.wording)).findSome? (·.tag?) ∧
      parts.filterMap (·.predicate?) = (compound.map (·.wording)).filterMap (·.predicate?) := by
    induction h with
    | nil => exact ⟨rfl, rfl, rfl⟩
    | cons hpart _ ih =>
      obtain ⟨hnative, htag, hpredicate⟩ := hpart.wording
      obtain ⟨hnatives, htags, hpredicates⟩ := ih
      simp only [List.map_cons, List.flatMap_cons, List.findSome?_cons, List.filterMap_cons, hnative,
        htag, hpredicate, hnatives, htags, hpredicates, and_self]
  obtain ⟨hnative, htag, hpredicate⟩ := hsame
  simp only [nativeExpression, pathExpression, hnative, htag, hpredicate, and_self]

/-- A step that finds what a compound says, written in one of the two languages, with the filters of
its refining pseudo-classes. -/
inductive StepRenders (nested : SelectorList → Plan → Prop) : Combinator × Compound → Plan.Step → Prop
  | mk {combinator : Combinator} {compound : Compound} {locator : Locator} {filters : List Plan.Filter}
      (hlocator : locator = compound.nativeLocator ∨ locator = compound.pathLocator combinator)
      (hfilters : List.Forall₂ (fun p f => FilterOf nested p.1 p.2 f)
        (compound.filterMap (·.refining?)) filters) :
      StepRenders nested (combinator, compound) (.mk combinator locator filters)

/-- A plan with a branch for each complex selector and a step for each compound. The selectors in
arguments, nested as deep as allowed, are rendered by the plans in the filters. -/
def Renders : (allowance : Nat) → SelectorList → Plan → Prop
  | 0 => List.Forall₂ (List.Forall₂ (StepRenders fun _ _ => False))
  | n + 1 => List.Forall₂ (List.Forall₂ (StepRenders (Renders n)))

private theorem StepOf.renders {x : Combinator × Compound} {step : Plan.Step}
    (h : StepOf known nested x step)
    (hnested : ∀ list plan, nested list plan → nested' list plan) : StepRenders nested' x step := by
  cases h with
  | @assemble combinator compound parts hparts =>
    obtain ⟨hnative, hpath⟩ := expressions_eq hparts combinator
    refine .mk ?_ ((forall₂_filterOf hparts).imp fun _ _ hfilter => hfilter.imp hnested)
    rw [Compound.nativeLocator, Compound.pathLocator, ← hnative, ← hpath]
    split
    · exact .inl rfl
    · exact .inr rfl

private theorem PlanOf.renders {n : Nat} {list : SelectorList} {plan : Plan}
    (h : PlanOf known n list plan) : Renders n list plan := by
  induction n generalizing list plan with
  | zero => exact h.imp fun _ _ => List.Forall₂.imp fun _ _ hstep => hstep.renders fun _ _ => id
  | succ n ih => exact h.imp fun _ _ => List.Forall₂.imp fun _ _ hstep => hstep.renders fun _ _ => ih

namespace Plan

mutual

/-- Equal filters, up to the locators of nested plans. -/
inductive Filter.Alike : Filter → Filter → Prop
  | has {branches branches' : List (List Step)}
      (h : List.Forall₂ (List.Forall₂ Step.Alike) branches branches') :
      Filter.Alike (.has branches) (.has branches')
  | not {branches branches' : List (List Step)}
      (h : List.Forall₂ (List.Forall₂ Step.Alike) branches branches') :
      Filter.Alike (.not branches) (.not branches')
  | lang (code : Text) : Filter.Alike (.lang code) (.lang code)
  | visible : Filter.Alike .visible .visible
  | hidden : Filter.Alike .hidden .hidden

/-- Steps with the same combinator and the same filters. -/
inductive Step.Alike : Step → Step → Prop
  | mk (combinator : Combinator) (locator locator' : Locator) {filters filters' : List Filter}
      (hfilters : List.Forall₂ Filter.Alike filters filters') :
      Step.Alike (.mk combinator locator filters) (.mk combinator locator' filters')

end

/-- The same branches of the same steps, up to locators. -/
def Alike : Plan → Plan → Prop := List.Forall₂ (List.Forall₂ Step.Alike)

end Plan

private theorem FilterOf.alike {kind : Refining} {use : PseudoUse} {f f' : Plan.Filter}
    (h : FilterOf nested kind use f) (h' : FilterOf nested kind use f')
    (hnested : ∀ list plan plan', nested list plan → nested list plan' → Plan.Alike plan plan') :
    f.Alike f' := by
  cases h with
  | has hread hplan =>
    cases h' with
    | has hread' hplan' =>
      obtain rfl := Except.ok.inj (hread.symm.trans hread')
      exact .has (hnested _ _ _ hplan hplan')
  | not hread hplan =>
    cases h' with
    | not hread' hplan' =>
      obtain rfl := Except.ok.inj (hread.symm.trans hread')
      exact .not (hnested _ _ _ hplan hplan')
  | lang =>
    cases h'
    exact .lang _
  | visible =>
    cases h'
    exact .visible
  | hidden =>
    cases h'
    exact .hidden

private theorem StepRenders.alike {x : Combinator × Compound} {step step' : Plan.Step}
    (h : StepRenders nested x step) (h' : StepRenders nested x step')
    (hnested : ∀ list plan plan', nested list plan → nested list plan' → Plan.Alike plan plan') :
    step.Alike step' := by
  cases h with
  | mk _ hfilters =>
    cases h' with
    | mk _ hfilters' =>
      refine .mk _ _ _ (forall₂_pair hfilters hfilters' ?_)
      intro _ _ _ hf hf'
      exact hf.alike hf' hnested

/-- All plans that render a list are the same up to their locators. -/
theorem Renders.alike {n : Nat} {list : SelectorList} {plan plan' : Plan} (h : Renders n list plan)
    (h' : Renders n list plan') : plan.Alike plan' := by
  induction n generalizing list plan plan' with
  | zero =>
    refine forall₂_pair h h' fun _ _ _ hbranch hbranch' => ?_
    exact forall₂_pair hbranch hbranch' fun _ _ _ hs hs' => hs.alike hs' fun _ _ _ hf => hf.elim
  | succ n ih =>
    refine forall₂_pair h h' fun _ _ _ hbranch hbranch' => ?_
    exact forall₂_pair hbranch hbranch' fun _ _ _ hs hs' => hs.alike hs' fun _ _ _ => ih

section

variable {m : Type → Type} [Monad m] [LawfulMonad m] {ν : Type}

/-- Whatever an engine answers, the outcome is the fault of the selector, or a plan of its list. -/
private theorem returns_outcome (settings : Settings) (engine : Engine m ν) (table : SupportTable)
    (selector : Text) :
    Returns (fun r => Outcome (selectorFault? settings.maxNesting selector)
      (fun plan => ∃ list, SelectorList.read false selector = .ok list ∧
        PlanOf AnyAnswer settings.maxNesting list plan) r.1)
      ((compile settings engine selector).run.run table) :=
  (yields_compile (answersTo_anyAnswer settings engine) selector table (table.tells_anyAnswer _)).imp
    fun _ houtcome => houtcome.1

private theorem returns_error_of_fault (settings : Settings) (engine : Engine m ν)
    (table : SupportTable) {selector : Text} {e : SelectorError}
    (hfault : selectorFault? settings.maxNesting selector = some e) :
    Returns (fun r => r.1 = .error e) ((compile settings engine selector).run.run table) := by
  have hreturns := returns_outcome settings engine table selector
  rw [hfault] at hreturns
  exact hreturns.imp fun r houtcome => houtcome.eq_error

private theorem returns_rendering (settings : Settings) (engine : Engine m ν) (table : SupportTable)
    {selector : Text} {list : SelectorList}
    (hfault : selectorFault? settings.maxNesting selector = none)
    (hread : SelectorList.read false selector = .ok list) :
    Returns (fun r => ∃ plan, r.1 = .ok plan ∧ Renders settings.maxNesting list plan)
      ((compile settings engine selector).run.run table) := by
  have hreturns := returns_outcome settings engine table selector
  rw [hfault] at hreturns
  apply hreturns.imp
  intro r houtcome
  obtain ⟨plan, hplan, list', hread', hplanOf⟩ := houtcome.exists_ok
  obtain rfl := Except.ok.inj (hread.symm.trans hread')
  exact ⟨plan, hplan, hplanOf.renders⟩

end

/-- A selector is compiled for two engines of any kind, with any tables of answers, and with settings
that allow the same nesting: it is refused for both with the same error, or both plans render the
same list, each step in one of the two languages, and such plans are the same up to their locators. -/
theorem compilations_agree {m m' : Type → Type} [Monad m] [LawfulMonad m] [Monad m'] [LawfulMonad m']
    {ν ν' : Type} (settings settings' : Settings) (engine : Engine m ν) (engine' : Engine m' ν')
    (table table' : SupportTable) (selector : Text)
    (hnesting : settings.maxNesting = settings'.maxNesting) :
    (∃ e, Returns (fun r => r.1 = .error e) ((compile settings engine selector).run.run table) ∧
      Returns (fun r => r.1 = .error e) ((compile settings' engine' selector).run.run table')) ∨
    ∃ list, SelectorList.read false selector = .ok list ∧
      Returns (fun r => ∃ plan, r.1 = .ok plan ∧ Renders settings.maxNesting list plan)
        ((compile settings engine selector).run.run table) ∧
      Returns (fun r => ∃ plan, r.1 = .ok plan ∧ Renders settings.maxNesting list plan)
        ((compile settings' engine' selector).run.run table') ∧
      ∀ plan plan', Renders settings.maxNesting list plan → Renders settings.maxNesting list plan' →
        plan.Alike plan' := by
  cases hfault : selectorFault? settings.maxNesting selector with
  | some e =>
    have hfault' : selectorFault? settings'.maxNesting selector = some e := hnesting ▸ hfault
    left
    refine ⟨e, ?_, ?_⟩
    · exact returns_error_of_fault settings engine table hfault
    · exact returns_error_of_fault settings' engine' table' hfault'
  | none =>
    have hfault' : selectorFault? settings'.maxNesting selector = none := hnesting ▸ hfault
    cases hread : SelectorList.read false selector with
    | error e =>
      rw [selectorFault?, hread] at hfault
      cases hfault
    | ok list =>
      right
      refine ⟨list, rfl, ?_, ?_, ?_⟩
      · exact returns_rendering settings engine table hfault hread
      · rw [hnesting]
        exact returns_rendering settings' engine' table' hfault' hread
      · intro plan plan' h h'
        exact h.alike h'

/-- An engine that answers every query with nothing, and the one of a document that knows no
structural pseudo-class. -/
theorem compilations_agree_nested :
    Settings.standard.maxNesting = (⟨false, 8⟩ : Settings).maxNesting ∧
    ((∃ e,
      Returns (fun r => r.1 = .error e) ((compile .standard
        ((⟨"script", [], [], [], []⟩ : Script).toEngine : Engine Id Nat)
        "li:empty:not(:root > [a|='x']:nth-child(2n+1))").run.run .empty) ∧
      Returns (fun r => r.1 = .error e) ((compile ⟨false, 8⟩
        ((TreeEngine.mk .empty []).toEngine : Engine (StateM Nat) Nat)
        "li:empty:not(:root > [a|='x']:nth-child(2n+1))").run.run ⟨[(⟨"memory[]", .root⟩, true)]⟩)) ∨
    ∃ list, SelectorList.read false "li:empty:not(:root > [a|='x']:nth-child(2n+1))" = .ok list ∧
      Returns (fun r => ∃ plan, r.1 = .ok plan ∧ Renders 8 list plan) ((compile .standard
        ((⟨"script", [], [], [], []⟩ : Script).toEngine : Engine Id Nat)
        "li:empty:not(:root > [a|='x']:nth-child(2n+1))").run.run .empty) ∧
      Returns (fun r => ∃ plan, r.1 = .ok plan ∧ Renders 8 list plan) ((compile ⟨false, 8⟩
        ((TreeEngine.mk .empty []).toEngine : Engine (StateM Nat) Nat)
        "li:empty:not(:root > [a|='x']:nth-child(2n+1))").run.run ⟨[(⟨"memory[]", .root⟩, true)]⟩) ∧
      ∀ plan plan', Renders 8 list plan → Renders 8 list plan' → plan.Alike plan') :=
  ⟨rfl, compilations_agree .standard ⟨false, 8⟩ _ _ .empty ⟨[(⟨"memory[]", .root⟩, true)]⟩
    "li:empty:not(:root > [a|='x']:nth-child(2n+1))" rfl⟩

end CssLocator
