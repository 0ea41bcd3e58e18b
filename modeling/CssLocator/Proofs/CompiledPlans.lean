import CssLocator.Proofs.CompilationOutcomes
import CssLocator.Proofs.WrittenConditions

/-!
# Compiled plans

What a plan has to do with the selector list it was compiled from, and which fault a list has. Both
are the same for every engine and every table of answers, up to the question which structural
pseudo-classes the engine is taken to know.
-/

namespace CssLocator

/-- The ways in which the question whether an engine knows a pseudo-class can be answered. -/
abbrev Answers := Structural → Bool → Prop

variable {known : Answers} {nested nested' : SelectorList → Plan → Prop}

/-- The filter of a refining pseudo-class, given how nested lists and plans are related. -/
inductive FilterOf (nested : SelectorList → Plan → Prop) : Refining → PseudoUse → Plan.Filter → Prop
  | has {use list plan} (hread : SelectorList.read true use.argumentText = .ok list)
      (hplan : nested list plan) : FilterOf nested .has use (.has plan)
  | not {use list plan} (hread : SelectorList.read false use.argumentText = .ok list)
      (hplan : nested list plan) : FilterOf nested .not use (.not plan)
  | lang {use} : FilterOf nested .lang use (.lang (languageCode use.argumentText))
  | visible {use} : FilterOf nested .visible use .visible
  | hidden {use} : FilterOf nested .hidden use .hidden

/-- What a simple selector contributes to the step of its compound. -/
inductive PartOf (known : Answers) (nested : SelectorList → Plan → Prop) :
    SimpleSelector → StepPart → Prop
  | universal : PartOf known nested .universal .nothing
  | tag (name : Text) : PartOf known nested (.tag name) (.tag name)
  | className (name : Text) : PartOf known nested (.className name)
      (.condition (classNativeText name) (classPathText name) true)
  | id (name : Text) : PartOf known nested (.id name)
      (.condition (idNativeText name) (idPathText name) true)
  | hasAttribute (name : Text) (test : Option (AttributeOperator × Text)) :
      PartOf known nested (.hasAttribute name test)
        (.condition (attributeNativeText name test) (attributePathText name test) true)
  | structural {use kind a b} (hname : PseudoClass.ofName? use.name = some (.structural kind))
      (hread : kind.read use = .ok a) (hknown : known kind b) :
      PartOf known nested (.pseudo use)
        (.condition (kind.spelling a) ("(" ++ kind.pathSpelling a ++ ")") b)
  | refining {use kind f} (hname : PseudoClass.ofName? use.name = some (.refining kind))
      (hfilter : FilterOf nested kind use f) : PartOf known nested (.pseudo use) (.filter f)

inductive StepOf (known : Answers) (nested : SelectorList → Plan → Prop) :
    Combinator × Compound → Plan.Step → Prop
  | assemble {combinator compound parts} (hparts : List.Forall₂ (PartOf known nested) compound parts) :
      StepOf known nested (combinator, compound) (assembleStep combinator parts)

/-- Every complex selector has a branch, and every compound of it a step. -/
def BranchesOf (known : Answers) (nested : SelectorList → Plan → Prop) :
    SelectorList → Plan → Prop :=
  List.Forall₂ (List.Forall₂ (StepOf known nested))

/-- The plans of a list in whose arguments selectors may be nested as deep as allowed. -/
def PlanOf (known : Answers) : (allowance : Nat) → SelectorList → Plan → Prop
  | 0 => BranchesOf known fun _ _ => False
  | n + 1 => BranchesOf known (PlanOf known n)

/-- The relation between the lists in arguments and the plans in filters. -/
def NestedPlanOf (known : Answers) : (allowance : Nat) → SelectorList → Plan → Prop
  | 0 => fun _ _ => False
  | n + 1 => PlanOf known n

theorem exists_planOf_of_nested {n : Nat} {list : SelectorList} {plan : Plan}
    (h : NestedPlanOf known n list plan) : ∃ k, PlanOf known k list plan := by
  cases n with
  | zero => exact h.elim
  | succ n => exact ⟨n, h⟩

theorem FilterOf.imp {kind : Refining} {use : PseudoUse} {f : Plan.Filter}
    (h : FilterOf nested kind use f) (hnested : ∀ list plan, nested list plan → nested' list plan) :
    FilterOf nested' kind use f := by
  cases h with
  | has hread hplan => exact .has hread (hnested _ _ hplan)
  | not hread hplan => exact .not hread (hnested _ _ hplan)
  | lang => exact .lang
  | visible => exact .visible
  | hidden => exact .hidden

theorem planOf_eq (known : Answers) (n : Nat) :
    PlanOf known n = BranchesOf known (NestedPlanOf known n) := by
  cases n <;> rfl

/-- A branch of a plan, or of a plan nested in its filters. -/
inductive Plan.HasBranch : Plan → List Plan.Step → Prop
  | here {plan : Plan} {branch : List Plan.Step} (hbranch : branch ∈ plan) : HasBranch plan branch
  | has {plan inner : Plan} {outer branch : List Plan.Step} {step : Plan.Step}
      (houter : HasBranch plan outer) (hstep : step ∈ outer) (hfilter : .has inner ∈ step.filters)
      (hinner : HasBranch inner branch) : HasBranch plan branch
  | not {plan inner : Plan} {outer branch : List Plan.Step} {step : Plan.Step}
      (houter : HasBranch plan outer) (hstep : step ∈ outer) (hfilter : .not inner ∈ step.filters)
      (hinner : HasBranch inner branch) : HasBranch plan branch

/-- The refining pseudo-class that a simple selector is. -/
def SimpleSelector.refining? : SimpleSelector → Option (Refining × PseudoUse)
  | pseudo use =>
    match PseudoClass.ofName? use.name with
    | some (.refining kind) => some (kind, use)
    | _ => none
  | _ => none

/-- The filters of a step come from the refining pseudo-classes of its compound, in their order. -/
theorem forall₂_filterOf {compound : Compound} {parts : List StepPart}
    (h : List.Forall₂ (PartOf known nested) compound parts) :
    List.Forall₂ (fun p f => FilterOf nested p.1 p.2 f) (compound.filterMap (·.refining?))
      (parts.filterMap (·.filter?)) := by
  induction h with
  | nil => exact .nil
  | cons hpart _ ih =>
    cases hpart with
    | @refining use kind f hname hfilter =>
      have hrefining : SimpleSelector.refining? (.pseudo use) = some (kind, use) := by
        simp [SimpleSelector.refining?, hname]
      rw [List.filterMap_cons_some hrefining]
      exact .cons hfilter ih
    | @structural use _ _ _ hname =>
      have hrefining : SimpleSelector.refining? (.pseudo use) = none := by
        simp [SimpleSelector.refining?, hname]
      rw [List.filterMap_cons_none hrefining]
      exact ih
    | _ => exact ih

private theorem rightUnique_filterOf (h : Relator.RightUnique nested) (kind : Refining) :
    Relator.RightUnique (FilterOf nested kind) := by
  intro use f f' hf hf'
  cases hf with
  | has hread hplan =>
    cases hf' with
    | has hread' hplan' =>
      obtain rfl := Except.ok.inj (hread.symm.trans hread')
      rw [h hplan hplan']
  | not hread hplan =>
    cases hf' with
    | not hread' hplan' =>
      obtain rfl := Except.ok.inj (hread.symm.trans hread')
      rw [h hplan hplan']
  | lang =>
    cases hf'
    rfl
  | visible =>
    cases hf'
    rfl
  | hidden =>
    cases hf'
    rfl

theorem rightUnique_partOf (hknown : Relator.RightUnique known) (h : Relator.RightUnique nested) :
    Relator.RightUnique (PartOf known nested) := by
  intro x part part' hpart hpart'
  cases hpart with
  | structural hname hread hb =>
    cases hpart' with
    | structural hname' hread' hb' =>
      cases hname.symm.trans hname'
      cases hread.symm.trans hread'
      rw [hknown hb hb']
    | refining hname' => cases hname.symm.trans hname'
  | refining hname hfilter =>
    cases hpart' with
    | structural hname' => cases hname.symm.trans hname'
    | refining hname' hfilter' =>
      cases hname.symm.trans hname'
      rw [rightUnique_filterOf h _ hfilter hfilter']
  | _ =>
    cases hpart'
    rfl

private theorem rightUnique_branchesOf (hknown : Relator.RightUnique known)
    (h : Relator.RightUnique nested) : Relator.RightUnique (BranchesOf known nested) := by
  apply Relator.RightUnique.forall₂
  apply Relator.RightUnique.forall₂
  intro x step step' hstep hstep'
  cases hstep with
  | assemble hparts =>
    cases hstep' with
    | assemble hparts' =>
      rw [(rightUnique_partOf hknown h).forall₂ hparts hparts']

/-- If there is one answer to each question, a list has one plan. -/
theorem rightUnique_planOf (hknown : Relator.RightUnique known) (n : Nat) :
    Relator.RightUnique (PlanOf known n) := by
  induction n with
  | zero => exact rightUnique_branchesOf hknown fun _ _ _ h => h.elim
  | succ n ih => exact rightUnique_branchesOf hknown ih

/-- The fault of an argument, given those of nested lists. -/
def Refining.fault? (nested : SelectorList → Option SelectorError) (kind : Refining)
    (use : PseudoUse) : Option SelectorError :=
  let inside (relative : Bool) : Option SelectorError :=
    match SelectorList.read relative use.argumentText with
    | .error e => some e
    | .ok list => nested list
  match kind.check use with
  | .error e => some e
  | .ok () =>
    match kind with
    | has => inside true
    | not => inside false
    | lang =>
      if (languageCode use.argumentText).isEmpty then
        some (.argument kind.name use.argumentText .noLanguage)
      else none
    | visible | hidden => none

def Structural.fault? (kind : Structural) (use : PseudoUse) : Option SelectorError :=
  match kind.read use with
  | .error e => some e
  | .ok _ => none

def SimpleSelector.fault? (nested : SelectorList → Option SelectorError) :
    SimpleSelector → Option SelectorError
  | pseudo use =>
    match PseudoClass.ofName? use.name with
    | none => some (.unsupported use.name)
    | some (.structural kind) => kind.fault? use
    | some (.refining kind) => kind.fault? nested use
  | _ => none

/-- The first fault of the branches of a list. -/
def SelectorList.branchFault? (nested : SelectorList → Option SelectorError) (list : SelectorList) :
    Option SelectorError :=
  list.findSome? fun complex => complex.findSome? fun (_, compound) =>
    compound.findSome? (SimpleSelector.fault? nested)

/-- Why a list does not compile, if selectors may be nested as deep as allowed. -/
def SelectorList.fault? (limit : Nat) : (allowance : Nat) → SelectorList → Option SelectorError
  | 0, list => list.branchFault? fun _ => some (.nestedTooDeep limit)
  | n + 1, list => list.branchFault? (SelectorList.fault? limit n)

/-- The recorded answers about engines with a capability are possible ones. -/
def SupportTable.Tells (known : Answers) (capability : Text) (t : SupportTable) : Prop :=
  ∀ kind b, t.lookup? ⟨capability, kind⟩ = some b → known kind b

theorem SupportTable.tells_empty (known : Answers) (capability : Text) :
    SupportTable.empty.Tells known capability := by
  intro kind b h
  cases h

@[simp] theorem SupportTable.lookup?_record (t : SupportTable) (key key' : SupportKey) (b : Bool) :
    (t.record key b).lookup? key' = if key' = key then some b else t.lookup? key' := by
  unfold lookup? record
  rw [List.lookup_cons]
  by_cases hkey : key' = key
  · simp [hkey]
  · simp [hkey, beq_false_of_ne hkey]

theorem SupportTable.Tells.record {capability : Text} {t : SupportTable} {kind : Structural} {b : Bool}
    (h : t.Tells known capability) (hb : known kind b) :
    (t.record ⟨capability, kind⟩ b).Tells known capability := by
  intro kind' b' hlookup
  rw [lookup?_record] at hlookup
  split at hlookup
  · rename_i hkey
    cases hkey
    cases hlookup
    exact hb
  · exact h kind' b' hlookup

variable {m : Type → Type} [Monad m] [LawfulMonad m] {ν : Type} {settings : Settings}
  {engine : Engine m ν}

theorem SupportTable.run_settle (key : SupportKey) (ask : m Bool) (t : SupportTable) :
    (settle key ask).run t =
      match t.lookup? key with
      | some b => pure (b, t)
      | none => ask >>= fun b => pure (b, t.record key b) := by
  unfold settle
  rw [StateT.run_bind, StateT.run_get, pure_bind]
  cases t.lookup? key with
  | some b => rfl
  | none => simp

/-- Without others that record answers, the second look at the table finds what the first one did. -/
private theorem SupportTable.ask_eq_settle (key : SupportKey) (ask : m Bool) :
    SupportTable.ask key ask = settle key ask := by
  refine StateT.ext fun t => ?_
  unfold SupportTable.ask
  rw [StateT.run_bind, StateT.run_get, pure_bind]
  cases hlookup : t.lookup? key with
  | some b => simp [hlookup, run_settle]
  | none => rfl

/-- The answers that an engine can give to a compiler with the settings. -/
structure AnswersTo (settings : Settings) (engine : Engine m ν) (known : Answers) : Prop where
  asked : settings.nativeProbing → ∀ kind, Returns (known kind) (probe engine kind)
  unasked : settings.nativeProbing = false → ∀ kind, known kind false

/-- An engine of which nothing is known answers as it likes. -/
def AnyAnswer : Answers := fun _ _ => True

theorem answersTo_anyAnswer (settings : Settings) (engine : Engine m ν) :
    AnswersTo settings engine AnyAnswer where
  asked _ _ := Returns.of_forall _ fun _ => trivial
  unasked _ _ := trivial

theorem SupportTable.tells_anyAnswer (t : SupportTable) (capability : Text) :
    t.Tells AnyAnswer capability := fun _ _ _ => trivial

/-- The answer is a possible one and the table keeps its invariant, if both is so for the recorded
answer, for that of a probe, and for the one that is taken without asking. -/
theorem returns_supports_of {I : SupportTable → Prop} {kind : Structural} {t : SupportTable} (ht : I t)
    (hunasked : settings.nativeProbing = false → known kind false)
    (hrecorded : settings.nativeProbing → ∀ b, t.lookup? ⟨engine.capability, kind⟩ = some b →
      known kind b)
    (hprobed : settings.nativeProbing →
      Returns (fun b => known kind b ∧ I (t.record ⟨engine.capability, kind⟩ b)) (probe engine kind)) :
    Returns (fun r => known kind r.1 ∧ I r.2) ((supports settings engine kind).run t) := by
  unfold supports
  cases hprobing : settings.nativeProbing with
  | false => exact Returns.pure ⟨hunasked hprobing, ht⟩
  | true =>
    rw [if_pos rfl, SupportTable.ask_eq_settle, SupportTable.run_settle]
    cases hlookup : t.lookup? ⟨engine.capability, kind⟩ with
    | some b => exact Returns.pure ⟨hrecorded hprobing b hlookup, ht⟩
    | none => exact (hprobed hprobing).bind fun b hb => Returns.pure hb

private theorem returns_supports (h : AnswersTo settings engine known) (kind : Structural)
    {t : SupportTable} (ht : t.Tells known engine.capability) :
    Returns (fun r => known kind r.1 ∧ r.2.Tells known engine.capability)
      ((supports settings engine kind).run t) := by
  apply returns_supports_of ht
  · intro hprobing
    exact h.unasked hprobing kind
  · intro _ b hlookup
    exact ht kind b hlookup
  · intro hprobing
    exact (h.asked hprobing kind).imp fun b hb => ⟨hb, ht.record hb⟩

section

variable {I : SupportTable → Prop} {knows : Structural → Compiling m Bool}
  {fault : SelectorList → Option SelectorError} {recur : SelectorList → Compiling m Plan}

private theorem yields_compileStructural (h : ∀ kind, Yields I none (known kind) (knows kind))
    {kind : Structural} {use : PseudoUse}
    (hname : PseudoClass.ofName? use.name = some (.structural kind)) :
    Yields I (kind.fault? use) (PartOf known nested (.pseudo use))
      (compileStructural knows kind use) := by
  unfold compileStructural Structural.fault?
  rw [kind.nativeText_eq, kind.pathText_eq]
  cases hread : kind.read use with
  | error e => simpa [Except.map] using Yields.throw e
  | ok a =>
    simp only [Except.map, ofExcept_ok_bind]
    exact (h kind).bind fun b _ hb => Yields.pure (PartOf.structural hname hread hb)

private theorem yields_compileRefining
    (hrecur : ∀ list, Yields I (fault list) (nested list) (recur list))
    (kind : Refining) (use : PseudoUse) :
    Yields I (kind.fault? fault use) (FilterOf nested kind use) (compileRefining recur kind use) := by
  unfold compileRefining Refining.fault?
  cases kind.check use with
  | error e => simpa using Yields.throw e
  | ok _ =>
    rw [ofExcept_ok_bind]
    cases kind with
    | has =>
      dsimp only
      cases hread : SelectorList.read true use.argumentText with
      | error e => simpa using Yields.throw e
      | ok list =>
        rw [ofExcept_ok_bind]
        exact (hrecur list).bind_pure fun plan hplan => .has hread hplan
    | not =>
      dsimp only
      cases hread : SelectorList.read false use.argumentText with
      | error e => simpa using Yields.throw e
      | ok list =>
        rw [ofExcept_ok_bind]
        exact (hrecur list).bind_pure fun plan hplan => .not hread hplan
    | lang =>
      dsimp only
      cases (languageCode use.argumentText).isEmpty with
      | true => exact Yields.throw _
      | false => exact Yields.pure .lang
    | visible => exact Yields.pure .visible
    | hidden => exact Yields.pure .hidden

private theorem yields_compileSimple (h : ∀ kind, Yields I none (known kind) (knows kind))
    (hrecur : ∀ list, Yields I (fault list) (nested list) (recur list)) (x : SimpleSelector) :
    Yields I (x.fault? fault) (PartOf known nested x) (compileSimple knows recur x) := by
  cases x with
  | universal => exact Yields.pure .universal
  | tag name => exact Yields.pure (.tag name)
  | className name => exact Yields.pure (.className name)
  | id name => exact Yields.pure (.id name)
  | hasAttribute name test => exact Yields.pure (.hasAttribute name test)
  | pseudo use =>
    unfold compileSimple SimpleSelector.fault? PseudoClass.ofName
    dsimp only
    cases hname : PseudoClass.ofName? use.name with
    | none =>
      simpa using Yields.throw _
    | some pseudo =>
      rw [Option.elim_some, ofExcept_ok_bind]
      cases pseudo with
      | structural kind => exact yields_compileStructural h hname
      | refining kind =>
        exact (yields_compileRefining hrecur kind use).bind_pure fun f hf => .refining hname hf

private theorem yields_compileBranches (h : ∀ kind, Yields I none (known kind) (knows kind))
    (hrecur : ∀ list, Yields I (fault list) (nested list) (recur list)) (list : SelectorList) :
    Yields I (list.branchFault? fault) (BranchesOf known nested list)
      (compileBranches knows recur list) := by
  apply Yields.map
  intro complex _
  apply Yields.map
  rintro ⟨combinator, compound⟩ _
  have hparts := Yields.map fun x (_ : x ∈ compound) => yields_compileSimple h hrecur x
  exact hparts.bind_pure fun parts hparts => .assemble hparts

/-- The fault of a list, and the plan of a list without one, as every compilation has them. -/
theorem yields_compileList (h : ∀ kind, Yields I none (known kind) (knows kind)) (limit n : Nat)
    (list : SelectorList) :
    Yields I (list.fault? limit n) (PlanOf known n list) (compileList knows limit n list) := by
  induction n generalizing list with
  | zero => exact yields_compileBranches h (fun _ => Yields.throw _) list
  | succ n ih => exact yields_compileBranches h ih list

/-- The fault of a selector text. -/
def selectorFault? (maxNesting : Nat) (selector : Text) : Option SelectorError :=
  match SelectorList.read false selector with
  | .error e => some e
  | .ok list => list.fault? maxNesting maxNesting

theorem yields_compileText (h : ∀ kind, Yields I none (known kind) (knows kind)) (limit : Nat)
    (selector : Text) :
    Yields I (selectorFault? limit selector)
      (fun plan => ∃ list, SelectorList.read false selector = .ok list ∧ PlanOf known limit list plan)
      (compileText knows limit selector) := by
  unfold compileText selectorFault?
  cases hread : SelectorList.read false selector with
  | error e => simpa using Yields.throw e
  | ok list =>
    rw [ofExcept_ok_bind]
    exact (yields_compileList h limit limit list).imp fun plan hplan => ⟨list, rfl, hplan⟩

end

theorem yields_compile (h : AnswersTo settings engine known) (selector : Text) :
    Yields (·.Tells known engine.capability) (selectorFault? settings.maxNesting selector)
      (fun plan => ∃ list, SelectorList.read false selector = .ok list ∧
        PlanOf known settings.maxNesting list plan)
      (compile settings engine selector) :=
  yields_compileText (fun kind => Yields.lift fun _ ht => returns_supports h kind ht)
    settings.maxNesting selector

section

variable {ν : Type} {engine : Engine Id ν} {table : SupportTable} {selector : Text}

/-- The outcome without effects: the fault of the selector, or its plan. -/
theorem outcome_compile (h : AnswersTo settings engine known)
    (htable : table.Tells known engine.capability) (selector : Text) :
    Outcome (selectorFault? settings.maxNesting selector)
      (fun plan => ∃ list, SelectorList.read false selector = .ok list ∧
        PlanOf known settings.maxNesting list plan)
      ((compile settings engine selector).run.run table).1 :=
  (Returns.of_id (yields_compile h selector table htable)).1

theorem compile_of_fault (h : AnswersTo settings engine known)
    (htable : table.Tells known engine.capability) {e : SelectorError}
    (hfault : selectorFault? settings.maxNesting selector = some e) :
    ((compile settings engine selector).run.run table).1 = .error e := by
  have hcompiled := outcome_compile h htable selector
  rw [hfault] at hcompiled
  exact hcompiled.eq_error

theorem planOf_of_compile (h : AnswersTo settings engine known)
    (htable : table.Tells known engine.capability) {plan : Plan}
    (hplan : ((compile settings engine selector).run.run table).1 = .ok plan) :
    ∃ list, SelectorList.read false selector = .ok list ∧
      PlanOf known settings.maxNesting list plan := by
  have hcompiled := outcome_compile h htable selector
  rw [hplan] at hcompiled
  exact hcompiled.2

theorem exists_planOf (h : AnswersTo settings engine known)
    (htable : table.Tells known engine.capability) {list : SelectorList}
    (hfault : selectorFault? settings.maxNesting selector = none)
    (hread : SelectorList.read false selector = .ok list) :
    ∃ plan, ((compile settings engine selector).run.run table).1 = .ok plan ∧
      PlanOf known settings.maxNesting list plan := by
  have hcompiled := outcome_compile h htable selector
  rw [hfault] at hcompiled
  obtain ⟨plan, hplan, list', hread', hplanOf⟩ := hcompiled.exists_ok
  obtain rfl : list = list' := Except.ok.inj (hread.symm.trans hread')
  exact ⟨plan, hplan, hplanOf⟩

end

end CssLocator
