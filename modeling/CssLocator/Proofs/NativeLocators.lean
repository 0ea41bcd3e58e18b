import CssLocator.Proofs.ReadCompounds
import CssLocator.Proofs.TreeEngineProbes

/-!
# Native locators

On an engine that knows every structural pseudo-class, each step of a plan has a native locator, and
its text is read as the conditions of the compound that the step was compiled from.
-/

namespace CssLocator

open Identifier

variable {known : Answers} {nested : SelectorList → Plan → Prop} {x y : SimpleSelector}
  {part : StepPart} {compound read : Compound} {parts : List StepPart}

/-- Whether a simple selector takes part in the query of its compound: refining pseudo-classes do
not, and an asterisk says nothing. -/
def SimpleSelector.isQueried : SimpleSelector → Bool
  | universal => false
  | pseudo use =>
    match PseudoClass.ofName? use.name with
    | some (.structural _) => true
    | _ => false
  | _ => true

def Compound.queried (c : Compound) : Compound := c.filter (·.isQueried)

/-- The second condition says the same as the first one. In a value the backslashes of escaped
double quotes do not count; pseudo-classes have equal arguments. -/
inductive SameCondition : SimpleSelector → SimpleSelector → Prop
  | tag (name : Text) : SameCondition (.tag name) (.tag name)
  | className (name : Text) : SameCondition (.className name) (.className name)
  | id (name : Text) : SameCondition (.id name) (.id name)
  | hasAttribute (name : Text) (test : Option (AttributeOperator × Text)) :
      SameCondition (.hasAttribute name test)
        (.hasAttribute name (test.map fun (o, value) => (o, unescapeQuotes value)))
  | structural {use use' : PseudoUse} {kind : Structural} {a : AnPlusB}
      (hname : PseudoClass.ofName? use.name = some (.structural kind))
      (hname' : PseudoClass.ofName? use'.name = some (.structural kind))
      (hread : kind.read use = .ok a) (hread' : kind.read use' = .ok a) :
      SameCondition (.pseudo use) (.pseudo use')

/-- The compound is read as the queried conditions of another one, or as an asterisk if there are
none. -/
def ReadAs (compound read : Compound) : Prop :=
  if compound.queried = [] then read = [.universal] else List.Forall₂ SameCondition compound.queried read

/-- Names of which every character can be written; white space does not begin those that can follow
white space. -/
def SimpleSelector.Writable : SimpleSelector → Prop
  | tag name | hasAttribute name _ =>
    (∀ c ∈ name, isWritable c) ∧ ∀ c ∈ name.head?, Text.isSpace c = false
  | className name | id name => ∀ c ∈ name, isWritable c
  | universal | pseudo _ => True

/-- The text of the condition does not end with white space. -/
def SimpleSelector.EndsVisibly : SimpleSelector → Prop
  | tag name | className name | id name => ∀ c ∈ name.getLast?, Text.isSpace c = false
  | universal | hasAttribute _ _ | pseudo _ => True

structure Compound.Writable (c : Compound) : Prop where
  names : ∀ x ∈ c, x.Writable
  last : ∀ x ∈ c.queried.getLast?, x.EndsVisibly

@[simp] theorem isQueried_pseudo {use : PseudoUse} {kind : Structural}
    (h : PseudoClass.ofName? use.name = some (.structural kind)) :
    SimpleSelector.isQueried (.pseudo use) = true := by
  simp [SimpleSelector.isQueried, h]

private theorem written?_of_not_queried (h : PartOf known nested x part) (hx : x.isQueried = false) :
    part.written? = none := by
  cases h with
  | universal => rfl
  | refining => rfl
  | structural hname => simp [isQueried_pseudo hname] at hx
  | _ => cases hx

/-- A queried condition is written as a text that is read as the same condition. -/
theorem spells_of_partOf (h : PartOf known nested x part) (hx : x.isQueried) (hread : x.Readable)
    (hwrite : x.Writable) :
    ∃ u y, part.written? = some u ∧ SameCondition x y ∧ Spells u y ∧
      (x.EndsVisibly → SpellsLast u y) ∧ (¬ x.IsTag → ∀ c ∈ u.head?, startsCondition c) := by
  cases h with
  | universal => cases hx
  | tag name =>
    refine ⟨_, _, rfl, .tag name, spells_tag hread.1 hwrite.1 hread.2 hwrite.2, ?_, ?_⟩
    · exact spellsLast_tag hread.1 hwrite.1 hread.2 hwrite.2
    · exact fun hne => absurd trivial hne
  | className name =>
    refine ⟨_, _, rfl, .className name, Marks.className.spells hread hwrite,
      Marks.className.spellsLast hread hwrite, ?_⟩
    intro _ c hc
    cases hc
    decide
  | id name =>
    refine ⟨_, _, rfl, .id name, Marks.id.spells hread hwrite, Marks.id.spellsLast hread hwrite, ?_⟩
    intro _ c hc
    cases hc
    decide
  | hasAttribute name test =>
    have hspells := spells_attribute hread hwrite.1 hwrite.2 test
    refine ⟨_, _, rfl, .hasAttribute name test, hspells, fun _ => ?_, ?_⟩
    · exact hspells.last (getLast?_attributeNativeText test)
    · intro _ c hc
      rcases test with _ | ⟨o, value⟩ <;> cases hc <;> decide
  | @structural use kind a b hname hreadArg hknown =>
    have hspells := kind.spells_spelling a
    have hsame := Structural.read_respelled (Structural.readable_of_read hreadArg)
    refine ⟨_, _, rfl, .structural hname kind.ofName?_name hreadArg hsame, hspells, fun _ => ?_, ?_⟩
    · exact hspells.last (kind.getLast?_spelling a)
    · intro _ c hc
      rw [kind.spelling_eq_cons] at hc
      cases hc
      decide
  | refining hname => simp [SimpleSelector.isQueried, hname] at hx

private theorem tag?_of_partOf (h : PartOf known nested x part) (hx : ¬ x.IsTag) :
    part.tag? = none := by
  cases h with
  | tag name => exact absurd trivial hx
  | _ => rfl

private theorem startsCondition_of_not_tag (hparts : List.Forall₂ (PartOf known nested) compound parts)
    (hread : ∀ x ∈ compound, x.Readable) (hwrite : ∀ x ∈ compound, x.Writable)
    (htag : ∀ x ∈ compound, ¬ x.IsTag) :
    ∀ u ∈ parts.filterMap (·.written?), ∀ c ∈ u.head?, startsCondition c := by
  intro u hu
  obtain ⟨p, hp, hwritten⟩ := List.mem_filterMap.1 hu
  obtain ⟨x, hx, hpart⟩ := forall₂_exists_left hparts hp
  cases hqueried : x.isQueried with
  | false =>
    rw [written?_of_not_queried hpart hqueried] at hwritten
    cases hwritten
  | true =>
    obtain ⟨v, y, hv, -, -, -, hstart⟩ := spells_of_partOf hpart hqueried (hread x hx) (hwrite x hx)
    rw [hwritten] at hv
    cases hv
    exact hstart (htag x hx)

private theorem filterMap_written?_of_not_queried
    (hparts : List.Forall₂ (PartOf known nested) compound parts) (h : compound.queried = []) :
    parts.filterMap (·.written?) = [] := by
  rw [List.filterMap_eq_nil_iff]
  intro p hp
  obtain ⟨x, hx, hpart⟩ := forall₂_exists_left hparts hp
  have hqueried : ¬ x.isQueried = true := List.filter_eq_nil_iff.1 h x hx
  exact written?_of_not_queried hpart (by simpa using hqueried)

/-- What is written of a compound with queried conditions. -/
theorem exists_written (hparts : List.Forall₂ (PartOf known nested) compound parts)
    (hread : ∀ x ∈ compound, x.Readable) (hwrite : ∀ x ∈ compound, x.Writable)
    (htag : ∀ x ∈ compound.tail, ¬ x.IsTag)
    (hlast : ∀ x ∈ compound.queried.getLast?, x.EndsVisibly) (hne : compound.queried ≠ []) :
    ∃ read, Written (parts.filterMap (·.written?)) read ∧
      List.Forall₂ SameCondition compound.queried read := by
  induction hparts with
  | nil => exact absurd rfl hne
  | @cons x p xs ps hpart hparts ih =>
    have hreads := fun z hz => hread z (List.mem_cons_of_mem x hz)
    have hwrites := fun z hz => hwrite z (List.mem_cons_of_mem x hz)
    have htags := fun z hz => htag z (List.mem_of_mem_tail hz)
    cases hqueried : x.isQueried with
    | false =>
      have hsame : Compound.queried (x :: xs) = Compound.queried xs := by
        simp [Compound.queried, hqueried]
      rw [List.filterMap_cons_none (written?_of_not_queried hpart hqueried), hsame]
      rw [hsame] at hlast hne
      exact ih hreads hwrites htags hlast hne
    | true =>
      obtain ⟨u, y, hu, hsame, hspells, hend, -⟩ :=
        spells_of_partOf hpart hqueried (hread x List.mem_cons_self) (hwrite x List.mem_cons_self)
      have hcons : Compound.queried (x :: xs) = x :: Compound.queried xs := by
        simp [Compound.queried, hqueried]
      rw [List.filterMap_cons_some hu, hcons]
      rw [hcons] at hlast
      by_cases hxs : Compound.queried xs = []
      · rw [hxs] at hlast ⊢
        rw [filterMap_written?_of_not_queried hparts hxs]
        exact ⟨[y], .last hspells (hend (hlast x rfl)), .cons hsame .nil⟩
      · have hlast' : ∀ z ∈ (Compound.queried xs).getLast?, z.EndsVisibly := by
          intro z hz
          obtain ⟨w, ws, hws⟩ := List.exists_cons_of_ne_nil hxs
          rw [hws] at hlast hz
          exact hlast z (by rwa [List.getLast?_cons_cons])
        obtain ⟨read, hwritten, hsames⟩ := ih hreads hwrites htags hlast' hxs
        have hstart := startsCondition_of_not_tag hparts hreads hwrites htag
        cases hus : ps.filterMap (·.written?) with
        | nil =>
          rw [hus] at hwritten
          cases hwritten
        | cons v vs =>
          rw [hus] at hwritten hstart
          exact ⟨y :: read, .cons hspells (hstart v List.mem_cons_self) hwritten, .cons hsame hsames⟩

private theorem written?_ne_nil (hparts : List.Forall₂ (PartOf known nested) compound parts)
    (hread : ∀ x ∈ compound, x.Readable) (hwrite : ∀ x ∈ compound, x.Writable) :
    ∀ p ∈ parts, p.written? ≠ some [] := by
  intro p hp hnil
  obtain ⟨x, hx, hpart⟩ := forall₂_exists_left hparts hp
  cases hqueried : x.isQueried with
  | false =>
    rw [written?_of_not_queried hpart hqueried] at hnil
    cases hnil
  | true =>
    obtain ⟨u, y, hu, -, hspells, -⟩ := spells_of_partOf hpart hqueried (hread x hx) (hwrite x hx)
    rw [hnil] at hu
    cases hu
    exact hspells.ne_nil rfl

private theorem tail_tag?_eq_none (hparts : List.Forall₂ (PartOf known nested) compound parts)
    (htag : ∀ x ∈ compound.tail, ¬ x.IsTag) : ∀ p ∈ parts.tail, p.tag? = none := by
  cases hparts with
  | nil => simp
  | cons _ hparts =>
    intro p hp
    obtain ⟨x, hx, hpart⟩ := forall₂_exists_left hparts hp
    exact tag?_of_partOf hpart (htag x hx)

private theorem read_asterisk :
    SelectorList.read false ['*'] = .ok [[(.descendant, [.universal])]] := by
  decide +kernel

/-- The native expression of a compound is read as the compound's queried conditions. -/
theorem read_nativeExpression (hparts : List.Forall₂ (PartOf known nested) compound parts)
    (hread : Compound.Readable compound) (hwrite : Compound.Writable compound) :
    ∃ read, SelectorList.read false (nativeExpression parts) = .ok [[(.descendant, read)]] ∧
      ReadAs compound read := by
  rw [nativeExpression_eq (tail_tag?_eq_none hparts hread.tag_first)
    (written?_ne_nil hparts hread.readable hwrite.names)]
  unfold ReadAs
  by_cases hne : compound.queried = []
  · rw [if_pos (filterMap_written?_of_not_queried hparts hne)]
    refine ⟨_, read_asterisk, ?_⟩
    rw [if_pos hne]
  · obtain ⟨read, hwritten, hsame⟩ :=
      exists_written hparts hread.readable hwrite.names hread.tag_first hwrite.last hne
    have hnil : parts.filterMap (·.written?) ≠ [] := by
      intro hnil
      rw [hnil] at hwritten
      cases hwritten
    rw [if_neg hnil]
    refine ⟨read, hwritten.read, ?_⟩
    rw [if_neg hne]
    exact hsame

/-- The step was compiled from the compound: both have the same place, in a list and its plan or in
the list of an argument and the plan of its filter. -/
inductive Origin : SelectorList → Plan → Compound → Plan.Step → Prop
  | here {list : SelectorList} {plan : Plan} {i j : Nat} {complex : Complex}
      {branch : List Plan.Step} {combinator : Combinator} {compound : Compound} {step : Plan.Step}
      (hcomplex : list[i]? = some complex) (hbranch : plan[i]? = some branch)
      (hcompound : complex[j]? = some (combinator, compound)) (hstep : branch[j]? = some step) :
      Origin list plan compound step
  | has {list inner : SelectorList} {plan nestedPlan : Plan} {compound compound' : Compound}
      {step step' : Plan.Step} {i : Nat} {use : PseudoUse} (houter : Origin list plan compound step)
      (huse : (compound.filterMap (·.refining?))[i]? = some (.has, use))
      (hread : SelectorList.read true use.argumentText = .ok inner)
      (hfilter : step.filters[i]? = some (.has nestedPlan))
      (hinner : Origin inner nestedPlan compound' step') : Origin list plan compound' step'
  | not {list inner : SelectorList} {plan nestedPlan : Plan} {compound compound' : Compound}
      {step step' : Plan.Step} {i : Nat} {use : PseudoUse} (houter : Origin list plan compound step)
      (huse : (compound.filterMap (·.refining?))[i]? = some (.not, use))
      (hread : SelectorList.read false use.argumentText = .ok inner)
      (hfilter : step.filters[i]? = some (.not nestedPlan))
      (hinner : Origin inner nestedPlan compound' step') : Origin list plan compound' step'

private theorem forall₂_getElem? {α β : Type} {r : α → β → Prop} {l : List α} {l' : List β}
    (h : List.Forall₂ r l l') {i : Nat} {a : α} {b : β} (ha : l[i]? = some a) (hb : l'[i]? = some b) :
    r a b := by
  induction h generalizing i with
  | nil => simp at ha
  | cons hr _ ih =>
    cases i with
    | zero =>
      cases ha
      cases hb
      exact hr
    | succ i => exact ih ha hb

/-- Every compound of a list can be read in a text. -/
def SelectorList.Readable (list : SelectorList) : Prop :=
  ∀ complex ∈ list, ∀ p ∈ complex, Compound.Readable p.2

theorem SelectorList.readable_of_read {relative : Bool} {s : Text} {list : SelectorList}
    (h : SelectorList.read relative s = .ok list) : list.Readable := by
  intro complex hcomplex
  obtain ⟨k, -, hread⟩ := CssLocator.readable_of_read h complex hcomplex
  exact hread.compounds

theorem Origin.readable {list : SelectorList} {plan : Plan} {step : Plan.Step}
    (h : Origin list plan compound step) : list.Readable → Compound.Readable compound := by
  induction h with
  | here hcomplex _ hcompound _ =>
    intro hread
    exact hread _ (List.mem_of_getElem? hcomplex) _ (List.mem_of_getElem? hcompound)
  | has _ _ hread _ _ _ ih => exact fun _ => ih (SelectorList.readable_of_read hread)
  | not _ _ hread _ _ _ ih => exact fun _ => ih (SelectorList.readable_of_read hread)

/-- A step is assembled from the parts of its source. -/
theorem Origin.assembled {list : SelectorList} {plan : Plan} {step : Plan.Step}
    (h : Origin list plan compound step) :
    ∀ {n : Nat}, PlanOf known n list plan → ∃ n combinator parts,
      List.Forall₂ (PartOf known (NestedPlanOf known n)) compound parts ∧
        step = assembleStep combinator parts := by
  induction h with
  | here hcomplex hbranch hcompound hstep =>
    intro n hplan
    rw [planOf_eq] at hplan
    have hsteps := forall₂_getElem? hplan hcomplex hbranch
    cases forall₂_getElem? hsteps hcompound hstep with
    | assemble hparts => exact ⟨n, _, _, hparts, rfl⟩
  | has _ huse hinnerRead hfilter _ ihouter ihinner =>
    intro n hplan
    obtain ⟨k, combinator, parts, hparts, rfl⟩ := ihouter hplan
    cases forall₂_getElem? (forall₂_filterOf hparts) huse hfilter with
    | has hread hnested =>
      cases hinnerRead.symm.trans hread
      obtain ⟨m, hinner⟩ := exists_planOf_of_nested hnested
      exact ihinner hinner
  | not _ huse hinnerRead hfilter _ ihouter ihinner =>
    intro n hplan
    obtain ⟨k, combinator, parts, hparts, rfl⟩ := ihouter hplan
    cases forall₂_getElem? (forall₂_filterOf hparts) huse hfilter with
    | not hread hnested =>
      cases hinnerRead.symm.trans hread
      obtain ⟨m, hinner⟩ := exists_planOf_of_nested hnested
      exact ihinner hinner

/-- A filter of a step comes from the functional pseudo-class at its place in the source. -/
theorem Origin.exists_filterOf {list : SelectorList} {plan : Plan} {step : Plan.Step} {n : Nat}
    {f : Plan.Filter} (h : Origin list plan compound step) (hplan : PlanOf known n list plan)
    (hf : f ∈ step.filters) :
    ∃ (k i : Nat) (p : Refining × PseudoUse), (compound.filterMap (·.refining?))[i]? = some p ∧
      step.filters[i]? = some f ∧ FilterOf (NestedPlanOf known k) p.1 p.2 f := by
  obtain ⟨k, combinator, parts, hparts, rfl⟩ := h.assembled hplan
  exact ⟨k, forall₂_exists_getElem? (forall₂_filterOf hparts) hf⟩

/-- No step of a compiled plan is without a source. -/
theorem exists_origin {plan : Plan} {branch : List Plan.Step} (h : plan.HasBranch branch) :
    ∀ {n : Nat} {list : SelectorList}, PlanOf known n list plan →
      ∀ step ∈ branch, ∃ compound, Origin list plan compound step := by
  induction h with
  | here hbranch =>
    intro n list hplan step hstep
    rw [planOf_eq] at hplan
    obtain ⟨i, complex, hcomplex, hbranch', hsteps⟩ := forall₂_exists_getElem? hplan hbranch
    obtain ⟨j, ⟨combinator, compound⟩, hcompound, hstep', -⟩ := forall₂_exists_getElem? hsteps hstep
    exact ⟨compound, .here hcomplex hbranch' hcompound hstep'⟩
  | has _ hstep hfilter _ ihouter ihinner =>
    intro n list hplan step' hstep'
    obtain ⟨compound, horigin⟩ := ihouter hplan _ hstep
    obtain ⟨k, i, ⟨kind, use⟩, huse, hfilter', hfilterOf⟩ := horigin.exists_filterOf hplan hfilter
    cases hfilterOf with
    | has hread hnested =>
      obtain ⟨m, hinner⟩ := exists_planOf_of_nested hnested
      obtain ⟨compound', horigin'⟩ := ihinner hinner step' hstep'
      exact ⟨compound', .has horigin huse hread hfilter' horigin'⟩
  | not _ hstep hfilter _ ihouter ihinner =>
    intro n list hplan step' hstep'
    obtain ⟨compound, horigin⟩ := ihouter hplan _ hstep
    obtain ⟨k, i, ⟨kind, use⟩, huse, hfilter', hfilterOf⟩ := horigin.exists_filterOf hplan hfilter
    cases hfilterOf with
    | not hread hnested =>
      obtain ⟨m, hinner⟩ := exists_planOf_of_nested hnested
      obtain ⟨compound', horigin'⟩ := ihinner hinner step' hstep'
      exact ⟨compound', .not horigin huse hread hfilter' horigin'⟩

/-- The only answer is that the engine knows the pseudo-class. -/
def AlwaysKnown : Answers := fun _ b => b = true

theorem all_known_of_partOf (h : List.Forall₂ (PartOf AlwaysKnown nested) compound parts) :
    parts.all (·.known) = true := by
  rw [List.all_eq_true]
  intro p hp
  obtain ⟨x, -, hpart⟩ := forall₂_exists_left h hp
  cases hpart with
  | structural _ _ hknown => exact hknown
  | _ => rfl

theorem locator_assembleStep (combinator : Combinator) (h : parts.all (·.known) = true) :
    (assembleStep combinator parts).locator = .native (nativeExpression parts) := by
  simp [assembleStep, Plan.Step.locator, h]

variable {m : Type → Type} [Monad m] [LawfulMonad m] {ν : Type}

/-- If an engine answers every probe, every step of a plan, nested plans included, has a native
locator. Its text is a list of one complex selector with one compound, which consists of the queried
conditions of the compound that the step was compiled from, as far as names can be written. -/
theorem native_locators_read_back (settings : Settings) (engine : Engine m ν) (table : SupportTable)
    (selector : Text) (hprobing : settings.nativeProbing = true)
    (hknown : ∀ kind, Returns (AlwaysKnown kind) (probe engine kind))
    (htable : table.Tells AlwaysKnown engine.capability) :
    Returns
      (fun r => ∀ plan, r.1 = .ok plan → ∃ list, SelectorList.read false selector = .ok list ∧
        (∀ branch, plan.HasBranch branch → ∀ step ∈ branch,
          ∃ compound, Origin list plan compound step) ∧
        ∀ compound step, Origin list plan compound step →
          step.locator.kind = .native ∧
            (Compound.Writable compound → ∃ read,
              SelectorList.read false step.locator.expression = .ok [[(.descendant, read)]] ∧
                ReadAs compound read))
      ((compile settings engine selector).run.run table) := by
  have hanswers : AnswersTo settings engine AlwaysKnown :=
    ⟨fun _ => hknown, fun hunasked => absurd hprobing (by simp [hunasked])⟩
  refine (yields_compile hanswers selector table htable).imp ?_
  rintro ⟨r, table'⟩ ⟨houtcome, -⟩ plan hr
  obtain rfl : r = .ok plan := hr
  obtain ⟨-, list, hlist, hplan⟩ := houtcome
  refine ⟨list, hlist, fun branch hbranch => exists_origin hbranch hplan, ?_⟩
  intro compound step horigin
  obtain ⟨n, combinator, parts, hparts, rfl⟩ := horigin.assembled hplan
  rw [locator_assembleStep combinator (all_known_of_partOf hparts)]
  refine ⟨rfl, fun hwrite => ?_⟩
  exact read_nativeExpression hparts (horigin.readable (SelectorList.readable_of_read hlist)) hwrite

/-- The engine of the document without content, which knows every structural pseudo-class. -/
def blankEngine : Engine Id Nat := (TreeEngine.mk .empty Structural.all).toEngine

/-- The locators of the plan that a selector is compiled to for that engine. -/
def blankLocators (selector : Text) : Option (List (List Locator)) :=
  ((compile .standard blankEngine selector).run.run .empty).1.toOption.map fun plan =>
    plan.map (·.map (·.locator))

theorem native_locators_read_back_nested :
    Settings.standard.nativeProbing = true ∧
      (∀ kind, Returns (AlwaysKnown kind) (probe blankEngine kind)) ∧
      SupportTable.empty.Tells AlwaysKnown blankEngine.capability ∧
      ∃ plan list, ((compile .standard blankEngine "a\\:b.x:nth-child(2n +1):not(#y > [z~='w'])").run.run
          .empty).1 = .ok plan ∧
        SelectorList.read false "a\\:b.x:nth-child(2n +1):not(#y > [z~='w'])" = .ok list ∧
        (∀ branch, plan.HasBranch branch → ∀ step ∈ branch,
          ∃ compound, Origin list plan compound step) ∧
        ∀ compound step, Origin list plan compound step →
          step.locator.kind = .native ∧
            (Compound.Writable compound → ∃ read,
              SelectorList.read false step.locator.expression = .ok [[(.descendant, read)]] ∧
                ReadAs compound read) := by
  have hknown : ∀ kind, Returns (AlwaysKnown kind) (probe blankEngine kind) := by
    intro kind
    rw [blankEngine, TreeEngine.probe_toEngine]
    exact Returns.pure (show decide _ = true by cases kind <;> decide)
  have htable := SupportTable.tells_empty AlwaysKnown blankEngine.capability
  refine ⟨rfl, hknown, htable, ?_⟩
  have hread := Returns.of_id (native_locators_read_back .standard blankEngine .empty
    "a\\:b.x:nth-child(2n +1):not(#y > [z~='w'])" rfl hknown htable)
  have hlocators : (blankLocators "a\\:b.x:nth-child(2n +1):not(#y > [z~='w'])").isSome := by
    decide +kernel
  rw [blankLocators, Option.isSome_map] at hlocators
  cases hplan : ((compile .standard blankEngine
      "a\\:b.x:nth-child(2n +1):not(#y > [z~='w'])").run.run .empty).1 with
  | error e =>
    rw [hplan] at hlocators
    cases hlocators
  | ok plan =>
    obtain ⟨list, hlist, horigin⟩ := hread plan hplan
    exact ⟨plan, list, rfl, hlist, horigin⟩

/-- The selector is one compound without structural pseudo-classes, and its native locator is read as
other conditions than those that are queried. -/
def Misread (selector : Text) : Prop :=
  ∃ (compound read : Compound) (locator : Text),
    SelectorList.read false selector = .ok [[(.descendant, compound)]] ∧
      blankLocators selector = some [[.native locator]] ∧
        SelectorList.read false locator = .ok [[(.descendant, read)]] ∧ read ≠ compound.queried

/-- What native locators do not keep: characters that cannot be written, white space where a name
begins or the text ends, an escaped double quote in a value, and that nothing is queried at all. -/
theorem native_locators_misread :
    Misread "#a\\.b" ∧ Misread ".a\\a0 " ∧ Misread "\\a0 a" ∧ Misread "[\\a0 a]" ∧
      Misread "[a='\\\\\"']" ∧ Misread ":visible" := by
  have hid : Misread "#a\\.b" :=
    ⟨[.id "a.b"], [.id "a", .className "b"], "#a.b", by decide +kernel⟩
  have hclass : Misread ".a\\a0 " :=
    ⟨[.className "a\u00a0"], [.className "a"], ".a\u00a0", by decide +kernel⟩
  have htag : Misread "\\a0 a" := ⟨[.tag "\u00a0a"], [.tag "a"], "\u00a0a", by decide +kernel⟩
  have hattribute : Misread "[\\a0 a]" :=
    ⟨[.hasAttribute "\u00a0a" none], [.hasAttribute "a" none], "[\u00a0a]", by decide +kernel⟩
  have hvalue : Misread "[a='\\\\\"']" :=
    ⟨[.hasAttribute "a" (some (.equal, "\\\""))], [.hasAttribute "a" (some (.equal, "\""))],
      "[a=\"\\\"\"]", by decide +kernel⟩
  have hfilter : Misread ":visible" :=
    ⟨[.pseudo ⟨"visible", none⟩], [.universal], "*", by decide +kernel⟩
  exact ⟨hid, hclass, htag, hattribute, hvalue, hfilter⟩

end CssLocator
