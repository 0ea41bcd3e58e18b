import CssLocator.Proofs.ComposedLists
import CssLocator.Proofs.EngineIndependence
import CssLocator.Proofs.NestingBounds
import CssLocator.Proofs.OrderedResults
import CssLocator.Proofs.SharedTables

/-!
# Filtered selections

What a document selects with refining pseudo-classes alone: they are filters on all of its elements. The
argument of a pseudo-class is compiled to the same plan there as on its own.
-/

namespace CssLocator

open Plan

/-- A refining pseudo-class with an argument. -/
def Refining.text (kind : Refining) (argument : Text) : Text :=
  ":" ++ kind.name ++ "(" ++ argument ++ ")"

def Refining.use (kind : Refining) (argument : Text) : PseudoUse := ⟨kind.name, some argument⟩

/-- All elements, filtered. -/
def filteredCompound (uses : List (Refining × Text)) : Compound :=
  .universal :: uses.map fun u => .pseudo (u.1.use u.2)

variable {uses : List (Refining × Text)}

private theorem Refining.printable_use (kind : Refining) {argument : Text}
    (h : Nested none 0 0 argument) : (SimpleSelector.pseudo (kind.use argument)).Printable ∧
      (SimpleSelector.pseudo (kind.use argument)).text = kind.text argument := by
  have hname : kind.name ≠ [] ∧ kind.name.all Char.isAlpha ∧ Text.lower kind.name = kind.name := by
    cases kind <;> decide
  have halpha := List.all_eq_true.1 hname.2.1
  refine ⟨⟨isName_of_isAlpha hname.1 halpha, hname.2.2, ?_⟩, ?_⟩
  · rintro _ ⟨⟩
    exact h
  · show ":" ++ Identifier.escape kind.name ++ "(" ++ argument ++ ")" = _
    rw [escape_of_isAlpha halpha]
    rfl

private theorem read_filtered (h : ∀ u ∈ uses, Nested none 0 0 u.2) :
    SelectorList.read false ("*" ++ uses.flatMap fun u => u.1.text u.2) =
      .ok [[(.descendant, filteredCompound uses)]] := by
  have hprintable : Compound.Printable (filteredCompound uses) := by
    refine ⟨List.cons_ne_nil _ _, List.forall_mem_cons.2 ⟨trivial, ?_⟩, ?_⟩
    · intro x hx
      obtain ⟨u, hu, rfl⟩ := List.mem_map.1 hx
      exact (u.1.printable_use (h u hu)).1
    · intro x hx
      obtain ⟨u, -, rfl⟩ := List.mem_map.1 hx
      exact not_false
  have htext : Compound.text (filteredCompound uses) = "*" ++ uses.flatMap fun u => u.1.text u.2 := by
    rw [Compound.text, filteredCompound, List.flatMap_cons, List.flatMap_map]
    congr 1
    exact List.flatMap_congr fun u hu => (u.1.printable_use (h u hu)).2
  have hlist : ListText [[(.descendant, filteredCompound uses)]]
      ([] ++ Combinator.descendant.mark ++ [] ++ (Compound.text (filteredCompound uses) ++ []) ++ []) :=
    .last (.cons (List.forall_mem_nil _) (List.forall_mem_nil _) (List.forall_mem_nil _) .nil)
  have hread : SelectorList.read false _ = .ok [[(.descendant, filteredCompound uses)]] :=
    hlist.read ⟨List.cons_ne_nil _ _, List.forall_mem_singleton.2
      ⟨List.cons_ne_nil _ _, List.forall_mem_singleton.2 hprintable⟩⟩
      fun _ => List.forall_mem_singleton.2 rfl
  rw [← htext]
  simpa [Combinator.mark] using hread

@[simp] theorem refinings_filtered : (filteredCompound uses).refinings =
    uses.map fun u => (u.1, u.1.use u.2) := by
  have hrefining : ∀ u : Refining × Text,
      (SimpleSelector.pseudo (u.1.use u.2)).refining? = some (u.1, u.1.use u.2) := fun u =>
    refining?_eq_some.2 ⟨rfl, u.1.ofName?_name⟩
  rw [Compound.refinings, filteredCompound, List.filterMap_cons_none rfl, List.filterMap_map,
    ← List.filterMap_eq_map]
  exact List.filterMap_congr fun u _ => hrefining u

/-- Filters are not queried. -/
theorem isQueried_filtered : ∀ x ∈ filteredCompound uses, x.isQueried = false := by
  refine List.forall_mem_cons.2 ⟨rfl, fun x hx => ?_⟩
  obtain ⟨u, -, rfl⟩ := List.mem_map.1 hx
  simp [SimpleSelector.isQueried, Refining.use]

@[simp] theorem meets_filtered (d : Document) (i : Nat) :
    (filteredCompound uses).meets d i = d.isElement i := by
  have hall : (filteredCompound uses).all (·.meets d i) = true :=
    List.all_eq_true.2 fun x hx => meets_of_not_queried (isQueried_filtered x hx)
  rw [Compound.meets, hall, Bool.and_true]

namespace TreeEngine

variable {t : TreeEngine} {settings : Settings} {selector : Text} {found : List Nat}

/-- Compiled for the engine and run from the document, the selector finds the list. The table may hold
answers already, as long as they are true. -/
def Selects (t : TreeEngine) (settings : Settings) (selector : Text) (found : List Nat) : Prop :=
  ∃ table : SupportTable, table.Truthful ∧
    outcome settings t table selector Document.root = .ok (.ok found)

/-- What is selected with nothing recorded. -/
def selection? (t : TreeEngine) (settings : Settings) (selector : Text) : Option (List Nat) :=
  (outcome settings t .empty selector Document.root).toOption.bind Except.toOption

theorem selects_of_selection? (h : t.selection? settings selector = some found) :
    t.Selects settings selector found := by
  obtain ⟨result, hresult, hfound⟩ := Option.bind_eq_some_iff.1 h
  refine ⟨.empty, SupportTable.truthful_empty, ?_⟩
  rw [toOption_eq_some.1 hresult, toOption_eq_some.1 hfound]

/-- The plan that the engine gets for a list within the settings. -/
def PlanFor (t : TreeEngine) (settings : Settings) : SelectorList → Plan → Prop :=
  PlanOf (AnswersOf settings t.known) settings.maxNesting

theorem rightUnique_planFor (t : TreeEngine) (settings : Settings) :
    Relator.RightUnique (t.PlanFor settings) :=
  rightUnique_planOf (rightUnique_answersOf settings t.known) _

theorem exists_of_selects (h : t.Selects settings selector found) :
    ∃ list plan all, SelectorList.read false selector = .ok list ∧ t.PlanFor settings list plan ∧
      runBranches (t.toEngine : Engine Id Nat) plan Document.root = pure all ∧ found = all.eraseDups := by
  obtain ⟨table, htable, houtcome⟩ := h
  have hcompiled := (yields_compile_of_truthful (m := Id) settings t selector table htable).of_id.1
  unfold outcome at houtcome
  cases hplan : ((compile settings (t.toEngine : Engine Id Nat) selector).run.run table).1 with
  | error e =>
    rw [hplan] at houtcome
    cases houtcome
  | ok plan =>
    rw [hplan] at hcompiled houtcome
    obtain ⟨-, list, hread, hplanOf⟩ := hcompiled
    have hrun : Plan.run (t.toEngine : Engine Id Nat) plan Document.root = pure found :=
      Except.ok.inj houtcome
    obtain ⟨all, hall, hfound⟩ := exists_of_bind_eq_pure hrun
    exact ⟨list, plan, all, hread, hplanOf, hall, (pure_inj hfound).symm⟩

private theorem planFor_of_nested {list : SelectorList} {plan : Plan}
    (h : NestedPlanOf (AnswersOf settings t.known) settings.maxNesting list plan) :
    t.PlanFor settings list plan := by
  unfold PlanFor
  cases hn : settings.maxNesting with
  | zero =>
    rw [hn] at h
    exact h.elim
  | succ n =>
    rw [hn] at h
    exact PlanOf.mono h (Nat.le_succ n)

/-- The plan of one compound has one step. -/
theorem exists_step_of_planFor {combinator : Combinator} {compound : Compound} {plan : Plan}
    (h : t.PlanFor settings [[(combinator, compound)]] plan) :
    ∃ parts, List.Forall₂ (PartOf (AnswersOf settings t.known) (t.PlanFor settings)) compound parts ∧
      plan = [[assembleStep combinator parts]] := by
  rw [PlanFor, planOf_eq] at h
  obtain ⟨steps, rfl, hsteps⟩ := exists_of_forall₂_singleton h
  obtain ⟨step, rfl, hstep⟩ := exists_of_forall₂_singleton hsteps
  cases hstep with
  | assemble hparts =>
    exact ⟨_, hparts.imp fun _ _ hpart => hpart.imp fun _ _ => planFor_of_nested, rfl⟩

@[simp] theorem runBranches_singleton (s : Plan.Step) (x : Nat) :
    runBranches (t.toEngine : Engine Id Nat) [[s]] x = s.run (t.toEngine : Engine Id Nat) [x] := by
  have hsteps : runSteps (t.toEngine : Engine Id Nat) [s] [x] = s.run (t.toEngine : Engine Id Nat) [x] := by
    rw [runSteps]
    refine (bind_congr fun found => ?_).trans (bind_pure _)
    cases found <;> simp [runSteps]
  rw [runBranches, hsteps, runBranches]
  simp

@[simp] theorem passesAll_singleton (f : Filter) (x : Nat) :
    passesAll (t.toEngine : Engine Id Nat) [f] x = f.passes (t.toEngine : Engine Id Nat) x := by
  rw [passesAll]
  refine (bind_congr fun b => ?_).trans (bind_pure _)
  cases b <;> simp [passesAll]

/-- All elements of the document, in document order. -/
def elements (t : TreeEngine) : List Nat := t.document.order.filter t.document.isElement

/-- The step of filtered elements finds all elements. -/
theorem findsBelow_filtered {nested : SelectorList → Plan → Prop} {known : Answers}
    {parts : List StepPart} (hparts : List.Forall₂ (PartOf known nested) (filteredCompound uses) parts) :
    t.FindsBelow (assembleStep .descendant parts).locator t.document.isElement := by
  have hstructural : ∀ {use kind}, SimpleSelector.pseudo use ∈ filteredCompound uses →
      PseudoClass.ofName? use.name ≠ some (.structural kind) := by
    intro use kind huse hname
    have hqueried := isQueried_filtered _ huse
    rw [isQueried_pseudo hname] at hqueried
    cases hqueried
  have hnative : parts.all (·.known) = true := by
    refine List.all_eq_true.2 fun part hpart => ?_
    obtain ⟨x, hx, hpart⟩ := forall₂_exists_left hparts hpart
    cases hpart with
    | structural hname => exact absurd hname (hstructural hx)
    | _ => rfl
  have hread : Compound.Readable (filteredCompound uses) := by
    refine ⟨List.cons_ne_nil _ _, List.forall_mem_cons.2 ⟨trivial, ?_⟩, ?_⟩
    · intro x hx
      obtain ⟨u, -, rfl⟩ := List.mem_map.1 hx
      trivial
    · intro x hx
      obtain ⟨u, -, rfl⟩ := List.mem_map.1 hx
      exact not_false
  have hplain : (filteredCompound uses).plainlyWritten := by
    refine List.all_eq_true.2 (List.forall_mem_cons.2 ⟨rfl, fun x hx => ?_⟩)
    obtain ⟨u, -, rfl⟩ := List.mem_map.1 hx
    rfl
  have hfinds := findsBelow_native (t := t) hparts
    (fun x hx use kind huse hname => absurd hname (hstructural (huse ▸ hx))) hread hplain
  simp only [meets_filtered] at hfinds
  rwa [locator_assembleStep .descendant hnative]

private theorem located_root (h : t.document.Grown) :
    t.document.located t.document.isElement .descendant [Document.root] = t.elements := by
  apply List.filter_congr
  intro y hy
  cases helement : t.document.isElement y with
  | false => rfl
  | true =>
    rcases List.mem_cons.1 hy with rfl | hy
    · rw [h.not_isElement_root] at helement
      cases helement
    · simpa [Document.reach] using hy

/-- Filtered selections keep the elements that pass the filters for the pseudo-classes. -/
theorem exists_filters_of_selects (h : t.document.Grown) (hnested : ∀ u ∈ uses, Nested none 0 0 u.2)
    (hselects : t.Selects settings ("*" ++ uses.flatMap fun u => u.1.text u.2) found) :
    ∃ filters, List.Forall₂ (fun u f => FilterOf (t.PlanFor settings) u.1 (u.1.use u.2) f) uses filters ∧
      keep (passesAll (t.toEngine : Engine Id Nat) filters) t.elements = pure found := by
  obtain ⟨list, plan, all, hread, hplan, hrun, rfl⟩ := exists_of_selects hselects
  obtain rfl := Except.ok.inj ((read_filtered hnested).symm.trans hread)
  obtain ⟨parts, hparts, rfl⟩ := exists_step_of_planFor hplan
  rw [runBranches_singleton] at hrun
  have hfinds := findsBelow_filtered (t := t) hparts
  have hwidened := widened_assembleStep hparts
  rw [← hwidened] at hfinds
  have hlocate : locate (t.toEngine : Engine Id Nat) [Document.root] .descendant
      (assembleStep .descendant parts).locator =
        pure (t.document.located t.document.isElement .descendant [Document.root]) :=
    locate_toEngine h.linked hfinds h.not_isElement_root (fun _ => hwidened)
      (List.singleton_sublist.2 Document.Linked.root_mem_order) (absurd rfl)
  have hkeep : keep (passesAll (t.toEngine : Engine Id Nat) (parts.filterMap (·.filter?))) t.elements =
      pure all := by
    rw [located_root h] at hlocate
    change Plan.Step.run _ (.mk .descendant (assembleStep .descendant parts).locator _) _ = _ at hrun
    rw [Plan.Step.run, hlocate, pure_bind] at hrun
    exact hrun
  have hnodup : all.Nodup :=
    h.linked.nodup_order.sublist ((keep_sublist hkeep).trans List.filter_sublist)
  have hfilters := forall₂_filterOf hparts
  rw [← Compound.refinings, refinings_filtered, List.forall₂_map_left_iff] at hfilters
  rw [eraseDups_of_nodup hnodup]
  exact ⟨_, hfilters, hkeep⟩

end TreeEngine

end CssLocator
