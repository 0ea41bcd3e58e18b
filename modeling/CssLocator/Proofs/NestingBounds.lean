import CssLocator.Proofs.NestedLists
import CssLocator.Proofs.TreeEngineProbes

/-!
# Bounds on nesting

How deep plans are nested in the filters of a compiled plan is all that a bound on nesting looks at. A
plan within one bound is the plan within every larger bound, and a list whose plan is nested deeper than
a bound is refused under that bound for this reason and no other.
-/

namespace CssLocator

namespace Plan

mutual

/-- How deep plans are nested in a filter. -/
def Filter.depth : Filter → Nat
  | .has branches => depth branches + 1
  | .not branches => depth branches + 1
  | .lang _ | .visible | .hidden => 0

def filtersDepth : List Filter → Nat
  | [] => 0
  | f :: fs => max f.depth (filtersDepth fs)

def Step.depth : Step → Nat
  | .mk _ _ filters => filtersDepth filters

def stepsDepth : List Step → Nat
  | [] => 0
  | s :: steps => max s.depth (stepsDepth steps)

/-- How deep plans are nested in the filters of a plan. -/
def depth : Plan → Nat
  | [] => 0
  | steps :: branches => max (stepsDepth steps) (depth branches)

end

end Plan

variable {known : Answers} {nested nested' : SelectorList → Plan → Prop} {n n' limit limit' : Nat}
  {list : SelectorList} {plan : Plan}

theorem PartOf.imp {x : SimpleSelector} {part : StepPart} (h : PartOf known nested x part)
    (hnested : ∀ list plan, nested list plan → nested' list plan) : PartOf known nested' x part := by
  cases h with
  | universal => exact .universal
  | tag name => exact .tag name
  | className name => exact .className name
  | id name => exact .id name
  | hasAttribute name test => exact .hasAttribute name test
  | structural hname hread hknown => exact .structural hname hread hknown
  | refining hname hfilter => exact .refining hname (hfilter.imp hnested)

theorem BranchesOf.mono (h : BranchesOf known nested list plan)
    (hnested : ∀ list plan, nested list plan → nested' list plan) :
    BranchesOf known nested' list plan := by
  refine List.Forall₂.imp (fun _ _ => List.Forall₂.imp fun _ _ hstep => ?_) h
  cases hstep with
  | assemble hparts => exact .assemble (hparts.imp fun _ _ hpart => hpart.imp hnested)

/-- A plan within a bound is the plan within every larger bound. -/
theorem PlanOf.mono (h : PlanOf known n list plan) (hn : n ≤ n') : PlanOf known n' list plan := by
  induction n generalizing n' list plan with
  | zero =>
    rw [planOf_eq] at h ⊢
    exact h.mono fun _ _ => False.elim
  | succ n ih =>
    obtain ⟨k, rfl⟩ : ∃ k, n' = k + 1 := ⟨n' - 1, by omega⟩
    exact h.mono fun _ _ hplan => ih hplan (by omega)

/-- The fault of what is nested as deep as the second number, where the first one is allowed. -/
def tooDeep (limit allowance depth : Nat) : Option SelectorError :=
  if depth ≤ allowance then none else some (.nestedTooDeep limit)

@[simp] theorem tooDeep_eq_none {k : Nat} : tooDeep limit n k = none ↔ k ≤ n := by
  unfold tooDeep
  split <;> simp_all

@[simp] theorem tooDeep_zero (limit n : Nat) : tooDeep limit n 0 = none := if_pos (Nat.zero_le n)

@[simp] theorem tooDeep_succ (limit n k : Nat) :
    tooDeep limit (n + 1) (k + 1) = tooDeep limit n k := by
  simp [tooDeep]

@[simp] theorem tooDeep_max (limit n k k' : Nat) :
    tooDeep limit n (max k k') = (tooDeep limit n k).or (tooDeep limit n k') := by
  simp only [tooDeep, Nat.max_le]
  by_cases hk : k ≤ n
  · by_cases hk' : k' ≤ n
    · simp [hk, hk']
    · simp [hk, hk']
  · simp [hk]

/-- The first fault in a list goes by the largest depth. -/
theorem findSome?_eq_tooDeep {α β : Type} {rel : α → β → Prop} {f f' : α → Option SelectorError}
    (depth : β → Nat) (total : List β → Nat) (hnil : total [] = 0)
    (hcons : ∀ y ys, total (y :: ys) = max (depth y) (total ys))
    (hentry : ∀ x y, rel x y → f' x = none → f x = tooDeep limit n (depth y)) {l : List α}
    {l' : List β} (h : List.Forall₂ rel l l') (hnone : l.findSome? f' = none) :
    l.findSome? f = tooDeep limit n (total l') := by
  induction h with
  | nil => simp [hnil]
  | @cons x y xs ys hxy _ ih =>
    rw [List.findSome?_eq_none_iff, List.forall_mem_cons] at hnone
    have hrest := ih (List.findSome?_eq_none_iff.2 hnone.2)
    rw [hcons, tooDeep_max, ← hrest, ← hentry x y hxy hnone.1, List.findSome?_cons]
    cases f x <;> rfl

/-- The fault of what is nested in a list, under a bound, goes by the depth of its plan if there is none
under another bound. -/
def FaultByDepth (nested : SelectorList → Plan → Prop)
    (fault fault' : SelectorList → Option SelectorError) (limit n : Nat) : Prop :=
  ∀ list plan, nested list plan → fault' list = none → fault list = tooDeep limit n (plan.depth + 1)

section

variable {fault fault' : SelectorList → Option SelectorError}
  (hnested : FaultByDepth nested fault fault' limit n)
include hnested

private theorem Refining.fault?_eq_tooDeep {kind : Refining} {use : PseudoUse} {f : Plan.Filter}
    (hfilter : FilterOf nested kind use f) (h : kind.fault? fault' use = none) :
    kind.fault? fault use = tooDeep limit n f.depth := by
  unfold Refining.fault? at h ⊢
  cases hcheck : kind.check use with
  | error e => simp [hcheck] at h
  | ok _ =>
    rw [hcheck] at h
    cases hfilter with
    | @has use list plan hread hplan =>
      simp only [hread] at h ⊢
      rw [hnested list plan hplan h, Plan.Filter.depth]
    | @not use list plan hread hplan =>
      simp only [hread] at h ⊢
      rw [hnested list plan hplan h, Plan.Filter.depth]
    | _ => exact h.trans (tooDeep_zero limit n).symm

private theorem SimpleSelector.fault?_eq_tooDeep {x : SimpleSelector} {part : StepPart}
    (hpart : PartOf known nested x part) (h : x.fault? fault' = none) :
    x.fault? fault = tooDeep limit n (Plan.filtersDepth part.filter?.toList) := by
  have hzero := (tooDeep_zero limit n).symm
  cases hpart with
  | structural hname hread =>
    simp only [SimpleSelector.fault?, hname] at h ⊢
    exact h.trans hzero
  | refining hname hfilter =>
    simp only [SimpleSelector.fault?, hname] at h ⊢
    rw [Refining.fault?_eq_tooDeep hnested hfilter h]
    simp [StepPart.filter?, Plan.filtersDepth]
  | _ => exact hzero

private theorem Compound.fault?_eq_tooDeep {compound : Compound} {parts : List StepPart}
    (hparts : List.Forall₂ (PartOf known nested) compound parts)
    (h : compound.findSome? (SimpleSelector.fault? fault') = none) :
    compound.findSome? (SimpleSelector.fault? fault) =
      tooDeep limit n (Plan.filtersDepth (parts.filterMap (·.filter?))) := by
  refine findSome?_eq_tooDeep (fun part => Plan.filtersDepth part.filter?.toList)
    (fun parts => Plan.filtersDepth (parts.filterMap (·.filter?))) rfl (fun part parts => ?_)
    (fun x part hpart => SimpleSelector.fault?_eq_tooDeep hnested hpart) hparts h
  cases hfilter : part.filter? with
  | none => simp [hfilter, Plan.filtersDepth]
  | some f => simp [hfilter, Plan.filtersDepth]

private theorem SelectorList.branchFault?_eq_tooDeep (h : BranchesOf known nested list plan)
    (hnone : list.branchFault? fault' = none) :
    list.branchFault? fault = tooDeep limit n plan.depth := by
  refine findSome?_eq_tooDeep Plan.stepsDepth Plan.depth rfl (fun _ _ => rfl)
    (fun complex steps hsteps hcomplex => ?_) h hnone
  refine findSome?_eq_tooDeep Plan.Step.depth Plan.stepsDepth rfl (fun _ _ => rfl)
    (fun p step hstep hcompound => ?_) hsteps hcomplex
  cases hstep with
  | assemble hparts => exact Compound.fault?_eq_tooDeep hnested hparts hcompound

end

/-- The fault of a list in an argument. -/
def SelectorList.nestedFault? (limit : Nat) : (allowance : Nat) → SelectorList → Option SelectorError
  | 0 => fun _ => some (.nestedTooDeep limit)
  | n + 1 => SelectorList.fault? limit n

theorem SelectorList.fault?_eq (limit n : Nat) (list : SelectorList) :
    list.fault? limit n = list.branchFault? (nestedFault? limit n) := by
  cases n <;> rfl

/-- A list with a plan has no other fault under a bound than that the plan is nested too deep. -/
theorem fault?_eq_tooDeep (hplan : PlanOf known n' list plan) (hnone : list.fault? limit' n' = none) :
    list.fault? limit n = tooDeep limit n plan.depth := by
  induction n generalizing n' list plan with
  | zero =>
    rw [planOf_eq] at hplan
    rw [SelectorList.fault?_eq] at hnone ⊢
    exact SelectorList.branchFault?_eq_tooDeep (fun _ _ _ _ => rfl) hplan hnone
  | succ n ih =>
    rw [planOf_eq] at hplan
    rw [SelectorList.fault?_eq] at hnone ⊢
    refine SelectorList.branchFault?_eq_tooDeep (fun inner plan hinner hinnerNone => ?_) hplan hnone
    cases n' with
    | zero => exact hinner.elim
    | succ k =>
      rw [tooDeep_succ]
      exact ih hinner hinnerNone

private theorem ne_nestedTooDeep_of_checkArgument {name : Text} {takes : Bool} {use : PseudoUse}
    {e : SelectorError}
    (h : checkArgument name takes use = .error e) (b : Nat) : e ≠ .nestedTooDeep b := by
  unfold checkArgument at h
  split at h <;> split at h <;> cases h <;> exact SelectorError.noConfusion

private theorem ne_nestedTooDeep_of_structural {kind : Structural} {use : PseudoUse}
    {e : SelectorError} (h : kind.fault? use = some e) (b : Nat) : e ≠ .nestedTooDeep b := by
  have hread : kind.read use = .error e := by
    unfold Structural.fault? at h
    split at h
    · rename_i hread
      cases h
      exact hread
    · cases h
  unfold Structural.read at hread
  cases hcheck : kind.check use with
  | error e' =>
    rw [hcheck] at hread
    cases hread
    exact ne_nestedTooDeep_of_checkArgument hcheck b
  | ok _ =>
    rw [hcheck] at hread
    change (if kind.takesArgument then kind.argument use else pure ⟨none, none⟩) = .error e at hread
    split at hread
    · unfold Structural.argument AnPlusB.ofArgument at hread
      split at hread <;> cases hread
      exact SelectorError.noConfusion
    · cases hread

private theorem ne_nestedTooDeep_of_read {s : Text} {relative : Bool} {e : SelectorError}
    (h : SelectorList.read relative s = .error e) (b : Nat) : e ≠ .nestedTooDeep b := by
  unfold SelectorList.read at h
  dsimp only at h
  generalize (if (Text.trim s).isEmpty then _ else _ : Except ParseFault SelectorList) = r at h
  cases r with
  | error fault =>
    cases h
    exact SelectorError.noConfusion
  | ok list => cases h

private theorem Refining.exists_of_fault? {fault : SelectorList → Option SelectorError}
    {kind : Refining}
    {use : PseudoUse} {b : Nat} (h : kind.fault? fault use = some (.nestedTooDeep b)) :
    ∃ relative list, SelectorList.read relative use.argumentText = .ok list ∧
      fault list = some (.nestedTooDeep b) := by
  unfold Refining.fault? at h
  cases hcheck : kind.check use with
  | error e =>
    rw [hcheck] at h
    exact absurd (Option.some.inj h) (ne_nestedTooDeep_of_checkArgument hcheck b)
  | ok _ =>
    rw [hcheck] at h
    cases kind with
    | has | not =>
      dsimp only at h
      split at h
      · rename_i hread
        exact absurd (Option.some.inj h) (ne_nestedTooDeep_of_read hread b)
      · rename_i list hread
        exact ⟨_, list, hread, h⟩
    | lang =>
      dsimp only at h
      split at h <;> cases h
    | visible => cases h
    | hidden => cases h

/-- Only what is nested in the argument of a simple selector can be nested too deep. -/
theorem SimpleSelector.exists_of_fault? {fault : SelectorList → Option SelectorError}
    {x : SimpleSelector} {b : Nat} (h : x.fault? fault = some (.nestedTooDeep b)) :
    ∃ relative list, SelectorList.read relative x.argumentText = .ok list ∧
      fault list = some (.nestedTooDeep b) := by
  cases x with
  | pseudo use =>
    unfold SimpleSelector.fault? at h
    dsimp only at h
    split at h
    · cases h
    · exact absurd rfl (ne_nestedTooDeep_of_structural h b)
    · exact Refining.exists_of_fault? h
  | _ => cases h

/-- A bound from the length of the text on is never met, as every argument is shorter than the text that
it stands in. -/
theorem fault?_ne_nestedTooDeep {s : Text} {relative : Bool} (hread : SelectorList.read relative s = .ok list)
    (hs : s.length ≤ n) (b : Nat) : list.fault? limit n ≠ some (.nestedTooDeep b) := by
  induction n generalizing s relative list with
  | zero =>
    obtain rfl := List.length_eq_zero_iff.1 (Nat.le_zero.1 hs)
    cases relative <;> cases hread
  | succ n ih =>
    intro hfault
    obtain ⟨complex, hcomplex, hfault⟩ := List.exists_of_findSome?_eq_some hfault
    obtain ⟨p, hp, hfault⟩ := List.exists_of_findSome?_eq_some hfault
    obtain ⟨x, hx, hfault⟩ := List.exists_of_findSome?_eq_some hfault
    obtain ⟨relative', inner, hinner, hfault⟩ := SimpleSelector.exists_of_fault? hfault
    have hcompound : p.2 ∈ list.compounds :=
      List.mem_flatMap.2 ⟨complex, hcomplex, List.mem_map_of_mem hp⟩
    have hlength := length_argument_of_read hread p.2 hcompound x hx
    exact ih hinner (by omega) hfault

/-- A bound from the length of the selector on is never met. -/
theorem selectorFault?_ne_nestedTooDeep {selector : Text} (h : selector.length ≤ limit) (b : Nat) :
    selectorFault? limit selector ≠ some (.nestedTooDeep b) := by
  unfold selectorFault?
  cases hread : SelectorList.read false selector with
  | error e =>
    intro hfault
    exact ne_nestedTooDeep_of_read hread b (Option.some.inj hfault)
  | ok list => exact fault?_ne_nestedTooDeep hread h b

private theorem selectorFault?_eq_tooDeep {selector : Text}
    (hread : SelectorList.read false selector = .ok list)
    (hplan : PlanOf known n list plan) (hnone : selectorFault? n selector = none) (limit : Nat) :
    selectorFault? limit selector = tooDeep limit limit plan.depth := by
  rw [selectorFault?, hread] at hnone ⊢
  exact fault?_eq_tooDeep hplan hnone

/-- How a compiler with the settings takes an engine that answers probes in a fixed way. -/
def TakenAs (settings : Settings) (answer : Structural → Bool) : Answers :=
  fun kind b => b = (settings.nativeProbing && answer kind)

/-- With fixed answers a list without fault has a plan. -/
theorem exists_planOf_of_no_fault (settings : Settings) (answer : Structural → Bool)
    (h : list.fault? limit n = none) : ∃ plan, PlanOf (TakenAs settings answer) n list plan := by
  let knows : Structural → Compiling Id Bool := fun kind => pure (settings.nativeProbing && answer kind)
  have hknows : ∀ kind, Yields (fun _ => True) none (TakenAs settings answer kind) (knows kind) :=
    fun kind => Yields.pure rfl
  have hyields : Yields (fun _ => True) (list.fault? limit n) (PlanOf (TakenAs settings answer) n list)
      (compileList knows limit n list) :=
    yields_compileList hknows limit n list
  have houtcome := (hyields .empty trivial).of_id.1
  rw [h] at houtcome
  obtain ⟨plan, -, hplan⟩ := houtcome.exists_ok
  exact ⟨plan, hplan⟩

variable {m : Type → Type} [Monad m] [LawfulMonad m] {ν : Type} {engine : Engine m ν}
  {answer : Structural → Bool}

private theorem rightUnique_takenAs (settings : Settings) (answer : Structural → Bool) :
    Relator.RightUnique (TakenAs settings answer) := by
  intro kind b b' hb hb'
  exact hb.trans hb'.symm

/-- Every probe of the engine has one answer, whatever effects the engine has. -/
def AnswersProbes (engine : Engine m ν) (answer : Structural → Bool) : Prop :=
  ∀ kind, Returns (· = answer kind) (probe engine kind)

private theorem yields_compile_of_answersProbes (settings : Settings) (h : AnswersProbes engine answer)
    (selector : Text) :
    Yields (·.Tells (fun kind b => b = answer kind) engine.capability)
      (selectorFault? settings.maxNesting selector)
      (fun plan => ∃ list, SelectorList.read false selector = .ok list ∧
        PlanOf (TakenAs settings answer) settings.maxNesting list plan)
      (compile settings engine selector) := by
  refine yields_compileText (fun kind => Yields.lift fun table htable => ?_) settings.maxNesting selector
  apply returns_supports_of htable
  · intro hprobing
    simp [TakenAs, hprobing]
  · intro hprobing b hlookup
    simp [TakenAs, hprobing, htable kind b hlookup]
  · intro hprobing
    exact (h kind).imp fun b hb => ⟨by simp [TakenAs, hprobing, hb], htable.record hb⟩

/-- A compilation for an engine with fixed answers has one result. -/
theorem exists_result (settings : Settings) (h : AnswersProbes engine answer) (selector : Text) :
    ∃ result : Except SelectorError Plan,
      Outcome (selectorFault? settings.maxNesting selector)
        (fun plan => ∃ list, SelectorList.read false selector = .ok list ∧
          PlanOf (TakenAs settings answer) settings.maxNesting list plan) result ∧
      ∀ table : SupportTable, table.Tells (fun kind b => b = answer kind) engine.capability →
        Returns (fun r => r.1 = result) ((compile settings engine selector).run.run table) := by
  have hexists : ∃ result : Except SelectorError Plan,
      Outcome (selectorFault? settings.maxNesting selector)
        (fun plan => ∃ list, SelectorList.read false selector = .ok list ∧
          PlanOf (TakenAs settings answer) settings.maxNesting list plan) result := by
    cases hfault : selectorFault? settings.maxNesting selector with
    | some e => exact ⟨.error e, rfl⟩
    | none =>
      unfold selectorFault? at hfault
      cases hread : SelectorList.read false selector with
      | error e => simp [hread] at hfault
      | ok list =>
        rw [hread] at hfault
        obtain ⟨plan, hplan⟩ := exists_planOf_of_no_fault settings answer hfault
        exact ⟨.ok plan, rfl, list, rfl, hplan⟩
  obtain ⟨result, hresult⟩ := hexists
  refine ⟨result, hresult, fun table htable => ?_⟩
  apply (yields_compile_of_answersProbes settings h selector table htable).imp
  rintro r ⟨houtcome, -⟩
  apply houtcome.unique hresult
  rintro plan plan' ⟨list, hread, hplan⟩ ⟨list', hread', hplan'⟩
  obtain rfl := Except.ok.inj (hread.symm.trans hread')
  exact rightUnique_planOf (rightUnique_takenAs settings answer) _ hplan hplan'

/-- Lists cannot be nested in arguments without end, and a bound from the length of the selector on is
never met. A selector has one result under each bound: a plan under a bound is nested no deeper than the
bound and is the plan under every larger one, and if the plan under a larger bound is nested deeper than
a bound, the selector is refused under that bound for this reason. -/
theorem nesting_bound_exact (settings : Settings) (engine : Engine m ν) (answer : Structural → Bool)
    (selector : Text) (h : AnswersProbes engine answer) :
    WellFounded SelectorList.IsArgumentOf ∧
    ∃ result : Nat → Except SelectorError Plan,
      (∀ bound table, table.Tells (fun kind b => b = answer kind) engine.capability →
        Returns (fun r => r.1 = result bound)
          ((compile { settings with maxNesting := bound } engine selector).run.run table)) ∧
      (∀ bound, selector.length ≤ bound → ∀ b, result bound ≠ .error (.nestedTooDeep b)) ∧
      ∀ bound bound', bound ≤ bound' →
        (∀ plan, result bound = .ok plan → Plan.depth plan ≤ bound ∧ result bound' = .ok plan) ∧
        ∀ plan, result bound' = .ok plan → bound < Plan.depth plan →
          result bound = .error (.nestedTooDeep bound) := by
  choose result houtcome hresult using fun bound =>
    exists_result { settings with maxNesting := bound } h selector
  refine ⟨wellFounded_isArgumentOf, result, hresult, ?_, ?_⟩
  · intro bound hbound b hb
    have hfault := houtcome bound
    rw [hb] at hfault
    exact selectorFault?_ne_nestedTooDeep hbound b hfault
  · intro bound bound' hle
    constructor
    · intro plan hplan
      have hout := houtcome bound
      rw [hplan] at hout
      obtain ⟨hnone, list, hread, hplanOf⟩ := hout
      have hfault := selectorFault?_eq_tooDeep hread hplanOf hnone
      have hdepth : plan.depth ≤ bound := tooDeep_eq_none.1 ((hfault bound).symm.trans hnone)
      have hout' := houtcome bound'
      rw [hfault bound', tooDeep_eq_none.2 (hdepth.trans hle)] at hout'
      obtain ⟨plan', hplan', list', hread', hplanOf'⟩ := hout'.exists_ok
      obtain rfl := Except.ok.inj (hread.symm.trans hread')
      obtain rfl := rightUnique_planOf (rightUnique_takenAs settings answer) _ (hplanOf.mono hle) hplanOf'
      exact ⟨hdepth, hplan'⟩
    · intro plan hplan hdeeper
      have hout := houtcome bound'
      rw [hplan] at hout
      obtain ⟨hnone, list, hread, hplanOf⟩ := hout
      have hout' := houtcome bound
      rw [selectorFault?_eq_tooDeep hread hplanOf hnone, tooDeep, if_neg (Nat.not_le.2 hdeeper)] at hout'
      exact hout'.eq_error

/-- The engine of an empty document, which knows one structural pseudo-class, and a plan in a plan in a
plan: it is the same under bounds of two and of five, and a bound of one is too small. -/
theorem nesting_bound_exact_twice :
    AnswersProbes ((TreeEngine.mk .empty [.empty]).toEngine : Engine Id Nat)
      (fun kind => decide (kind ∈ [Structural.empty])) ∧
    ∃ plan, Plan.depth plan = 2 ∧
      ((compile ⟨true, 2⟩ ((TreeEngine.mk .empty [.empty]).toEngine : Engine Id Nat)
        "a:has(> b:not(:empty), i)").run.run .empty).1 = .ok plan ∧
      ((compile ⟨true, 5⟩ ((TreeEngine.mk .empty [.empty]).toEngine : Engine Id Nat)
        "a:has(> b:not(:empty), i)").run.run .empty).1 = .ok plan ∧
      ((compile ⟨true, 1⟩ ((TreeEngine.mk .empty [.empty]).toEngine : Engine Id Nat)
        "a:has(> b:not(:empty), i)").run.run .empty).1 = .error (.nestedTooDeep 1) := by
  have hanswers : AnswersProbes ((TreeEngine.mk .empty [.empty]).toEngine : Engine Id Nat)
      (fun kind => decide (kind ∈ [Structural.empty])) := by
    intro kind
    rw [TreeEngine.probe_toEngine]
    exact Returns.pure rfl
  have hdepth : (((compile ⟨true, 2⟩ ((TreeEngine.mk .empty [.empty]).toEngine : Engine Id Nat)
      "a:has(> b:not(:empty), i)").run.run .empty).1.toOption.any fun plan =>
        Plan.depth plan = 2) = true := by decide +kernel
  obtain ⟨-, result, hresult, -, hexact⟩ := nesting_bound_exact .standard
    ((TreeEngine.mk .empty [.empty]).toEngine : Engine Id Nat) _ "a:has(> b:not(:empty), i)" hanswers
  have hcompile := fun bound =>
    (hresult bound .empty (SupportTable.tells_empty _ _)).of_id
  obtain ⟨plan, hplan, hdepth⟩ := (Option.any_eq_true _ _).1 hdepth
  have hplan2 := toOption_eq_some.1 hplan
  have hdepth2 : Plan.depth plan = 2 := of_decide_eq_true hdepth
  have hresult2 : result 2 = .ok plan := (hcompile 2).symm.trans hplan2
  have hlarger := ((hexact 2 5 (by decide)).1 plan hresult2).2
  have hsmaller := (hexact 1 2 (by decide)).2 plan hresult2 (by omega)
  exact ⟨hanswers, plan, hdepth2, hplan2, (hcompile 5).trans hlarger, (hcompile 1).trans hsmaller⟩

end CssLocator
