import CssLocator.Proofs.CompoundTests
import CssLocator.Proofs.ExecutedBranches
import CssLocator.Proofs.NestedLists
import CssLocator.Proofs.SelectorShapes

/-!
# Tested searches

What a selector list finds in a document, told without plans and queries: from left to right each
compound selects the elements that pass its test and its refining pseudo-classes and are related to an
element found before. A compiled plan finds just this, whatever queries it is made of, if the locators of
its steps find the elements that pass the tests.
-/

namespace CssLocator

open Plan

namespace Document

/-- The value of `lang` at a node or its nearest ancestor that has one, looking at no more than the
given number of nodes. -/
def languageWithin? (d : Document) : Nat → Nat → Option Text
  | 0, _ => none
  | n + 1, x =>
    match d.attribute? x "lang" with
    | some language => some language
    | none => (d.parentElement? x).bind (languageWithin? d n)

/-- The inherited language of a node. -/
def language? (d : Document) (x : Nat) : Option Text := d.languageWithin? (d.size + 1) x

def isVisible (d : Document) (x : Nat) : Bool := d.isDisplayed x && d.tag x != "title"

end Document

/-- Whether an element passes a refining pseudo-class, given what lists find from a node. -/
def Refining.admits (d : Document) (find : SelectorList → Nat → List Nat) (x : Nat) (kind : Refining)
    (use : PseudoUse) : Bool :=
  match kind with
  | has => (has.argument? use).any fun list => !(find list x).isEmpty
  | not => (not.argument? use).any fun list => !(find list Document.root).contains x
  | lang => (d.language? x).any (languageMatches · (languageCode use.argumentText))
  | visible => d.isVisible x
  | hidden => !d.isVisible x

/-- Whether an element passes the test and the refining pseudo-classes of a compound. -/
def Compound.testedSelects (d : Document) (test : Compound → Nat → Bool)
    (find : SelectorList → Nat → List Nat) (x : Nat) (c : Compound) : Bool :=
  test c x && c.refinings.all fun (kind, use) => kind.admits d find x use

/-- The elements that a complex selector leads to from the candidates. -/
def Complex.testedSearch (d : Document) (test : Compound → Nat → Bool)
    (find : SelectorList → Nat → List Nat) (complex : Complex) (candidates : List Nat) : List Nat :=
  complex.foldl
    (fun found (combinator, compound) =>
      d.located (compound.testedSelects d test find ·) combinator found)
    candidates

namespace SelectorList

/-- What a list finds from a node, given what the lists in its arguments find. -/
def testedSearchWith (d : Document) (test : Compound → Nat → Bool)
    (find : SelectorList → Nat → List Nat) (list : SelectorList) (x : Nat) : List Nat :=
  list.flatMap fun complex => Complex.testedSearch d test find complex [x]

/-- What a list finds from a node, one complex selector after the other, if selectors are nested no
deeper than the given number of arguments. -/
def testedSearch (d : Document) (test : Compound → Nat → Bool) :
    (depth : Nat) → SelectorList → Nat → List Nat
  | 0 => testedSearchWith d test fun _ _ => []
  | n + 1 => testedSearchWith d test (testedSearch d test n)

theorem exists_testedSearch_eq (d : Document) (test : Compound → Nat → Bool) (n : Nat) :
    ∃ find, testedSearch d test n = testedSearchWith d test find := by
  cases n <;> exact ⟨_, rfl⟩

end SelectorList

namespace TreeEngine

variable {t : TreeEngine} {known : Answers} {m : Type → Type} [Monad m]
  {find : SelectorList → Nat → List Nat} {nested : SelectorList → Plan → Prop} {x : Nat}

theorem attributeValue_toEngine (hx : x ∈ t.document.order) (name : Text) :
    (t.toEngine : Engine m Nat).attributeValue x name = pure (t.document.attribute? x name) := by
  show ofExcept (t.attributeValue x name) = _
  rw [attributeValue, checkAttached_of_mem hx]
  rfl

variable [LawfulMonad m]

private theorem languageWithin?_toEngine (h : t.document.Rooted) (n : Nat) (hx : x ∈ t.document.order)
    (helement : t.document.isElement x) :
    (t.toEngine : Engine m Nat).languageWithin? n x = pure (t.document.languageWithin? n x) := by
  induction n generalizing x with
  | zero => rfl
  | succ n ih =>
    rw [Engine.languageWithin?, attributeValue_toEngine hx, pure_bind, Document.languageWithin?]
    cases t.document.attribute? x "lang" with
    | some language => rfl
    | none =>
      dsimp only
      rw [parent?_toEngine h.linked hx, pure_bind]
      cases hparent : t.document.parentElement? x with
      | none => rfl
      | some p =>
        have hp := h.settled hx helement p hparent
        exact ih hp (Document.parentElement?_eq_some.1 hparent).2

private theorem isVisible_toEngine (hx : x ∈ t.document.order) (helement : t.document.isElement x) :
    (t.toEngine : Engine m Nat).isVisible x = pure (t.document.isVisible x) := by
  have hdisplayed : (t.toEngine : Engine m Nat).isDisplayed x = pure (t.document.isDisplayed x) := by
    show ofExcept (t.isDisplayed x) = _
    rw [isDisplayed, checkAttached_of_mem hx]
    rfl
  have htag : (t.toEngine : Engine m Nat).tagName x = pure (t.document.tag x) := by
    show ofExcept (t.tagName x) = _
    rw [tagName, checkAttached_of_mem hx]
    unfold Document.isElement Document.element? at helement
    unfold Document.tag Document.element?
    split at helement
    · rename_i tag attributes hkind
      rw [hkind]
      rfl
    · cases helement
  unfold Engine.isVisible Document.isVisible
  rw [hdisplayed, pure_bind]
  cases t.document.isDisplayed x with
  | false => rfl
  | true =>
    rw [if_pos rfl, htag, pure_bind]
    rfl

/-- The plans that belong to the list find what the list is said to find. From a root with a parent,
which is not attached then, only lists are run whose selectors begin with a plain compound. -/
def RunsAs (t : TreeEngine) (m : Type → Type) [Monad m] (nested : SelectorList → Plan → Prop)
    (find : SelectorList → Nat → List Nat) (list : SelectorList) : Prop :=
  ∀ plan, nested list plan → ∀ x ∈ t.document.order,
    (t.document.Settled x ∨ ∀ complex ∈ list, Complex.BeginsPlainly complex) →
      runBranches (t.toEngine : Engine m Nat) plan x = pure (find list x)

/-- A filter lets pass what its pseudo-class admits. -/
theorem passes_toEngine (h : t.document.Rooted) {kind : Refining} {use : PseudoUse} {f : Filter}
    (hfilter : FilterOf nested kind use f)
    (hnested : ∀ list, kind.argument? use = some list → t.RunsAs m nested find list)
    (hx : x ∈ t.document.order) (helement : t.document.isElement x) :
    f.passes (t.toEngine : Engine m Nat) x = pure (kind.admits t.document find x use) := by
  cases hfilter with
  | @has use list plan hread hplan =>
    have hargument : Refining.has.argument? use = some list := toOption_eq_some.2 hread
    have hrun := hnested list hargument plan hplan x hx (.inl (h.settled hx helement))
    rw [Filter.passes, hrun, pure_bind, Refining.admits, hargument]
    rfl
  | @not use list plan hread hplan =>
    have hargument : Refining.not.argument? use = some list := toOption_eq_some.2 hread
    have hroot := hnested list hargument plan hplan _ Document.Linked.root_mem_order
      (.inr (read_eq_ok_iff_relative.1 hread).2)
    rw [Filter.passes, Refining.admits, hargument]
    show runBranches _ plan Document.root >>= _ = _
    rw [hroot, pure_bind]
    rfl
  | lang =>
    rw [Filter.passes, Engine.language?, languageWithin?_toEngine h _ hx helement, pure_bind]
    rfl
  | visible =>
    rw [Filter.passes, isVisible_toEngine hx helement]
    rfl
  | hidden =>
    rw [Filter.passes, isVisible_toEngine hx helement, pure_bind]
    rfl

private theorem passesAll_toEngine (h : t.document.Rooted) {uses : List (Refining × PseudoUse)}
    {filters : List Filter}
    (hfilters : List.Forall₂ (fun u f => FilterOf nested u.1 u.2 f) uses filters)
    (hnested : ∀ u ∈ uses, ∀ list, u.1.argument? u.2 = some list → t.RunsAs m nested find list)
    (hx : x ∈ t.document.order) (helement : t.document.isElement x) :
    passesAll (t.toEngine : Engine m Nat) filters x =
      pure (uses.all fun u => u.1.admits t.document find x u.2) := by
  induction hfilters with
  | nil => rw [passesAll, List.all_nil]
  | @cons u f uses filters hfilter _ ih =>
    have hfirst := passes_toEngine h hfilter (hnested u List.mem_cons_self) hx helement
    have hrest := ih fun v hv => hnested v (List.mem_cons_of_mem u hv)
    rw [passesAll, hfirst, pure_bind, List.all_cons]
    cases u.1.admits t.document find x u.2 with
    | false => rfl
    | true => exact hrest

/-- Whatever locator a step of the compound has, it finds the elements that pass the test. -/
def LocatesBy (t : TreeEngine) (known : Answers) (compound : Compound) (test : Nat → Bool) : Prop :=
  ∀ {nested : SelectorList → Plan → Prop} {parts : List StepPart} (combinator : Combinator),
    List.Forall₂ (PartOf known nested) compound parts →
      t.FindsBelow (assembleStep combinator parts).locator.widened test

@[simp] theorem filter_located {d : Document} {test test' : Nat → Bool} (combinator : Combinator)
    (candidates : List Nat) : (d.located test combinator candidates).filter test' =
      d.located (fun y => test y && test' y) combinator candidates := by
  rw [Document.located, Document.located, List.filter_filter]
  apply List.filter_congr
  intro y _
  rw [← Bool.and_assoc, Bool.and_comm (test' y)]

section

variable {test : Compound → Nat → Bool} (h : t.document.Rooted)
  (htest : ∀ c y, test c y → t.document.isElement y)
include h htest

private theorem run_assembleStep {compound : Compound} {parts : List StepPart}
    (combinator : Combinator) (hparts : List.Forall₂ (PartOf known nested) compound parts)
    (hlocates : t.LocatesBy known compound (test compound))
    (hnested : ∀ list ∈ compound.arguments, t.RunsAs m nested find list) {candidates : List Nat}
    (hc : candidates.Sublist t.document.order)
    (hsettled : combinator ≠ .descendant → ∀ x ∈ candidates, t.document.Settled x) :
    (assembleStep combinator parts).run (t.toEngine : Engine m Nat) candidates =
      pure (t.document.located (compound.testedSelects t.document test find ·) combinator
        candidates) := by
  have hroot : test compound Document.root = false := by
    by_contra htrue
    rw [Bool.not_eq_false] at htrue
    exact absurd (htest _ _ htrue) (by simp [h.not_isElement_root])
  have hwidened : combinator = .descendant →
      (assembleStep combinator parts).locator.widened = (assembleStep combinator parts).locator := by
    rintro rfl
    exact widened_assembleStep hparts
  have hlocate := locate_toEngine (m := m) h.linked (hlocates combinator hparts) hroot hwidened hc
    hsettled
  have harguments : ∀ u ∈ compound.refinings, ∀ list, u.1.argument? u.2 = some list →
      t.RunsAs m nested find list := fun u hu list hlist =>
    hnested list (List.mem_filterMap.2 ⟨u, hu, hlist⟩)
  have hkeep : ∀ y ∈ t.document.located (test compound) combinator candidates,
      passesAll (t.toEngine : Engine m Nat) (parts.filterMap (·.filter?)) y =
        pure (compound.refinings.all fun u => u.1.admits t.document find y u.2) := by
    intro y hy
    obtain ⟨hattached, hpasses, -⟩ := Document.mem_located.1 hy
    exact passesAll_toEngine h (forall₂_filterOf hparts) harguments hattached (htest _ _ hpasses)
  show Plan.Step.run t.toEngine (.mk combinator (assembleStep combinator parts).locator
    (parts.filterMap (·.filter?))) candidates = _
  rw [Plan.Step.run, hlocate, pure_bind, keep_eq_pure hkeep, filter_located]
  rfl

omit h htest in
@[simp] theorem located_nil {d : Document} (test : Nat → Bool) (combinator : Combinator) :
    d.located test combinator [] = [] := by
  apply List.filter_eq_nil_iff.2
  intro y _
  simp

omit h htest in
@[simp] theorem testedSearch_nil (d : Document) (test : Compound → Nat → Bool)
    (find : SelectorList → Nat → List Nat) (complex : Complex) :
    complex.testedSearch d test find [] = [] := by
  induction complex with
  | nil => rfl
  | cons p complex ih =>
    simpa [Complex.testedSearch] using ih

/-- The steps of a branch find what their complex selector leads to. -/
theorem runSteps_toEngine {complex : Complex} {steps : List Plan.Step}
    (hsteps : List.Forall₂ (StepOf known nested) complex steps)
    (hlocates : ∀ p ∈ complex, t.LocatesBy known p.2 (test p.2))
    (hnested : ∀ p ∈ complex, ∀ list ∈ Compound.arguments p.2, t.RunsAs m nested find list)
    {candidates : List Nat} (hc : candidates.Sublist t.document.order)
    (hsettled : (∀ x ∈ candidates, t.document.Settled x) ∨ complex.BeginsPlainly) :
    runSteps (t.toEngine : Engine m Nat) steps candidates =
      pure (complex.testedSearch t.document test find candidates) := by
  induction hsteps generalizing candidates with
  | nil => rw [runSteps]; rfl
  | @cons p s complex steps hstep hsteps ih =>
    cases hstep with
    | @assemble combinator compound parts hparts =>
      have hfirst : combinator ≠ .descendant → ∀ x ∈ candidates, t.document.Settled x := by
        intro hne
        exact hsettled.resolve_right fun hplain => hne (Option.some.inj hplain)
      have hrun := run_assembleStep h htest combinator hparts (hlocates _ List.mem_cons_self)
        (hnested _ List.mem_cons_self) hc hfirst
      have hsearch : Complex.testedSearch t.document test find ((combinator, compound) :: complex)
          candidates = Complex.testedSearch t.document test find complex
            (t.document.located (Compound.testedSelects t.document test find · compound) combinator
              candidates) := rfl
      rw [runSteps, hrun, pure_bind, hsearch]
      have hsublist : (t.document.located (Compound.testedSelects t.document test find · compound)
          combinator candidates).Sublist t.document.order := List.filter_sublist
      have hfound : ∀ y ∈ t.document.located (Compound.testedSelects t.document test find · compound)
          combinator candidates, t.document.Settled y := by
        intro y hy
        obtain ⟨hattached, hselects, -⟩ := Document.mem_located.1 hy
        rw [Compound.testedSelects, Bool.and_eq_true] at hselects
        exact h.settled hattached (htest _ _ hselects.1)
      cases hlocated : t.document.located (Compound.testedSelects t.document test find · compound)
          combinator candidates with
      | nil => simp
      | cons y ys =>
        rw [hlocated] at hsublist hfound
        exact ih (fun q hq => hlocates q (List.mem_cons_of_mem _ hq))
          (fun q hq => hnested q (List.mem_cons_of_mem _ hq)) hsublist (.inl hfound)

private theorem runBranches_testedSearchWith {list : SelectorList} {plan : Plan}
    (hplan : BranchesOf known nested list plan)
    (hlocates : ∀ c ∈ list.compounds, t.LocatesBy known c (test c))
    (hnested : ∀ c ∈ list.compounds, ∀ inner ∈ c.arguments, t.RunsAs m nested find inner)
    (hx : x ∈ t.document.order)
    (hsettled : t.document.Settled x ∨ ∀ complex ∈ list, Complex.BeginsPlainly complex) :
    runBranches (t.toEngine : Engine m Nat) plan x =
      pure (list.testedSearchWith t.document test find x) := by
  induction hplan with
  | nil => rw [runBranches]; rfl
  | @cons complex steps list plan hsteps _ ih =>
    have hhead : ∀ p ∈ complex, p.2 ∈ SelectorList.compounds (complex :: list) := by
      intro p hp
      exact List.mem_flatMap.2 ⟨complex, List.mem_cons_self, List.mem_map_of_mem hp⟩
    have htail : ∀ c ∈ SelectorList.compounds list, c ∈ SelectorList.compounds (complex :: list) := by
      intro c hc
      obtain ⟨other, hother, hc⟩ := List.mem_flatMap.1 hc
      exact List.mem_flatMap.2 ⟨other, List.mem_cons_of_mem _ hother, hc⟩
    have hbranch := runSteps_toEngine h htest hsteps (fun p hp => hlocates _ (hhead p hp))
      (fun p hp => hnested _ (hhead p hp)) (List.singleton_sublist.2 hx)
      (hsettled.imp (fun hx => List.forall_mem_singleton.2 hx) fun hplain =>
        hplain complex List.mem_cons_self)
    have hrest := ih (fun c hc => hlocates c (htail c hc)) (fun c hc => hnested c (htail c hc))
      (hsettled.imp_right fun hplain other hother => hplain other (List.mem_cons_of_mem _ hother))
    rw [runBranches, hbranch, pure_bind, hrest, pure_bind]
    rfl

omit h htest in
private theorem readable_of_mem_arguments {compound : Compound} {list : SelectorList}
    (h : list ∈ compound.arguments) : list.Readable := by
  obtain ⟨x, -, relative, hread⟩ := exists_read_of_mem_arguments h
  exact SelectorList.readable_of_read hread

omit h htest in
private theorem readable_of_mem_compounds {list : SelectorList} (h : list.Readable)
    {compound : Compound} (hc : compound ∈ list.compounds) : Compound.Readable compound := by
  obtain ⟨complex, hcomplex, hc⟩ := List.mem_flatMap.1 hc
  obtain ⟨q, hq, rfl⟩ := List.mem_map.1 hc
  exact h complex hcomplex q hq

/-- A plan finds what the selector list it was compiled from is said to find, if the locator of every
compound, of those in arguments too, goes by its test. -/
theorem runBranches_testedSearch {p : Compound → Bool}
    (hp : ∀ compound, Compound.Readable compound → p compound →
      t.LocatesBy known compound (test compound)) {n : Nat} {list : SelectorList} {plan : Plan}
    (hplan : PlanOf known n list plan) (hread : list.Readable) (hall : list.everywhere p n)
    (hx : x ∈ t.document.order)
    (hsettled : t.document.Settled x ∨ ∀ complex ∈ list, Complex.BeginsPlainly complex) :
    runBranches (t.toEngine : Engine m Nat) plan x = pure (list.testedSearch t.document test n x) := by
  induction n generalizing list plan x with
  | zero =>
    have hcompounds := List.all_eq_true.1 hall
    apply runBranches_testedSearchWith h htest hplan _ _ hx hsettled
    · exact fun c hc => hp c (readable_of_mem_compounds hread hc) (hcompounds c hc)
    · exact fun c _ inner _ plan hnone => hnone.elim
  | succ n ih =>
    have hcompounds := List.all_eq_true.1 hall
    simp only [Bool.and_eq_true] at hcompounds
    apply runBranches_testedSearchWith h htest hplan _ _ hx hsettled
    · exact fun c hc => hp c (readable_of_mem_compounds hread hc) (hcompounds c hc).1
    · intro c hc inner hinner plan hplan y hy hsettled
      have hinnerAll := List.all_eq_true.1 (hcompounds c hc).2 inner hinner
      exact ih hplan (readable_of_mem_arguments hinner) hinnerAll hy hsettled

/-- Run as a whole, the plan of a selector finds each of these elements once. -/
theorem run_planOf {p : Compound → Bool}
    (hp : ∀ compound, Compound.Readable compound → p compound →
      t.LocatesBy known compound (test compound)) {n : Nat} {selector : Text} {list : SelectorList}
    {plan : Plan} (hplan : PlanOf known n list plan)
    (hread : SelectorList.read false selector = .ok list) (hall : list.everywhere p n)
    (hx : x ∈ t.document.order) :
    (Plan.run (t.toEngine : Engine Id Nat) plan x).run =
      .ok (list.testedSearch t.document test n x).eraseDups := by
  have hrun := runBranches_testedSearch (m := Id) h htest hp hplan
    (SelectorList.readable_of_read hread) hall hx (.inr (read_eq_ok_iff_relative.1 hread).2)
  rw [Plan.run, hrun, pure_bind]
  rfl

/-- A selector without fault is compiled to a plan that does. -/
theorem run_compiled {p : Compound → Bool}
    (hp : ∀ compound, Compound.Readable compound → p compound →
      t.LocatesBy known compound (test compound))
    {settings : Settings} (hanswers : AnswersTo settings (t.toEngine : Engine Id Nat) known)
    {table : SupportTable} (htable : table.Tells known t.capability) {selector : Text}
    {list : SelectorList} (hfault : selectorFault? settings.maxNesting selector = none)
    (hread : SelectorList.read false selector = .ok list)
    (hall : list.everywhere p settings.maxNesting) (hx : x ∈ t.document.order) :
    ∃ plan, ((compile settings (t.toEngine : Engine Id Nat) selector).run.run table).1 = .ok plan ∧
      (Plan.run (t.toEngine : Engine Id Nat) plan x).run =
        .ok (list.testedSearch t.document test settings.maxNesting x).eraseDups := by
  obtain ⟨plan, hplan, hplanOf⟩ := exists_planOf hanswers htable hfault hread
  exact ⟨plan, hplan, run_planOf h htest hp hplanOf hread hall hx⟩

end

end TreeEngine

end CssLocator
