import CssLocator.Proofs.LocatedElements
import CssLocator.Proofs.NativeLocators

/-!
# Locators of compiled steps

A compiled step has a native locator, or a path to the elements that its predicate decides. Either
way it is refused from everywhere or tests what is below its context, and so it is local: asked from a
node, it finds those of the elements it finds in the whole document that are below the node.
-/

namespace CssLocator

open XPath

variable {known : Answers} {nested : SelectorList → Plan → Prop} {compound : Compound}
  {parts : List StepPart}

@[simp] theorem combinator_assembleStep (combinator : Combinator) (parts : List StepPart) :
    (assembleStep combinator parts).combinator = combinator := rfl

@[simp] theorem widened_native (s : Text) : (Locator.native s).widened = .native s := rfl

/-- Widening turns a path to children into one to all elements below, and leaves such a path alone. -/
@[simp] theorem widened_path (combinator : Combinator) (s : Text) :
    (Locator.path (elementsText combinator ++ s)).widened = .path (".//*" ++ s) := by
  cases combinator <;> rfl

/-- The locator of a step, and what it becomes when it is widened. -/
theorem locator_cases (h : List.Forall₂ (PartOf known nested) compound parts)
    (combinator : Combinator) :
    (parts.all (·.known) = true ∧
      (assembleStep combinator parts).locator = .native (nativeExpression parts)) ∨
    parts.all (·.known) = false ∧
      ∃ ss, List.Forall₂ (Spelled 6) ss (conjunction (compound.filterMap (·.condition?))) ∧
        (assembleStep combinator parts).locator =
          .path (elementsText combinator ++ predicateText ss) := by
  cases hknown : parts.all (·.known) with
  | true => exact .inl ⟨rfl, locator_assembleStep combinator hknown⟩
  | false =>
    obtain ⟨ss, hss, htext⟩ := pathExpression_eq combinator (forall₂_spelled h)
    refine .inr ⟨rfl, ss, hss, ?_⟩
    rw [← htext]
    simp [assembleStep, Plan.Step.locator, hknown]

/-- Below its context the locator of a step needs no widening. -/
theorem widened_assembleStep (h : List.Forall₂ (PartOf known nested) compound parts) :
    (assembleStep .descendant parts).locator.widened = (assembleStep .descendant parts).locator := by
  rcases locator_cases h .descendant with ⟨-, hnative⟩ | ⟨-, ss, -, hpath⟩
  · rw [hnative, widened_native]
  · rw [hpath, widened_path]
    rfl

namespace TreeEngine

variable {t : TreeEngine}

/-- Asked from an attached node, the locator finds what it finds in the document below the node. -/
def IsLocal (t : TreeEngine) (l : Locator) : Prop :=
  ∀ c ∈ t.document.order, ∀ found, t.findAll c l = .ok found →
    ∃ whole, t.findAll Document.root l = .ok whole ∧
      ∀ y, y ∈ found ↔ y ∈ whole ∧ y ∈ t.document.descendants c

theorem mem_descendants_root {d : Document} (h : d.Linked) {c y : Nat} (hc : c ∈ d.order)
    (hy : y ∈ d.descendants c) : y ∈ d.descendants Document.root := by
  rw [h.mem_descendants_iff] at hy ⊢
  rcases h.mem_order_iff.1 hc with rfl | hroot
  · exact hy
  · exact h.ancestors_trans hroot hy

theorem FindsBelow.isLocal (h : t.document.Linked) {l : Locator} {test : Nat → Bool}
    (hfinds : t.FindsBelow l test) : t.IsLocal l := by
  intro c hc found hfound
  rw [hfinds c hc] at hfound
  cases hfound
  refine ⟨_, hfinds _ Document.Linked.root_mem_order, fun y => ?_⟩
  simp only [List.mem_filter]
  constructor
  · rintro ⟨hy, htest⟩
    exact ⟨⟨mem_descendants_root h hc hy, htest⟩, hy⟩
  · rintro ⟨⟨-, htest⟩, hy⟩
    exact ⟨hy, htest⟩

/-- A native query that is read and prepared tests all elements below the context. -/
theorem findAll_native {s : Text} {list : SelectorList}
    {prepared : List (List (Combinator × List ElementTest))}
    (hread : SelectorList.read false s = .ok list)
    (hprepare : prepareList t.known list = .ok prepared) {c : Nat} (hc : c ∈ t.document.order) :
    t.findAll c (.native s) = .ok ((t.document.descendants c).filter fun y =>
      t.document.isElement y && prepared.any fun complex => matchesBackwards t.document complex y) := by
  have hselect : selectNative t.document t.known c s =
      .ok ((t.document.descendants c).filter fun y =>
        prepared.any fun complex => matchesBackwards t.document complex y) := by
    rw [selectNative, hread]
    show Except.mapError _ (prepareList t.known list) >>= _ = _
    rw [hprepare]
    rfl
  rw [findAll, checkAttached_of_mem hc]
  show selectNative t.document t.known c s >>= _ = _
  rw [hselect, ← List.filter_filter]
  rfl

/-- A native query is refused as a whole, or it tests all elements below the context. -/
theorem findAll_native_cases (t : TreeEngine) (s : Text) :
    (∃ reason, ∀ c ∈ t.document.order,
      t.findAll c (.native s) = .error (.invalidExpression s reason)) ∨
    ∃ test, t.FindsBelow (.native s) test := by
  cases hread : SelectorList.read false s with
  | error e =>
    refine .inl ⟨e.message, fun c hc => ?_⟩
    rw [findAll, checkAttached_of_mem hc]
    show selectNative t.document t.known c s >>= _ = _
    rw [selectNative, hread]
    rfl
  | ok list =>
    cases hprepare : prepareList t.known list with
    | error e =>
      refine .inl ⟨e, fun c hc => ?_⟩
      rw [findAll, checkAttached_of_mem hc]
      show selectNative t.document t.known c s >>= _ = _
      rw [selectNative, hread]
      show (Except.mapError _ (prepareList t.known list) >>= _) >>= _ = _
      rw [hprepare]
      rfl
    | ok prepared => exact .inr ⟨_, fun c hc => findAll_native hread hprepare hc⟩

/-- The query of a step is refused from every attached node, or it tests the elements below it. -/
def Tests (t : TreeEngine) (l : Locator) : Prop :=
  (∃ e, ∀ c ∈ t.document.order, t.findAll c l = .error e) ∨ ∃ test, t.FindsBelow l test

theorem tests_widened (h : t.document.Linked)
    (hparts : List.Forall₂ (PartOf known nested) compound parts) (combinator : Combinator) :
    t.Tests (assembleStep combinator parts).locator.widened := by
  rcases locator_cases hparts combinator with ⟨-, hnative⟩ | ⟨-, ss, hss, hpath⟩
  · rw [hnative, widened_native]
    exact (t.findAll_native_cases _).imp_left fun ⟨_, herror⟩ => ⟨_, herror⟩
  · rw [hpath, widened_path]
    exact .inr ⟨_, fun c hc => findAll_below h hc hss⟩

theorem Tests.isLocal (h : t.document.Linked) {l : Locator} (hl : t.Tests l) : t.IsLocal l := by
  rcases hl with ⟨e, herror⟩ | ⟨test, hfinds⟩
  · intro c hc found hfound
    rw [herror c hc] at hfound
    cases hfound
  · exact hfinds.isLocal h

theorem isElement_of_findAll {c y : Nat} {l : Locator} {found : List Nat}
    (h : t.findAll c l = .ok found) (hy : y ∈ found) : t.document.isElement y = true := by
  unfold findAll at h
  cases hattached : t.checkAttached c with
  | error e =>
    rw [hattached] at h
    cases h
  | ok =>
    rw [hattached] at h
    obtain ⟨kind, expression⟩ := l
    obtain ⟨inner, rfl⟩ : ∃ inner : List Nat, found = inner.filter t.document.isElement := by
      cases kind with
      | native =>
        cases hselect : selectNative t.document t.known c expression with
        | error e =>
          simp [hselect, bind, Except.bind] at h
        | ok inner =>
          simp only [hselect, bind, Except.bind, Except.ok.injEq] at h
          exact ⟨inner, h.symm⟩
      | path =>
        cases hselect : XPath.select t.document c expression with
        | error e => simp [hselect, bind, Except.bind, Except.mapError] at h
        | ok inner =>
          simp only [hselect, bind, Except.bind, Except.mapError, Except.ok.injEq] at h
          exact ⟨inner, h.symm⟩
    exact (List.mem_filter.1 hy).2

end TreeEngine

end CssLocator
