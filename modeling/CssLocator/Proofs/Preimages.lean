import CssLocator.Proofs.FilteredSelections

/-!
# Preimages

A list in `:has()` that begins with a combinator is run from every element, with a locator of its own.
What passes are the elements that the combinator relates to one that the document selects without it.
-/

namespace CssLocator

open Plan Identifier

variable {k k' : Combinator} {s u v w : Text} {compound : Compound} {more complex : Complex}

/-- A chain takes the combinator that it is read with. -/
theorem readChain_combinator {p : Combinator × Compound} (h : readChain k s = .ok (p :: more)) :
    readChain k' s = .ok ((k', p.2) :: more) := by
  have hmap : ∀ {xs : Compound} {r : Except ParseFault Complex},
      r.map ((k, xs) :: ·) = .ok (p :: more) → r.map ((k', xs) :: ·) = .ok ((k', p.2) :: more) := by
    intro xs r hr
    cases r with
    | error e => cases hr
    | ok rest =>
      cases hr
      rfl
  revert h
  fun_cases readChain k s with
  | case1 => exact nofun
  | case2 => exact nofun
  | case3 => exact nofun
  | case4 c r hc xs rest hcompound hskip =>
    rintro ⟨⟩
    exact (readChain_cons (by simpa using hc) hcompound).1 hskip
  | case5 c r hc xs rest hcompound d rest' hskip j hd =>
    rw [((readChain_cons (by simpa using hc) hcompound).2 d rest' hskip).1 j hd]
    exact hmap
  | case6 c r hc xs rest hcompound d rest' hskip hd =>
    rw [((readChain_cons (by simpa using hc) hcompound).2 d rest' hskip).2 hd]
    exact hmap

/-- A combinator in front of a complex selector is that of its first compound. -/
theorem readComplex_gap (hu : Blank u) (hv : Blank v)
    (h : readComplex false s = .ok ((.descendant, compound) :: more)) :
    readComplex true (u ++ k.mark ++ v ++ s) = .ok ((k, compound) :: more) := by
  unfold readComplex at h
  split at h
  · cases h
  · rename_i c r htrim
    split at h
    · rename_i hc
      rw [trim_eq_skipSpace] at htrim
      have hne : trimEnd s ≠ [] := by
        intro hnil
        rw [hnil] at htrim
        cases htrim
      have hchain : readChain k (c :: r) = .ok ((k, compound) :: more) := readChain_combinator h
      rw [readComplex, trim_eq_skipSpace, trimEnd_append hne]
      rcases k.mark_cases with ⟨rfl, hmark⟩ | ⟨d, hmark, hd, hspace, -⟩
      · rw [hmark, List.append_nil, List.append_assoc, skipSpace_blank hu, skipSpace_blank hv, htrim]
        dsimp only
        rw [hc]
        exact hchain
      · have hskip : Text.skipSpace (u ++ k.mark ++ v ++ trimEnd s) = d :: (v ++ trimEnd s) := by
          rw [hmark, List.append_assoc, List.append_assoc, skipSpace_blank hu]
          exact skipSpace_of_head (by simpa using hspace)
        rw [hskip]
        dsimp only
        rw [hd]
        dsimp only
        rw [if_pos rfl, skipSpace_blank hv, htrim]
        exact hchain
    · cases h

/-- White space and a combinator in front of a selector keep it properly nested. -/
theorem nested_gap (hu : Blank u) (hv : Blank v) (hs : Nested none 0 0 s) :
    Nested none 0 0 (u ++ k.mark ++ v ++ s) := by
  have hneutral : ∀ c ∈ u ++ k.mark ++ v, isNeutral c := fun c hc =>
    isNeutral_of_endsCompound (endsCompound_gap hu hv c hc).1
  generalize u ++ k.mark ++ v = gap at hneutral
  induction gap with
  | nil => exact hs
  | cons c gap ih =>
    obtain ⟨hc, hgap⟩ := List.forall_mem_cons.1 hneutral
    have hflat : isFlat c := by
      simp only [isNeutral, Bool.and_eq_true] at hc
      simp [isFlat, hc]
    exact .flat hflat (ih hgap)

/-- A selector of one branch, with a combinator in front. -/
theorem read_gap (hu : Blank u) (hv : Blank v)
    (h : SelectorList.read false s = .ok [(.descendant, compound) :: more]) :
    SelectorList.read true (u ++ k.mark ++ v ++ s) = .ok [(k, compound) :: more] := by
  rw [read_eq_ok_iff] at h ⊢
  have hjoin := join_splitOuterCommas .outside s
  cases hparts : splitOuterCommas .outside s with
  | nil => exact absurd hparts (splitOuterCommas_ne_nil _ _)
  | cons part parts =>
    rw [hparts] at h hjoin
    cases h with
    | cons hcomplex hnil =>
      cases hnil
      obtain rfl : part = s := by simpa [Text.join] using hjoin
      have hsplit := unsplit_gap (k := k) hu hv part
      rw [hparts, Text.foldr_extendHead] at hsplit
      rw [hsplit]
      exact .cons (readComplex_gap hu hv hcomplex) .nil

/-- Widened, the locator of a step does not depend on the combinator. -/
theorem widened_assembleStep_eq (k k' : Combinator) (parts : List StepPart) :
    (assembleStep k parts).locator.widened = (assembleStep k' parts).locator.widened := by
  cases hknown : parts.all (·.known) with
  | true => rw [locator_assembleStep k hknown, locator_assembleStep k' hknown]
  | false =>
    have hpath : ∀ k, (assembleStep k parts).locator = .path (pathExpression k parts) := by
      simp [assembleStep, Plan.Step.locator, hknown]
    have helements : ∃ s, ∀ k, pathExpression k parts = elementsText k ++ s := by
      unfold pathExpression
      cases parts.filterMap (·.predicate?) with
      | nil => exact ⟨[], fun k => (List.append_nil _).symm⟩
      | cons predicate predicates =>
        refine ⟨"[" ++ Text.join " and " (predicate :: predicates) ++ "]", fun k => ?_⟩
        simp [elementsText]
    obtain ⟨s, hs⟩ := helements
    rw [hpath, hpath, hs, hs, widened_path, widened_path]

namespace TreeEngine

variable {t : TreeEngine} {settings : Settings} {known : Answers} {nested : SelectorList → Plan → Prop}
  {parts : List StepPart} {x y : Nat} {inner found all : List Nat}

/-- The element meets a compound, whatever leads to it: the locator of the step finds it in the document,
and it passes the filters. -/
def Meets (t : TreeEngine) (parts : List StepPart) (y : Nat) : Prop :=
  t.Finds (assembleStep .descendant parts).locator.widened y ∧
    ∀ f ∈ parts.filterMap (·.filter?), f.passes (t.toEngine : Engine Id Nat) y = pure true

/-- A step leads to the elements that meet its compound and are related to where it starts. -/
theorem mem_run_assembleStep (h : t.document.Linked)
    (hparts : List.Forall₂ (PartOf known nested) compound parts) (hx : x ∈ t.document.order)
    (hrun : runBranches (t.toEngine : Engine Id Nat) [[assembleStep k parts]] x = pure all) :
    y ∈ all ↔ t.document.Related k x y ∧ t.Meets parts y := by
  rw [runBranches_singleton] at hrun
  have hcandidates : ∀ z ∈ [x], z ∈ t.document.order := by simpa using hx
  rw [mem_run_step h (localStep_assembleStep h hparts k) hcandidates hrun, Meets,
    widened_assembleStep_eq .descendant k]
  simp [assembleStep, Plan.Step.combinator, Plan.Step.filters]

private theorem related_root_of_meets (h : t.document.Linked)
    (hparts : List.Forall₂ (PartOf known nested) compound parts) (hy : t.Meets parts y) :
    t.document.Related .descendant Document.root y := by
  obtain ⟨whole, hwhole, hy⟩ := hy.1
  have hlocal := (localStep_assembleStep h hparts .descendant).isLocal
  obtain ⟨whole', hwhole', hmem⟩ := hlocal _ Document.Linked.root_mem_order whole hwhole
  exact ((hmem y).1 hy).2

/-- The document selects what meets the compound. -/
theorem exists_parts_of_selects (h : t.document.Linked)
    (hread : SelectorList.read false s = .ok [[(.descendant, compound)]])
    (hselects : t.Selects settings s inner) :
    ∃ parts, List.Forall₂ (PartOf (AnswersOf settings t.known) (t.PlanFor settings)) compound parts ∧
      ∀ y, y ∈ inner ↔ t.Meets parts y := by
  obtain ⟨list, plan, all, hread', hplan, hrun, rfl⟩ := exists_of_selects hselects
  obtain rfl := Except.ok.inj (hread.symm.trans hread')
  obtain ⟨parts, hparts, rfl⟩ := exists_step_of_planFor hplan
  refine ⟨parts, hparts, fun y => ?_⟩
  rw [List.mem_eraseDups, mem_run_assembleStep h hparts Document.Linked.root_mem_order hrun]
  exact ⟨And.right, fun hmeets => ⟨related_root_of_meets h hparts hmeets, hmeets⟩⟩

/-- What `:has()` selects with a list of one compound: the elements from which its step leads on. -/
theorem mem_selects_has (h : t.document.Grown) {argument : Text} (hnested : Nested none 0 0 argument)
    (hread : SelectorList.read true argument = .ok [[(k, compound)]])
    (hparts : List.Forall₂ (PartOf (AnswersOf settings t.known) (t.PlanFor settings)) compound parts)
    (hfound : t.Selects settings ("*" ++ [argument].flatMap Refining.has.text) found) :
    found.Sublist t.document.order ∧
      ∀ x, x ∈ found ↔ t.document.isElement x ∧ ∃ y, t.document.Related k x y ∧ t.Meets parts y := by
  have hfound : t.Selects settings ("*" ++ [(Refining.has, argument)].flatMap fun u => u.1.text u.2) found :=
    hfound
  obtain ⟨filters, hfilters, hkeep⟩ :=
    exists_filters_of_selects h (List.forall_mem_singleton.2 hnested) hfound
  obtain ⟨f, rfl, hfilter⟩ := exists_of_forall₂_singleton hfilters
  cases hfilter with
  | @has _ list plan hread' hplan =>
    obtain rfl := Except.ok.inj (hread.symm.trans hread')
    obtain ⟨parts', hparts', rfl⟩ := exists_step_of_planFor hplan
    obtain rfl := (rightUnique_partOf (rightUnique_answersOf settings t.known)
      (rightUnique_planFor t settings)).forall₂ hparts hparts'
    have hpasses : ∀ x ∈ t.elements,
        passesAll (t.toEngine : Engine Id Nat) [.has [[assembleStep k parts]]] x = pure true ↔
          ∃ y, t.document.Related k x y ∧ t.Meets parts y := by
      intro x hx
      obtain ⟨b, hb⟩ := exists_of_keep hkeep x hx
      have hattached : x ∈ t.document.order := List.mem_of_mem_filter hx
      rw [passesAll_singleton, Filter.passes] at hb ⊢
      obtain ⟨all, hall, -⟩ := exists_of_bind_eq_pure hb
      have hmem := fun y => mem_run_assembleStep (y := y) h.linked hparts hattached hall
      rw [hall, pure_bind]
      simp only [← hmem]
      cases all with
      | nil => exact ⟨fun hfalse => absurd (pure_inj hfalse) Bool.false_ne_true, by simp⟩
      | cons y ys => exact ⟨fun _ => ⟨y, List.mem_cons_self⟩, fun _ => rfl⟩
    refine ⟨(keep_sublist hkeep).trans List.filter_sublist, fun x => ?_⟩
    rw [mem_keep hkeep]
    constructor
    · rintro ⟨hx, htrue⟩
      exact ⟨(List.mem_filter.1 hx).2, (hpasses x hx).1 htrue⟩
    · rintro ⟨helement, hy⟩
      have hattached := h.mem_order (Document.lt_size_of_isElement helement)
      have hx : x ∈ t.elements := List.mem_filter.2 ⟨hattached, helement⟩
      exact ⟨hx, (hpasses x hx).2 hy⟩

/-- In a document that was read from a JSON text, `:has()` with a combinator and a compound selects the
elements that the combinator relates to an element that the document selects with the compound. -/
theorem has_is_preimage (json : Text) (t : TreeEngine) (settings : Settings) (k : Combinator)
    (u v s : Text) (compound : Compound) (inner found : List Nat)
    (hdocument : Document.ofText? json = some t.document) (hu : Blank u) (hv : Blank v)
    (hs : Nested none 0 0 s) (hread : SelectorList.read false s = .ok [[(.descendant, compound)]])
    (hinner : t.Selects settings s inner)
    (hfound : t.Selects settings ("*:has(" ++ (u ++ k.mark ++ v ++ s) ++ ")") found) :
    found.Pairwise t.document.Precedes ∧
      ∀ x, x ∈ found ↔ t.document.isElement x ∧ ∃ y ∈ inner, t.document.Related k x y := by
  have hgrown := Document.grown_of_ofText? hdocument
  have htext : "*:has(" ++ (u ++ k.mark ++ v ++ s) ++ ")" =
      "*" ++ [u ++ k.mark ++ v ++ s].flatMap Refining.has.text := by
    rw [List.flatMap_singleton]
    rfl
  obtain ⟨parts, hparts, hmem⟩ := exists_parts_of_selects hgrown.linked hread hinner
  obtain ⟨hsublist, hfound⟩ :=
    mem_selects_has hgrown (nested_gap hu hv hs) (read_gap hu hv hread) hparts (htext ▸ hfound)
  refine ⟨pairwise_precedes hgrown.linked hsublist, fun x => ?_⟩
  rw [hfound]
  simp only [hmem, and_comm]

/-- A list with two items, the second of which is not new. -/
theorem has_is_preimage_items : ∃ d, Document.ofText? itemsText = some d ∧ Blank [] ∧ Blank " " ∧
    Nested none 0 0 ":empty:not(.new)" ∧
    SelectorList.read false ":empty:not(.new)" =
      .ok [[(.descendant, [.pseudo ⟨"empty", none⟩, .pseudo ⟨"not", some ".new"⟩])]] ∧
    Selects ⟨d, []⟩ .standard ":empty:not(.new)" [3] ∧
    Selects ⟨d, []⟩ .standard "*:has(+ :empty:not(.new))" [2] ∧
    [2].Pairwise d.Precedes ∧
    ∀ x, x ∈ [2] ↔ d.isElement x ∧ ∃ y ∈ [3], d.Related .nextSibling x y := by
  have hselections : (Document.ofText? itemsText).any fun d =>
      selection? ⟨d, []⟩ .standard ":empty:not(.new)" == some [3] &&
      selection? ⟨d, []⟩ .standard "*:has(+ :empty:not(.new))" == some [2] := by
    decide +kernel
  obtain ⟨d, hd, hselections⟩ := (Option.any_eq_true _ _).1 hselections
  obtain ⟨hinner, hfound⟩ := Bool.and_eq_true_iff.1 hselections
  have hinner := selects_of_selection? (eq_of_beq hinner)
  have hfound := selects_of_selection? (eq_of_beq hfound)
  have hblank : Blank " " := by simp [Blank]; decide
  have hargument : Nested none 1 0 ".new)" :=
    .flat rfl (.flat rfl (.flat rfl (.flat rfl (.closeParenthesis .nil))))
  have hnot : Nested none 0 0 ":not(.new)" :=
    .flat rfl (.flat rfl (.flat rfl (.flat rfl (.openParenthesis hargument))))
  have hnested : Nested none 0 0 ":empty:not(.new)" :=
    .flat rfl (.flat rfl (.flat rfl (.flat rfl (.flat rfl (.flat rfl hnot)))))
  have hread : SelectorList.read false ":empty:not(.new)" =
      .ok [[(.descendant, [.pseudo ⟨"empty", none⟩, .pseudo ⟨"not", some ".new"⟩])]] := by
    decide +kernel
  have hpreimage := has_is_preimage itemsText ⟨d, []⟩ .standard .nextSibling [] " " ":empty:not(.new)" _
    _ _ hd nofun hblank hnested hread hinner hfound
  exact ⟨d, hd, nofun, hblank, hnested, hread, hinner, hfound, hpreimage⟩

end TreeEngine

end CssLocator
