import CssLocator.Proofs.StepLocators

/-!
# Meaning of executed branches

When a branch of a compiled plan runs without an error, it finds the elements at the end of the
chains that its steps describe: each element of a chain is related to the one before it, is found by
the locator of its step in the whole document, and passes the filters of its step.
-/

namespace CssLocator

open Plan

section

variable {ε α β : Type}

theorem exists_of_bind_eq_pure {x : ExceptT ε Id α} {f : α → ExceptT ε Id β} {b : β}
    (h : x >>= f = pure b) : ∃ a, x = pure a ∧ f a = pure b := by
  have hx : x = (x.run : Except ε α) := rfl
  cases hrun : (x.run : Except ε α) with
  | error e =>
    rw [hx, hrun] at h
    cases h
  | ok a =>
    rw [hx, hrun] at h
    exact ⟨a, hx.trans hrun, h⟩

theorem pure_inj {a b : α} (h : (pure a : ExceptT ε Id α) = pure b) : a = b := Except.ok.inj h

theorem traceable_exceptT (ε : Type) : Traceable (ExceptT ε Id) := ⟨pure_inj, exists_of_bind_eq_pure⟩

end

theorem keep_eq_pure {m : Type → Type} [Monad m] [LawfulMonad m]
    {test : Nat → ExceptT EngineError m Bool} {p : Nat → Bool} {l : List Nat}
    (h : ∀ y ∈ l, test y = pure (p y)) : keep test l = pure (l.filter p) := by
  induction l with
  | nil => rfl
  | cons y l ih =>
    have hrest := ih fun z hz => h z (List.mem_cons_of_mem y hz)
    rw [keep, h y List.mem_cons_self, pure_bind, hrest, pure_bind, List.filter_cons]

section

variable {engine : Engine Id Nat} {test test' : Nat → ExceptT EngineError Id Bool}
  {l kept kept' : List Nat}

theorem exists_of_keep (h : keep test l = pure kept) : ∀ x ∈ l, ∃ b, test x = pure b := by
  induction l generalizing kept with
  | nil => exact nofun
  | cons x l ih =>
    obtain ⟨b, hb, h⟩ := exists_of_bind_eq_pure h
    obtain ⟨rest, hrest, -⟩ := exists_of_bind_eq_pure h
    exact List.forall_mem_cons.2 ⟨⟨b, hb⟩, ih hrest⟩

/-- What is kept is what the answers of the test keep. -/
private theorem exists_filter_of_keep (h : keep test l = pure kept) :
    ∃ p : Nat → Bool, kept = l.filter p ∧ ∀ x ∈ l, test x = pure (p x) := by
  choose! p hp using exists_of_keep h
  exact ⟨p, pure_inj (h.symm.trans (keep_eq_pure hp)), hp⟩

theorem mem_keep (h : keep test l = pure kept) (y : Nat) :
    y ∈ kept ↔ y ∈ l ∧ test y = pure true := by
  obtain ⟨p, rfl, hp⟩ := exists_filter_of_keep h
  rw [List.mem_filter]
  refine and_congr_right fun hy => ?_
  rw [hp y hy]
  exact ⟨congrArg pure, pure_inj⟩

theorem keep_sublist (h : keep test l = pure kept) : kept.Sublist l := by
  obtain ⟨p, rfl, -⟩ := exists_filter_of_keep h
  exact List.filter_sublist

/-- Tests that answer the same, where both answer, keep the same. -/
theorem keep_agree (h : keep test l = pure kept) (h' : keep test' l = pure kept')
    (hagree : ∀ x ∈ l, ∀ b b', test x = pure b → test' x = pure b' → b = b') : kept = kept' := by
  obtain ⟨p, rfl, hp⟩ := exists_filter_of_keep h
  obtain ⟨p', rfl, hp'⟩ := exists_filter_of_keep h'
  exact List.filter_congr fun x hx => hagree x hx _ _ (hp x hx) (hp' x hx)

/-- The first filter that an element does not pass decides, so an element that passes them all passes
every one of them. -/
theorem passesAll_eq_true {filters : List Filter} {y : Nat} :
    passesAll engine filters y = pure true ↔ ∀ f ∈ filters, f.passes engine y = pure true := by
  induction filters with
  | nil => simp [passesAll]
  | cons f filters ih =>
    rw [passesAll]
    constructor
    · intro h
      obtain ⟨b, hb, h⟩ := exists_of_bind_eq_pure h
      cases b with
      | true =>
        intro g hg
        rcases List.mem_cons.1 hg with rfl | hg
        · exact hb
        · exact ih.1 h g hg
      | false => cases pure_inj h
    · intro h
      rw [h f List.mem_cons_self, pure_bind, if_pos rfl]
      exact ih.2 fun g hg => h g (List.mem_cons_of_mem f hg)

end

/-- The locator finds the element in the whole document. -/
def TreeEngine.Finds (t : TreeEngine) (l : Locator) (y : Nat) : Prop :=
  ∃ found, t.findAll Document.root l = .ok found ∧ y ∈ found

/-- The steps lead from the first node to the second one by a chain of elements, one for each step:
an element is related to the one before it, is found by the locator of the step in the whole
document, and passes every filter of the step. -/
inductive Reaches (t : TreeEngine) : List Plan.Step → Nat → Nat → Prop
  | done (x : Nat) : Reaches t [] x x
  | step {s : Plan.Step} {steps : List Plan.Step} {x y z : Nat}
      (hrelated : t.document.Related s.combinator x y) (hfinds : t.Finds s.locator.widened y)
      (hpasses : ∀ f ∈ s.filters, f.passes (t.toEngine : Engine Id Nat) y = pure true)
      (hrest : Reaches t steps y z) : Reaches t (s :: steps) x z

namespace TreeEngine

variable {t : TreeEngine} {l : Locator} {candidates found : List Nat} {c y : Nat}

@[simp] theorem toEngine_findAll_eq_pure :
    (t.toEngine : Engine Id Nat).findAll c l = pure found ↔ t.findAll c l = .ok found := by
  show ofExcept (t.findAll c l) = _ ↔ _
  cases t.findAll c l with
  | error e => exact ⟨nofun, nofun⟩
  | ok l => exact ⟨fun h => congrArg _ (pure_inj h), fun h => congrArg _ (Except.ok.inj h)⟩

/-- Below the candidates a local locator finds what it finds in the document and what is below one of
them. -/
theorem mem_locateBelow (hlocal : t.IsLocal l) (hc : ∀ x ∈ candidates, x ∈ t.document.order)
    (h : locateBelow (t.toEngine : Engine Id Nat) candidates l = pure found) :
    y ∈ found ↔ ∃ x ∈ candidates, t.document.Related .descendant x y ∧ t.Finds l y := by
  obtain ⟨all, hall, h⟩ := exists_of_bind_eq_pure h
  obtain rfl := pure_inj h
  obtain ⟨htotal, hmem⟩ := (traceable_exceptT _).rounds hall
  rw [List.mem_eraseDups, hmem]
  constructor
  · rintro ⟨x, hx, below, hbelow, hy⟩
    obtain ⟨whole, hwhole, hiff⟩ := hlocal x (hc x hx) below (toEngine_findAll_eq_pure.1 hbelow)
    obtain ⟨hy, hdescendant⟩ := (hiff y).1 hy
    exact ⟨x, hx, hdescendant, whole, hwhole, hy⟩
  · rintro ⟨x, hx, hdescendant, whole, hwhole, hy⟩
    obtain ⟨below, hbelow⟩ := htotal x hx
    obtain ⟨whole', hwhole', hiff⟩ := hlocal x (hc x hx) below (toEngine_findAll_eq_pure.1 hbelow)
    rw [hwhole] at hwhole'
    cases hwhole'
    exact ⟨x, hx, below, hbelow, (hiff y).2 ⟨hy, hdescendant⟩⟩

/-- What is reached from the candidates, as far as a relation describes it, and found in the document. -/
theorem mem_locateAmong {reach : Nat → ExceptT EngineError Id (List Nat)} {related : Nat → Nat → Prop}
    (hreach : ∀ x ∈ candidates, ∀ ys, reach x = pure ys →
      ∀ z, t.document.isElement z → (z ∈ ys ↔ related x z))
    (h : locateAmong (t.toEngine : Engine Id Nat) reach candidates l = pure found) :
    y ∈ found ↔ ∃ x ∈ candidates, related x y ∧ t.Finds l.widened y := by
  obtain ⟨reached, hreached, h⟩ := exists_of_bind_eq_pure h
  obtain ⟨htotal, hmem⟩ := (traceable_exceptT _).rounds hreached
  have hrelated : ∀ z, t.document.isElement z →
      (z ∈ reached ↔ ∃ x ∈ candidates, related x z) := by
    intro z hz
    rw [hmem]
    constructor
    · rintro ⟨x, hx, ys, hys, hzs⟩
      exact ⟨x, hx, (hreach x hx ys hys z hz).1 hzs⟩
    · rintro ⟨x, hx, hxz⟩
      obtain ⟨ys, hys⟩ := htotal x hx
      exact ⟨x, hx, ys, hys, (hreach x hx ys hys z hz).2 hxz⟩
  have hfinds : t.Finds l.widened y → t.document.isElement y := fun ⟨_, hwhole, hy⟩ =>
    isElement_of_findAll hwhole hy
  split at h
  · rename_i hempty
    obtain rfl := pure_inj h
    rw [List.isEmpty_iff] at hempty
    constructor
    · exact nofun
    · rintro ⟨x, hx, hxy, hy⟩
      have hmem := (hrelated y (hfinds hy)).2 ⟨x, hx, hxy⟩
      rw [hempty] at hmem
      cases hmem
  · obtain ⟨whole, hwhole, h⟩ := exists_of_bind_eq_pure h
    obtain rfl := pure_inj h
    have hwhole : t.findAll Document.root l.widened = .ok whole := toEngine_findAll_eq_pure.1 hwhole
    rw [List.mem_filter, List.contains_iff_mem]
    constructor
    · rintro ⟨hy, hreach⟩
      have hy : t.Finds l.widened y := ⟨whole, hwhole, hy⟩
      obtain ⟨x, hx, hxy⟩ := (hrelated y (hfinds hy)).1 hreach
      exact ⟨x, hx, hxy, hy⟩
    · rintro ⟨x, hx, hxy, hy⟩
      have hreach := (hrelated y (hfinds hy)).2 ⟨x, hx, hxy⟩
      obtain ⟨whole', hwhole', hy⟩ := hy
      rw [hwhole] at hwhole'
      cases hwhole'
      exact ⟨hy, hreach⟩

/-- The locator of the step is local, and below its candidates the step need not widen it. -/
structure LocalStep (t : TreeEngine) (s : Plan.Step) : Prop where
  isLocal : t.IsLocal s.locator.widened
  widened_eq : s.combinator = .descendant → s.locator.widened = s.locator

theorem localStep_assembleStep {known : Answers} {nested : SelectorList → Plan → Prop}
    {compound : Compound} {parts : List StepPart} (h : t.document.Linked)
    (hparts : List.Forall₂ (PartOf known nested) compound parts) (combinator : Combinator) :
    t.LocalStep (assembleStep combinator parts) := by
  refine ⟨(tests_widened h hparts combinator).isLocal h, fun hcombinator => ?_⟩
  rw [combinator_assembleStep] at hcombinator
  subst hcombinator
  exact widened_assembleStep hparts

private theorem mem_siblings (h : t.document.Linked) (hc : c ∈ t.document.order) {ys : List Nat}
    (hys : (t.toEngine : Engine Id Nat).nextSiblings c = pure ys) : ys = t.document.laterSiblings c := by
  by_cases hp : ∀ p, t.document.parentElement? c = some p → p ∈ t.document.order
  · rw [nextSiblings_toEngine h hc hp] at hys
    exact (pure_inj hys).symm
  · simp only [not_forall] at hp
    obtain ⟨p, hparent, hp⟩ := hp
    rw [nextSiblings_detached h hc hparent hp] at hys
    cases hys

/-- What a step finds before its filters, from attached candidates. -/
theorem mem_locate (h : t.document.Linked) {s : Plan.Step} (hs : t.LocalStep s)
    (hc : ∀ x ∈ candidates, x ∈ t.document.order)
    (hlocate : locate (t.toEngine : Engine Id Nat) candidates s.combinator s.locator = pure found) :
    y ∈ found ↔
      ∃ x ∈ candidates, t.document.Related s.combinator x y ∧ t.Finds s.locator.widened y := by
  obtain ⟨combinator, locator, filters⟩ := s
  cases combinator with
  | descendant =>
    have hwidened : locator.widened = locator := hs.widened_eq rfl
    have hlocal : t.IsLocal locator := hwidened ▸ hs.isLocal
    show y ∈ found ↔ ∃ x ∈ candidates, _ ∧ t.Finds locator.widened y
    rw [hwidened]
    exact mem_locateBelow hlocal hc hlocate
  | child =>
    refine mem_locateAmong ?_ hlocate
    intro x hx ys hys z hz
    rw [findAll_toEngine (findAll_children h (hc x hx))] at hys
    obtain rfl := pure_inj hys
    rw [Document.mem_elementChildren h]
    exact ⟨fun hzx => hzx.1, fun hzx => ⟨hzx, hz⟩⟩
  | nextSibling =>
    refine mem_locateAmong ?_ hlocate
    intro x hx ys hys z _
    obtain ⟨later, hlater, hys⟩ := exists_of_bind_eq_pure hys
    obtain rfl := pure_inj hys
    rw [mem_siblings h (hc x hx) hlater, Document.mem_take_laterSiblings h]
    rfl
  | subsequentSibling =>
    refine mem_locateAmong ?_ hlocate
    intro x hx ys hys z _
    rw [mem_siblings h (hc x hx) hys, Document.mem_laterSiblings h]
    rfl

/-- One step. -/
theorem mem_run_step (h : t.document.Linked) {s : Plan.Step} (hs : t.LocalStep s)
    (hc : ∀ x ∈ candidates, x ∈ t.document.order)
    (hrun : s.run (t.toEngine : Engine Id Nat) candidates = pure found) :
    y ∈ found ↔ ∃ x ∈ candidates, t.document.Related s.combinator x y ∧
      t.Finds s.locator.widened y ∧ ∀ f ∈ s.filters, f.passes (t.toEngine : Engine Id Nat) y = pure true := by
  obtain ⟨combinator, locator, filters⟩ := s
  rw [Step.run] at hrun
  obtain ⟨located, hlocated, hkeep⟩ := exists_of_bind_eq_pure hrun
  rw [mem_keep hkeep, mem_locate h hs hc hlocated, passesAll_eq_true]
  constructor
  · rintro ⟨⟨x, hx, hrelated, hfinds⟩, hpasses⟩
    exact ⟨x, hx, hrelated, hfinds, hpasses⟩
  · rintro ⟨x, hx, hrelated, hfinds, hpasses⟩
    exact ⟨⟨x, hx, hrelated, hfinds⟩, hpasses⟩

private theorem mem_order_of_finds (h : t.document.Linked) (hs : t.IsLocal l) (hy : t.Finds l y) :
    y ∈ t.document.order := by
  obtain ⟨found, hfound, hy⟩ := hy
  obtain ⟨whole, hwhole, hiff⟩ := hs Document.root Document.Linked.root_mem_order found hfound
  exact h.mem_order_of_mem_descendants Document.Linked.root_mem_order ((hiff y).1 hy).2

/-- All steps of a branch, from attached candidates. -/
theorem mem_runSteps (h : t.document.Linked) {steps : List Plan.Step}
    (hsteps : ∀ s ∈ steps, t.LocalStep s) (hc : ∀ x ∈ candidates, x ∈ t.document.order)
    (hrun : runSteps (t.toEngine : Engine Id Nat) steps candidates = pure found) :
    y ∈ found ↔ ∃ x ∈ candidates, Reaches t steps x y := by
  induction steps generalizing candidates with
  | nil =>
    rw [runSteps] at hrun
    obtain rfl := pure_inj hrun
    constructor
    · intro hy
      exact ⟨y, hy, .done y⟩
    · rintro ⟨x, hx, hreaches⟩
      cases hreaches
      exact hx
  | cons s steps ih =>
    have hs := hsteps s List.mem_cons_self
    rw [runSteps] at hrun
    obtain ⟨next, hnext, hrun⟩ := exists_of_bind_eq_pure hrun
    have hmem := fun z => mem_run_step (y := z) h hs hc hnext
    have hattached : ∀ z ∈ next, z ∈ t.document.order := by
      intro z hz
      obtain ⟨x, hx, hrelated, hfinds, hpasses⟩ := (hmem z).1 hz
      exact mem_order_of_finds h hs.isLocal hfinds
    have hrest : y ∈ found ↔ ∃ z ∈ next, Reaches t steps z y := by
      cases next with
      | nil =>
        obtain rfl := pure_inj hrun
        simp
      | cons e es => exact ih (fun s' hs' => hsteps s' (List.mem_cons_of_mem s hs')) hattached hrun
    rw [hrest]
    constructor
    · rintro ⟨z, hz, hreaches⟩
      obtain ⟨x, hx, hrelated, hfinds, hpasses⟩ := (hmem z).1 hz
      exact ⟨x, hx, .step hrelated hfinds hpasses hreaches⟩
    · rintro ⟨x, hx, hreaches⟩
      cases hreaches with
      | @step _ _ _ z _ hrelated hfinds hpasses hrest =>
        exact ⟨z, (hmem z).2 ⟨x, hx, hrelated, hfinds, hpasses⟩, hrest⟩

end TreeEngine

/-- Whatever engine a plan was compiled for: if a branch of it, or of a plan in its filters, runs on
the engine of a document tree from an attached node and returns a list, the list consists of the
elements that the steps of the branch lead to. -/
theorem executed_branch_meaning {ν : Type} (settings : Settings) (engine : Engine Id ν)
    (table : SupportTable) (selector : Text) (plan : Plan) (branch : List Plan.Step)
    (t : TreeEngine) (r : Nat) (found : List Nat)
    (hplan : ((compile settings engine selector).run.run table).1 = .ok plan)
    (hbranch : plan.HasBranch branch) (hbuilt : t.document.Built) (hr : r ∈ t.document.order)
    (hrun : (runSteps (t.toEngine : Engine Id Nat) branch [r]).run = .ok found) (x : Nat) :
    x ∈ found ↔ Reaches t branch r x := by
  have hlinked := hbuilt.linked
  have htells : table.Tells AnyAnswer engine.capability := fun _ _ _ => trivial
  obtain ⟨list, -, hplanOf⟩ := planOf_of_compile (answersTo_anyAnswer settings engine) htells hplan
  have hlocal : ∀ s ∈ branch, t.LocalStep s := by
    intro s hs
    obtain ⟨compound, horigin⟩ := exists_origin hbranch hplanOf s hs
    obtain ⟨n, combinator, parts, hparts, rfl⟩ := horigin.assembled hplanOf
    exact TreeEngine.localStep_assembleStep hlinked hparts combinator
  have hroot : ∀ z ∈ [r], z ∈ t.document.order := by simpa using hr
  have hmem := TreeEngine.mem_runSteps (y := x) hlinked hlocal hroot hrun
  simpa using hmem

/-- A list with two items. -/
def listDocument : Document :=
  ((Document.empty.appendElement Document.root "ul" .empty).appendElement 1 "li" .empty).appendElement 1
    "li" .empty

theorem built_listDocument : listDocument.Built := by
  have hlist := Document.Built.empty.appendElement Document.root (by decide) "ul" .empty
  have hfirst := hlist.appendElement 1 (by decide +kernel) "li" .empty
  exact hfirst.appendElement 1 (by decide +kernel) "li" .empty

/-- What the only branch of a compiled selector finds in the list. -/
def foundInList (selector : Text) : Option (List Nat) :=
  let engine : Engine Id Nat := (TreeEngine.mk listDocument []).toEngine
  ((compile .standard engine selector).run.run .empty).1.toOption.bind fun plan =>
    plan.head?.bind fun branch => (runSteps engine branch [Document.root]).run.toOption

theorem executed_branch_meaning_list :
    ∃ plan branch, ((compile .standard ((TreeEngine.mk listDocument []).toEngine : Engine Id Nat)
        "ul > :first-child + li:not(ul)").run.run .empty).1 = .ok plan ∧ plan.HasBranch branch ∧
      listDocument.Built ∧ Document.root ∈ listDocument.order ∧
      (runSteps ((TreeEngine.mk listDocument []).toEngine : Engine Id Nat) branch
        [Document.root]).run = .ok [3] ∧
      ∀ x, x ∈ [3] ↔ Reaches ⟨listDocument, []⟩ branch Document.root x := by
  have hfound : foundInList "ul > :first-child + li:not(ul)" = some [3] := by decide +kernel
  unfold foundInList at hfound
  dsimp only at hfound
  cases hplan : ((compile .standard ((TreeEngine.mk listDocument []).toEngine : Engine Id Nat)
      "ul > :first-child + li:not(ul)").run.run .empty).1 with
  | error e =>
    rw [hplan] at hfound
    cases hfound
  | ok plan =>
    rw [hplan] at hfound
    cases plan with
    | nil => cases hfound
    | cons branch branches =>
      have hrun : (runSteps ((TreeEngine.mk listDocument []).toEngine : Engine Id Nat) branch
          [Document.root]).run = .ok [3] := by
        cases hresult : (runSteps ((TreeEngine.mk listDocument []).toEngine : Engine Id Nat) branch
            [Document.root]).run with
        | error e =>
          simp [Except.toOption, hresult] at hfound
        | ok found =>
          obtain rfl : found = [3] := by simpa [Except.toOption, hresult] using hfound
          rfl
      have hbranch : Plan.HasBranch (branch :: branches) branch := .here List.mem_cons_self
      have hroot : Document.root ∈ listDocument.order := Document.Linked.root_mem_order
      refine ⟨_, branch, rfl, hbranch, built_listDocument, hroot, hrun, ?_⟩
      exact executed_branch_meaning .standard _ .empty "ul > :first-child + li:not(ul)" _ branch
        ⟨listDocument, []⟩ Document.root [3] hplan hbranch built_listDocument hroot hrun

end CssLocator
