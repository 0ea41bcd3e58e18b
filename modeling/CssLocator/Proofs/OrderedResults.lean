import CssLocator.Proofs.ExecutedBranches

/-!
# Ordered results

What a branch of a compiled plan finds is listed in document order, and a plan lists what its
branches find, each element where it comes first. The candidates of every step are in document order,
and from such candidates the elements below them are found in document order as well, although one
candidate is searched after the other.
-/

namespace CssLocator

open Plan

/-- Both nodes are attached, and the first one comes first. -/
def Document.Precedes (d : Document) (x y : Nat) : Prop :=
  ∃ i j, d.rank? x = some i ∧ d.rank? y = some j ∧ i < j

/-- The elements of a list, each where it comes first. -/
structure FirstSeen (list seen : List Nat) : Prop where
  mem_iff : ∀ x, x ∈ seen ↔ x ∈ list
  inOrder : seen.Pairwise fun x y => list.idxOf x < list.idxOf y

/-- No question about the element is refused because the element has gone. -/
structure TreeEngine.Usable (t : TreeEngine) (x : Nat) : Prop where
  findAll : ∀ l, t.findAll x l ≠ .error .stale
  attributeValue : ∀ name, t.attributeValue x name ≠ .error .stale
  isDisplayed : t.isDisplayed x ≠ .error .stale
  tagName : t.tagName x ≠ .error .stale

theorem pairwise_precedes {d : Document} (h : d.Linked) {l : List Nat} (hl : l.Sublist d.order) :
    l.Pairwise d.Precedes := by
  refine ((pairwise_idxOf h.nodup_order).sublist hl).imp_of_mem ?_
  intro x y hx hy hxy
  exact ⟨_, _, Document.rank?_of_mem_order (hl.subset hx),
    Document.rank?_of_mem_order (hl.subset hy), hxy⟩

private theorem firstSeen_eraseDups (l : List Nat) : FirstSeen l l.eraseDups := by
  refine ⟨fun x => List.mem_eraseDups, ?_⟩
  induction l using List.reverseRecOn with
  | nil => exact .nil
  | append_singleton l x ih =>
    have hbefore : l.eraseDups.Pairwise fun a b => (l ++ [x]).idxOf a < (l ++ [x]).idxOf b := by
      refine ih.imp_of_mem fun {a b} ha hb hab => ?_
      rw [List.mem_eraseDups] at ha hb
      rwa [List.idxOf_append_of_mem ha, List.idxOf_append_of_mem hb]
    rw [List.eraseDups_append, List.pairwise_append]
    by_cases hx : x ∈ l
    · have hnone : [x].removeAll l = [] := by simp [List.removeAll, hx]
      rw [hnone]
      exact ⟨hbefore, .nil, fun _ _ _ => nofun⟩
    · have hnew : ([x].removeAll l).eraseDups = [x] := by
        have hone : [x].removeAll l = [x] := by simp [List.removeAll, hx]
        rw [hone]
        rfl
      rw [hnew]
      refine ⟨hbefore, List.pairwise_singleton _ x, fun a ha b hb => ?_⟩
      rw [List.mem_eraseDups] at ha
      obtain rfl := List.mem_singleton.1 hb
      rw [List.idxOf_append_of_mem ha, List.idxOf_append_of_notMem hx]
      exact Nat.lt_of_lt_of_le (List.idxOf_lt_length_of_mem ha) (Nat.le_add_right _ _)

theorem FirstSeen.nodup {list seen : List Nat} (h : FirstSeen list seen) : seen.Nodup := by
  refine h.inOrder.imp ?_
  rintro x y hxy rfl
  exact Nat.lt_irrefl _ hxy

namespace TreeEngine

variable {t : TreeEngine} {candidates found : List Nat}

private theorem usable_of_mem_order (h : t.document.Linked) {x : Nat} (hx : x ∈ t.document.order) :
    t.Usable x := by
  have hattached := checkAttached_of_mem hx
  constructor
  case findAll =>
    rintro ⟨kind, expression⟩ hstale
    cases kind with
    | native =>
      rcases t.findAll_native_cases expression with ⟨reason, herror⟩ | ⟨test, hfind⟩
      · cases (herror x hx).symm.trans hstale
      · cases (hfind x hx).symm.trans hstale
    | path =>
      rw [TreeEngine.findAll, hattached] at hstale
      cases hselect : XPath.select t.document x expression with
      | error e => simp [hselect, bind, Except.bind, Except.mapError] at hstale
      | ok found => simp [hselect, bind, Except.bind, Except.mapError] at hstale
  case attributeValue =>
    intro name hstale
    rw [TreeEngine.attributeValue, hattached] at hstale
    cases hstale
  case isDisplayed =>
    intro hstale
    rw [TreeEngine.isDisplayed, hattached] at hstale
    cases hstale
  case tagName =>
    intro hstale
    obtain ⟨n, hn⟩ := Document.exists_node (h.lt_size_of_mem_order hx)
    rw [TreeEngine.tagName, hattached, Document.kind?, hn] at hstale
    cases hkind : n.kind <;> simp [hkind, bind, Except.bind] at hstale

theorem FindsBelow.sublist (h : t.document.Linked) {l : Locator} {test : Nat → Bool}
    (hfinds : t.FindsBelow l test) (hfound : t.findAll Document.root l = .ok found) :
    found.Sublist t.document.order := by
  rw [hfinds Document.root Document.Linked.root_mem_order] at hfound
  cases hfound
  exact List.filter_sublist.trans (h.descendants_sublist_order Document.Linked.root_mem_order)

/-- One query for the whole document finds elements in document order. -/
theorem Tests.findAll_sublist (h : t.document.Linked) {l : Locator} (hl : t.Tests l)
    (hfound : t.findAll Document.root l = .ok found) : found.Sublist t.document.order := by
  rcases hl with ⟨e, herror⟩ | ⟨test, hfinds⟩
  · rw [herror _ Document.Linked.root_mem_order] at hfound
    cases hfound
  · exact hfinds.sublist h hfound

/-- Below candidates in document order, elements are found in document order. -/
theorem Tests.locateBelow_sublist (h : t.document.Linked) {l : Locator} (hl : t.Tests l)
    (hc : candidates.Sublist t.document.order)
    (hfound : locateBelow (t.toEngine : Engine Id Nat) candidates l = pure found) :
    found.Sublist t.document.order := by
  cases candidates with
  | nil =>
    obtain rfl : found = [] := (pure_inj hfound).symm
    exact List.nil_sublist _
  | cons c cs =>
    rcases hl with ⟨e, herror⟩ | ⟨test, hfinds⟩
    · obtain ⟨all, hall, -⟩ := exists_of_bind_eq_pure hfound
      obtain ⟨ys, hys⟩ := ((traceable_exceptT _).rounds hall).1 c List.mem_cons_self
      rw [toEngine_findAll_eq_pure, herror c (hc.subset List.mem_cons_self)] at hys
      cases hys
    · have hbelow : ∀ x ∈ c :: cs, (t.toEngine : Engine Id Nat).findAll x l =
          pure ((t.document.descendants x).filter test) := fun x hx =>
        findAll_toEngine (hfinds x (hc.subset hx))
      unfold locateBelow at hfound
      rw [Loop.flatMap_eq_pure hbelow, pure_bind, Document.eraseDups_descendants h hc] at hfound
      obtain rfl := pure_inj hfound
      exact List.filter_sublist

/-- What is reached is looked up in document order. -/
theorem Tests.locateAmong_sublist (h : t.document.Linked) {l : Locator} (hl : t.Tests l.widened)
    {reach : Nat → ExceptT EngineError Id (List Nat)}
    (hfound : locateAmong (t.toEngine : Engine Id Nat) reach candidates l = pure found) :
    found.Sublist t.document.order := by
  obtain ⟨reached, -, hfound⟩ := exists_of_bind_eq_pure hfound
  split at hfound
  · obtain rfl := pure_inj hfound
    exact List.nil_sublist _
  · obtain ⟨whole, hwhole, hfound⟩ := exists_of_bind_eq_pure hfound
    obtain rfl := pure_inj hfound
    exact List.filter_sublist.trans (hl.findAll_sublist h (toEngine_findAll_eq_pure.1 hwhole))

/-- What is found before the filters, from candidates in document order. -/
theorem locate_sublist (h : t.document.Linked) {s : Plan.Step} (hs : t.LocalStep s)
    (htests : t.Tests s.locator.widened) (hc : candidates.Sublist t.document.order)
    (hfound : locate (t.toEngine : Engine Id Nat) candidates s.combinator s.locator = pure found) :
    found.Sublist t.document.order := by
  obtain ⟨combinator, locator, filters⟩ := s
  cases combinator with
  | descendant =>
    have hwidened : locator.widened = locator := hs.widened_eq rfl
    have hlocator : t.Tests locator := hwidened ▸ htests
    exact hlocator.locateBelow_sublist h hc hfound
  | _ => exact Tests.locateAmong_sublist h htests hfound

/-- Candidates in document order lead to elements in document order. -/
theorem runSteps_sublist (h : t.document.Linked) {steps : List Plan.Step}
    (hsteps : ∀ s ∈ steps, t.LocalStep s ∧ t.Tests s.locator.widened)
    (hc : candidates.Sublist t.document.order)
    (hrun : runSteps (t.toEngine : Engine Id Nat) steps candidates = pure found) :
    found.Sublist t.document.order := by
  induction steps generalizing candidates with
  | nil =>
    rw [runSteps] at hrun
    obtain rfl := pure_inj hrun
    exact hc
  | cons s steps ih =>
    obtain ⟨hs, htests⟩ := hsteps s List.mem_cons_self
    rw [runSteps] at hrun
    obtain ⟨next, hnext, hrun⟩ := exists_of_bind_eq_pure hrun
    have hnextSorted : next.Sublist t.document.order := by
      obtain ⟨combinator, locator, filters⟩ := s
      rw [Step.run] at hnext
      obtain ⟨located, hlocated, hkeep⟩ := exists_of_bind_eq_pure hnext
      exact (keep_sublist hkeep).trans (locate_sublist h hs htests hc hlocated)
    cases next with
    | nil =>
      obtain rfl := pure_inj hrun
      exact List.nil_sublist _
    | cons e es => exact ih (fun s' hs' => hsteps s' (List.mem_cons_of_mem s hs')) hnextSorted hrun

/-- What the steps of a branch lead to are elements. -/
theorem isElement_of_reaches {steps : List Plan.Step} {x y : Nat} (h : Reaches t steps x y)
    (hne : steps ≠ []) : t.document.isElement y = true := by
  induction h with
  | done x => exact absurd rfl hne
  | @step s steps x y z _ hfinds _ hrest ih =>
    cases steps with
    | nil =>
      cases hrest
      obtain ⟨found, hfound, hy⟩ := hfinds
      exact isElement_of_findAll hfound hy
    | cons s' steps => exact ih (List.cons_ne_nil _ _)

/-- The branches run one after the other. -/
theorem runBranches_eq_pure {plan : Plan} {r : Nat}
    (h : runBranches (t.toEngine : Engine Id Nat) plan r = pure found) :
    ∃ lists, List.Forall₂
        (fun branch list => runSteps (t.toEngine : Engine Id Nat) branch [r] = pure list) plan lists ∧
      found = lists.flatten := by
  induction plan generalizing found with
  | nil =>
    rw [runBranches] at h
    exact ⟨[], .nil, (pure_inj h).symm⟩
  | cons branch plan ih =>
    rw [runBranches] at h
    obtain ⟨list, hlist, h⟩ := exists_of_bind_eq_pure h
    obtain ⟨more, hmore, h⟩ := exists_of_bind_eq_pure h
    obtain ⟨lists, hlists, rfl⟩ := ih hmore
    exact ⟨list :: lists, .cons hlist hlists, (pure_inj h).symm⟩

end TreeEngine

section

variable {known : Answers} {t : TreeEngine} {plan : Plan} {list : SelectorList} {n : Nat}

private theorem branch_ne_nil {relative : Bool} {selector : Text}
    (hread : SelectorList.read relative selector = .ok list) (hplan : PlanOf known n list plan)
    {branch : List Plan.Step} (hbranch : branch ∈ plan) : branch ≠ [] := by
  rw [planOf_eq] at hplan
  obtain ⟨complex, hcomplex, hsteps⟩ := forall₂_exists_left hplan hbranch
  obtain ⟨k, -, hreadable⟩ := readable_of_read hread complex hcomplex
  rintro rfl
  cases hsteps
  cases hreadable.head

/-- What a branch of a compiled plan finds, in document order. -/
theorem branch_sublist (h : t.document.Linked) (hplan : PlanOf known n list plan)
    {branch : List Plan.Step} (hbranch : branch ∈ plan) {r : Nat} (hr : r ∈ t.document.order)
    {found : List Nat}
    (hrun : runSteps (t.toEngine : Engine Id Nat) branch [r] = pure found) :
    found.Sublist t.document.order ∧ ∀ y ∈ found, Reaches t branch r y := by
  have hsteps : ∀ s ∈ branch, t.LocalStep s ∧ t.Tests s.locator.widened := by
    intro s hs
    obtain ⟨compound, horigin⟩ := exists_origin (.here hbranch) hplan s hs
    obtain ⟨k, combinator, parts, hparts, rfl⟩ := horigin.assembled hplan
    exact ⟨TreeEngine.localStep_assembleStep h hparts combinator,
      TreeEngine.tests_widened h hparts combinator⟩
  refine ⟨TreeEngine.runSteps_sublist h hsteps (List.singleton_sublist.2 hr) hrun, fun y hy => ?_⟩
  have hroot : ∀ z ∈ [r], z ∈ t.document.order := by simpa using hr
  have hreaches := (TreeEngine.mem_runSteps h (fun s hs => (hsteps s hs).1) hroot hrun).1 hy
  simpa using hreaches

end

variable {m : Type → Type} [Monad m] [LawfulMonad m] {ν : Type}

/-- Whatever engine a plan was compiled for, run on the engine of a document tree from an attached
node: a branch that returns a list returns attached elements in document order, and if the plan
returns one, it is what the branches return, one after the other, each element where it comes first.
None of these elements has gone. -/
theorem results_ordered (settings : Settings) (engine : Engine m ν) (table : SupportTable)
    (selector : Text) (t : TreeEngine) (r : Nat) (hbuilt : t.document.Built)
    (hr : r ∈ t.document.order) :
    Returns
      (fun result => ∀ plan, result.1 = .ok plan →
        (∀ branch ∈ plan, ∀ list,
          (runSteps (t.toEngine : Engine Id Nat) branch [r]).run = .ok list →
            (∀ x ∈ list, x ∈ t.document.order ∧ t.document.isElement x) ∧
              list.Pairwise t.document.Precedes) ∧
        ∀ found, (Plan.run (t.toEngine : Engine Id Nat) plan r).run = .ok found →
          ∃ lists, List.Forall₂ (fun branch list =>
              (runSteps (t.toEngine : Engine Id Nat) branch [r]).run = .ok list) plan lists ∧
            FirstSeen lists.flatten found ∧ found.Nodup ∧ ∀ x ∈ found, t.Usable x)
      ((compile settings engine selector).run.run table) := by
  have hlinked := hbuilt.linked
  have htells : table.Tells AnyAnswer engine.capability := fun _ _ _ => trivial
  refine (yields_compile (answersTo_anyAnswer settings engine) selector table htells).imp ?_
  rintro ⟨result, table'⟩ ⟨houtcome, -⟩ plan hresult
  obtain rfl : result = .ok plan := hresult
  obtain ⟨-, list, hread, hplan⟩ := houtcome
  constructor
  · intro branch hbranch found hrun
    obtain ⟨hsublist, hreaches⟩ := branch_sublist hlinked hplan hbranch hr hrun
    have hne := branch_ne_nil hread hplan hbranch
    exact ⟨fun x hx => ⟨hsublist.subset hx, TreeEngine.isElement_of_reaches (hreaches x hx) hne⟩,
      pairwise_precedes hlinked hsublist⟩
  · intro found hrun
    obtain ⟨all, hall, hfound⟩ := exists_of_bind_eq_pure hrun
    obtain ⟨lists, hlists, rfl⟩ := TreeEngine.runBranches_eq_pure hall
    obtain rfl := pure_inj hfound
    have hseen := firstSeen_eraseDups lists.flatten
    refine ⟨lists, hlists, hseen, hseen.nodup, fun x hx => ?_⟩
    obtain ⟨found, hfound, hx⟩ := List.mem_flatten.1 ((hseen.mem_iff x).1 hx)
    obtain ⟨branch, hbranch, hrun⟩ := forall₂_exists_left hlists hfound
    have hsublist := (branch_sublist hlinked hplan hbranch hr hrun).1
    exact TreeEngine.usable_of_mem_order hlinked (hsublist.subset hx)

/-- The engine of the list with two items, which knows no structural pseudo-class. -/
def listEngine : TreeEngine := ⟨listDocument, []⟩

/-- What a compiled selector finds in the list. -/
def resultInList (selector : Text) : Option (List Nat) :=
  ((compile .standard (listEngine.toEngine : Engine Id Nat) selector).run.run .empty).1.toOption.bind
    fun plan => (Plan.run (listEngine.toEngine : Engine Id Nat) plan Document.root).run.toOption

theorem results_ordered_list :
    listEngine.document.Built ∧ Document.root ∈ listEngine.document.order ∧
      ∃ plan lists, ((compile .standard (listEngine.toEngine : Engine Id Nat)
          "li:last-child, ul > *").run.run .empty).1 = .ok plan ∧
        (Plan.run (listEngine.toEngine : Engine Id Nat) plan Document.root).run = .ok [3, 2] ∧
        List.Forall₂ (fun branch list =>
          (runSteps (listEngine.toEngine : Engine Id Nat) branch [Document.root]).run = .ok list)
          plan lists ∧
        FirstSeen lists.flatten [3, 2] ∧ ∀ x ∈ [3, 2], listEngine.Usable x := by
  have hroot : Document.root ∈ listEngine.document.order := Document.Linked.root_mem_order
  have hresult : resultInList "li:last-child, ul > *" = some [3, 2] := by decide +kernel
  have hordered := Returns.of_id (results_ordered .standard (listEngine.toEngine : Engine Id Nat)
    .empty "li:last-child, ul > *" listEngine Document.root built_listDocument hroot)
  unfold resultInList at hresult
  refine ⟨built_listDocument, hroot, ?_⟩
  cases hplan : ((compile .standard (listEngine.toEngine : Engine Id Nat)
      "li:last-child, ul > *").run.run .empty).1 with
  | error e =>
    rw [hplan] at hresult
    cases hresult
  | ok plan =>
    rw [hplan] at hresult
    have hrun : (Plan.run (listEngine.toEngine : Engine Id Nat) plan Document.root).run =
        .ok [3, 2] := by
      cases hfound : (Plan.run (listEngine.toEngine : Engine Id Nat) plan Document.root).run with
      | error e => simp [Except.toOption, hfound] at hresult
      | ok found =>
        obtain rfl : found = [3, 2] := by simpa [Except.toOption, hfound] using hresult
        rfl
    obtain ⟨lists, hlists, hseen, -, husable⟩ := (hordered plan hplan).2 [3, 2] hrun
    exact ⟨plan, lists, rfl, hrun, hlists, hseen, husable⟩

end CssLocator
