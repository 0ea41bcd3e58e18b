import CssLocator.Proofs.TestedSearches

/-!
# Whole selectors

A selector without refining pseudo-classes can be put to a native engine as a whole, which matches
it from right to left, or be compiled to a plan, which searches from left to right. If the document
has at most one top-level element, both find the same elements in the same order.
-/

namespace CssLocator

open Plan

namespace Document

variable {d : Document} {x y p : Nat}

/-- Elements that stand before another one have a parent element, as there are not two of them on top
of the document. -/
theorem isElement_of_siblings (h : d.Grown) (htop : (d.elementChildren root).length ≤ 1)
    (hp : d.parent? y = some p) {before after : List Nat}
    (hsplit : d.elementChildren p = before ++ y :: after) (hne : before ≠ []) : d.isElement p := by
  rcases h.parent_element hp with rfl | hp
  · rw [hsplit, List.length_append, List.length_cons] at htop
    have := List.length_pos_iff.2 hne
    omega
  · exact hp

/-- The element children that stand before an element are its earlier siblings, the nearest one
last. -/
theorem filter_precedingSiblings_of_split (h : d.Grown) (hy : d.isElement y)
    {before after : List Nat} (hsplit : d.elementChildren p = before ++ y :: after) :
    (d.precedingSiblings y).filter d.isElement = before.reverse := by
  have hmem : y ∈ d.elementChildren p := by simp [hsplit]
  have hp : d.parent? y = some p := ((mem_elementChildren h.linked).1 hmem).1
  obtain ⟨before', after', hsplit', hfilter⟩ := filter_precedingSiblings h.linked hy hp
  rw [hfilter, before_unique (nodup_elementChildren h.linked p) hsplit hsplit']

/-- An element with an earlier sibling has a parent element. -/
theorem exists_split_of_precedingSiblings (h : d.Grown) (htop : (d.elementChildren root).length ≤ 1)
    (hy : d.isElement y) (hne : (d.precedingSiblings y).filter d.isElement ≠ []) :
    ∃ p before after, d.isElement p ∧ d.elementChildren p = before ++ y :: after := by
  cases hp : d.parent? y with
  | none => simp [h.linked.precedingSiblings_of_none hp] at hne
  | some p =>
    obtain ⟨before, after, hsplit, hfilter⟩ := filter_precedingSiblings h.linked hy hp
    rw [hfilter, ne_eq, List.reverse_eq_nil_iff] at hne
    exact ⟨p, before, after, isElement_of_siblings h htop hp hsplit hne, hsplit⟩

/-- The earlier siblings that are elements are those that have the element as a later sibling. -/
theorem mem_filter_precedingSiblings (h : d.Grown) (htop : (d.elementChildren root).length ≤ 1)
    (hy : d.isElement y) :
    x ∈ (d.precedingSiblings y).filter d.isElement ↔ d.Related .subsequentSibling x y := by
  constructor
  · intro hx
    obtain ⟨p, before, after, hp, hsplit⟩ :=
      exists_split_of_precedingSiblings h htop hy (List.ne_nil_of_mem hx)
    rw [filter_precedingSiblings_of_split h hy hsplit, List.mem_reverse] at hx
    obtain ⟨first, between, hbefore⟩ := List.append_of_mem hx
    exact ⟨p, first, between, after, hp, by rw [hsplit, hbefore]; simp⟩
  · rintro ⟨p, first, between, after, -, hsplit⟩
    have hsplit : d.elementChildren p = (first ++ x :: between) ++ y :: after := by simp [hsplit]
    rw [filter_precedingSiblings_of_split h hy hsplit]
    simp

/-- The nearest earlier sibling that is an element has the element as its next sibling. -/
theorem find?_precedingSiblings (h : d.Grown) (htop : (d.elementChildren root).length ≤ 1)
    (hy : d.isElement y) :
    (d.precedingSiblings y).find? d.isElement = some x ↔ d.Related .nextSibling x y := by
  rw [← List.head?_filter]
  constructor
  · intro hx
    have hne : (d.precedingSiblings y).filter d.isElement ≠ [] := by
      intro hnil
      simp [hnil] at hx
    obtain ⟨p, before, after, hp, hsplit⟩ := exists_split_of_precedingSiblings h htop hy hne
    rw [filter_precedingSiblings_of_split h hy hsplit, List.head?_reverse,
      List.getLast?_eq_some_iff] at hx
    obtain ⟨first, rfl⟩ := hx
    exact ⟨p, first, after, hp, by rw [hsplit]; simp⟩
  · rintro ⟨p, first, after, -, hsplit⟩
    have hsplit : d.elementChildren p = (first ++ [x]) ++ y :: after := by simp [hsplit]
    rw [filter_precedingSiblings_of_split h hy hsplit]
    simp

end Document

/-- The tests are those of the compound, and the combinators are the same. -/
def PreparedStep (d : Document) (test : Compound → Nat → Bool) (find : SelectorList → Nat → List Nat)
    (p : Combinator × Compound) (q : Combinator × List ElementTest) : Prop :=
  p.1 = q.1 ∧ ∀ i, matchesCompound d q.2 i = Compound.testedSelects d test find i p.2

variable {d : Document} {test : Compound → Nat → Bool} {find : SelectorList → Nat → List Nat}

private theorem isElement_of_matchesBackwards {complex : List (Combinator × List ElementTest)}
    {i : Nat} (h : matchesBackwards d complex i) : d.isElement i := by
  have hcompound : ∀ {tests : List ElementTest}, matchesCompound d tests i → d.isElement i := by
    intro tests h
    rw [matchesCompound, Bool.and_eq_true] at h
    exact h.1
  rcases complex with _ | ⟨⟨combinator, tests⟩, _ | ⟨left, outer⟩⟩
  · cases h
  · exact hcompound h
  · unfold matchesBackwards at h
    rw [Bool.and_eq_true] at h
    exact hcompound h.1

/-- Going to the left from an element leads to the elements that have it in their reach. -/
theorem matchesBackwards_cons (h : d.Grown) (htop : (d.elementChildren Document.root).length ≤ 1)
    (combinator : Combinator) (tests : List ElementTest) (left : Combinator × List ElementTest)
    (outer : List (Combinator × List ElementTest)) (y : Nat) :
    matchesBackwards d ((combinator, tests) :: left :: outer) y ↔
      matchesCompound d tests y ∧
        ∃ x, matchesBackwards d (left :: outer) x ∧ y ∈ d.reach combinator x := by
  generalize hleft : matchesBackwards d (left :: outer) = q
  unfold matchesBackwards
  rw [Bool.and_eq_true, hleft]
  apply and_congr_right
  intro hmatches
  have hy : d.isElement y := by
    rw [matchesCompound, Bool.and_eq_true] at hmatches
    exact hmatches.1
  simp only [Document.mem_reach h.linked hy]
  cases combinator with
  | descendant =>
    rw [List.any_eq_true]
    constructor
    · rintro ⟨x, hx, hq⟩
      exact ⟨x, hq, h.linked.mem_descendants_iff.2 hx⟩
    · rintro ⟨x, hq, hx⟩
      exact ⟨x, h.linked.mem_descendants_iff.1 hx, hq⟩
  | child =>
    rw [Option.any_eq_true]
    constructor
    · rintro ⟨x, hx, hq⟩
      exact ⟨x, hq, hx⟩
    · rintro ⟨x, hq, hx⟩
      exact ⟨x, hx, hq⟩
  | nextSibling =>
    rw [Option.any_eq_true]
    constructor
    · rintro ⟨x, hx, hq⟩
      exact ⟨x, hq, (Document.find?_precedingSiblings h htop hy).1 hx⟩
    · rintro ⟨x, hq, hx⟩
      exact ⟨x, (Document.find?_precedingSiblings h htop hy).2 hx, hq⟩
  | subsequentSibling =>
    rw [List.any_eq_true]
    constructor
    · rintro ⟨x, hx, hq⟩
      exact ⟨x, hq, (Document.mem_filter_precedingSiblings h htop hy).1 hx⟩
    · rintro ⟨x, hq, hx⟩
      exact ⟨x, (Document.mem_filter_precedingSiblings h htop hy).2 hx, hq⟩

/-- The search from left to right finds what matches from right to left. The induction takes away the
last compound, which is the first one that the matcher looks at. -/
theorem mem_testedSearch_reverse (h : d.Grown) (htop : (d.elementChildren Document.root).length ≤ 1)
    {complex : Complex} {prepared : List (Combinator × List ElementTest)}
    (hprepared : List.Forall₂ (PreparedStep d test find) complex prepared)
    (hfirst : complex.getLast?.map Prod.fst = some .descendant) (y : Nat) :
    y ∈ Complex.testedSearch d test find complex.reverse [Document.root] ↔
      y ∈ d.order ∧ matchesBackwards d prepared y := by
  induction hprepared generalizing y with
  | nil => cases hfirst
  | @cons p q complex prepared hstep hrest ih =>
    obtain ⟨combinator, compound⟩ := p
    obtain ⟨_, tests⟩ := q
    obtain ⟨rfl, htests⟩ := hstep
    have hsearch : Complex.testedSearch d test find ((combinator, compound) :: complex).reverse [Document.root] =
        d.located (Compound.testedSelects d test find · compound) combinator
          (Complex.testedSearch d test find complex.reverse [Document.root]) := by
      rw [List.reverse_cons, Complex.testedSearch, List.foldl_append]
      rfl
    rw [hsearch, Document.mem_located, ← htests]
    apply and_congr_right
    intro hy
    cases hrest with
    | nil =>
      obtain rfl : combinator = .descendant := by simpa using hfirst
      rw [matchesBackwards]
      constructor
      · exact And.left
      · intro hmatches
        refine ⟨hmatches, Document.root, List.mem_singleton_self _, ?_⟩
        rcases List.mem_cons.1 hy with rfl | hy
        · rw [matchesCompound, h.not_isElement_root] at hmatches
          cases hmatches
        · exact hy
    | @cons p q complex prepared hnext hrest =>
      obtain ⟨combinator', tests'⟩ := q
      rw [matchesBackwards_cons h htop]
      apply and_congr_right
      intro _
      apply exists_congr
      intro x
      rw [ih (by simpa using hfirst) x]
      constructor
      · rintro ⟨⟨-, hleft⟩, hx⟩
        exact ⟨hleft, hx⟩
      · rintro ⟨hleft, hx⟩
        refine ⟨⟨?_, hleft⟩, hx⟩
        exact h.mem_order (Document.lt_size_of_isElement (isElement_of_matchesBackwards hleft))

/-- Whether the matcher evaluates a condition. A pseudo-class must be structural and have a valid
argument. -/
def SimpleSelector.isMatchable : SimpleSelector → Bool
  | pseudo use =>
    match PseudoClass.ofName? use.name with
    | some (.structural kind) => (kind.read use).toBool
    | _ => false
  | _ => true

def Compound.isMatchable (c : Compound) : Bool := c.all (·.isMatchable)

variable {x : SimpleSelector} {c : Compound} {list : SelectorList} {known : List Structural}

private theorem exists_read_of_isMatchable {use : PseudoUse}
    (h : SimpleSelector.isMatchable (.pseudo use)) :
    ∃ kind a, PseudoClass.ofName? use.name = some (.structural kind) ∧ kind.read use = .ok a := by
  unfold SimpleSelector.isMatchable at h
  dsimp only at h
  split at h
  · rename_i kind hname
    cases hread : kind.read use with
    | error e =>
      rw [hread] at h
      cases h
    | ok a => exact ⟨kind, a, hname, hread⟩
  · cases h

private theorem preparedAs_of_isMatchable (h : x.isMatchable) (hknown : ∀ kind, kind ∈ known) :
    x.PreparedAs known x := by
  cases x with
  | pseudo use =>
    obtain ⟨kind, a, hname, hread⟩ := exists_read_of_isMatchable h
    refine ⟨.structural kind a, ?_, fun _ _ => (meets_structural hname hread).symm⟩
    simp [prepareSimple, hname, hknown kind, hread, Except.map, Except.mapError]
  | _ => exact ⟨.plain _, rfl, fun _ _ => rfl⟩

private theorem fault?_of_isMatchable (h : x.isMatchable)
    (nested : SelectorList → Option SelectorError) : x.fault? nested = none := by
  cases x with
  | pseudo use =>
    obtain ⟨kind, a, hname, hread⟩ := exists_read_of_isMatchable h
    simp [SimpleSelector.fault?, hname, Structural.fault?, hread]
  | _ => rfl

private theorem refinings_of_isMatchable (h : c.isMatchable) : c.refinings = [] := by
  apply List.filterMap_eq_nil_iff.2
  intro x hx
  have hmatchable := List.all_eq_true.1 h x hx
  cases x with
  | pseudo use =>
    obtain ⟨kind, a, hname, -⟩ := exists_read_of_isMatchable hmatchable
    simp [SimpleSelector.refining?, hname]
  | _ => rfl

private theorem testedSelects_of_isMatchable (h : c.isMatchable) (i : Nat) :
    c.testedSelects d test find i = test c i := by
  rw [Compound.testedSelects, refinings_of_isMatchable h, List.all_nil, Bool.and_true]

private theorem SelectorList.fault?_of_isMatchable (h : list.compounds.all Compound.isMatchable)
    (limit n : Nat) : list.fault? limit n = none := by
  have hbranch : ∀ nested, list.branchFault? nested = none := by
    intro nested
    rw [branchFault?, List.findSome?_eq_none_iff]
    intro complex hcomplex
    rw [List.findSome?_eq_none_iff]
    intro p hp
    have hmem : p.2 ∈ list.compounds := List.mem_flatMap.2 ⟨complex, hcomplex, List.mem_map_of_mem hp⟩
    have hmatchable := List.all_eq_true.1 (List.all_eq_true.1 h p.2 hmem)
    dsimp only
    rw [List.findSome?_eq_none_iff]
    exact fun x hx => CssLocator.fault?_of_isMatchable (hmatchable x hx) nested
  cases n with
  | zero => exact hbranch _
  | succ n => exact hbranch _

private theorem SelectorList.everywhere_of_isMatchable {p : Compound → Bool}
    (h : list.compounds.all Compound.isMatchable) (hp : list.compounds.all p) (n : Nat) :
    list.everywhere p n := by
  cases n with
  | zero => exact hp
  | succ n =>
    apply List.all_eq_true.2
    intro c hc
    have harguments : c.arguments = [] := by
      rw [Compound.arguments, refinings_of_isMatchable (List.all_eq_true.1 h c hc), List.filterMap_nil]
    rw [harguments, List.all_nil, Bool.and_true]
    exact List.all_eq_true.1 hp c hc

/-- The prepared list tests what the compounds require, from right to left. -/
theorem exists_prepared (h : list.compounds.all Compound.isMatchable)
    (hknown : ∀ kind, kind ∈ known) (d : Document) (find : SelectorList → Nat → List Nat) :
    ∃ prepared, prepareList known list = .ok prepared ∧
      List.Forall₂ (fun complex backwards =>
        List.Forall₂ (PreparedStep d (fun c y => c.meets d y) find) complex.reverse backwards)
        list prepared := by
  apply Loop.exists_map
  intro complex hcomplex
  have hsteps : ∀ p ∈ complex, ∃ q : Combinator × List ElementTest,
      (do
        let tests ← Loop.map (prepareSimple known) p.2
        pure (p.1, tests) : Except Text (Combinator × List ElementTest)) = .ok q ∧
        PreparedStep d (fun c y => c.meets d y) find p q := by
    intro p hp
    have hmem : p.2 ∈ list.compounds := List.mem_flatMap.2 ⟨complex, hcomplex, List.mem_map_of_mem hp⟩
    have hmatchable := List.all_eq_true.1 h p.2 hmem
    have hprepared : ∀ x ∈ p.2, ∀ y, x = y → x.PreparedAs known y := by
      rintro x hx _ rfl
      exact preparedAs_of_isMatchable (List.all_eq_true.1 hmatchable x hx) hknown
    obtain ⟨tests, htests, hholds⟩ := exists_tests (List.forall₂_eq_eq_eq ▸ rfl) hprepared
    refine ⟨(p.1, tests), ?_, rfl, fun i => ?_⟩
    · rw [htests]
      rfl
    · rw [matchesCompound, hholds, testedSelects_of_isMatchable hmatchable]
      rfl
  obtain ⟨prepared, hmap, hrel⟩ := Loop.exists_map hsteps
  refine ⟨prepared.reverse, ?_, List.rel_reverse hrel⟩
  dsimp only
  rw [hmap]
  rfl

private theorem testedSearch_sublist {complex : Complex} (hne : complex ≠ []) (candidates : List Nat) :
    (Complex.testedSearch d test find complex candidates).Sublist d.order := by
  induction complex generalizing candidates with
  | nil => exact absurd rfl hne
  | cons p complex ih =>
    cases complex with
    | nil => exact List.filter_sublist
    | cons q complex => exact ih (by simp) _

namespace TreeEngine

/-- The engine that knows every structural pseudo-class. -/
def full (d : Document) : TreeEngine := ⟨d, Structural.all⟩

private theorem answersTo_full {m : Type → Type} [Monad m] [LawfulMonad m] (settings : Settings)
    (hprobing : settings.nativeProbing) (d : Document) :
    AnswersTo settings ((full d).toEngine : Engine m Nat) AlwaysKnown where
  asked := by
    intro _ kind
    rw [probe_toEngine]
    exact Returns.pure (decide_eq_true kind.mem_all)
  unasked := by
    intro hunasked
    rw [hprobing] at hunasked
    cases hunasked

private theorem locatesBy_full (compound : Compound) (hread : Compound.Readable compound)
    (hplain : compound.plainlyWritten) :
    (full d).LocatesBy AlwaysKnown compound (compound.meets d ·) := by
  intro nested parts combinator hparts
  have hknown : ∀ x ∈ compound, x.KnownTo (full d).known := fun x _ _ kind _ _ => kind.mem_all
  rw [locator_assembleStep combinator (all_known_of_partOf hparts), widened_native]
  exact findsBelow_native hparts hknown hread hplain

/-- What the search of a complex selector finds, and what matches it. -/
theorem mem_testedSearch_iff (h : d.Grown) (htop : (d.elementChildren Document.root).length ≤ 1)
    {complex : Complex} {backwards : List (Combinator × List ElementTest)}
    (hread : Complex.Readable .descendant complex)
    (hprepared : List.Forall₂ (PreparedStep d test find) complex.reverse backwards) (y : Nat) :
    y ∈ Complex.testedSearch d test find complex [Document.root] ↔
      y ∈ d.descendants Document.root ∧ matchesBackwards d backwards y := by
  have hfirst : complex.reverse.getLast?.map Prod.fst = some .descendant := by
    rw [List.getLast?_reverse]
    exact hread.head
  have hmem := mem_testedSearch_reverse h htop hprepared hfirst y
  rw [List.reverse_reverse] at hmem
  rw [hmem]
  constructor
  · rintro ⟨hy, hmatches⟩
    refine ⟨?_, hmatches⟩
    rcases List.mem_cons.1 hy with rfl | hy
    · have hroot := isElement_of_matchesBackwards hmatches
      rw [h.not_isElement_root] at hroot
      cases hroot
    · exact hy
  · rintro ⟨hy, hmatches⟩
    exact ⟨List.mem_cons_of_mem _ hy, hmatches⟩

private theorem mem_testedSearchWith_iff (h : d.Grown)
    (htop : (d.elementChildren Document.root).length ≤ 1)
    {prepared : List (List (Combinator × List ElementTest))}
    (hread : ∀ complex ∈ list, Complex.Readable .descendant complex)
    (hprepared : List.Forall₂ (fun complex backwards =>
      List.Forall₂ (PreparedStep d test find) complex.reverse backwards) list prepared) (y : Nat) :
    y ∈ list.testedSearchWith d test find Document.root ↔
      y ∈ d.descendants Document.root ∧ prepared.any (matchesBackwards d · y) := by
  induction hprepared with
  | nil => simp [SelectorList.testedSearchWith]
  | @cons complex backwards list prepared hstep _ ih =>
    have hhead := mem_testedSearch_iff h htop (hread complex List.mem_cons_self) hstep y
    have htail := ih fun other hother => hread other (List.mem_cons_of_mem complex hother)
    have hcons : SelectorList.testedSearchWith d test find (complex :: list) Document.root =
        Complex.testedSearch d test find complex [Document.root] ++
          SelectorList.testedSearchWith d test find list Document.root := rfl
    rw [hcons, List.mem_append, hhead, htail, ← and_or_left, List.any_cons, Bool.or_eq_true]

/-- A selector list without refining pseudo-classes, on a document with at most one top-level element
and the engine that knows every structural pseudo-class: the compiled plan and one native query of
the whole text find the same elements, and for a single complex selector the same list. -/
theorem plan_finds_matches (settings : Settings) (table : SupportTable) (json selector : Text)
    (d : Document) (list : SelectorList) (hprobing : settings.nativeProbing)
    (htable : table.Tells AlwaysKnown (full d).capability) (hdocument : Document.ofText? json = some d)
    (htop : (d.elementChildren Document.root).length ≤ 1)
    (hread : SelectorList.read false selector = .ok list)
    (hmatchable : list.compounds.all Compound.isMatchable)
    (hplain : list.compounds.all Compound.plainlyWritten) :
    ∃ plan found whole,
      ((compile settings ((full d).toEngine : Engine Id Nat) selector).run.run table).1 = .ok plan ∧
        (Plan.run ((full d).toEngine : Engine Id Nat) plan Document.root).run = .ok found ∧
          (full d).findAll Document.root (.native selector) = .ok whole ∧
            (∀ x, x ∈ found ↔ x ∈ whole) ∧ (list.length = 1 → found = whole) := by
  have h : d.Grown := Document.grown_of_ofText? hdocument
  have hanswers := answersTo_full (m := Id) settings hprobing d
  have hfault : selectorFault? settings.maxNesting selector = none := by
    rw [selectorFault?, hread]
    exact SelectorList.fault?_of_isMatchable hmatchable _ _
  obtain ⟨plan, hplan, hrun⟩ := run_compiled h.rooted (fun _ _ => Compound.isElement_of_meets)
    locatesBy_full hanswers htable hfault hread
    (SelectorList.everywhere_of_isMatchable hmatchable hplain _) Document.Linked.root_mem_order
  obtain ⟨find, hfind⟩ := SelectorList.exists_testedSearch_eq d (fun c y => c.meets d y)
    settings.maxNesting
  change _ = Except.ok (SelectorList.testedSearch d (fun c y => c.meets d y) _ _ _).eraseDups at hrun
  rw [hfind] at hrun
  obtain ⟨prepared, hprepare, hprepared⟩ := exists_prepared hmatchable Structural.mem_all d find
  have hwhole : (full d).findAll Document.root (.native selector) =
      .ok ((d.descendants Document.root).filter fun y =>
        d.isElement y && prepared.any (matchesBackwards d · y)) :=
    findAll_native hread hprepare Document.Linked.root_mem_order
  have hmem : ∀ y, y ∈ list.testedSearchWith d (fun c y => c.meets d y) find Document.root ↔
      y ∈ (d.descendants Document.root).filter fun y =>
        d.isElement y && prepared.any (matchesBackwards d · y) := by
    intro y
    have hcomplexes : ∀ complex ∈ list, Complex.Readable .descendant complex := by
      intro complex hcomplex
      obtain ⟨k, hk, hcomplexRead⟩ := readable_of_read hread complex hcomplex
      exact hk rfl ▸ hcomplexRead
    rw [mem_testedSearchWith_iff h htop hcomplexes hprepared, List.mem_filter, Bool.and_eq_true]
    apply and_congr_right
    intro _
    constructor
    · intro hmatches
      obtain ⟨backwards, -, hbackwards⟩ := List.any_eq_true.1 hmatches
      exact ⟨isElement_of_matchesBackwards hbackwards, hmatches⟩
    · exact And.right
  refine ⟨plan, _, _, hplan, hrun, hwhole, ?_, ?_⟩
  · intro y
    rw [List.mem_eraseDups]
    exact hmem y
  · intro hlength
    obtain ⟨complex, rfl⟩ := List.length_eq_one_iff.1 hlength
    have hsublist : (SelectorList.testedSearchWith d (fun c y => c.meets d y) find [complex]
        Document.root).Sublist d.order := by
      obtain ⟨k, -, hcomplexRead⟩ := readable_of_read hread complex (List.mem_singleton_self _)
      have hne : complex ≠ [] := by
        rintro rfl
        cases hcomplexRead.head
      rw [SelectorList.testedSearchWith, List.flatMap_singleton]
      exact testedSearch_sublist hne _
    rw [eraseDups_of_nodup (h.linked.nodup_order.sublist hsublist)]
    apply eq_of_sublist h.linked.nodup_order hsublist _ hmem
    exact List.filter_sublist.trans (List.sublist_cons_self _ _)

/-- An element with two children. -/
def nestedText : Text :=
  "\x7b\"children\":[\x7b\"tag\":\"a\",\"children\":[\x7b\"tag\":\"b\"\x7d,\x7b\"tag\":\"b\"\x7d]\x7d]\x7d"

theorem plan_finds_matches_nested :
    ∃ d list plan found whole, Settings.standard.nativeProbing ∧
      SupportTable.empty.Tells AlwaysKnown (full d).capability ∧
      Document.ofText? nestedText = some d ∧ (d.elementChildren Document.root).length ≤ 1 ∧
      SelectorList.read false "a > b + :last-child" = .ok list ∧
      list.compounds.all Compound.isMatchable ∧ list.compounds.all Compound.plainlyWritten ∧
      ((compile .standard ((full d).toEngine : Engine Id Nat) "a > b + :last-child").run.run
        .empty).1 = .ok plan ∧
      (Plan.run ((full d).toEngine : Engine Id Nat) plan Document.root).run = .ok found ∧
      (full d).findAll Document.root (.native "a > b + :last-child") = .ok whole ∧
      (∀ x, x ∈ found ↔ x ∈ whole) ∧ (list.length = 1 → found = whole) := by
  have hdocument : (Document.ofText? nestedText).any
      fun d => (d.elementChildren Document.root).length ≤ 1 := by decide +kernel
  have hlist : (SelectorList.read false "a > b + :last-child").toOption.any fun list =>
      list.compounds.all Compound.isMatchable && list.compounds.all Compound.plainlyWritten := by
    decide +kernel
  obtain ⟨d, hd, htop⟩ := (Option.any_eq_true _ _).1 hdocument
  obtain ⟨list, hread, hconditions⟩ := (Option.any_eq_true _ _).1 hlist
  have hread : SelectorList.read false "a > b + :last-child" = .ok list := by
    cases h : SelectorList.read false "a > b + :last-child" with
    | error e =>
      rw [h] at hread
      cases hread
    | ok found =>
      rw [h] at hread
      cases hread
      rfl
  have htop : (d.elementChildren Document.root).length ≤ 1 := by simpa using htop
  obtain ⟨hmatchable, hplain⟩ := Bool.and_eq_true_iff.1 hconditions
  have htable := SupportTable.tells_empty AlwaysKnown (full d).capability
  obtain ⟨plan, found, whole, hfound⟩ := plan_finds_matches .standard .empty nestedText
    "a > b + :last-child" d list rfl htable hd htop hread hmatchable hplain
  exact ⟨d, list, plan, found, whole, rfl, htable, hd, htop, hread, hmatchable, hplain, hfound⟩

end TreeEngine

end CssLocator
