import CssLocator.Proofs.EngineIndependence
import CssLocator.Proofs.ExecutedBranches
import CssLocator.Proofs.NestingBounds
import CssLocator.Proofs.SharedTables

/-!
# Rearranged selectors

The conditions of a compound may stand in any order and be repeated, and `*` may be left out, in arguments
too. Whether a compound compiles, which language it is asked in, and whether an element meets it are
conjunctions over its conditions, so a rearranged selector has a fault if and only if the selector has
one, and else both find the same.
-/

namespace CssLocator

open Plan

/-- Two uses of `:has()`, or two of `:not()`, with related lists in their arguments. -/
inductive SimpleSelector.Alike (related : SelectorList → SelectorList → Prop) :
    SimpleSelector → SimpleSelector → Prop
  | argument {kind : Refining} {use use' : PseudoUse} {list list' : SelectorList}
      (hname : PseudoClass.ofName? use.name = some (.refining kind))
      (hname' : PseudoClass.ofName? use'.name = some (.refining kind))
      (hlist : kind.argument? use = some list) (hlist' : kind.argument? use' = some list')
      (h : related list list') : Alike related (.pseudo use) (.pseudo use')

/-- Compounds of the same conditions, up to order, repetitions, `*`, and what is related in arguments. -/
inductive Compound.Rearranged (related : SelectorList → SelectorList → Prop) :
    Compound → Compound → Prop
  | permuted {c c' : Compound} (h : c.Perm c') : Rearranged related c c'
  | repeated {x : SimpleSelector} {c : Compound} (h : x ∈ c) : Rearranged related c (x :: c)
  | universal (c : Compound) : Rearranged related c (.universal :: c)
  | argument {x x' : SimpleSelector} (c : Compound) (h : x.Alike related x') :
      Rearranged related (x :: c) (x' :: c)
  | symm {c c' : Compound} (h : Rearranged related c c') : Rearranged related c' c
  | trans {c c' c'' : Compound} (h : Rearranged related c c') (h' : Rearranged related c' c'') :
      Rearranged related c c''

namespace SelectorList

/-- The combinators are the same, and the compounds are rearranged. -/
def RearrangedBy (related : SelectorList → SelectorList → Prop) : SelectorList → SelectorList → Prop :=
  List.Forall₂ (List.Forall₂ fun p p' => p.1 = p'.1 ∧ Compound.Rearranged related p.2 p'.2)

/-- Lists with rearranged compounds, down to the given depth of arguments. -/
def Rearranged : (depth : Nat) → SelectorList → SelectorList → Prop
  | 0 => RearrangedBy fun _ _ => False
  | n + 1 => RearrangedBy (Rearranged n)

end SelectorList

variable {related : SelectorList → SelectorList → Prop} {c c' : Compound} {x x' : SimpleSelector}
  {list list' : SelectorList}

/-- Rearranged conditions hold alike, taken together. -/
theorem Compound.Rearranged.all_eq {p : SimpleSelector → Bool} (h : Compound.Rearranged related c c')
    (huniversal : p .universal = true)
    (halike : ∀ x x', SimpleSelector.Alike related x x' → p x = p x') : c.all p = c'.all p := by
  induction h with
  | permuted h => exact h.all_eq
  | @repeated x c h =>
    rw [List.all_cons]
    cases hx : p x with
    | true => rfl
    | false =>
      rw [Bool.false_and, List.all_eq_false]
      exact ⟨x, h, by simp [hx]⟩
  | universal c => rw [List.all_cons, huniversal, Bool.true_and]
  | argument c h => rw [List.all_cons, List.all_cons, halike _ _ h]
  | symm _ ih => exact ih.symm
  | trans _ _ ih ih' => exact ih.trans ih'

/-- What is said of conditions, and not of the lists in arguments. -/
structure SpeaksOfConditions (p : SimpleSelector → Bool) : Prop where
  universal : p .universal = true
  refining : ∀ {use kind}, PseudoClass.ofName? use.name = some (.refining kind) → p (.pseudo use) = true

private theorem SpeaksOfConditions.all_eq {p : SimpleSelector → Bool} (hp : SpeaksOfConditions p)
    (h : Compound.Rearranged related c c') : c.all p = c'.all p := by
  apply h.all_eq hp.universal
  intro x x' halike
  cases halike with
  | argument hname hname' => rw [hp.refining hname, hp.refining hname']

/-- What holds for entries in the same places holds for all or for none of both lists. -/
theorem all_eq_of_forall₂ {α β : Type} {rel : α → β → Prop} {f : α → Bool} {g : β → Bool} {l : List α}
    {l' : List β} (h : List.Forall₂ rel l l') (hrel : ∀ a b, rel a b → f a = g b) : l.all f = l'.all g := by
  induction h with
  | nil => rfl
  | cons hab _ ih => rw [List.all_cons, List.all_cons, hrel _ _ hab, ih]

private theorem isNone_findSome? {α β : Type} (f : α → Option β) (l : List α) :
    (l.findSome? f).isNone = l.all fun a => (f a).isNone := by
  induction l with
  | nil => rfl
  | cons a l ih =>
    rw [List.findSome?_cons, List.all_cons, ← ih]
    cases f a <;> rfl

/-- A list in an argument gives its fault to the pseudo-class. -/
theorem fault?_of_argument? {fault : SelectorList → Option SelectorError} {kind : Refining}
    {use : PseudoUse} (hname : PseudoClass.ofName? use.name = some (.refining kind))
    (hlist : kind.argument? use = some list) : SimpleSelector.fault? fault (.pseudo use) = fault list := by
  have hargument : use.argument ≠ none := by
    intro hnone
    obtain ⟨relative, hread⟩ := read_of_argument? hlist
    rw [PseudoUse.argumentText, hnone] at hread
    cases relative <;> cases hread
  obtain ⟨argument, hargument⟩ := Option.ne_none_iff_exists'.1 hargument
  have hcheck : kind.takesArgument → kind.check use = .ok () := by
    intro htakes
    simp [Refining.check, checkArgument, hargument, htakes]
  cases kind with
  | has => simp [SimpleSelector.fault?, hname, Refining.fault?, hcheck rfl, toOption_eq_some.1 hlist]
  | not => simp [SimpleSelector.fault?, hname, Refining.fault?, hcheck rfl, toOption_eq_some.1 hlist]
  | _ => cases hlist

private theorem SelectorList.RearrangedBy.isNone_branchFault?
    (h : SelectorList.RearrangedBy related list list') {fault : SelectorList → Option SelectorError}
    (hfault : ∀ list list', related list list' → (fault list).isNone = (fault list').isNone) :
    (list.branchFault? fault).isNone = (list'.branchFault? fault).isNone := by
  have halike : ∀ x x', SimpleSelector.Alike related x x' →
      (x.fault? fault).isNone = (x'.fault? fault).isNone := by
    intro x x' halike
    cases halike with
    | argument hname hname' hlist hlist' h =>
      rw [fault?_of_argument? hname hlist, fault?_of_argument? hname' hlist', hfault _ _ h]
  unfold SelectorList.branchFault?
  rw [isNone_findSome?, isNone_findSome?]
  refine all_eq_of_forall₂ h fun complex complex' hcomplex => ?_
  rw [isNone_findSome?, isNone_findSome?]
  refine all_eq_of_forall₂ hcomplex fun p p' hp => ?_
  rw [isNone_findSome?, isNone_findSome?]
  exact hp.2.all_eq rfl halike

/-- A rearranged list has a fault if and only if the list has one. -/
theorem SelectorList.Rearranged.isNone_fault? {depth : Nat} (h : SelectorList.Rearranged depth list list')
    (limit n : Nat) : (list.fault? limit n).isNone = (list'.fault? limit n).isNone := by
  induction depth generalizing n list list' with
  | zero =>
    rw [fault?_eq, fault?_eq]
    exact RearrangedBy.isNone_branchFault? h fun _ _ => False.elim
  | succ depth ih =>
    rw [fault?_eq, fault?_eq]
    refine RearrangedBy.isNone_branchFault? h fun inner inner' hinner => ?_
    cases n with
    | zero => rfl
    | succ n => exact ih hinner n

section

variable {d : Document} {test : Compound → Nat → Bool} {find : SelectorList → Nat → List Nat}

private theorem Compound.Rearranged.testedSelects_eq (h : Compound.Rearranged related c c')
    (htest : test c = test c') (hfind : ∀ list list', related list list' → find list = find list') (y : Nat) :
    c.testedSelects d test find y = c'.testedSelects d test find y := by
  have hall : ∀ c : Compound, (c.refinings.all fun u => u.1.admits d find y u.2) =
      c.all fun x => x.refining?.all fun u => u.1.admits d find y u.2 := fun c => List.all_filterMap
  have hrefinings : (c.refinings.all fun u => u.1.admits d find y u.2) =
      c'.refinings.all fun u => u.1.admits d find y u.2 := by
    rw [hall, hall]
    refine h.all_eq rfl fun x x' halike => ?_
    cases halike with
    | @argument kind use use' list list' hname hname' hlist hlist' hrelated =>
      rw [refining?_eq_some.2 ⟨rfl, hname⟩, refining?_eq_some.2 ⟨rfl, hname'⟩, Option.all_some,
        Option.all_some]
      cases kind with
      | has => simp [Refining.admits, hlist, hlist', hfind _ _ hrelated]
      | not => simp [Refining.admits, hlist, hlist', hfind _ _ hrelated]
      | _ => cases hlist
  rw [Compound.testedSelects, htest]
  exact congrArg (test c' y && ·) hrefinings

private theorem SelectorList.RearrangedBy.testedSearchWith_eq
    (h : SelectorList.RearrangedBy related list list')
    (htest : ∀ c c', Compound.Rearranged related c c' → test c = test c')
    (hfind : ∀ list list', related list list' → find list = find list') :
    list.testedSearchWith d test find = list'.testedSearchWith d test find := by
  have hcomplex : ∀ {complex complex' : Complex},
      List.Forall₂ (fun p p' => p.1 = p'.1 ∧ Compound.Rearranged related p.2 p'.2) complex complex' →
        ∀ candidates, complex.testedSearch d test find candidates =
          complex'.testedSearch d test find candidates := by
    intro complex complex' hcomplex
    induction hcomplex with
    | nil => exact fun _ => rfl
    | @cons p p' complex complex' hp _ ih =>
      intro candidates
      have hselects := hp.2.testedSelects_eq (d := d) (htest _ _ hp.2) hfind
      unfold Complex.testedSearch at ih ⊢
      simp only [List.foldl_cons, hp.1, hselects, ih]
  funext x
  unfold SelectorList.testedSearchWith
  induction h with
  | nil => rfl
  | cons hfirst _ ih => rw [List.flatMap_cons, List.flatMap_cons, hcomplex hfirst, ih]

/-- A rearranged list finds the same. -/
theorem SelectorList.Rearranged.testedSearch_eq {depth : Nat}
    (h : SelectorList.Rearranged depth list list')
    (htest : ∀ related c c', Compound.Rearranged related c c' → test c = test c') (n : Nat) :
    list.testedSearch d test n = list'.testedSearch d test n := by
  induction depth generalizing n list list' with
  | zero =>
    have hby : RearrangedBy (fun _ _ => False) list list' := h
    cases n <;> exact hby.testedSearchWith_eq (htest _) fun _ _ => False.elim
  | succ depth ih =>
    have hby : RearrangedBy (Rearranged depth) list list' := h
    cases n with
    | zero => exact hby.testedSearchWith_eq (htest _) fun _ _ _ => rfl
    | succ n => exact hby.testedSearchWith_eq (htest _) fun _ _ hinner => ih hinner n

end

/-- Whether the engine takes a condition in selector language. -/
def SimpleSelector.isTaken (settings : Settings) (known : List Structural) : SimpleSelector → Bool
  | pseudo use =>
    match PseudoClass.ofName? use.name with
    | some (.structural kind) => settings.nativeProbing && decide (kind ∈ known)
    | _ => true
  | _ => true

namespace TreeEngine

variable {t : TreeEngine} {settings : Settings} {nested : SelectorList → Plan → Prop}

/-- Whether an element meets the conditions of a compound in the language that it is asked in. -/
def meetsAsked (t : TreeEngine) (settings : Settings) (c : Compound) (y : Nat) : Bool :=
  if c.all (·.isTaken settings t.known) then c.meets t.document y
  else t.document.isElement y && c.pathHolds t.document (t.document.focusOf y)

private theorem known_eq_isTaken {parts : List StepPart}
    (h : List.Forall₂ (PartOf (AnswersOf settings t.known) nested) c parts) :
    parts.all (·.known) = c.all (·.isTaken settings t.known) := by
  refine (all_eq_of_forall₂ h fun x part hpart => ?_).symm
  cases hpart with
  | structural hname _ hknown => simpa [SimpleSelector.isTaken, StepPart.known, hname] using hknown.symm
  | refining hname => simp [SimpleSelector.isTaken, StepPart.known, hname]
  | _ => rfl

/-- The locators of a compound find the elements that meet its conditions as they are asked. -/
theorem locatesBy_meetsAsked (h : t.document.Linked) (hread : Compound.Readable c)
    (hplain : c.plainlyWritten) :
    t.LocatesBy (AnswersOf settings t.known) c (t.meetsAsked settings c) := by
  intro nested parts combinator hparts
  have htaken := known_eq_isTaken hparts
  rcases locator_cases hparts combinator with ⟨hknown, hnative⟩ | ⟨hknown, ss, hss, hpath⟩
  · have hmeets : t.meetsAsked settings c = (c.meets t.document ·) := by
      funext y
      rw [meetsAsked, if_pos (htaken ▸ hknown)]
    have hall : ∀ x ∈ c, x.KnownTo t.known := by
      intro x hx use kind huse hname
      have htrue := List.all_eq_true.1 (htaken ▸ hknown) x hx
      subst huse
      simp only [SimpleSelector.isTaken, hname, Bool.and_eq_true, decide_eq_true_eq] at htrue
      exact htrue.2
    rw [hnative, widened_native, hmeets]
    exact findsBelow_native hparts hall hread hplain
  · rw [hpath, widened_path]
    intro x hx
    rw [findAll_below h hx hss]
    congr 1
    apply List.filter_congr
    intro y _
    rw [meetsAsked, if_neg (by simp [← htaken, hknown])]

/-- A rearranged compound is asked in the same language, and the same elements meet it. -/
theorem meetsAsked_eq (h : Compound.Rearranged related c c') :
    t.meetsAsked settings c = t.meetsAsked settings c' := by
  have htaken : SpeaksOfConditions (·.isTaken settings t.known) :=
    ⟨rfl, fun hname => by simp [SimpleSelector.isTaken, hname]⟩
  have hmeets : ∀ y, SpeaksOfConditions (·.meets t.document y) := fun y =>
    ⟨rfl, fun hname => by simp [SimpleSelector.meets, hname]⟩
  have hpath : ∀ focus, SpeaksOfConditions (·.pathHolds t.document focus) := fun focus =>
    ⟨rfl, fun hname => by simp [SimpleSelector.pathHolds, hname]⟩
  funext y
  unfold meetsAsked Compound.meets Compound.pathHolds
  rw [htaken.all_eq h, (hmeets y).all_eq h, (hpath _).all_eq h]

private theorem isElement_of_meetsAsked {y : Nat} (h : t.meetsAsked settings c y) :
    t.document.isElement y := by
  unfold meetsAsked at h
  split at h
  · exact Compound.isElement_of_meets h
  · exact (Bool.and_eq_true_iff.1 h).1

/-- A plainly written selector is refused, or it finds what its list is said to find. -/
theorem outcome_cases (h : t.document.Rooted) {table : SupportTable} (htable : table.Truthful)
    {selector : Text} (hread : SelectorList.read false selector = .ok list)
    (hplain : list.everywhere Compound.plainlyWritten settings.maxNesting) {r : Nat}
    (hr : r ∈ t.document.order) :
    (∃ e, list.fault? settings.maxNesting settings.maxNesting = some e ∧
      outcome settings t table selector r = .error e) ∨
    list.fault? settings.maxNesting settings.maxNesting = none ∧
      outcome settings t table selector r = .ok (.ok
        (list.testedSearch t.document (t.meetsAsked settings) settings.maxNesting r).eraseDups) := by
  have hcompiled := (yields_compile_of_truthful (m := Id) settings t selector table htable).of_id.1
  rw [selectorFault?, hread] at hcompiled
  unfold outcome
  cases hplan : ((compile settings (t.toEngine : Engine Id Nat) selector).run.run table).1 with
  | error e =>
    rw [hplan] at hcompiled
    exact .inl ⟨e, hcompiled, rfl⟩
  | ok plan =>
    rw [hplan] at hcompiled
    obtain ⟨hnone, list', hread', hplanOf⟩ := hcompiled
    obtain rfl := Except.ok.inj hread'
    have hrun := run_planOf h (fun _ _ => isElement_of_meetsAsked)
      (fun compound hreadable hplain => locatesBy_meetsAsked h.linked hreadable hplain) hplanOf hread
      hplain hr
    exact .inr ⟨hnone, congrArg Except.ok hrun⟩

/-- The order of the conditions in compounds makes no difference, and neither do repetitions and `*`, in
arguments as well: two selectors that differ in nothing else are both refused, or both find the same
elements in the same order. Names consist of visible characters, and in a value no double quote follows a
backslash. -/
theorem rearranged_selectors_agree (settings : Settings) (t : TreeEngine) (table table' : SupportTable)
    (selector selector' : Text) (list list' : SelectorList) (depth r : Nat)
    (hbuilt : t.document.Built) (hr : r ∈ t.document.order) (htable : table.Truthful)
    (htable' : table'.Truthful) (hread : SelectorList.read false selector = .ok list)
    (hread' : SelectorList.read false selector' = .ok list')
    (hplain : list.everywhere Compound.plainlyWritten settings.maxNesting)
    (hplain' : list'.everywhere Compound.plainlyWritten settings.maxNesting)
    (h : SelectorList.Rearranged depth list list') :
    (∃ e e', outcome settings t table selector r = .error e ∧
      outcome settings t table' selector' r = .error e') ∨
    ∃ found, outcome settings t table selector r = .ok (.ok found) ∧
      outcome settings t table' selector' r = .ok (.ok found) := by
  have hrooted := hbuilt.rooted
  have hfault := h.isNone_fault? settings.maxNesting settings.maxNesting
  have hsearch : list.testedSearch t.document (t.meetsAsked settings) settings.maxNesting =
      list'.testedSearch t.document (t.meetsAsked settings) settings.maxNesting :=
    h.testedSearch_eq (fun _ _ _ => meetsAsked_eq) settings.maxNesting
  rcases outcome_cases hrooted htable hread hplain hr with ⟨e, hsome, herror⟩ | ⟨hnone, hfound⟩
  · rcases outcome_cases hrooted htable' hread' hplain' hr with ⟨e', -, herror'⟩ | ⟨hnone', -⟩
    · exact .inl ⟨e, e', herror, herror'⟩
    · rw [hsome, hnone'] at hfault
      cases hfault
  · rcases outcome_cases hrooted htable' hread' hplain' hr with ⟨e', hsome', -⟩ | ⟨-, hfound'⟩
    · rw [hnone, hsome'] at hfault
      cases hfault
    · rw [← hsearch] at hfound'
      exact .inr ⟨_, hfound, hfound'⟩

/-- One condition is repeated, and in the argument another one, behind an asterisk. -/
theorem rearranged_selectors_agree_list :
    listDocument.Built ∧ Document.root ∈ listDocument.order ∧ SupportTable.empty.Truthful ∧
    SelectorList.read false "li:not(.a.b):last-child" = .ok [[(.descendant,
      [.tag "li", .pseudo ⟨"not", some ".a.b"⟩, .pseudo ⟨"last-child", none⟩])]] ∧
    SelectorList.read false "li:last-child:last-child:not(*.b.a.b)" = .ok [[(.descendant,
      [.tag "li", .pseudo ⟨"last-child", none⟩, .pseudo ⟨"last-child", none⟩,
        .pseudo ⟨"not", some "*.b.a.b"⟩])]] ∧
    ((∃ e e',
      outcome .standard ⟨listDocument, []⟩ .empty "li:not(.a.b):last-child" Document.root = .error e ∧
      outcome .standard ⟨listDocument, []⟩ .empty "li:last-child:last-child:not(*.b.a.b)"
        Document.root = .error e') ∨
    ∃ found,
      outcome .standard ⟨listDocument, []⟩ .empty "li:not(.a.b):last-child" Document.root =
        .ok (.ok found) ∧
      outcome .standard ⟨listDocument, []⟩ .empty "li:last-child:last-child:not(*.b.a.b)"
        Document.root = .ok (.ok found)) := by
  have hroot : Document.root ∈ listDocument.order := Document.Linked.root_mem_order
  have hempty := SupportTable.truthful_empty
  have hread : SelectorList.read false "li:not(.a.b):last-child" = .ok [[(.descendant,
      [.tag "li", .pseudo ⟨"not", some ".a.b"⟩, .pseudo ⟨"last-child", none⟩])]] := by
    decide +kernel
  have hread' : SelectorList.read false "li:last-child:last-child:not(*.b.a.b)" = .ok [[(.descendant,
      [.tag "li", .pseudo ⟨"last-child", none⟩, .pseudo ⟨"last-child", none⟩,
        .pseudo ⟨"not", some "*.b.a.b"⟩])]] := by
    decide +kernel
  have hinner : SelectorList.Rearranged 0 [[(.descendant, [.className "a", .className "b"])]]
      [[(.descendant, [.universal, .className "b", .className "a", .className "b"])]] :=
    .cons (.cons ⟨rfl, .trans (.repeated (by decide)) (.universal _)⟩ .nil) .nil
  have hargument : (SimpleSelector.pseudo ⟨"not", some ".a.b"⟩).Alike (SelectorList.Rearranged 0)
      (.pseudo ⟨"not", some "*.b.a.b"⟩) :=
    .argument Refining.not.ofName?_name Refining.not.ofName?_name (by decide +kernel)
      (by decide +kernel) hinner
  have hcompound : Compound.Rearranged (SelectorList.Rearranged 0)
      [.tag "li", .pseudo ⟨"not", some ".a.b"⟩, .pseudo ⟨"last-child", none⟩]
      [.tag "li", .pseudo ⟨"last-child", none⟩, .pseudo ⟨"last-child", none⟩,
        .pseudo ⟨"not", some "*.b.a.b"⟩] := by
    refine .trans (.permuted (.swap _ _ _)) (.trans (.argument _ hargument) ?_)
    exact .trans (.repeated (x := .pseudo ⟨"last-child", none⟩) (by decide)) (.permuted (by decide))
  exact ⟨built_listDocument, hroot, hempty, hread, hread',
    rearranged_selectors_agree .standard ⟨listDocument, []⟩ .empty .empty _ _ _ _ 1 Document.root
      built_listDocument hroot hempty hempty hread hread' (by decide +kernel) (by decide +kernel)
      (.cons (.cons ⟨rfl, hcompound⟩ .nil) .nil)⟩

end TreeEngine

end CssLocator
