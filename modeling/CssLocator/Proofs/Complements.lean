import CssLocator.Proofs.FilteredSelections

/-!
# Complements

A negated list selects what the list does not select. To negate several lists at once is to negate one
after the other.
-/

namespace CssLocator

open Plan

variable {q : Option Char} {i j : Nat} {s u : Text} {relative : Bool} {list : SelectorList}

theorem Nested.append (h : Nested q i j s) (hu : Nested none 0 0 u) : Nested q i j (s ++ u) := by
  induction h with
  | nil => exact hu
  | escaped c _ ih => exact .escaped c ih
  | flat hc _ ih => exact .flat hc ih
  | openQuote hq _ ih => exact .openQuote hq ih
  | quoted hc hq _ ih => exact .quoted hc hq ih
  | closeQuote hq _ ih => exact .closeQuote hq ih
  | openParenthesis _ ih => exact .openParenthesis ih
  | closeParenthesis _ ih => exact .closeParenthesis ih
  | openBracket _ ih => exact .openBracket ih
  | closeBracket _ ih => exact .closeBracket ih

@[simp] theorem readComplex_blank (s : Text) :
    readComplex relative (' ' :: s) = readComplex relative s := rfl

/-- A blank in front of a list makes no difference. -/
@[simp] theorem read_blank : SelectorList.read relative (' ' :: u) = .ok list ↔
    SelectorList.read relative u = .ok list := by
  obtain ⟨part, parts, hparts⟩ := List.exists_cons_of_ne_nil (splitOuterCommas_ne_nil .outside u)
  have hblank : splitOuterCommas .outside (' ' :: u) = (' ' :: part) :: parts := by
    rw [splitOuterCommas_cons (by decide), if_neg (by decide)]
    exact congrArg (Text.extendHead ' ') hparts
  rw [read_eq_ok_iff, read_eq_ok_iff, hblank, hparts, List.forall₂_cons_left_iff,
    List.forall₂_cons_left_iff, readComplex_blank]

/-- A list behind a comma and a blank is read like on its own. -/
theorem read_comma_blank (hs : Nested none 0 0 s) (hu : Nested none 0 0 u)
    (h : SelectorList.read relative (s ++ ", " ++ u) = .ok list) :
    ∃ first second, SelectorList.read relative s = .ok first ∧
      SelectorList.read relative u = .ok second ∧ list = first ++ second := by
  have hjoin : s ++ ", " ++ u = Text.join [','] [s, ' ' :: u] := by simp [Text.join]
  have hnested : ∀ part ∈ [s, ' ' :: u], Nested none 0 0 part :=
    List.forall_mem_cons.2 ⟨hs, List.forall_mem_singleton.2 (.flat rfl hu)⟩
  rw [hjoin, read_join_iff (List.cons_ne_nil _ _) hnested] at h
  obtain ⟨lists, hlists, rfl⟩ := h
  obtain ⟨first, _, hfirst, hrest, rfl⟩ := List.forall₂_cons_left_iff.1 hlists
  obtain ⟨second, rfl, hsecond⟩ := exists_of_forall₂_singleton hrest
  exact ⟨first, second, hfirst, read_blank.1 hsecond, by simp⟩

namespace TreeEngine

variable {t : TreeEngine} {settings : Settings} {plan plan' : Plan} {x : Nat}

@[simp] theorem runBranches_append (plan plan' : Plan) (x : Nat) :
    runBranches (t.toEngine : Engine Id Nat) (plan ++ plan') x = (do
      let found ← runBranches (t.toEngine : Engine Id Nat) plan x
      let more ← runBranches (t.toEngine : Engine Id Nat) plan' x
      pure (found ++ more)) := by
  induction plan with
  | nil => simp [runBranches]
  | cons steps plan ih =>
    rw [List.cons_append, runBranches, runBranches, ih]
    simp only [bind_assoc, pure_bind, List.append_assoc]

/-- Together the plans of two lists exclude what one after the other excludes. -/
theorem passesAll_not_append {b b' : Bool}
    (h : passesAll (t.toEngine : Engine Id Nat) [.not (plan ++ plan')] x = pure b)
    (h' : passesAll (t.toEngine : Engine Id Nat) [.not plan, .not plan'] x = pure b') : b = b' := by
  rw [passesAll_singleton, Filter.passes] at h
  obtain ⟨all, hall, h⟩ := exists_of_bind_eq_pure h
  rw [runBranches_append] at hall
  obtain ⟨found, hfound, hall⟩ := exists_of_bind_eq_pure hall
  obtain ⟨more, hmore, hall⟩ := exists_of_bind_eq_pure hall
  obtain rfl := pure_inj hall
  obtain rfl := pure_inj h
  rw [passesAll, Filter.passes, hfound, pure_bind, pure_bind, passesAll_singleton, Filter.passes,
    hmore, pure_bind] at h'
  cases hx : found.contains x with
  | true =>
    rw [hx] at h'
    obtain rfl := pure_inj h'
    simp_all
  | false =>
    rw [hx] at h'
    obtain rfl := pure_inj h'
    simp_all

theorem PlanFor.append {list list' : SelectorList} (h : t.PlanFor settings list plan)
    (h' : t.PlanFor settings list' plan') : t.PlanFor settings (list ++ list') (plan ++ plan') := by
  rw [PlanFor, planOf_eq] at *
  exact List.rel_append h h'

/-- What negated lists select: the elements that pass the filters of their plans. -/
theorem exists_plans_of_selects_not (h : t.document.Grown) {ss : List Text} {found : List Nat}
    (hnested : ∀ s ∈ ss, Nested none 0 0 s)
    (hselects : t.Selects settings ("*" ++ ss.flatMap Refining.not.text) found) :
    ∃ plans, List.Forall₂ (fun s plan => ∃ list, SelectorList.read false s = .ok list ∧
        t.PlanFor settings list plan) ss plans ∧
      keep (passesAll (t.toEngine : Engine Id Nat) (plans.map .not)) t.elements = pure found := by
  have huses : ∀ u ∈ ss.map (Refining.not, ·), Nested none 0 0 u.2 := List.forall_mem_map.2 hnested
  have htext : ss.flatMap Refining.not.text =
      (ss.map (Refining.not, ·)).flatMap fun u => u.1.text u.2 := by rw [List.flatMap_map]
  rw [htext] at hselects
  obtain ⟨filters, hfilters, hkeep⟩ := exists_filters_of_selects h huses hselects
  rw [List.forall₂_map_left_iff] at hfilters
  suffices hplans : ∃ plans, List.Forall₂ (fun s plan => ∃ list, SelectorList.read false s = .ok list ∧
      t.PlanFor settings list plan) ss plans ∧ filters = plans.map .not by
    obtain ⟨plans, hplans, rfl⟩ := hplans
    exact ⟨plans, hplans, hkeep⟩
  clear hselects hkeep htext huses hnested
  induction hfilters with
  | nil => exact ⟨[], .nil, rfl⟩
  | cons hfilter _ ih =>
    obtain ⟨plans, hplans, rfl⟩ := ih
    cases hfilter with
    | @not _ list plan hread hplan => exact ⟨plan :: plans, .cons ⟨list, hread, hplan⟩ hplans, rfl⟩

private theorem selects_not (h : t.document.Grown) (hs : Nested none 0 0 s) {inside outside : List Nat}
    (hinside : t.Selects settings s inside)
    (houtside : t.Selects settings ("*" ++ [s].flatMap Refining.not.text) outside) :
    outside = t.document.order.filter fun x => t.document.isElement x && !inside.contains x := by
  obtain ⟨plans, hplans, hkeep⟩ :=
    exists_plans_of_selects_not h (List.forall_mem_singleton.2 hs) houtside
  obtain ⟨plan, rfl, list, hread, hplan⟩ := exists_of_forall₂_singleton hplans
  obtain ⟨list', plan', all, hread', hplan', hrun, rfl⟩ := exists_of_selects hinside
  obtain rfl := Except.ok.inj (hread.symm.trans hread')
  obtain rfl := rightUnique_planFor t settings hplan hplan'
  have htest : ∀ x ∈ t.elements, passesAll (t.toEngine : Engine Id Nat) [.not plan] x =
      pure (!all.contains x) := by
    intro x _
    rw [passesAll_singleton, Filter.passes]
    exact (congrArg (· >>= _) hrun).trans (pure_bind _ _)
  rw [pure_inj (hkeep.symm.trans (keep_eq_pure htest)), elements, List.filter_filter]
  apply List.filter_congr
  intro x _
  rw [Bool.and_comm]
  simp

private theorem selects_not_comma (h : t.document.Grown) (hs : Nested none 0 0 s)
    (hu : Nested none 0 0 u) {found found' : List Nat}
    (hfound : t.Selects settings ("*" ++ [s ++ ", " ++ u].flatMap Refining.not.text) found)
    (hfound' : t.Selects settings ("*" ++ [s, u].flatMap Refining.not.text) found') :
    found = found' := by
  have hjoined : Nested none 0 0 (s ++ ", " ++ u) := by
    rw [List.append_assoc]
    exact hs.append (.flat rfl (.flat rfl hu))
  obtain ⟨plans, hplans, hkeep⟩ :=
    exists_plans_of_selects_not h (List.forall_mem_singleton.2 hjoined) hfound
  obtain ⟨plans', hplans', hkeep'⟩ := exists_plans_of_selects_not h
    (List.forall_mem_cons.2 ⟨hs, List.forall_mem_singleton.2 hu⟩) hfound'
  obtain ⟨plan, rfl, list, hread, hplan⟩ := exists_of_forall₂_singleton hplans
  obtain ⟨first, _, ⟨list₁, hread₁, hplan₁⟩, hrest, rfl⟩ := List.forall₂_cons_left_iff.1 hplans'
  obtain ⟨second, rfl, list₂, hread₂, hplan₂⟩ := exists_of_forall₂_singleton hrest
  obtain ⟨list₁', list₂', hread₁', hread₂', rfl⟩ := read_comma_blank hs hu hread
  obtain rfl := Except.ok.inj (hread₁.symm.trans hread₁')
  obtain rfl := Except.ok.inj (hread₂.symm.trans hread₂')
  obtain rfl := rightUnique_planFor t settings hplan (hplan₁.append hplan₂)
  exact keep_agree hkeep hkeep' fun x _ b b' hb hb' => passesAll_not_append hb hb'

/-- In a document that was read from a JSON text, a negated list selects all elements that the list does
not select, and negating two lists at once selects the same as negating both. -/
theorem not_is_complement (json s u : Text) (t : TreeEngine) (settings : Settings)
    (hdocument : Document.ofText? json = some t.document) (hs : Nested none 0 0 s)
    (hu : Nested none 0 0 u) :
    (∀ inside outside, t.Selects settings s inside →
      t.Selects settings ("*:not(" ++ s ++ ")") outside →
        outside = t.document.order.filter fun x => t.document.isElement x && !inside.contains x) ∧
    ∀ found found', t.Selects settings ("*:not(" ++ s ++ ", " ++ u ++ ")") found →
      t.Selects settings ("*:not(" ++ s ++ "):not(" ++ u ++ ")") found' → found = found' := by
  have hgrown := Document.grown_of_ofText? hdocument
  constructor
  · intro inside outside hinside houtside
    have htext : "*:not(" ++ s ++ ")" = "*" ++ [s].flatMap Refining.not.text := by
      rw [List.flatMap_singleton]
      rfl
    exact selects_not hgrown hs hinside (htext ▸ houtside)
  · intro found found' hfound hfound'
    have htext : "*:not(" ++ s ++ ", " ++ u ++ ")" =
        "*" ++ [s ++ ", " ++ u].flatMap Refining.not.text := by
      rw [List.flatMap_singleton]
      simp only [Refining.text, List.append_assoc]
      rfl
    have htext' : "*:not(" ++ s ++ "):not(" ++ u ++ ")" = "*" ++ [s, u].flatMap Refining.not.text := by
      rw [List.flatMap_cons, List.flatMap_singleton]
      simp only [Refining.text, List.append_assoc]
      rfl
    exact selects_not_comma hgrown hs hu (htext ▸ hfound) (htext' ▸ hfound')

/-- A list with two items, one of them new. -/
theorem not_is_complement_items : ∃ d, Document.ofText? itemsText = some d ∧
    Nested none 0 0 ".new" ∧ Nested none 0 0 ":has(:empty)" ∧
    Selects ⟨d, []⟩ .standard ".new" [2] ∧
    (∀ outside, Selects ⟨d, []⟩ .standard ("*:not(" ++ ".new" ++ ")") outside →
      outside = d.order.filter fun x => d.isElement x && !([2].contains x)) ∧
    Selects ⟨d, []⟩ .standard ("*:not(" ++ ".new" ++ ", " ++ ":has(:empty)" ++ ")") [3] ∧
    ∃ found', Selects ⟨d, []⟩ .standard ("*:not(" ++ ".new" ++ "):not(" ++ ":has(:empty)" ++ ")") found' ∧
      [3] = found' := by
  have hselections : (Document.ofText? itemsText).any fun d =>
      selection? ⟨d, []⟩ .standard ".new" == some [2] &&
      selection? ⟨d, []⟩ .standard ("*:not(" ++ ".new" ++ ", " ++ ":has(:empty)" ++ ")") == some [3] &&
      (selection? ⟨d, []⟩ .standard
        ("*:not(" ++ ".new" ++ "):not(" ++ ":has(:empty)" ++ ")")).isSome := by
    decide +kernel
  obtain ⟨d, hd, hselections⟩ := (Option.any_eq_true _ _).1 hselections
  obtain ⟨hselections, hfound'⟩ := Bool.and_eq_true_iff.1 hselections
  obtain ⟨hinside, hfound⟩ := Bool.and_eq_true_iff.1 hselections
  obtain ⟨found', hfound'⟩ := Option.isSome_iff_exists.1 hfound'
  have hnew : Nested none 0 0 ".new" := .flat rfl (.flat rfl (.flat rfl (.flat rfl .nil)))
  have hempty : Nested none 1 0 ":empty)" :=
    .flat rfl (.flat rfl (.flat rfl (.flat rfl (.flat rfl (.flat rfl (.closeParenthesis .nil))))))
  have hhas : Nested none 0 0 ":has(:empty)" :=
    .flat rfl (.flat rfl (.flat rfl (.flat rfl (.openParenthesis hempty))))
  have hcomplement :=
    not_is_complement itemsText ".new" ":has(:empty)" ⟨d, []⟩ .standard hd hnew hhas
  have hinside := selects_of_selection? (eq_of_beq hinside)
  have hfound := selects_of_selection? (eq_of_beq hfound)
  have hfound' := selects_of_selection? hfound'
  exact ⟨d, hd, hnew, hhas, hinside, fun outside => hcomplement.1 _ outside hinside, hfound, found',
    hfound', hcomplement.2 _ _ hfound hfound'⟩

end TreeEngine

end CssLocator
