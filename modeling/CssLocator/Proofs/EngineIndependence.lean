import CssLocator.Proofs.PathAgreement
import CssLocator.Proofs.TestedSearches

/-!
# Independence of the engine

Which structural pseudo-classes an engine knows, and whether it is asked for them, decides which
queries a plan is made of and not what the plan finds. Native queries and paths find the same where
the document and the selector mean the same in both languages, and the rest of a plan is the same.
-/

namespace CssLocator

open Plan

/-- Whether a compound means the same in both languages. -/
def Compound.isPortable (c : Compound) : Bool := c.plainlyWritten && c.isComparable

namespace TreeEngine

variable {t : TreeEngine} {settings : Settings} {table : SupportTable} {selector : Text}
  {list : SelectorList} {r : Nat}

/-- Either kind of locator finds the elements that meet the conditions. -/
theorem locatesBy_portable (hd : t.document.Comparable) (compound : Compound)
    (hread : Compound.Readable compound) (hportable : compound.isPortable) :
    t.LocatesBy (Knows t.known) compound (compound.meets t.document ·) := by
  intro nested parts combinator hparts
  obtain ⟨hplain, hcomparable⟩ := Bool.and_eq_true_iff.1 hportable
  rcases locator_cases hparts combinator with ⟨hknown, hnative⟩ | ⟨-, ss, hss, hpath⟩
  · rw [hnative, widened_native]
    exact findsBelow_native hparts (knownTo_of_parts hparts hknown) hread hplain
  · rw [hpath, widened_path]
    intro c hc
    rw [findAll_below hd.grown.linked hc hss]
    congr 1
    apply List.filter_congr
    intro x _
    rw [Compound.meets]
    cases helement : t.document.isElement x with
    | false => rfl
    | true => rw [Compound.pathHolds_eq hd helement hread hplain hcomparable]

/-- Compiles a selector for the engine and, if it compiles, runs the plan from a node. -/
def outcome (settings : Settings) (t : TreeEngine) (table : SupportTable) (selector : Text) (r : Nat) :
    Except SelectorError (Except EngineError (List Nat)) :=
  ((compile settings (t.toEngine : Engine Id Nat) selector).run.run table).1.map fun plan =>
    (Plan.run (t.toEngine : Engine Id Nat) plan r).run

private theorem outcome_of_fault {e : SelectorError}
    (htable : table.Tells (Knows t.known) t.capability)
    (hfault : selectorFault? settings.maxNesting selector = some e) :
    outcome settings t table selector r = .error e := by
  have hcompile := compile_of_fault (t.answersTo settings) htable hfault
  rw [outcome, hcompile]
  rfl

/-- A selector without fault finds what its conditions say. -/
theorem outcome_of_no_fault (hd : t.document.Comparable)
    (htable : table.Tells (Knows t.known) t.capability)
    (hfault : selectorFault? settings.maxNesting selector = none)
    (hread : SelectorList.read false selector = .ok list)
    (hportable : list.everywhere Compound.isPortable settings.maxNesting)
    (hr : r ∈ t.document.order) : outcome settings t table selector r =
      .ok (.ok (list.testedSearch t.document (fun c y => c.meets t.document y) settings.maxNesting
        r).eraseDups) := by
  obtain ⟨plan, hplan, hfound⟩ := run_compiled hd.grown.rooted
    (fun _ _ => Compound.isElement_of_meets) (locatesBy_portable hd) (t.answersTo settings) htable hfault hread
    hportable hr
  rw [outcome, hplan]
  exact congrArg Except.ok hfound

/-- Two engines for the same document, whatever structural pseudo-classes they know and whether or
not they are asked for them: a selector compiles for neither of them, for the same reason, or both
find the same elements in the same order. Nodes and the characters of a value are fewer than `2 ^ 52`,
so that doubles count them, and the halves between, exactly. -/
theorem outcomes_agree (settings settings' : Settings) (known known' : List Structural)
    (table table' : SupportTable) (json selector : Text) (d : Document) (r : Nat)
    (hnesting : settings.maxNesting = settings'.maxNesting)
    (htable : table.Tells (Knows known) (TreeEngine.mk d known).capability)
    (htable' : table'.Tells (Knows known') (TreeEngine.mk d known').capability)
    (hdocument : Document.ofText? json = some d)
    (htop : (d.elementChildren Document.root).length ≤ 1) (hsize : d.size < 2 ^ 52)
    (hvalues : ∀ value ∈ d.values, Text.hasCommonSpace value ∧ value.length < 2 ^ 52)
    (hportable : ∀ list, SelectorList.read false selector = .ok list →
      list.everywhere Compound.isPortable settings.maxNesting)
    (hr : r ∈ d.order) :
    (∃ e, outcome settings ⟨d, known⟩ table selector r = .error e ∧
      outcome settings' ⟨d, known'⟩ table' selector r = .error e) ∨
    ∃ found, outcome settings ⟨d, known⟩ table selector r = .ok (.ok found) ∧
      outcome settings' ⟨d, known'⟩ table' selector r = .ok (.ok found) := by
  have hd : d.Comparable := ⟨Document.grown_of_ofText? hdocument, htop, hsize, hvalues⟩
  cases hfault : selectorFault? settings.maxNesting selector with
  | some e =>
    have hfault' : selectorFault? settings'.maxNesting selector = some e := hnesting ▸ hfault
    exact .inl ⟨e, outcome_of_fault htable hfault, outcome_of_fault htable' hfault'⟩
  | none =>
    have hfault' : selectorFault? settings'.maxNesting selector = none := hnesting ▸ hfault
    cases hread : SelectorList.read false selector with
    | error e =>
      rw [selectorFault?, hread] at hfault
      cases hfault
    | ok list =>
      have hlist := hportable list hread
      have hfound := outcome_of_no_fault (t := ⟨d, known⟩) hd htable hfault hread hlist hr
      rw [hnesting] at hlist hfound
      have hfound' := outcome_of_no_fault (t := ⟨d, known'⟩) hd htable' hfault' hread hlist hr
      exact .inr ⟨_, hfound, hfound'⟩

/-- A list with two items. -/
def itemsText : Text :=
  "\x7b\"children\":[\x7b\"tag\":\"ul\",\"children\":[\x7b\"tag\":\"li\",\"attrs\":\x7b\"class\":\"new\"\x7d\x7d,\x7b\"tag\":\"li\"\x7d]\x7d]\x7d"

def itemsSelector : Text := "li:nth-child(2n+1):not(:last-child), [class~=\"new\"]:has(+ li)"

theorem outcomes_agree_items : ∃ d, SupportTable.empty.Tells (Knows Structural.all)
      (TreeEngine.mk d Structural.all).capability ∧
    SupportTable.empty.Tells (Knows [.lastChild]) (TreeEngine.mk d [.lastChild]).capability ∧
    Document.ofText? itemsText = some d ∧ (d.elementChildren Document.root).length ≤ 1 ∧
    d.size < 2 ^ 52 ∧
    (∀ value ∈ d.values, Text.hasCommonSpace value ∧ value.length < 2 ^ 52) ∧
    (∀ list, SelectorList.read false itemsSelector = .ok list →
      list.everywhere Compound.isPortable Settings.standard.maxNesting) ∧
    Document.root ∈ d.order ∧
    ((∃ e, outcome .standard ⟨d, Structural.all⟩ .empty itemsSelector Document.root = .error e ∧
      outcome ⟨false, 8⟩ ⟨d, [.lastChild]⟩ .empty itemsSelector Document.root = .error e) ∨
    ∃ found,
      outcome .standard ⟨d, Structural.all⟩ .empty itemsSelector Document.root = .ok (.ok found) ∧
      outcome ⟨false, 8⟩ ⟨d, [.lastChild]⟩ .empty itemsSelector Document.root = .ok (.ok found)) := by
  have hdocument : (Document.ofText? itemsText).any fun d =>
      (d.elementChildren Document.root).length ≤ 1 && d.size < 2 ^ 52 &&
        d.values.all fun value => Text.hasCommonSpace value && value.length < 2 ^ 52 := by
    decide +kernel
  have hselector : (SelectorList.read false itemsSelector).toOption.any fun list =>
      list.everywhere Compound.isPortable Settings.standard.maxNesting := by decide +kernel
  obtain ⟨d, hd, hconditions⟩ := (Option.any_eq_true _ _).1 hdocument
  simp only [Bool.and_eq_true, decide_eq_true_eq, List.all_eq_true] at hconditions
  obtain ⟨⟨htop, hsize⟩, hvalues⟩ := hconditions
  have hportable : ∀ list, SelectorList.read false itemsSelector = .ok list →
      list.everywhere Compound.isPortable Settings.standard.maxNesting := by
    intro list hread
    rw [hread] at hselector
    exact hselector
  have htable := SupportTable.tells_empty (Knows Structural.all) (TreeEngine.mk d Structural.all).capability
  have htable' := SupportTable.tells_empty (Knows [.lastChild]) (TreeEngine.mk d [.lastChild]).capability
  have hroot : Document.root ∈ d.order := Document.Linked.root_mem_order
  exact ⟨d, htable, htable', hd, htop, hsize, hvalues, hportable, hroot,
    outcomes_agree .standard ⟨false, 8⟩ Structural.all [.lastChild] .empty .empty itemsText itemsSelector
      d Document.root rfl htable htable' hd htop hsize hvalues hportable hroot⟩

end TreeEngine

end CssLocator
