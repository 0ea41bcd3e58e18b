import CssLocator.Proofs.TreeEngineProbes

/-!
# Tables with a history

Compilers with any settings share a table of answers and compile for the engines of any document
trees, one after the other. All that is recorded about a capability is what every engine of that
capability answers, so the history of the table makes no difference to what a selector is compiled
to.
-/

namespace CssLocator

variable {m : Type → Type} [Monad m] [LawfulMonad m]

/-- The answers about an engine that knows the given pseudo-classes, as a compiler with the settings
gets them. -/
def AnswersOf (settings : Settings) (known : List Structural) : Answers :=
  fun kind b => b = (settings.nativeProbing && decide (kind ∈ known))

theorem rightUnique_answersOf (settings : Settings) (known : List Structural) :
    Relator.RightUnique (AnswersOf settings known) := by
  intro kind b b' hb hb'
  exact hb.trans hb'.symm

/-- What is recorded about a capability is what engines of the capability know. -/
def SupportTable.Truthful (table : SupportTable) : Prop :=
  ∀ (t : TreeEngine) (kind : Structural) (b : Bool),
    table.lookup? ⟨t.capability, kind⟩ = some b → b = decide (kind ∈ t.known)

namespace SupportTable

theorem truthful_empty : SupportTable.empty.Truthful := by
  intro t kind b hlookup
  cases hlookup

/-- Another engine may have the same capability, but then it knows the same pseudo-classes. -/
theorem Truthful.record {table : SupportTable} (h : table.Truthful) (t : TreeEngine)
    (kind : Structural) :
    (table.record ⟨t.capability, kind⟩ (decide (kind ∈ t.known))).Truthful := by
  intro t' kind' b hlookup
  rw [lookup?_record] at hlookup
  split at hlookup
  · rename_i hkey
    obtain ⟨hcapability, rfl⟩ := SupportKey.mk.inj hkey
    rw [← Option.some.inj hlookup, decide_eq_decide]
    exact TreeEngine.mem_known_of_capability hcapability.symm kind'
  · exact h t' kind' b hlookup

end SupportTable

private theorem returns_supports_of_truthful (settings : Settings) (t : TreeEngine) (kind : Structural)
    {table : SupportTable} (h : table.Truthful) :
    Returns (fun r => AnswersOf settings t.known kind r.1 ∧ r.2.Truthful)
      ((supports settings (t.toEngine : Engine m Nat) kind).run table) := by
  apply returns_supports_of h
  · intro hprobing
    simp [AnswersOf, hprobing]
  · intro hprobing b hlookup
    have hb := h t kind b hlookup
    simp [AnswersOf, hprobing, hb]
  · intro hprobing
    rw [TreeEngine.probe_toEngine]
    exact Returns.pure ⟨by simp [AnswersOf, hprobing], h.record t kind⟩

theorem yields_compile_of_truthful (settings : Settings) (t : TreeEngine) (selector : Text) :
    Yields SupportTable.Truthful (selectorFault? settings.maxNesting selector)
      (fun plan => ∃ list, SelectorList.read false selector = .ok list ∧
        PlanOf (AnswersOf settings t.known) settings.maxNesting list plan)
      (compile settings (t.toEngine : Engine m Nat) selector) :=
  yields_compileText
    (fun kind => Yields.lift fun _ h => returns_supports_of_truthful settings t kind h)
    settings.maxNesting selector

/-- What a selector is compiled to is the same for all tables that record nothing but the truth. -/
theorem compile_eq_of_truthful (settings : Settings) (t : TreeEngine) (selector : Text)
    {table table' : SupportTable} (h : table.Truthful) (h' : table'.Truthful) :
    ((compile settings (t.toEngine : Engine Id Nat) selector).run.run table).1 =
      ((compile settings (t.toEngine : Engine Id Nat) selector).run.run table').1 := by
  have hyields := yields_compile_of_truthful (m := Id) settings t selector
  obtain ⟨houtcome, -⟩ := Returns.of_id (hyields table h)
  obtain ⟨houtcome', -⟩ := Returns.of_id (hyields table' h')
  apply houtcome.unique houtcome'
  rintro plan plan' ⟨list, hread, hplan⟩ ⟨list', hread', hplan'⟩
  obtain rfl := Except.ok.inj (hread.symm.trans hread')
  exact rightUnique_planOf (rightUnique_answersOf settings t.known) _ hplan hplan'

/-- What is done to a table that compilers share. -/
inductive TableUse where
  | clear
  /-- A selector is compiled, or fails to compile, for the engine of a document tree. -/
  | compile (settings : Settings) (t : TreeEngine) (selector : Text)

namespace TableUse

/-- What is recorded afterwards. -/
def apply : TableUse → SupportTable → SupportTable
  | clear, _ => .empty
  | compile settings t selector, table =>
    ((CssLocator.compile settings (t.toEngine : Engine Id Nat) selector).run.run table).2

/-- What is recorded after a history that begins with nothing recorded. -/
def tableAfter (history : List TableUse) : SupportTable :=
  history.foldl (fun table use => use.apply table) .empty

private theorem truthful_apply (use : TableUse) {table : SupportTable} (h : table.Truthful) :
    (use.apply table).Truthful := by
  cases use with
  | clear => exact SupportTable.truthful_empty
  | compile settings t selector =>
    exact (Returns.of_id (yields_compile_of_truthful (m := Id) settings t selector table h)).2

private theorem truthful_foldl (history : List TableUse) {table : SupportTable} (h : table.Truthful) :
    (history.foldl (fun table use => use.apply table) table).Truthful := by
  induction history generalizing table with
  | nil => exact h
  | cons use history ih => exact ih (use.truthful_apply h)

private theorem truthful_tableAfter (history : List TableUse) : (tableAfter history).Truthful :=
  truthful_foldl history SupportTable.truthful_empty

/-- Whatever compilers have done with a table that they share, a selector is compiled to the same
plan as with a new table, or fails for the same reason. A probe is answered by what the engine knows
alone; what is recorded about a capability is the answer of each engine of that capability, and these
know the same pseudo-classes. -/
theorem history_makes_no_difference (history : List TableUse) (settings : Settings) (t : TreeEngine)
    (selector : Text) :
    ((CssLocator.compile settings (t.toEngine : Engine Id Nat) selector).run.run
        (tableAfter history)).1 =
      ((CssLocator.compile settings (t.toEngine : Engine Id Nat) selector).run.run .empty).1 ∧
    (∀ kind, probe (t.toEngine : Engine Id Nat) kind = pure (decide (kind ∈ t.known))) ∧
    (∀ kind b, (tableAfter history).lookup? ⟨t.capability, kind⟩ = some b →
      b = decide (kind ∈ t.known)) ∧
    ∀ t' : TreeEngine, t'.capability = t.capability → ∀ kind, kind ∈ t'.known ↔ kind ∈ t.known := by
  have htable := truthful_tableAfter history
  refine ⟨?_, ?_, ?_, ?_⟩
  · exact compile_eq_of_truthful settings t selector htable SupportTable.truthful_empty
  · exact t.probe_toEngine
  · exact htable t
  · intro t' hcapability
    exact TreeEngine.mem_known_of_capability hcapability

end TableUse

end CssLocator
