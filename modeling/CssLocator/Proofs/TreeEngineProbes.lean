import CssLocator.Proofs.CompiledPlans
import CssLocator.Proofs.Texts
import CssLocator.TreeEngines

/-!
# Probing tree engines

The engine of a document tree answers the probe of a structural pseudo-class if and only if it knows
the pseudo-class, whatever the document is. Engines of one capability know the same pseudo-classes.
-/

namespace CssLocator

/-- The probed pseudo-class as it is read. -/
def Structural.probeUse (kind : Structural) : PseudoUse :=
  ⟨kind.name, if kind.takesArgument then some ['1'] else none⟩

theorem Structural.mem_all (kind : Structural) : kind ∈ Structural.all := by cases kind <;> decide

private theorem Structural.name_injective : Function.Injective Structural.name := by
  intro kind kind' h
  revert h
  cases kind <;> cases kind' <;> decide

@[simp] theorem Structural.read_probe (kind : Structural) :
    SelectorList.read false kind.probe = .ok [[(.descendant, [.pseudo kind.probeUse])]] := by
  cases kind <;> decide +kernel

theorem Structural.probe_injective : Function.Injective Structural.probe := by
  intro kind kind' h
  have hread := kind.read_probe
  rw [h, kind'.read_probe] at hread
  have huse : kind'.probeUse = kind.probeUse := by simpa using hread
  exact (Structural.name_injective (congrArg PseudoUse.name huse)).symm

private theorem Structural.exists_read_probeUse (kind : Structural) :
    ∃ a, kind.read kind.probeUse = .ok a := by
  cases kind <;> exact ⟨_, rfl⟩

private theorem prepareSimple_probeUse {known : List Structural} {kind : Structural}
    (h : kind ∈ known) :
    ∃ a, prepareSimple known (.pseudo kind.probeUse) = .ok (.structural kind a) := by
  obtain ⟨a, ha⟩ := kind.exists_read_probeUse
  have hname : PseudoClass.ofName? kind.probeUse.name = some (.structural kind) := by
    cases kind <;> rfl
  exact ⟨a, by simp [prepareSimple, hname, h, ha, Except.map, Except.mapError]⟩

private theorem prepareSimple_probeUse_unknown {known : List Structural} {kind : Structural}
    (h : kind ∉ known) : ∃ e, prepareSimple known (.pseudo kind.probeUse) = .error e := by
  have hname : PseudoClass.ofName? kind.probeUse.name = some (.structural kind) := by
    cases kind <;> rfl
  exact ⟨_, by simp only [prepareSimple, hname, h, if_false]; rfl⟩

namespace TreeEngine

variable (t : TreeEngine)

@[simp] theorem checkAttached_of_mem {t : TreeEngine} {x : Nat} (h : x ∈ t.document.order) :
    t.checkAttached x = .ok () := by
  simp [checkAttached, h]

theorem checkAttached_of_not_mem {t : TreeEngine} {x : Nat} (h : x ∉ t.document.order) :
    t.checkAttached x = .error .stale := by
  simp [checkAttached, h]

@[simp] theorem root_attached : t.checkAttached Document.root = .ok () :=
  checkAttached_of_mem (List.mem_cons_self)

/-- A probe is answered if the engine knows the pseudo-class. -/
@[simp] theorem findAll_probe (kind : Structural) :
    (t.findAll Document.root (.native kind.probe)).toBool = decide (kind ∈ t.known) := by
  unfold findAll
  rw [t.root_attached]
  dsimp only [Locator.native, bind, Except.bind]
  unfold selectNative
  rw [kind.read_probe]
  by_cases h : kind ∈ t.known
  · obtain ⟨a, ha⟩ := prepareSimple_probeUse h
    simp [prepareList, Loop.map, ha, bind, Except.bind, pure, Except.pure, Except.mapError,
      Except.toBool, h]
  · obtain ⟨e, he⟩ := prepareSimple_probeUse_unknown h
    simp [prepareList, Loop.map, he, bind, Except.bind, Except.mapError, Except.toBool, h]

/-- The capability tells all known pseudo-classes: their names are not empty and have no comma. -/
theorem mem_known_of_capability {t t' : TreeEngine} (h : t.capability = t'.capability)
    (kind : Structural) : kind ∈ t.known ↔ kind ∈ t'.known := by
  have hwords : ∀ t : TreeEngine,
      Text.words (· == ',') (Text.join [','] ((Structural.all.filter t.known.contains).map Structural.name)) =
        (Structural.all.filter t.known.contains).map Structural.name := by
    intro t
    apply Text.words_join
    intro w hw
    obtain ⟨kind, -, rfl⟩ := List.mem_map.1 hw
    cases kind <;> decide
  have hjoin : Text.join [','] ((Structural.all.filter t.known.contains).map Structural.name) =
      Text.join [','] ((Structural.all.filter t'.known.contains).map Structural.name) :=
    List.append_cancel_left (List.append_cancel_right h)
  have hnames := congrArg (Text.words (· == ',')) hjoin
  rw [hwords, hwords] at hnames
  have hfilter := List.map_injective_iff.2 Structural.name_injective hnames
  have hmem := congrArg (kind ∈ ·) hfilter
  simpa [kind.mem_all] using hmem

variable {m : Type → Type} [Monad m] [LawfulMonad m]

@[simp] theorem probe_toEngine (kind : Structural) :
    probe (t.toEngine : Engine m Nat) kind = pure (decide (kind ∈ t.known)) := by
  have hanswer := t.findAll_probe kind
  show (ofExcept (t.findAll Document.root (.native kind.probe)) : ExceptT EngineError m _).run >>= _ = _
  cases hfound : t.findAll Document.root (.native kind.probe) with
  | error e =>
    rw [hfound] at hanswer
    rw [← hanswer]
    exact pure_bind _ _
  | ok found =>
    rw [hfound] at hanswer
    rw [← hanswer]
    exact pure_bind _ _

/-- What an engine with the given pseudo-classes can answer. -/
def Knows (known : List Structural) : Answers := fun kind b => b = true → kind ∈ known

theorem answersTo (settings : Settings) :
    AnswersTo settings (t.toEngine : Engine m Nat) (Knows t.known) where
  asked := by
    intro _ kind
    rw [probe_toEngine]
    exact Returns.pure (by simp [Knows])
  unasked := by
    intro _ kind h
    cases h

end TreeEngine

end CssLocator
