import CssLocator.Proofs.SharedCompilations
import CssLocator.Proofs.TreeEngineProbes
import CssLocator.ScriptedEngines

/-!
# Probes for a shared table

Compilations that take their steps in any order, for any engines, all with one table, which may be
cleared at any time. Several of them may look for the same answer before one of them settles it. Yet
engines of a capability are probed for a pseudo-class only once before the table is cleared.
-/

namespace CssLocator

namespace SupportTable

/-- All that is recorded in one table is recorded in another. -/
def KeptIn (table table' : SupportTable) : Prop :=
  ∀ key b, table.lookup? key = some b → table'.lookup? key = some b

private theorem keptIn_record {table : SupportTable} {key : SupportKey} (h : table.lookup? key = none)
    (b : Bool) : table.KeptIn (table.record key b) := by
  intro key' b' hlookup
  rw [lookup?_record, if_neg, hlookup]
  rintro rfl
  rw [h] at hlookup
  cases hlookup

end SupportTable

variable {m : Type → Type} {ι : Type} {ν : ι → Type}

/-- The call that probes an engine for a pseudo-class. -/
def Engine.probeCall {ν : Type} (engine : Engine m ν) (kind : Structural) : Call ν :=
  .findAll engine.document (.native kind.probe)

inductive Observation (ν : ι → Type) where
  /-- An engine is called. -/
  | called (i : ι) (call : Call (ν i))
  /-- A compilation gets the answer that it asked the table for. -/
  | told (key : SupportKey) (b : Bool)

/-- Observations, the latest first, since the table was last cleared and in the periods before. -/
structure Chronicle (ν : ι → Type) where
  now : List (Observation ν)
  earlier : List (List (Observation ν))

namespace Chronicle

def empty : Chronicle ν := ⟨[], []⟩

def note (o : Observation ν) (c : Chronicle ν) : Chronicle ν := { c with now := o :: c.now }

/-- A new period begins. -/
def close (c : Chronicle ν) : Chronicle ν := ⟨[], c.now :: c.earlier⟩

end Chronicle

section

variable (engines : (i : ι) → Engine m (ν i))

/-- An engine of the capability is probed for the pseudo-class. -/
def Observation.Probes (key : SupportKey) (o : Observation ν) : Prop :=
  ∃ i, (engines i).capability = key.capability ∧ o = .called i ((engines i).probeCall key.kind)

/-- What is observed while the table is not cleared. -/
structure OrderlyPeriod (period : List (Observation ν)) : Prop where
  /-- Engines are called only to be probed. -/
  called : ∀ i call, .called i call ∈ period → ∃ kind, call = (engines i).probeCall kind
  /-- There is one probe at most for each pair. -/
  once : ∀ key, period.Pairwise fun o o' => ¬ (o.Probes engines key ∧ o'.Probes engines key)
  /-- The answer for a pair does not change. -/
  agree : ∀ key b b', .told key b ∈ period → .told key b' ∈ period → b = b'

/-- The periods of a chronicle are orderly, and what has been told and asked in the latest is
recorded. -/
structure Orderly (table : SupportTable) (c : Chronicle ν) : Prop where
  periods : ∀ period ∈ c.now :: c.earlier, OrderlyPeriod engines period
  told : ∀ key b, .told key b ∈ c.now → table.lookup? key = some b
  probed : ∀ key, ∀ o ∈ c.now, o.Probes engines key → table.lookup? key ≠ none

end

variable {engines : (i : ι) → Engine m (ν i)} {table : SupportTable} {c : Chronicle ν}

private theorem Observation.key_of_probes_called {i : ι} {kind : Structural} {key : SupportKey}
    (h : (called i ((engines i).probeCall kind) : Observation ν).Probes engines key) :
    key = ⟨(engines i).capability, kind⟩ := by
  obtain ⟨j, hcapability, heq⟩ := h
  obtain ⟨rfl, hcall⟩ := called.inj heq
  obtain ⟨-, hlocator⟩ := Call.findAll.inj (eq_of_heq hcall)
  have hkind := Structural.probe_injective (congrArg Locator.expression hlocator)
  rw [hcapability, hkind]

private theorem Observation.not_probes_told (key key' : SupportKey) (b : Bool) :
    ¬ (told key b : Observation ν).Probes engines key' := by
  rintro ⟨i, -, heq⟩
  cases heq

private theorem orderlyPeriod_nil : OrderlyPeriod engines [] where
  called := nofun
  once _ := .nil
  agree := nofun

private theorem orderly_empty (table : SupportTable) : Orderly engines table .empty where
  periods period h := by
    rw [List.mem_singleton.1 h]
    exact orderlyPeriod_nil
  told := nofun
  probed := nofun

namespace Orderly

private theorem close (h : Orderly engines table c) : Orderly engines .empty c.close where
  periods period hperiod := by
    rcases List.mem_cons.1 hperiod with rfl | hperiod
    · exact orderlyPeriod_nil
    · exact h.periods period hperiod
  told := nofun
  probed := nofun

/-- Only the latest period is concerned when something is observed. -/
theorem periods_note (h : Orderly engines table c) {o : Observation ν}
    (ho : OrderlyPeriod engines (o :: c.now)) :
    ∀ period ∈ (c.note o).now :: (c.note o).earlier, OrderlyPeriod engines period := by
  intro period hperiod
  rcases List.mem_cons.1 hperiod with rfl | hperiod
  · exact ho
  · exact h.periods period (List.mem_cons_of_mem _ hperiod)

/-- A recorded answer is told. -/
theorem note_told (h : Orderly engines table c) {key : SupportKey} {b : Bool}
    (hb : table.lookup? key = some b) : Orderly engines table (c.note (.told key b)) := by
  have hnow := h.periods c.now List.mem_cons_self
  have htold : ∀ key' b', .told key' b' ∈ Observation.told key b :: c.now →
      table.lookup? key' = some b' := by
    intro key' b' hmem
    rcases List.mem_cons.1 hmem with heq | hmem
    · cases heq
      exact hb
    · exact h.told key' b' hmem
  refine ⟨h.periods_note ⟨?_, ?_, ?_⟩, htold, ?_⟩
  · intro i call hmem
    exact hnow.called i call ((List.mem_cons.1 hmem).resolve_left nofun)
  · intro key'
    exact .cons (fun o _ hboth => Observation.not_probes_told key key' b hboth.1) (hnow.once key')
  · intro key' b₁ b₂ h₁ h₂
    exact Option.some.inj ((htold key' b₁ h₁).symm.trans (htold key' b₂ h₂))
  · intro key' o hmem ho
    rcases List.mem_cons.1 hmem with rfl | hmem
    · exact (Observation.not_probes_told key key' b ho).elim
    · exact h.probed key' o hmem ho

/-- An engine is probed because there is no answer, and its answer is recorded. -/
theorem note_called (h : Orderly engines table c) {i : ι} {kind : Structural}
    (hnone : table.lookup? ⟨(engines i).capability, kind⟩ = none) (b : Bool) :
    Orderly engines (table.record ⟨(engines i).capability, kind⟩ b)
      (c.note (.called i ((engines i).probeCall kind))) := by
  have hnow := h.periods c.now List.mem_cons_self
  have htold : ∀ key' b', .told key' b' ∈ Observation.called i ((engines i).probeCall kind) :: c.now →
      .told key' b' ∈ c.now := by
    intro key' b' hmem
    exact (List.mem_cons.1 hmem).resolve_left nofun
  refine ⟨h.periods_note ⟨?_, ?_, ?_⟩, ?_, ?_⟩
  · intro j call hmem
    rcases List.mem_cons.1 hmem with heq | hmem
    · cases heq
      exact ⟨kind, rfl⟩
    · exact hnow.called j call hmem
  · intro key
    refine .cons ?_ (hnow.once key)
    rintro o hmem ⟨hnew, ho⟩
    rw [Observation.key_of_probes_called hnew] at ho
    exact h.probed _ o hmem ho hnone
  · intro key b₁ b₂ h₁ h₂
    exact hnow.agree key b₁ b₂ (htold key b₁ h₁) (htold key b₂ h₂)
  · intro key b' hmem
    exact SupportTable.keptIn_record hnone b key b' (h.told key b' (htold key b' hmem))
  · intro key o hmem ho
    rw [SupportTable.lookup?_record]
    split
    · nofun
    · rename_i hne
      rcases List.mem_cons.1 hmem with rfl | hmem
      · exact (hne (Observation.key_of_probes_called ho)).elim
      · exact h.probed key o hmem ho

end Orderly

/-- The effects of engines, with a chronicle of what is observed. -/
abbrev Observing (m : Type → Type) (ν : ι → Type) : Type → Type := StateT (Chronicle ν) m

section

variable [Monad m]

/-- The engine as one whose effects are some among others. -/
def Engine.lifted {ν : Type} (σ : Type) (engine : Engine m ν) : Engine (StateT σ m) ν where
  document := engine.document
  capability := engine.capability
  height := engine.height
  findAll context locator := .mk (StateT.lift (engine.findAll context locator).run)
  attributeValue element name := .mk (StateT.lift (engine.attributeValue element name).run)
  isDisplayed element := .mk (StateT.lift (engine.isDisplayed element).run)
  tagName element := .mk (StateT.lift (engine.tagName element).run)

/-- An engine all of whose calls are noted. -/
def notedEngine (engines : (i : ι) → Engine m (ν i)) (i : ι) : Engine (Observing m ν) (ν i) :=
  ((engines i).lifted (Chronicle ν)).observed fun call => modify (·.note (.called i call))

/-- A table, and what is left of the compilations that use it. -/
structure System (m : Type → Type) (ν : ι → Type) where
  table : SupportTable
  compilations : List (Shared (Observing m ν) (Except SelectorError Plan))

/-- What happens to a system. -/
inductive Move (ι : Type) where
  /-- A compiler with any settings begins to compile a selector for an engine. -/
  | start (settings : Settings) (i : ι) (selector : Text)
  /-- A compilation takes its next step, if it is not done. -/
  | advance (place : Nat)
  | clear
  deriving DecidableEq

namespace System

/-- The compilation in a place takes its next step, and the answer that it is given is noted. -/
def advance (place : Nat) (s : System m ν) : Observing m ν (System m ν) :=
  match s.compilations[place]? with
  | none => pure s
  | some x => do
    let ((rest, answer), table) ← x.step.run s.table
    modify fun c => answer.elim c fun (key, b) => c.note (.told key b)
    pure ⟨table, s.compilations.set place rest⟩

def move (engines : (i : ι) → Engine m (ν i)) (s : System m ν) : Move ι → Observing m ν (System m ν)
  | .start settings i selector =>
    pure { s with
      compilations := s.compilations ++ [sharedCompile settings (notedEngine engines i) selector] }
  | .advance place => s.advance place
  | .clear => do
    modify (·.close)
    pure { s with table := .empty }

def run (engines : (i : ι) → Engine m (ν i)) : List (Move ι) → System m ν → Observing m ν (System m ν)
  | [], s => pure s
  | move :: moves, s => do
    let s ← s.move engines move
    run engines moves s

end System

end

section

variable [Monad m] (engines)

/-- A question whether an engine knows a pseudo-class. -/
def IsProbe (key : SupportKey) (ask : Observing m ν Bool) : Prop :=
  ∃ i kind, key = ⟨(engines i).capability, kind⟩ ∧ ask = probe (notedEngine engines i) kind

private theorem asks_isProbe (settings : Settings) (i : ι) (selector : Text) :
    (sharedCompile settings (notedEngine engines i) selector).Asks (IsProbe engines) := by
  refine (asks_sharedCompile settings (notedEngine engines i) selector).imp ?_
  rintro key ask ⟨kind, hkey, hask⟩
  exact ⟨i, kind, hkey, hask⟩

variable [LawfulMonad m]

@[simp] theorem run_findAll_notedEngine (i : ι) (context : ν i) (locator : Locator) (c : Chronicle ν) :
    ((notedEngine engines i).findAll context locator).run.run c =
      ((engines i).findAll context locator).run >>= fun r =>
        pure (r, c.note (.called i (.findAll context locator))) := by
  show (ExceptT.lift (modify fun c : Chronicle ν => c.note (.called i (.findAll context locator))) >>=
    fun _ => ((engines i).lifted (Chronicle ν)).findAll context locator).run.run c = _
  rw [ExceptT.run_bind, ExceptT.run_lift, bind_map_left, StateT.run_bind, StateT.run_modify, pure_bind]
  exact StateT.run_lift _ _

@[simp] theorem run_probe_notedEngine (i : ι) (kind : Structural) (c : Chronicle ν) :
    (probe (notedEngine engines i) kind).run c =
      probe (engines i) kind >>= fun b => pure (b, c.note (.called i ((engines i).probeCall kind))) := by
  unfold probe
  rw [StateT.run_bind, run_findAll_notedEngine, bind_assoc, bind_assoc]
  refine bind_congr fun r => ?_
  rw [pure_bind]
  cases r with
  | error e =>
    dsimp only
    rw [pure_bind]
    rfl
  | ok elements =>
    dsimp only
    rw [pure_bind]
    rfl

variable {engines}

/-- A step keeps the chronicle orderly, and the answer that is given in it is the recorded one. -/
theorem Orderly.returns_step {α : Type} (h : Orderly engines table c) {x : Shared (Observing m ν) α}
    (hx : x.Asks (IsProbe engines)) :
    Returns (fun r => Orderly engines r.1.2 r.2 ∧ r.1.1.1.Asks (IsProbe engines) ∧
        ∀ key b, r.1.1.2 = some (key, b) → r.1.2.lookup? key = some b)
      ((x.step.run table).run c) := by
  obtain ⟨y, answer, hrun, hasks, hanswer⟩ | ⟨key, ask, next, rfl, hnone, hrun⟩ := x.step_cases table
  · rw [hrun]
    exact Returns.pure ⟨h, hasks _ hx, hanswer⟩
  · obtain ⟨i, kind, rfl, rfl⟩ := hx.1
    rw [hrun, StateT.run_bind, run_probe_notedEngine, bind_assoc]
    refine (Returns.of_forall (probe (engines i) kind) fun _ => trivial).bind fun b _ => ?_
    rw [pure_bind]
    refine Returns.pure ⟨h.note_called hnone b, hx.2 b, ?_⟩
    rintro _ _ ⟨⟩
    rw [SupportTable.lookup?_record, if_pos rfl]

/-- A step records only what has not been recorded, whatever is asked. -/
theorem Shared.returns_step_keptIn {α : Type} (x : Shared (Observing m ν) α) (table : SupportTable)
    (c : Chronicle ν) : Returns (fun r => table.KeptIn r.1.2) ((x.step.run table).run c) := by
  obtain ⟨y, answer, hrun, -, -⟩ | ⟨key, ask, next, -, hnone, hrun⟩ := x.step_cases table
  · rw [hrun]
    exact Returns.pure fun _ _ => id
  · rw [hrun, StateT.run_bind]
    refine (Returns.of_forall (ask.run c) fun _ => trivial).bind fun r _ => ?_
    exact Returns.pure (SupportTable.keptIn_record hnone r.1)

namespace System

/-- What every move preserves holds after a run. -/
theorem returns_run {P : System m ν → Chronicle ν → Prop} {moves : List (Move ι)}
    (hmove : ∀ move ∈ moves, ∀ s c, P s c →
      Returns (fun r => P r.1 r.2) ((s.move engines move).run c))
    {s : System m ν} {c : Chronicle ν} (h : P s c) :
    Returns (fun r => P r.1 r.2) ((run engines moves s).run c) := by
  induction moves generalizing s c with
  | nil => exact Returns.pure h
  | cons move moves ih =>
    unfold run
    rw [StateT.run_bind]
    refine (hmove move List.mem_cons_self s c h).bind fun r hr => ?_
    exact ih (fun move' hmem => hmove move' (List.mem_cons_of_mem _ hmem)) hr

/-- The chronicle of a system is orderly, and its compilations ask only what engines know. -/
structure InOrder (engines : (i : ι) → Engine m (ν i)) (s : System m ν) (c : Chronicle ν) : Prop where
  orderly : Orderly engines s.table c
  asks : ∀ x ∈ s.compilations, x.Asks (IsProbe engines)

private theorem InOrder.returns_advance {s : System m ν} (h : s.InOrder engines c) (place : Nat) :
    Returns (fun r => r.1.InOrder engines r.2) ((s.advance place).run c) := by
  unfold advance
  cases hplace : s.compilations[place]? with
  | none => exact Returns.pure h
  | some x =>
    dsimp only
    rw [StateT.run_bind]
    have hx := h.asks x (List.mem_of_getElem? hplace)
    refine (h.orderly.returns_step hx).bind ?_
    rintro ⟨⟨⟨rest, answer⟩, table⟩, c'⟩ ⟨horderly, hrest, hanswer⟩
    have hasks : ∀ y ∈ s.compilations.set place rest, y.Asks (IsProbe engines) := by
      intro y hy
      rcases List.mem_or_eq_of_mem_set hy with hy | rfl
      · exact h.asks y hy
      · exact hrest
    dsimp only
    rw [StateT.run_bind, StateT.run_modify, pure_bind]
    cases answer with
    | none => exact Returns.pure ⟨horderly, hasks⟩
    | some told => exact Returns.pure ⟨horderly.note_told (hanswer told.1 told.2 rfl), hasks⟩

private theorem InOrder.returns_move {s : System m ν} (h : s.InOrder engines c) (move : Move ι) :
    Returns (fun r => r.1.InOrder engines r.2) ((s.move engines move).run c) := by
  cases move with
  | start settings i selector =>
    refine Returns.pure ⟨h.orderly, fun x hx => ?_⟩
    rcases List.mem_append.1 hx with hx | hx
    · exact h.asks x hx
    · rw [List.mem_singleton.1 hx]
      exact asks_isProbe engines settings i selector
  | advance place => exact h.returns_advance place
  | clear =>
    unfold System.move
    rw [StateT.run_bind, StateT.run_modify, pure_bind]
    exact Returns.pure ⟨h.orderly.close, h.asks⟩

private theorem returns_move_keptIn (s : System m ν) {move : Move ι} (hmove : move ≠ .clear)
    (c : Chronicle ν) : Returns (fun r => s.table.KeptIn r.1.table) ((s.move engines move).run c) := by
  have hrefl : s.table.KeptIn s.table := fun _ _ => id
  cases move with
  | start settings i selector => exact Returns.pure hrefl
  | clear => exact (hmove rfl).elim
  | advance place =>
    show Returns _ ((s.advance place).run c)
    unfold advance
    cases s.compilations[place]? with
    | none => exact Returns.pure hrefl
    | some x =>
      dsimp only
      rw [StateT.run_bind]
      refine (x.returns_step_keptIn s.table c).bind fun r hr => ?_
      rw [StateT.run_bind, StateT.run_modify, pure_bind]
      exact Returns.pure hr

end System

/-- Compilers with any settings compile for any engines, and use one table at the same time. Whatever
the order of their steps is, from one clearing of the table to the next engines of one capability are
probed at most once for each pseudo-class, and not called otherwise; the answer that a compilation is
given is the recorded one, which stays. A compiler that does not ask has a result without any effect.
The steps that compilations are made of are those of the compilations. -/
theorem probed_at_most_once (engines : (i : ι) → Engine m (ν i)) :
    (∀ table moves, Returns (fun r => Orderly engines r.1.table r.2)
      ((System.run engines moves ⟨table, []⟩).run .empty)) ∧
    (∀ (s : System m ν) c moves, .clear ∉ moves →
      Returns (fun r => s.table.KeptIn r.1.table) ((System.run engines moves s).run c)) ∧
    (∀ settings i selector, settings.nativeProbing = false →
      ∃ r, sharedCompile settings (notedEngine engines i) selector = .done r ∧
        (compile settings (engines i) selector).run = pure r) ∧
    (∀ settings i selector,
      (compile settings (notedEngine engines i) selector).run =
        (sharedCompile settings (notedEngine engines i) selector).alone) ∧
    ∀ x : Shared (Observing m ν) (Except SelectorError Plan),
      x.alone = x.step >>= fun r => r.1.alone := by
  refine ⟨?_, ?_, ?_, ?_, ?_⟩
  · intro table moves
    have hstart : (System.mk table []).InOrder engines .empty := ⟨orderly_empty table, nofun⟩
    apply (System.returns_run (fun move _ s c h => h.returns_move move) hstart).imp
    intro r hr
    exact hr.orderly
  · intro s c moves hclear
    refine System.returns_run (P := fun s' _ => s.table.KeptIn s'.table) ?_ fun _ _ => id
    intro move hmem s' c' hkept
    apply (s'.returns_move_keptIn (ne_of_mem_of_not_mem hmem hclear) c').imp
    intro r hr key b hlookup
    exact hr key b (hkept key b hlookup)
  · intro settings i selector hprobing
    refine ⟨_, sharedCompile_of_unasked hprobing _ selector, ?_⟩
    rw [← alone_sharedCompile, sharedCompile_of_unasked hprobing]
    rfl
  · intro settings i selector
    exact (alone_sharedCompile settings _ selector).symm
  · intro x
    exact x.step_alone.symm

/-- Two engines of one capability, one of which refuses all queries. For each of them a compilation
looks the same answer up before either settles it, and only the engine for which it is settled first
is called. -/
theorem probed_at_most_once_overlapping :
    let engines : Bool → Engine Id Nat := fun refuses =>
      (⟨"browser", if refuses then [⟨⟨none, none, none⟩, .error .stale⟩] else [], [], [], []⟩ :
        Script).toEngine
    let moves : List (Move Bool) :=
      [.start .standard false ":empty", .start .standard true ":empty", .advance 0, .advance 1,
        .advance 1, .advance 0]
    let idle : System Id fun _ => Nat := ⟨.empty, []⟩
    let r := (System.run engines moves idle).run .empty
    Orderly engines r.1.table r.2 ∧ r.2.now.length = 3 ∧
      r.1.table = ⟨[(⟨"browser", .empty⟩, false)]⟩ ∧
      r.1.table.KeptIn ((System.run engines moves r.1).run r.2).1.table ∧
      ∃ result, sharedCompile ⟨false, 8⟩ (notedEngine engines true) ":empty" = .done result ∧
        (compile ⟨false, 8⟩ (engines true) ":empty").run = pure result := by
  intro engines moves idle r
  obtain ⟨horderly, hkept, hunasked, -⟩ := probed_at_most_once (m := Id) engines
  have hr := Returns.of_id (horderly .empty moves)
  have hkept := Returns.of_id (hkept r.1 r.2 moves (by decide))
  exact ⟨hr, by decide +kernel, by decide +kernel, hkept, hunasked ⟨false, 8⟩ true ":empty" rfl⟩

end

end CssLocator
