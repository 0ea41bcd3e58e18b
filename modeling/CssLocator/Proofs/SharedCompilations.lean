import CssLocator.Proofs.CompiledPlans

/-!
# Compilations that share a table

Compilers use one table of answers at the same time. A compilation changes it in two kinds of steps,
between which others take theirs: an answer is looked up, and one that was not there is settled,
which may take a probe. Here a compilation is taken apart into these steps, as it is written for any
monad. Put together again they are the compilation.
-/

namespace CssLocator

section

variable {M M' : Type → Type} [Monad M] [MonadExceptOf SelectorError M] [Monad M']
  [MonadExceptOf SelectorError M']

/-- A relation between the computations of two monads that holds of all that are built in the same
way from related ones. -/
structure EffectCongruence (R : ∀ ⦃α : Type⦄, M α → M' α → Prop) : Prop where
  pure {α : Type} (a : α) : R (Pure.pure a) (Pure.pure a)
  throw {α : Type} (e : SelectorError) :
    R (MonadExcept.throw e : M α) (MonadExcept.throw e : M' α)
  bind {α β : Type} {x : M α} {x' : M' α} {f : α → M β} {f' : α → M' β} (h : R x x')
    (h' : ∀ a, R (f a) (f' a)) : R (x >>= f) (x' >>= f')

namespace EffectCongruence

variable {R : ∀ ⦃α : Type⦄, M α → M' α → Prop} (hR : EffectCongruence R)
  {knows : Structural → M Bool} {knows' : Structural → M' Bool}
  {nested : SelectorList → M Plan} {nested' : SelectorList → M' Plan}

include hR

private theorem except {α : Type} (r : Except SelectorError α) :
    R (ofExcept r : M α) (ofExcept r : M' α) := by
  cases r with
  | error e => exact hR.throw e
  | ok a => exact hR.pure a

theorem map {α β : Type} {f : α → M β} {f' : α → M' β} (h : ∀ a, R (f a) (f' a)) (l : List α) :
    R (Loop.map f l) (Loop.map f' l) := by
  induction l with
  | nil => exact hR.pure []
  | cons x l ih => exact hR.bind (h x) fun y => hR.bind ih fun ys => hR.pure (y :: ys)

theorem compileStructural (hknows : ∀ kind, R (knows kind) (knows' kind)) (kind : Structural)
    (use : PseudoUse) :
    R (CssLocator.compileStructural knows kind use) (CssLocator.compileStructural knows' kind use) := by
  refine hR.bind (hR.except _) fun native => ?_
  refine hR.bind (hR.except _) fun path => ?_
  exact hR.bind (hknows kind) fun known => hR.pure _

theorem compileRefining (hnested : ∀ list, R (nested list) (nested' list)) (kind : Refining)
    (use : PseudoUse) :
    R (CssLocator.compileRefining nested kind use) (CssLocator.compileRefining nested' kind use) := by
  refine hR.bind (hR.except _) fun _ => ?_
  cases kind with
  | has | not =>
    refine hR.bind (hR.except _) fun list => ?_
    exact hR.bind (hnested list) fun plan => hR.pure _
  | lang =>
    dsimp only
    split
    · exact hR.throw _
    · exact hR.pure _
  | visible | hidden => exact hR.pure _

theorem compileSimple (hknows : ∀ kind, R (knows kind) (knows' kind))
    (hnested : ∀ list, R (nested list) (nested' list)) (x : SimpleSelector) :
    R (CssLocator.compileSimple knows nested x) (CssLocator.compileSimple knows' nested' x) := by
  cases x with
  | pseudo use =>
    refine hR.bind (hR.except _) fun pseudo => ?_
    cases pseudo with
    | structural kind => exact hR.compileStructural hknows kind use
    | refining kind => exact hR.bind (hR.compileRefining hnested kind use) fun f => hR.pure _
  | _ => exact hR.pure _

theorem compileBranches (hknows : ∀ kind, R (knows kind) (knows' kind))
    (hnested : ∀ list, R (nested list) (nested' list)) (list : SelectorList) :
    R (CssLocator.compileBranches knows nested list)
      (CssLocator.compileBranches knows' nested' list) := by
  refine hR.map (fun complex => hR.map ?_ complex) list
  rintro ⟨combinator, compound⟩
  exact hR.bind (hR.map (hR.compileSimple hknows hnested) compound) fun parts => hR.pure _

theorem compileList (hknows : ∀ kind, R (knows kind) (knows' kind)) (limit n : Nat)
    (list : SelectorList) :
    R (CssLocator.compileList knows limit n list) (CssLocator.compileList knows' limit n list) := by
  induction n generalizing list with
  | zero => exact hR.compileBranches hknows (fun _ => hR.throw _) list
  | succ n ih => exact hR.compileBranches hknows ih list

/-- Compilations are related if the ways are in which they find out what an engine knows. -/
theorem compileText (knows : Structural → M Bool) (knows' : Structural → M' Bool)
    (hknows : ∀ kind, R (knows kind) (knows' kind)) (limit : Nat) (selector : Text) :
    R (CssLocator.compileText knows limit selector) (CssLocator.compileText knows' limit selector) :=
  hR.bind (hR.except _) fun list => hR.compileList hknows limit limit list

end EffectCongruence

end

/-- What is left of a computation that uses a table of answers. -/
inductive Shared (m : Type → Type) (α : Type) where
  | done (a : α)
  /-- An answer is looked up, and if there is none it is settled next. -/
  | lookUp (key : SupportKey) (probe : m Bool) (next : Bool → Shared m α)
  | settle (key : SupportKey) (probe : m Bool) (next : Bool → Shared m α)

namespace Shared

variable {m : Type → Type} {α β : Type}

def bind : Shared m α → (α → Shared m β) → Shared m β
  | done a, f => f a
  | lookUp key probe next, f => lookUp key probe fun b => (next b).bind f
  | settle key probe next, f => settle key probe fun b => (next b).bind f

instance : Monad (Shared m) where
  pure := done
  bind := bind

/-- Asks a table that others use too. -/
def ask (key : SupportKey) (probe : m Bool) : Shared m Bool := lookUp key probe done

/-- All questions of a computation, whatever the answers to earlier ones are. -/
def Asks (p : SupportKey → m Bool → Prop) : Shared m α → Prop
  | done _ => True
  | lookUp key probe next => p key probe ∧ ∀ b, (next b).Asks p
  | settle key probe next => p key probe ∧ ∀ b, (next b).Asks p

theorem Asks.bind {p : SupportKey → m Bool → Prop} {x : Shared m α} {f : α → Shared m β}
    (h : x.Asks p) (h' : ∀ a, (f a).Asks p) : (x.bind f).Asks p := by
  induction x with
  | done a => exact h' a
  | lookUp key probe next ih => exact ⟨h.1, fun b => ih b (h.2 b)⟩
  | settle key probe next ih => exact ⟨h.1, fun b => ih b (h.2 b)⟩

theorem Asks.imp {p q : SupportKey → m Bool → Prop} {x : Shared m α} (h : x.Asks p)
    (hpq : ∀ key probe, p key probe → q key probe) : x.Asks q := by
  induction x with
  | done a => trivial
  | lookUp key probe next ih => exact ⟨hpq _ _ h.1, fun b => ih b (h.2 b)⟩
  | settle key probe next ih => exact ⟨hpq _ _ h.1, fun b => ih b (h.2 b)⟩

private theorem effectCongruence_asks (p : SupportKey → m Bool → Prop) :
    EffectCongruence fun α (x : ExceptT SelectorError (Shared m) α) (_ : Except SelectorError α) =>
      x.run.Asks p where
  pure _ := trivial
  throw _ := trivial
  bind := by
    intro _ _ x _ f _ h h'
    rw [ExceptT.run_bind]
    refine Asks.bind h fun r => ?_
    cases r with
    | error e => trivial
    | ok a => exact h' a

private theorem effectCongruence_done :
    EffectCongruence fun α (x : ExceptT SelectorError (Shared m) α) (r : Except SelectorError α) =>
      x.run = .done r where
  pure _ := rfl
  throw _ := rfl
  bind := by
    intro _ _ x r f g h h'
    rw [ExceptT.run_bind, h]
    cases r with
    | error e => rfl
    | ok a => exact h' a

variable [Monad m]

/-- The next step, on the table as it is by then, and the answer that is given in it. -/
def step : Shared m α → StateT SupportTable m (Shared m α × Option (SupportKey × Bool))
  | done a => pure (done a, none)
  | lookUp key probe next => do
    match (← get).lookup? key with
    | some b => pure (next b, some (key, b))
    | none => pure (settle key probe next, none)
  | settle key probe next => do
    let b ← SupportTable.settle key probe
    pure (next b, some (key, b))

/-- All steps one after the other, when nobody else uses the table. -/
def alone : Shared m α → StateT SupportTable m α
  | done a => pure a
  | lookUp key probe next => do
    let b ← SupportTable.ask key probe
    (next b).alone
  | settle key probe next => do
    let b ← SupportTable.settle key probe
    (next b).alone

variable [LawfulMonad m]

@[simp] theorem alone_bind (x : Shared m α) (f : α → Shared m β) :
    (x >>= f).alone = x.alone >>= fun a => (f a).alone := by
  induction x with
  | done a => exact (pure_bind a fun a => (f a).alone).symm
  | lookUp key probe next ih =>
    show (SupportTable.ask key probe >>= fun b => (next b >>= f).alone) = _
    simp only [ih, alone, bind_assoc]
  | settle key probe next ih =>
    show (SupportTable.settle key probe >>= fun b => (next b >>= f).alone) = _
    simp only [ih, alone, bind_assoc]

private theorem effectCongruence_alone :
    EffectCongruence fun α (x : ExceptT SelectorError (Shared m) α) (y : Compiling m α) =>
      x.run.alone = y.run where
  pure _ := rfl
  throw _ := rfl
  bind := by
    intro _ _ x y f g h h'
    rw [ExceptT.run_bind, ExceptT.run_bind, alone_bind, h]
    refine bind_congr fun r => ?_
    cases r with
    | error e => rfl
    | ok a => exact h' a

/-- A step leaves the table as it is, and an answer that is given in it is recorded there; or there is
none yet, and the answer of the probe is given and recorded. -/
theorem step_cases (x : Shared m α) (table : SupportTable) :
    (∃ y answer, x.step.run table = pure ((y, answer), table) ∧ (∀ p, x.Asks p → y.Asks p) ∧
      ∀ key b, answer = some (key, b) → table.lookup? key = some b) ∨
    ∃ key ask next, x = .settle key ask next ∧ table.lookup? key = none ∧
      x.step.run table = ask >>= fun b => pure ((next b, some (key, b)), table.record key b) := by
  have hsome {key : SupportKey} {b : Bool} (hlookup : table.lookup? key = some b) :
      ∀ key' b', some (key, b) = some (key', b') → table.lookup? key' = some b' := by
    rintro _ _ ⟨⟩
    exact hlookup
  cases x with
  | done a => exact .inl ⟨.done a, none, rfl, fun _ => id, nofun⟩
  | lookUp key ask next =>
    left
    unfold step
    rw [StateT.run_bind, StateT.run_get, pure_bind]
    cases hlookup : table.lookup? key with
    | none => exact ⟨.settle key ask next, none, rfl, fun _ => id, nofun⟩
    | some b => exact ⟨next b, some (key, b), rfl, fun _ h => h.2 b, hsome hlookup⟩
  | settle key ask next =>
    have hrun : (settle key ask next).step.run table =
        (SupportTable.settle key ask).run table >>= fun r =>
          pure ((next r.1, some (key, r.1)), r.2) := rfl
    rw [SupportTable.run_settle] at hrun
    cases hlookup : table.lookup? key with
    | none =>
      rw [hlookup] at hrun
      simp only [bind_assoc, pure_bind] at hrun
      exact .inr ⟨key, ask, next, rfl, hlookup, hrun⟩
    | some b =>
      rw [hlookup] at hrun
      simp only [pure_bind] at hrun
      exact .inl ⟨next b, some (key, b), hrun, fun _ h => h.2 b, hsome hlookup⟩

/-- A computation that nobody interrupts goes on after its first step. -/
@[simp] theorem step_alone (x : Shared m α) : (x.step >>= fun r => r.1.alone) = x.alone := by
  cases x with
  | done a => exact pure_bind _ _
  | lookUp key probe next =>
    simp only [step, alone, SupportTable.ask, bind_assoc]
    refine bind_congr fun table => ?_
    cases table.lookup? key with
    | some b => simp only [pure_bind]
    | none => simp only [pure_bind, alone]
  | settle key probe next => simp only [step, alone, bind_assoc, pure_bind]

end Shared

section

variable {m : Type → Type} [Monad m] {ν : Type}

/-- Whether the engine evaluates a pseudo-class itself, asked of a table that others use too. -/
def sharedSupports (settings : Settings) (engine : Engine m ν) (kind : Structural) :
    Shared m Bool :=
  if settings.nativeProbing then Shared.ask ⟨engine.capability, kind⟩ (probe engine kind)
  else pure false

/-- Compiles a selector list with a table that others use too. -/
def sharedCompile (settings : Settings) (engine : Engine m ν) (selector : Text) :
    Shared m (Except SelectorError Plan) :=
  ExceptT.run <|
    compileText (fun kind => sharedSupports settings engine kind) settings.maxNesting selector

/-- A compilation asks only whether its engine knows a pseudo-class. -/
theorem asks_sharedCompile (settings : Settings) (engine : Engine m ν) (selector : Text) :
    (sharedCompile settings engine selector).Asks fun key ask =>
      ∃ kind, key = ⟨engine.capability, kind⟩ ∧ ask = probe engine kind := by
  have hknows (kind : Structural) : (sharedSupports settings engine kind).Asks fun key ask =>
      ∃ kind, key = ⟨engine.capability, kind⟩ ∧ ask = probe engine kind := by
    unfold sharedSupports
    split
    · exact ⟨⟨kind, rfl, rfl⟩, fun _ => trivial⟩
    · trivial
  apply (Shared.effectCongruence_asks _).compileText _ (fun _ => pure false)
  intro kind
  exact Shared.Asks.bind (hknows kind) fun _ => trivial

/-- A compiler that does not ask has no steps to take. -/
theorem sharedCompile_of_unasked {settings : Settings} (h : settings.nativeProbing = false)
    (engine : Engine m ν) (selector : Text) :
    sharedCompile settings engine selector =
      .done (compileText (fun _ => Except.ok false) settings.maxNesting selector) := by
  apply Shared.effectCongruence_done.compileText
  intro kind
  unfold sharedSupports
  rw [h]
  rfl

@[simp] theorem alone_sharedSupports [LawfulMonad m] (settings : Settings) (engine : Engine m ν)
    (kind : Structural) :
    (sharedSupports settings engine kind).alone = supports settings engine kind := by
  unfold sharedSupports supports
  split
  · exact bind_pure _
  · rfl

/-- The steps of a compilation make up the compilation. -/
@[simp] theorem alone_sharedCompile [LawfulMonad m] (settings : Settings) (engine : Engine m ν)
    (selector : Text) :
    (sharedCompile settings engine selector).alone = (compile settings engine selector).run := by
  apply Shared.effectCongruence_alone.compileText
  intro kind
  rw [← alone_sharedSupports]
  exact Shared.alone_bind _ _

end

end CssLocator
