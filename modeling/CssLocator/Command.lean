import CssLocator.Folders
import CssLocator.Notices
import CssLocator.TreeEngines

/-!
# Running a selector against a document

What the command does with its options: it loads settings and document, compiles the selector, and
reports the plan, if wanted, and the matches. Options come before, between or after the document and
the selector, and two hyphens end them. The value of an option is in the next argument, or in the same
one after `=`; it does not start with a hyphen unless it is one.
-/

namespace CssLocator

structure CommandOptions where
  document : Text
  selector : Text
  pathOnly : Bool
  /-- Structural pseudo-classes that the engine is to refuse. -/
  noNative : List Text
  config : Option Text
  plan : Bool
  verbosity : Nat
  deriving DecidableEq, Repr

namespace CommandOptions

/-- The options that take a value. -/
inductive Valued where
  | noNative
  | config
  deriving DecidableEq, Repr

/-- What the arguments read so far have given. -/
structure Draft where
  positionals : List Text
  pathOnly : Bool
  noNative : List Text
  config : Option Text
  plan : Bool
  verbosity : Nat
  /-- The option whose value comes next. -/
  pending : Option Valued
  /-- Whether options have ended. -/
  ended : Bool
  deriving DecidableEq, Repr

namespace Draft

def empty : Draft := ⟨[], false, [], none, false, 0, none, false⟩

/-- Gives an option its value. There is one configuration file at most, and it has a name. -/
def setValue? (d : Draft) (value : Text) : Valued → Option Draft
  | .noNative => some { d with noNative := d.noNative ++ [value], pending := none }
  | .config =>
    if d.config.isSome || value.isEmpty then none
    else some { d with config := some value, pending := none }

def addPositional (d : Draft) (a : Text) : Draft := { d with positionals := d.positionals ++ [a] }

/-- Reads an option that is spelled out, with a value after `=` if there is one. -/
def readLong? (d : Draft) (name : Text) (value : Option Text) : Option Draft :=
  let valued (o : Valued) : Option Draft :=
    match value with
    | some v => d.setValue? v o
    | none => some { d with pending := some o }
  if name = "path-only" then
    if d.pathOnly || value.isSome then none else some { d with pathOnly := true }
  else if name = "plan" then
    if d.plan || value.isSome then none else some { d with plan := true }
  else if name = "verbose" then
    if value.isSome then none else some { d with verbosity := d.verbosity + 1 }
  else if name = "no-native" then valued .noNative
  else if name = "config" then valued .config
  else none

/-- Reads the letters after one hyphen. The value of an option may follow at once. -/
def readShort? (d : Draft) : Text → Option Draft
  | [] => some d
  | 'v' :: r => readShort? { d with verbosity := d.verbosity + 1 } r
  | ['c'] => some { d with pending := some .config }
  | 'c' :: '=' :: value => d.setValue? value .config
  | 'c' :: value => d.setValue? value .config
  | _ => none

/-- Whether an argument is read as an option. -/
def isOption (a : Text) : Bool := a.head? == some '-' && a != "-"

def read? (d : Draft) (a : Text) : Option Draft :=
  if d.ended then some (d.addPositional a)
  else
    match d.pending with
    | some o => if isOption a then none else d.setValue? a o
    | none =>
      if !isOption a then some (d.addPositional a)
      else
        match a with
        | ['-', '-'] => some { d with ended := true }
        | '-' :: '-' :: r =>
          match Text.cut? '=' r with
          | some (name, value) => d.readLong? name (some value)
          | none => d.readLong? r none
        | _ => d.readShort? a.tail

/-- The options, if all that is needed has been given. -/
def finish? (d : Draft) : Option CommandOptions :=
  match d.pending, d.positionals with
  | none, [document, selector] =>
    if document.isEmpty then none
    else some ⟨document, selector, d.pathOnly, d.noNative, d.config, d.plan, d.verbosity⟩
  | _, _ => none

end Draft

/-- Reads the arguments of a command line. -/
def ofArguments? (arguments : List Text) : Option CommandOptions :=
  (arguments.foldlM Draft.read? .empty).bind Draft.finish?

end CommandOptions

/-- What is left when the command ends. -/
structure CommandOutcome where
  code : Nat
  output : Text
  errors : Text
  deriving DecidableEq, Repr

def joinLines (l : List Text) : Text := l.flatMap (· ++ ['\n'])

/-- The structural pseudo-class that an option names, with or without colons before it. -/
def refusedKind (name : Text) : Except CommandError Structural :=
  let bare := name.dropWhile (· == ':')
  match PseudoClass.ofName? bare with
  | some (.structural kind) => .ok kind
  | some (.refining kind) => .error (.notNative kind)
  | none => .error (.unknownNative bare)

variable {m : Type → Type} [Monad m]

/-- Compiles the selector for an engine that is asked for nothing else. -/
def compileAlone (settings : Settings) (tree : TreeEngine) (selector : Text) :
    Except SelectorError Plan :=
  let engine : Engine Id Nat := tree.toEngine
  ((compile settings engine selector).run.run SupportTable.empty).1

/-- What a plan finds in the whole document. -/
def runAlone (tree : TreeEngine) (plan : Plan) : Except EngineError (List Nat) :=
  let engine : Engine Id Nat := tree.toEngine
  (plan.run engine engine.document).run

def execute (readFile : Text → m (Except Text Text)) (o : CommandOptions) : Running m Unit := do
  let settings ← loadSettings readFile o.config
  let settings := if o.pathOnly then { settings with nativeProbing := false } else settings
  let refused ← ofExcept (Loop.map refusedKind o.noNative)
  let d ← loadDocument readFile o.document
  let tree : TreeEngine := ⟨d, Structural.all.filter fun kind => !refused.contains kind⟩
  let plan ← ofExcept ((compileAlone settings tree o.selector).mapError (.compilation o.selector))
  if o.plan then write plan.report
  let found ← ofExcept ((runAlone tree plan).mapError (.execution o.selector))
  write (matchReport d found)

/-- Runs the command with the given arguments. -/
def runCommand (readFile : Text → m (Except Text Text)) (arguments : List Text) :
    m CommandOutcome :=
  match CommandOptions.ofArguments? arguments with
  | none => pure ⟨CommandError.usage.exitCode, [], CommandError.usage.report⟩
  | some o => do
    let (result, written) ← (execute readFile o).run.run []
    match result with
    | .ok () => pure ⟨0, joinLines written, []⟩
    | .error e => pure ⟨e.exitCode, joinLines written, e.report⟩

end CssLocator
