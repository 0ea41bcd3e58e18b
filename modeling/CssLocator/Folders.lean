import CssLocator.Compilation
import CssLocator.JsonDescriptions

/-!
# Files of the command

The command loads its settings and its document by an effect that reads files. A folder in memory,
with files of given contents and no folders in it, is one that files can be read from. Settings are an
object with known members only, each of them at most once, or a list of the values in their order; what
is missing keeps its standard value.
-/

namespace CssLocator

/-- The contents of files by name. -/
structure Folder where
  files : List (Text × Text)
  deriving DecidableEq, Repr

namespace Folder

/-- The names along a path. Empty names lead nowhere. -/
def names (path : Text) : List Text := Text.words (· == '/') path

/-- The name of a folder within itself. -/
def here : Text := "."

/-- The name of the folder above. -/
def above : Text := ".."

def leadsToFolder (name : Text) : Bool := name == here || name == above

/-- Reads a file, or tells why there is none under the path. Of what is outside the folder, only the
folders above it are known. -/
def read (f : Folder) (path : Text) : Except Text Text :=
  let missing : Except Text Text := .error "No such file or directory (os error 2)"
  let folders := (names path).takeWhile leadsToFolder
  match (names path).dropWhile leadsToFolder with
  | [] => if path.isEmpty then missing else .error "Is a directory (os error 21)"
  | name :: more =>
    if path.head? == some '/' || folders.contains above then missing
    else
      match f.files.lookup name with
      | none => missing
      | some content =>
        if more.isEmpty && path.getLast? != some '/' then .ok content
        else .error "Not a directory (os error 20)"

end Folder

namespace Settings

def readProbing? (s : Settings) : Json → Option Settings
  | .boolean b => some { s with nativeProbing := b }
  | _ => none

def readNesting? (s : Settings) : Json → Option Settings
  | .number n => n.word?.map fun depth => { s with maxNesting := depth }
  | _ => none

/-- Takes over the members, of which none may be in the list of names already seen. -/
def readMembers? (seen : List Text) (s : Settings) : List Member → Option Settings
  | [] => some s
  | .mk none _ :: _ => none
  | .mk (some name) value :: rest =>
    if name ∈ seen then none
    else if name = "native_probing" then
      (s.readProbing? value).bind fun s => readMembers? (name :: seen) s rest
    else if name = "max_nesting_depth" then
      (s.readNesting? value).bind fun s => readMembers? (name :: seen) s rest
    else none

def ofJson? : Json → Option Settings
  | .object members => readMembers? [] standard members
  | .array [] => some standard
  | .array [probing] => standard.readProbing? probing
  | .array [probing, nesting] => (standard.readProbing? probing).bind (·.readNesting? nesting)
  | _ => none

/-- The settings that a JSON text gives. -/
def ofText? (s : Text) : Option Settings := (Json.ofText? s).bind ofJson?

end Settings

/-- Why the command fails. -/
inductive CommandError where
  | usage
  | unreadable (path reason : Text)
  | settings (path : Text)
  | unknownNative (name : Text)
  | notNative (kind : Refining)
  | document (path : Text)
  | compilation (selector : Text) (error : SelectorError)
  | execution (selector : Text) (error : EngineError)
  deriving DecidableEq, Repr

namespace CommandError

/-- What has failed. -/
def context : CommandError → Text
  | usage => ""
  | unreadable path _ => "failed to read " ++ path
  | settings path => "invalid configuration in " ++ path
  | unknownNative name => (SelectorError.unsupported name).message
  | notNative kind => ":" ++ kind.name ++ " is always evaluated in-process"
  | document path => path ++ " is not a document description"
  | compilation selector _ => "cannot compile `" ++ selector ++ "`"
  | execution selector _ => "cannot run `" ++ selector ++ "`"

def cause? : CommandError → Option Text
  | unreadable _ reason => some reason
  | compilation _ error => some error.message
  | execution _ error => some error.message
  | _ => none

/-- The text for the error output; the lines of the cause are indented. -/
def report (e : CommandError) : Text :=
  match e with
  | usage => ""
  | _ =>
    let first : Text := "Error: " ++ e.context ++ "\n"
    match e.cause? with
    | none => first
    | some cause =>
      let indented := Text.join "\n    " (Text.splitAt (· == '\n') cause)
      first ++ "\nCaused by:\n    " ++ indented ++ "\n"

def exitCode : CommandError → Nat
  | usage => 2
  | _ => 1

end CommandError

variable {m : Type → Type} [Monad m]

/-- A run of the command, up to its first failure. The lines written by then are kept. -/
abbrev Running (m : Type → Type) : Type → Type := ExceptT CommandError (StateT (List Text) m)

def write (l : List Text) : Running m Unit := modify (· ++ l)

def load (readFile : Text → m (Except Text Text)) (path : Text) : Running m Text := do
  let read : Except Text Text ← (liftM (readFile path) : Running m (Except Text Text))
  match read with
  | .ok text => pure text
  | .error reason => throw (.unreadable path reason)

/-- The settings in a file, or the standard ones without a file. -/
def loadSettings (readFile : Text → m (Except Text Text)) : Option Text → Running m Settings
  | none => pure .standard
  | some path => do
    let text ← load readFile path
    match Settings.ofText? text with
    | some settings => pure settings
    | none => throw (.settings path)

def loadDocument (readFile : Text → m (Except Text Text)) (path : Text) : Running m Document := do
  let text ← load readFile path
  match Document.ofText? text with
  | some d => pure d
  | none => throw (.document path)

end CssLocator
