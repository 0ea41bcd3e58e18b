import CssLocator.NativeMatching
import CssLocator.Plans

/-!
# Notices and reports

A notice belongs to a component and is given the first time only. Reports describe plans and matches
in coloured lines.
-/

namespace CssLocator

/-- The notices already given. -/
structure Notices where
  given : List Text
  deriving DecidableEq, Repr

namespace Notices

def none : Notices := ⟨[]⟩

/-- The whole text of a notice, by which it is recognised. -/
def line (component message : Text) : Text := "[" ++ component ++ "] " ++ message

/-- Whether a notice is still to be given, and the notices given then. -/
def announce (component message : Text) (n : Notices) : Bool × Notices :=
  let l := line component message
  if l ∈ n.given then (false, n) else (true, ⟨l :: n.given⟩)

end Notices

/-- A text between two codes that switch a rendition of the terminal on and off. -/
def rendition (on off : Nat) (s : Text) : Text :=
  let switch (code : Nat) : Text := "\x1b[" ++ Text.ofNat code ++ "m"
  switch on ++ s ++ switch off

def bold : Text → Text := rendition 1 0

def dimmed : Text → Text := rendition 2 0

def green : Text → Text := rendition 32 39

def yellow : Text → Text := rendition 33 39

def cyan : Text → Text := rendition 36 39

def Combinator.reportName : Combinator → Text
  | descendant => "Descendant"
  | child => "Child"
  | nextSibling => "NextSibling"
  | subsequentSibling => "SubsequentSibling"

namespace Plan

/-- A filter as a pseudo-class, nested selectors being left out. -/
def Filter.label : Filter → Text
  | .has _ => ":has(..)"
  | .not _ => ":not(..)"
  | .lang code => ":lang(" ++ code ++ ")"
  | .visible => ":visible"
  | .hidden => ":hidden"

def Step.reportLine (s : Step) : Text :=
  let line : Text := "  " ++ s.combinator.reportName ++ " " ++ cyan s.locator.text
  if s.filters.isEmpty then line
  else line ++ " " ++ yellow (Text.join " " (s.filters.map (·.label)))

def branchReport (steps : List Step) (i : Nat) : List Text :=
  ("branch " ++ Text.ofNat i ++ ":") :: steps.map (·.reportLine)

/-- The lines that show a plan, an empty one at the end. -/
def report (plan : Plan) : List Text :=
  bold "=== Plan ===" :: (plan.zipIdx 1).flatMap (fun (steps, i) => branchReport steps i) ++ [[]]

end Plan

namespace Document

/-- An element as a selector of its tag, id and classes. -/
def label (d : Document) (id : Nat) : Text :=
  match d.element? id with
  | none => "#document"
  | some (tag, attributes) =>
    let identifier : Text := (attributes.get? "id").elim [] ('#' :: ·)
    tag ++ identifier ++ (d.classes id).flatMap ('.' :: ·)

/-- An element's tag, and its position among the siblings that share it. -/
def segment (d : Document) (id : Nat) : Text :=
  let tag := d.tag id
  let before := (d.precedingSiblings id).countP fun s => d.isElement s && d.tag s == tag
  tag ++ "[" ++ Text.ofNat (before + 1) ++ "]"

/-- The path that leads to an element, in the notation of location paths: the segments of the
element and of the elements above it, from the top. -/
def path (d : Document) (id : Nat) : Text :=
  let elements := (id :: d.ancestors id).takeWhile d.isElement
  "/" ++ Text.join "/" (elements.reverse.map d.segment)

def reportLine (d : Document) (id : Nat) : Text :=
  green (d.label id) ++ "  " ++ dimmed (d.path id)

end Document

/-- The lines that show what has been found. -/
def matchReport (d : Document) (found : List Nat) : List Text :=
  found.map d.reportLine ++ [bold (Text.ofNat found.length) ++ " match(es)"]

end CssLocator
