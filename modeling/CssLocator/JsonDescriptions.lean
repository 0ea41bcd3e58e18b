import CssLocator.Documents
import CssLocator.JsonChecks

/-!
# Descriptions of documents in JSON

A document is an object with the list of its top-level nodes. A node is an element if it can be read
as one, else a text, else a comment; members that a kind of node does not use are ignored.
-/

namespace CssLocator

namespace Json

/-- The values of all members with a name. -/
def valuesOf (name : Text) (members : List Member) : List Json :=
  members.filterMap fun
    | .mk n value => if n = some name then some value else none

/-- The text of a string that is the only value. -/
def onlyText? : List Json → Option Text
  | [.string text] => text
  | _ => none

/-- The attributes that the members of an object give, all of whose values are strings. -/
def readAttributes? : List Member → Option (List Attribute)
  | [] => some []
  | .mk (some name) (.string (some value)) :: rest =>
    (readAttributes? rest).map ((name, value) :: ·)
  | _ => none

/-- The attributes of an element, none if they are missing. -/
def attributesOf? (members : List Member) : Option Attributes :=
  match valuesOf "attrs" members with
  | [] => some .empty
  | [.object entries] => (readAttributes? entries).map .ofList
  | _ => none

/-- What is read of a list that may be missing but not repeated. -/
def onlyList? {α : Type} : List (Option (List α)) → Option (List α)
  | [] => some []
  | [found] => found
  | _ => none

/-- The node that an object describes, the readings of its children being known. -/
def nodeOf? (members : List Member) (children : List (Option (List Description))) :
    Option Description :=
  let element : Option Description := do
    let tag ← onlyText? (valuesOf "tag" members)
    let attributes ← attributesOf? members
    let nodes ← onlyList? children
    pure (.element tag attributes nodes)
  element <|> (onlyText? (valuesOf "text" members)).map .text <|>
    (onlyText? (valuesOf "comment" members)).map .comment

mutual

def readNode? : Json → Option Description
  | .object members => nodeOf? members (readChildren members)
  | _ => none

def readNodes? : Json → Option (List Description)
  | .array items => readAllNodes? items
  | _ => none

def readAllNodes? : List Json → Option (List Description)
  | [] => some []
  | v :: vs => do
    let node ← readNode? v
    let nodes ← readAllNodes? vs
    pure (node :: nodes)

/-- What is read of every member that lists children. -/
def readChildren : List Member → List (Option (List Description))
  | [] => []
  | .mk name value :: rest =>
    if name = some "children" then readNodes? value :: readChildren rest else readChildren rest

end

/-- How deep arrays and objects may be nested in a description. -/
def depthLimit : Nat := 127

/-- The top-level nodes, which are one level below the whole text. -/
def readTopLevel? (v : Json) : Option (List Description) :=
  if v.isSound && v.depth < depthLimit then readNodes? v else none

/-- The top-level nodes of a document. A list stands for the members in their order. -/
def readDocument? : Json → Option (List Description)
  | .object members =>
    if members.all fun | .mk name _ => name.isSome then
      onlyList? ((valuesOf "children" members).map readTopLevel?)
    else none
  | .array items => onlyList? (items.map readTopLevel?)
  | _ => none

end Json

/-- The document that a JSON text describes. -/
def Document.ofText? (s : Text) : Option Document :=
  ((Json.ofText? s).bind Json.readDocument?).map .ofDescriptions

end CssLocator
