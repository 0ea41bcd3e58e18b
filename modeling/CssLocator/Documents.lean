import CssLocator.Text

/-!
# Document trees

A document is a list of nodes with links between them; a node is addressed by its place in the
list, and place 0 holds the document node. Nodes are stored first and attached later, so that
places follow the order of creation and not the order of the tree.

The attributes of an element are sorted by the code points of their names and have no name twice. A
nested description of nodes is made a document in pre-order.
-/

namespace CssLocator

abbrev Attribute := Text × Text

/-- Puts an attribute into a sorted list, in place of one with the same name. -/
def insertAttribute (name value : Text) : List Attribute → List Attribute
  | [] => [(name, value)]
  | (n, v) :: rest =>
    if Text.before name n then (name, value) :: (n, v) :: rest
    else if name = n then (name, value) :: rest
    else (n, v) :: insertAttribute name value rest

theorem mem_insertAttribute {name value : Text} {x : Attribute} {entries : List Attribute}
    (h : x ∈ insertAttribute name value entries) : x = (name, value) ∨ x ∈ entries := by
  fun_induction insertAttribute name value entries <;> simp_all <;> grind

theorem sorted_insertAttribute (name value : Text) (entries : List Attribute)
    (h : entries.Pairwise fun a b => Text.before a.1 b.1) :
    (insertAttribute name value entries).Pairwise fun a b => Text.before a.1 b.1 := by
  fun_induction insertAttribute name value entries with
  | case1 => simp
  | case2 n v rest hlt =>
    simp only [List.pairwise_cons] at h ⊢
    refine ⟨?_, h⟩
    intro x hx
    rcases List.mem_cons.1 hx with rfl | hx
    · exact hlt
    · exact Text.before_trans hlt (h.1 x hx)
  | case3 v rest hlt => simpa using h
  | case4 n v rest hlt hne ih =>
    simp only [List.pairwise_cons] at h ⊢
    refine ⟨?_, ih h.2⟩
    intro x hx
    rcases mem_insertAttribute hx with rfl | hx
    · exact Text.before_of_ne hne (by simpa using hlt)
    · exact h.1 x hx

structure Attributes where
  entries : List Attribute
  sorted : entries.Pairwise fun a b => Text.before a.1 b.1
  deriving DecidableEq

namespace Attributes

def empty : Attributes := ⟨[], .nil⟩

def insert (name value : Text) (a : Attributes) : Attributes :=
  ⟨insertAttribute name value a.entries, sorted_insertAttribute name value a.entries a.sorted⟩

/-- The last one of several attributes with the same name counts. -/
def ofList (l : List Attribute) : Attributes := l.foldl (fun a (n, v) => a.insert n v) empty

def get? (a : Attributes) (name : Text) : Option Text := a.entries.lookup name

def names (a : Attributes) : List Text := a.entries.map Prod.fst

end Attributes

inductive NodeKind where
  | document
  | element (tag : Text) (attributes : Attributes)
  | text (content : Text)
  | comment (content : Text)
  deriving DecidableEq

/-- An element; its tag is kept in lower case. -/
def NodeKind.elementOf (tag : Text) (attributes : Attributes) : NodeKind :=
  .element (Text.lower tag) attributes

structure Node where
  kind : NodeKind
  parent : Option Nat
  children : List Nat
  next : Option Nat
  previous : Option Nat
  deriving DecidableEq

/-- A node without links. -/
def Node.detached (kind : NodeKind) : Node := ⟨kind, none, [], none, none⟩

structure Document where
  nodes : Array Node
  deriving DecidableEq

namespace Document

/-- The place of the document node. -/
def root : Nat := 0

/-- The document without content. -/
def empty : Document := ⟨#[.detached .document]⟩

def size (d : Document) : Nat := d.nodes.size

def node? (d : Document) (id : Nat) : Option Node := d.nodes[id]?

def kind? (d : Document) (id : Nat) : Option NodeKind := (d.node? id).map (·.kind)

def parent? (d : Document) (id : Nat) : Option Nat := (d.node? id).bind (·.parent)

def children (d : Document) (id : Nat) : List Nat := (d.node? id).elim [] (·.children)

def next? (d : Document) (id : Nat) : Option Nat := (d.node? id).bind (·.next)

def previous? (d : Document) (id : Nat) : Option Nat := (d.node? id).bind (·.previous)

/-- Stores a node without attaching it. Its place is the former number of nodes. -/
def allocate (kind : NodeKind) (d : Document) : Document := ⟨d.nodes.push (.detached kind)⟩

def modify (id : Nat) (f : Node → Node) (d : Document) : Document := ⟨d.nodes.modify id f⟩

/-- Attaches a node as the last child of another one. -/
def appendChild (parent child : Nat) (d : Document) : Document :=
  let last := (d.children parent).getLast?
  let attached := (d.modify parent fun n => { n with children := n.children ++ [child] }).modify
    child fun n => { n with parent := some parent, previous := last }
  match last with
  | none => attached
  | some sibling => attached.modify sibling fun n => { n with next := some child }

/-- Stores a node as the last child of another one. -/
def append (parent : Nat) (kind : NodeKind) (d : Document) : Document :=
  (d.allocate kind).appendChild parent d.size

def appendElement (parent : Nat) (tag : Text) (attributes : Attributes) : Document → Document :=
  append parent (.elementOf tag attributes)

def appendText (parent : Nat) (content : Text) : Document → Document :=
  append parent (.text content)

/-- The nodes met by following links from a first one, for at most the given number of nodes. -/
def follow (link : Nat → Option Nat) : Nat → Option Nat → List Nat
  | 0, _ => []
  | _, none => []
  | n + 1, some id => id :: follow link n (link id)

/-- Parent, grandparent and so on. -/
def ancestors (d : Document) (id : Nat) : List Nat := follow d.parent? d.size (d.parent? id)

/-- The siblings before a node, the nearest one first. -/
def precedingSiblings (d : Document) (id : Nat) : List Nat :=
  follow d.previous? d.size (d.previous? id)

/-- The siblings after a node, the nearest one first. -/
def followingSiblings (d : Document) (id : Nat) : List Nat := follow d.next? d.size (d.next? id)

/-- The pending nodes in pre-order, each followed by what is below it, for at most the given number
of nodes. -/
def preorder (d : Document) : Nat → List Nat → List Nat
  | 0, _ => []
  | _, [] => []
  | n + 1, id :: pending => id :: preorder d n (d.children id ++ pending)

/-- The nodes below a node in tree order. -/
def descendants (d : Document) (id : Nat) : List Nat := d.preorder d.size (d.children id)

def isDescendantOf (d : Document) (id ancestor : Nat) : Bool := (d.ancestors id).contains ancestor

/-- The attached nodes in tree order. -/
def order (d : Document) : List Nat := root :: d.descendants root

/-- The place of an attached node in tree order. -/
def rank? (d : Document) (id : Nat) : Option Nat := d.order.idxOf? id

/-- Tag and attributes of an element. -/
def element? (d : Document) (id : Nat) : Option (Text × Attributes) :=
  match d.kind? id with
  | some (.element tag attributes) => some (tag, attributes)
  | _ => none

/-- The tag of an element; other nodes have none. -/
def tag (d : Document) (id : Nat) : Text := (d.element? id).elim [] Prod.fst

def isElement (d : Document) (id : Nat) : Bool := (d.element? id).isSome

def elementChildren (d : Document) (id : Nat) : List Nat := (d.children id).filter d.isElement

/-- The value of an attribute, if the node is an element that has it. -/
def attribute? (d : Document) (id : Nat) (name : Text) : Option Text :=
  (d.element? id).bind fun (_, attributes) => attributes.get? name

/-- The characters of a text node. -/
def text? (d : Document) (id : Nat) : Option Text :=
  match d.kind? id with
  | some (.text content) => some content
  | _ => none

/-- The characters of a text node, or of all text nodes below any other node. -/
def textContent (d : Document) (id : Nat) : Text :=
  match d.text? id with
  | some content => content
  | none => (d.descendants id).flatMap fun n => (d.text? n).getD []

/-- The first element child of the document node. -/
def documentElement? (d : Document) : Option Nat := (d.elementChildren root).head?

end Document

inductive Description where
  | element (tag : Text) (attributes : Attributes) (children : List Description)
  | text (content : Text)
  | comment (content : Text)

mutual

/-- Stores the described node, and everything below it, as the last child of a parent. -/
def Description.attach (parent : Nat) (d : Document) : Description → Document
  | .element tag attributes children =>
    attachAll d.size (d.appendElement parent tag attributes) children
  | .text content => d.appendText parent content
  | .comment content => d.append parent (.comment content)

def Description.attachAll (parent : Nat) (d : Document) : List Description → Document
  | [] => d
  | x :: xs => attachAll parent (x.attach parent d) xs

end

/-- The document with the described nodes at the top level. -/
def Document.ofDescriptions (l : List Description) : Document :=
  Description.attachAll Document.root .empty l

end CssLocator
