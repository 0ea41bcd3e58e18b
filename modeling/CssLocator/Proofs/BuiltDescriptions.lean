import CssLocator.Proofs.DescribedDocuments
import CssLocator.Proofs.TreeWalks

/-!
# Built descriptions

A document that is built from descriptions has one node for each described one, in the order in which
they are written. So the places of its nodes are their places in tree order, and reading it from the
top down gives the descriptions again, only that tags are in lower case.
-/

namespace CssLocator

/-- What is built of a described node: its kind and the places of its children. -/
abbrev Entry := NodeKind × List Nat

namespace Description

mutual

/-- The number of described nodes. -/
def count : Description → Nat
  | element _ _ children => countAll children + 1
  | text _ => 1
  | comment _ => 1

def countAll : List Description → Nat
  | [] => 0
  | x :: xs => x.count + countAll xs

end

mutual

/-- The description with all tags in lower case. -/
def lowered : Description → Description
  | element tag attributes children => element (Text.lower tag) attributes (loweredAll children)
  | text content => text content
  | comment content => comment content

def loweredAll : List Description → List Description
  | [] => []
  | x :: xs => x.lowered :: loweredAll xs

end

/-- The places of nodes that are described side by side, if the first one has the given place. -/
def places (n : Nat) : List Description → List Nat
  | [] => []
  | x :: xs => n :: places (n + x.count) xs

mutual

/-- The described nodes as they are written, from the given place on. -/
def entries (n : Nat) : Description → List Entry
  | element tag attributes children =>
    (.elementOf tag attributes, places (n + 1) children) :: entriesAll (n + 1) children
  | text content => [(.text content, [])]
  | comment content => [(.comment content, [])]

def entriesAll (n : Nat) : List Description → List Entry
  | [] => []
  | x :: xs => x.entries n ++ entriesAll (n + x.count) xs

end

mutual

@[simp] theorem length_entries (n : Nat) : (x : Description) → (x.entries n).length = x.count
  | element tag attributes children => by simp [entries, count, length_entriesAll]
  | text content => rfl
  | comment content => rfl

@[simp] theorem length_entriesAll (n : Nat) :
    (l : List Description) → (entriesAll n l).length = countAll l
  | [] => rfl
  | x :: l => by simp [entriesAll, countAll, length_entries, length_entriesAll]

end

end Description

open Description

namespace Document

variable {d : Document}

/-- All nodes by place, without the links that follow from the children. -/
def entries (d : Document) : List Entry := d.nodes.toList.map fun n => (n.kind, n.children)

@[simp] theorem getElem?_entries (d : Document) (i : Nat) :
    d.entries[i]? = (d.node? i).map fun n => (n.kind, n.children) := by
  simp [entries, node?]

@[simp] theorem length_entries (d : Document) : d.entries.length = d.size := by simp [entries, size]

/-- The entries are those of the nodes from the given place on. -/
def HasFrom (d : Document) (n : Nat) (l : List Entry) : Prop :=
  ∀ i e, l[i]? = some e → d.entries[n + i]? = some e

theorem HasFrom.head {n : Nat} {kind : NodeKind} {children : List Nat} {l : List Entry}
    (h : d.HasFrom n ((kind, children) :: l)) : d.kind? n = some kind ∧ d.children n = children := by
  have hentry := h 0 _ rfl
  rw [Nat.add_zero, getElem?_entries] at hentry
  obtain ⟨node, hnode, heq⟩ := Option.map_eq_some_iff.1 hentry
  cases heq
  simp [kind?, Document.children, hnode]

theorem HasFrom.tail {n : Nat} {e : Entry} {l : List Entry} (h : d.HasFrom n (e :: l)) :
    d.HasFrom (n + 1) l := by
  intro i e' he'
  have hentry := h (i + 1) e' he'
  rwa [Nat.add_comm i 1, ← Nat.add_assoc] at hentry

theorem HasFrom.left {n : Nat} {l m : List Entry} (h : d.HasFrom n (l ++ m)) : d.HasFrom n l := by
  intro i e he
  have hi := (List.getElem?_eq_some_iff.1 he).1
  exact h i e (by rwa [List.getElem?_append_left hi])

theorem HasFrom.right {n : Nat} {l m : List Entry} (h : d.HasFrom n (l ++ m)) :
    d.HasFrom (n + l.length) m := by
  intro i e he
  rw [Nat.add_assoc]
  exact h _ e (by rwa [List.getElem?_append_right (Nat.le_add_right _ _), Nat.add_sub_cancel_left])

/-- An entry with more children. -/
def withMore (more : List Nat) (e : Entry) : Entry := (e.1, e.2 ++ more)

private theorem entries_append {parent : Nat} (hparent : parent < d.size) (kind : NodeKind) :
    (d.append parent kind).entries = d.entries.modify parent (withMore [d.size]) ++ [(kind, [])] := by
  apply List.ext_getElem?
  intro i
  rw [getElem?_entries, append, node?_appendChild, node?_allocate]
  rcases Nat.lt_trichotomy i d.size with hi | rfl | hi
  · obtain ⟨n, hn⟩ := exists_node hi
    have hentry : d.entries[i]? = some (n.kind, n.children) := by simp [hn]
    rw [if_neg (Nat.ne_of_lt hi), hn, List.getElem?_append_left (by simpa using hi),
      List.getElem?_modify, hentry]
    by_cases hp : parent = i
    · simp [hp, withMore]
    · simp [hp, Ne.symm hp]
  · have hp : d.size ≠ parent := Nat.ne_of_gt hparent
    simp [hp, Node.detached]
  · rw [if_neg (Nat.ne_of_gt hi), node?_eq_none (Nat.le_of_lt hi), List.getElem?_eq_none (by simp; omega)]
    rfl

private theorem modify_append {l m : List Entry} {i : Nat} (hi : i < l.length) (f : Entry → Entry) :
    (l ++ m).modify i f = l.modify i f ++ m := by
  rw [List.modify_eq_take_cons_drop hi, List.modify_eq_take_cons_drop (by simp; omega),
    List.take_append_of_le_length (Nat.le_of_lt hi), List.drop_append_of_le_length hi,
    List.getElem_append_left hi]
  simp

private theorem modify_last (l : List Entry) (e : Entry) {i : Nat} (hi : l.length = i)
    (f : Entry → Entry) : (l ++ [e]).modify i f = l ++ [f e] := by
  subst hi
  rw [List.modify_eq_take_cons_drop (by simp)]
  simp

@[simp] theorem withMore_nil : withMore [] = id := by
  funext e
  simp [withMore]

@[simp] theorem withMore_withMore (l : List Entry) (i : Nat) (more later : List Nat) :
    (l.modify i (withMore more)).modify i (withMore later) = l.modify i (withMore (more ++ later)) := by
  rw [List.modify_modify_eq]
  congr 1
  funext e
  simp [withMore]

mutual

/-- Attaching a description puts its nodes behind those there are, and makes its top node a child of
the parent. -/
theorem entries_attach {d : Document} {parent : Nat} (hparent : parent < d.size) :
    (x : Description) → (x.attach parent d).entries =
      d.entries.modify parent (withMore [d.size]) ++ x.entries d.size
  | .element tag attributes children => by
    have hnew := entries_append hparent (.elementOf tag attributes)
    have hsize : (d.append parent (.elementOf tag attributes)).size = d.size + 1 := by simp
    have hplace : d.size < (d.append parent (.elementOf tag attributes)).size := by omega
    have hbelow := entries_attachAll hplace children
    have hlength : (d.entries.modify parent (withMore [d.size])).length = d.size := by simp
    show (attachAll d.size (d.append parent (.elementOf tag attributes)) children).entries = _
    rw [hbelow, hnew, hsize, modify_last _ _ hlength, List.append_assoc]
    rfl
  | .text content => entries_append hparent (.text content)
  | .comment content => entries_append hparent (.comment content)

private theorem entries_attachAll {d : Document} {parent : Nat} (hparent : parent < d.size) :
    (l : List Description) → (attachAll parent d l).entries =
      d.entries.modify parent (withMore (places d.size l)) ++ entriesAll d.size l
  | [] => by simp [attachAll, places, entriesAll]
  | x :: l => by
    have hfirst := entries_attach hparent x
    have hsize : (x.attach parent d).size = d.size + x.count := by
      rw [← length_entries, hfirst]
      simp
    have hlater : parent < (x.attach parent d).size := by omega
    have hrest := entries_attachAll hlater l
    show (attachAll parent (x.attach parent d) l).entries = _
    rw [hrest, hfirst, hsize, modify_append (by simpa using hparent), withMore_withMore,
      List.append_assoc]
    rfl

end

@[simp] theorem entries_ofDescriptions (l : List Description) :
    (ofDescriptions l).entries = (.document, places (root + 1) l) :: entriesAll (root + 1) l :=
  entries_attachAll (d := .empty) Nat.one_pos l

@[simp] theorem size_ofDescriptions (l : List Description) :
    (ofDescriptions l).size = countAll l + 1 := by
  simp [← length_entries (ofDescriptions l)]

private theorem hasFrom_ofDescriptions (l : List Description) :
    (ofDescriptions l).HasFrom root ((.document, places (root + 1) l) :: entriesAll (root + 1) l) := by
  intro i e he
  rwa [root, Nat.zero_add, entries_ofDescriptions]

mutual

/-- The nodes of a description are a branch of the tree, in the order of their places. -/
theorem branch_of_entries (h : d.Linked) {n : Nat} :
    (x : Description) → d.HasFrom n (x.entries n) → n :: d.descendants n = List.range' n x.count
  | .element tag attributes children, hx => by
    have hbelow := branches_of_entries h children hx.tail
    rw [h.descendants_eq, hx.head.2, hbelow, count, List.range'_succ]
  | .text content, hx => by
    rw [h.descendants_eq, hx.head.2]
    rfl
  | .comment content, hx => by
    rw [h.descendants_eq, hx.head.2]
    rfl

private theorem branches_of_entries (h : d.Linked) {n : Nat} :
    (l : List Description) → d.HasFrom n (entriesAll n l) →
      ((places n l).flatMap fun c => c :: d.descendants c) = List.range' n (countAll l)
  | [], _ => rfl
  | x :: l, hl => by
    have hfirst := branch_of_entries h x hl.left
    have hright := hl.right
    rw [Description.length_entries] at hright
    have hrest := branches_of_entries h l hright
    rw [places, List.flatMap_cons, hfirst, hrest, countAll, List.range'_append_1]

end

@[simp] theorem order_ofDescriptions (l : List Description) :
    (ofDescriptions l).order = List.range (countAll l + 1) := by
  have h := (grown_ofDescriptions l).linked
  have hroot := hasFrom_ofDescriptions l
  have hbelow := branches_of_entries h l hroot.tail
  rw [order, h.descendants_eq, hroot.head.2, hbelow, List.range_eq_range', List.range'_succ]
  rfl

/-- The description of a node and of what is below it, if no more levels are there than given, only
elements have children, and no document node is met. -/
def describe? (d : Document) : (levels : Nat) → Nat → Option Description
  | 0, _ => none
  | levels + 1, id => do
    let below ← Loop.map (d.describe? levels) (d.children id)
    match d.kind? id, below with
    | some (.element tag attributes), _ => some (.element tag attributes below)
    | some (.text content), [] => some (.text content)
    | some (.comment content), [] => some (.comment content)
    | _, _ => none

/-- The descriptions of the top-level nodes. -/
def descriptions? (d : Document) : Option (List Description) :=
  Loop.map (d.describe? d.size) (d.children root)

mutual

private theorem describe?_of_entries {levels n : Nat} :
    (x : Description) → x.count ≤ levels → d.HasFrom n (x.entries n) →
      d.describe? levels n = some x.lowered
  | .element tag attributes children, hlevels, hx => by
    rw [count] at hlevels
    obtain ⟨levels, rfl⟩ : ∃ k, levels = k + 1 := ⟨levels - 1, by omega⟩
    have hbelow := map_describe?_of_entries children (Nat.le_of_succ_le_succ hlevels) hx.tail
    rw [describe?, hx.head.1, hx.head.2, hbelow]
    rfl
  | .text content, hlevels, hx => by
    rw [count] at hlevels
    obtain ⟨levels, rfl⟩ : ∃ k, levels = k + 1 := ⟨levels - 1, by omega⟩
    rw [describe?, hx.head.1, hx.head.2]
    rfl
  | .comment content, hlevels, hx => by
    rw [count] at hlevels
    obtain ⟨levels, rfl⟩ : ∃ k, levels = k + 1 := ⟨levels - 1, by omega⟩
    rw [describe?, hx.head.1, hx.head.2]
    rfl

private theorem map_describe?_of_entries {levels n : Nat} :
    (l : List Description) → countAll l ≤ levels → d.HasFrom n (entriesAll n l) →
      Loop.map (d.describe? levels) (places n l) = some (loweredAll l)
  | [], _, _ => rfl
  | x :: l, hlevels, hl => by
    rw [countAll] at hlevels
    have hcount : x.count ≤ levels := by omega
    have hcounts : countAll l ≤ levels := by omega
    have hfirst := describe?_of_entries x hcount hl.left
    have hright := hl.right
    rw [Description.length_entries] at hright
    have hrest := map_describe?_of_entries l hcounts hright
    rw [places, Loop.map, hfirst, hrest]
    rfl

end

/-- A document that is built from descriptions has consistent links, every node is attached and its
place is its place in tree order, there is one node more than described ones, and read from the top
down it has the same descriptions with tags in lower case. -/
theorem descriptions_read_back (l : List Description) :
    (ofDescriptions l).Consistent ∧
      (∀ x < (ofDescriptions l).size,
        x ∈ (ofDescriptions l).order ∧ (ofDescriptions l).rank? x = some x) ∧
      (ofDescriptions l).size = countAll l + 1 ∧
      (ofDescriptions l).descriptions? = some (loweredAll l) := by
  have h := grown_ofDescriptions l
  have hroot := hasFrom_ofDescriptions l
  have hsize := size_ofDescriptions l
  refine ⟨h.linked.consistent, fun x hx => ?_, hsize, ?_⟩
  · have hplace : (ofDescriptions l).order[x]? = some x := by
      rw [order_ofDescriptions, List.getElem?_range (hsize ▸ hx)]
    exact ⟨List.mem_of_getElem? hplace, h.linked.rank?_of_getElem? hplace⟩
  · rw [descriptions?, hroot.head.2]
    exact map_describe?_of_entries l (by omega) hroot.tail

end Document

end CssLocator
