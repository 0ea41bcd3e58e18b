import CssLocator.Proofs.ComparedValues
import CssLocator.Proofs.CompoundTests

/-!
# Agreement of paths with tests

What the expression of a compound says about an element is what the tests of the compound say. The
document must have at most one top-level element and values whose white space both languages know,
and nothing that is counted may be too great for exact doubles.
-/

namespace CssLocator

open XPath

variable {d : Document} {i p : Nat}

namespace Document

/-- The values of all attributes. -/
def values (d : Document) : List Text :=
  d.nodes.toList.flatMap fun node =>
    match node.kind with
    | .element _ attributes => attributes.entries.map Prod.snd
    | _ => []

theorem mem_values {name value : Text} (h : d.attribute? i name = some value) : value ∈ d.values := by
  unfold attribute? element? at h
  split at h
  · rename_i tag attributes hkind
    obtain ⟨node, hnode, hattributes⟩ := Option.map_eq_some_iff.1 hkind
    have hmem : node ∈ d.nodes.toList := by
      rw [Array.mem_toList_iff]
      exact Array.mem_of_getElem? hnode
    refine List.mem_flatMap.2 ⟨node, hmem, ?_⟩
    rw [hattributes]
    obtain ⟨before, after, hentries, -⟩ := List.lookup_eq_some_iff.1 h
    exact List.mem_map.2 ⟨(name, value), by simp [hentries], rfl⟩
  · cases h

private theorem exists_parent (h : d.Grown) (hi : d.isElement i) : ∃ p, d.parent? i = some p := by
  apply h.has_parent (lt_size_of_isElement hi)
  rintro rfl
  rw [h.not_isElement_root] at hi
  cases hi

private theorem length_elementChildren_le (h : d.Linked) (p : Nat) :
    (d.elementChildren p).length ≤ d.size :=
  nodup_length_le (nodup_elementChildren h p) fun _ hx => h.child_lt (List.mem_of_mem_filter hx)

/-- An element has its place among the element children of its parent. -/
theorem place?_eq (h : d.Linked) (hi : d.isElement i) (hp : d.parent? i = some p) :
    d.place? i = some ((d.elementChildren p).idxOf i + 1, (d.elementChildren p).length) := by
  have hindex : (d.elementChildren p).idxOf? i = some ((d.elementChildren p).idxOf i) := by
    have hmem : i ∈ d.elementChildren p := (mem_elementChildren h).2 ⟨hp, hi⟩
    obtain ⟨k, hk⟩ := Option.isSome_iff_exists.1 (List.isSome_idxOf?.2 hmem)
    rw [List.idxOf_eq_getD_idxOf?, hk]
    rfl
  simp [place?, hp, hindex]

theorem idxOf_elementChildren_lt (h : d.Linked) (hi : d.isElement i) (hp : d.parent? i = some p) :
    (d.elementChildren p).idxOf i < (d.elementChildren p).length :=
  List.idxOf_lt_length_of_mem ((mem_elementChildren h).2 ⟨hp, hi⟩)

/-- The document element has no parent element. -/
theorem not_isElement_of_documentElement? (h : d.Grown) (hi : d.documentElement? = some i)
    (hp : d.parent? i = some p) : d.isElement p = false := by
  have hmem := (mem_elementChildren h.linked).1 (List.mem_of_head? hi)
  obtain rfl : p = root := Option.some.inj (hp.symm.trans hmem.1)
  exact h.not_isElement_root

/-- The only top-level element is the document element. -/
theorem documentElement?_of_top (h : d.Grown) (htop : (d.elementChildren root).length ≤ 1)
    (hi : d.isElement i) (hp : d.parent? i = some p) (hpe : d.isElement p = false) :
    d.documentElement? = some i := by
  obtain rfl : p = root := (h.parent_element hp).resolve_right (by simp [hpe])
  have hmem : i ∈ d.elementChildren root := (mem_elementChildren h.linked).2 ⟨hp, hi⟩
  obtain ⟨y, hy⟩ : ∃ y, d.elementChildren root = [y] := by
    apply List.length_eq_one_iff.1
    have := List.length_pos_of_mem hmem
    omega
  rw [hy, List.mem_singleton] at hmem
  rw [documentElement?, hy, hmem]
  rfl

/-- A node below another one is not the document. -/
theorem exists_kind (h : d.Grown) (hp : d.parent? i = some p) :
    ∃ kind, d.kind? i = some kind ∧ kind ≠ .document := by
  obtain ⟨node, hnode⟩ := exists_node (lt_size_of_parent? hp)
  have hkind : d.kind? i = some node.kind := by rw [kind?, hnode, Option.map_some]
  refine ⟨node.kind, hkind, fun hdocument => ?_⟩
  rw [hdocument] at hkind
  rw [h.eq_root hkind, h.parent?_root] at hp
  cases hp

end Document

/-- What a kind other than `:root` requires of an element at a place is the same in both languages. -/
theorem Structural.pathHolds_eq_of_place (h : d.Grown) {k n : Nat} (hplace : d.place? i = some (k, n))
    (hk : 0 < k) (hkn : k ≤ n) (hn : n + 2 ^ 31 ≤ 2 ^ 53) {kind : Structural} (hroot : kind ≠ .root)
    {r : AnPlusB} (hr : kind.takesArgument → r.Readable) :
    kind.pathHolds d ⟨.tree i, k, n⟩ r = kind.holds d i r := by
  cases kind with
  | nthChild =>
    show r.pathSelects (.ofNat k) = (d.place? i).any _
    rw [hplace, AnPlusB.pathSelects_fromStart (hr rfl) (by omega)]
    rfl
  | nthLastChild =>
    show r.pathSelects (.ofNat n - .ofNat k + .ofNat 1) = (d.place? i).any _
    rw [hplace, AnPlusB.pathSelects_fromEnd (hr rfl) hk hkn hn]
    show _ = r.selects ((n + 1 - k : Nat) : Int)
    congr 1
    omega
  | firstChild =>
    show (Double.ofNat k).equals (.ofNat 1) = (d.place? i).any _
    rw [hplace]
    exact Double.equals_ofNat (by omega) (by omega)
  | lastChild =>
    show (Double.ofNat k).equals (.ofNat n) = (d.place? i).any _
    rw [hplace]
    exact Double.equals_ofNat (by omega) (by omega)
  | onlyChild =>
    show (Double.ofNat n).equals (.ofNat 1) = (d.place? i).any _
    rw [hplace]
    exact Double.equals_ofNat (by omega) (by omega)
  | empty =>
    show (d.children i).all _ = (d.children i).all _
    rw [Bool.eq_iff_iff, List.all_eq_true, List.all_eq_true]
    apply forall₂_congr
    intro child hchild
    obtain ⟨kind, hkind, hdocument⟩ := Document.exists_kind h (h.linked.mem_children.1 hchild)
    rw [Document.isElement, Document.element?, Document.text?, hkind]
    cases kind with
    | document => exact absurd rfl hdocument
    | _ => exact Iff.rfl
  | root => exact absurd rfl hroot

/-- Whether an element is the root is the same in both languages, unless it is a top-level element
after the first one. -/
theorem Structural.pathHolds_root_iff (h : d.Grown) (hp : d.parent? i = some p) (k n : Nat)
    (r : AnPlusB) :
    root.pathHolds d ⟨.tree i, k, n⟩ r = root.holds d i r ↔
      d.documentElement? = some i ∨ d.isElement p := by
  show (!(d.parent? i).any d.isElement) = (d.documentElement? == some i) ↔ _
  rw [hp]
  show (!d.isElement p) = (d.documentElement? == some i) ↔ _
  by_cases hfirst : d.documentElement? = some i
  · simp [hfirst, Document.not_isElement_of_documentElement? h hfirst hp]
  · have hfalse : (d.documentElement? == some i) = false := by simpa using hfirst
    simp [hfalse, hfirst]

/-- An element is where it is for both languages. -/
theorem Structural.pathHolds_eq (h : d.Grown) (htop : (d.elementChildren Document.root).length ≤ 1)
    (hsize : d.size < 2 ^ 52) (hi : d.isElement i) {kind : Structural} {r : AnPlusB}
    (hr : kind.takesArgument → r.Readable) :
    kind.pathHolds d (d.focusOf i) r = kind.holds d i r := by
  obtain ⟨p, hp⟩ := Document.exists_parent h hi
  have hfocus : d.focusOf i =
      ⟨.tree i, (d.elementChildren p).idxOf i + 1, (d.elementChildren p).length⟩ := by
    rw [Document.focusOf, hp]
  rw [hfocus]
  by_cases hroot : kind = .root
  · subst hroot
    rw [pathHolds_root_iff h hp]
    cases hpe : d.isElement p with
    | true => exact .inr rfl
    | false => exact .inl (Document.documentElement?_of_top h htop hi hp hpe)
  · have hplace := Document.place?_eq h.linked hi hp
    have hindex := Document.idxOf_elementChildren_lt h.linked hi hp
    have hlength := Document.length_elementChildren_le h.linked p
    exact pathHolds_eq_of_place h hplace (by omega) (by omega) (by omega) hroot hr

/-- Whether the operand of a comparison means the same in both languages. -/
def SimpleSelector.isComparable : SimpleSelector → Bool
  | hasAttribute _ (some (o, wanted)) => o.isComparable wanted
  | _ => true

def Compound.isComparable (c : Compound) : Bool := c.all (·.isComparable)

/-- What a document must be like for both languages to mean the same. -/
structure Document.Comparable (d : Document) : Prop where
  grown : d.Grown
  one_top : (d.elementChildren root).length ≤ 1
  size_lt : d.size < 2 ^ 52
  values : ∀ value ∈ d.values, Text.hasCommonSpace value ∧ value.length < 2 ^ 52

@[simp] theorem id_focusOf (d : Document) (i : Nat) : (d.focusOf i).node.id = i := by
  unfold Document.focusOf
  cases d.parent? i <;> rfl

/-- Comparisons hold alike of every attribute value of the document. -/
theorem Document.Comparable.pathHolds_attribute (hd : d.Comparable) {o : AttributeOperator}
    {wanted : Text} (hwanted : o.isComparable wanted) (name : Text) :
    o.pathHolds (d.attribute? i name) wanted = (d.attribute? i name).any (o.holds · wanted) := by
  apply AttributeOperator.pathHolds_eq hwanted
  · exact fun value hvalue => (hd.values value (Document.mem_values hvalue)).1
  · exact fun value hvalue => (hd.values value (Document.mem_values hvalue)).2

/-- The tags of a document are in lower case, so that a tag in lower case is compared exactly. -/
theorem Document.Grown.tag_beq (h : d.Grown) (hi : d.isElement i) {name : Text}
    (hname : Text.lower name = name) :
    (d.tag i == name) = (d.element? i).any fun e => Text.sameLetters e.1 name := by
  rw [Document.tag]
  unfold Document.isElement at hi
  cases helement : d.element? i with
  | none =>
    rw [helement] at hi
    cases hi
  | some e =>
    show (e.1 == name) = (Text.lower e.1 == Text.lower name)
    rw [h.lower_tag helement, hname]

private theorem AttributeOperator.isComparable_word {name : Text} (hne : name ≠ [])
    (hvisible : name.all Identifier.isVisible) : word.isComparable name := by
  rw [isComparable, Bool.and_eq_true, List.all_eq_true]
  refine ⟨by simpa using hne, fun c hc => ?_⟩
  rw [(all_isVisible.1 hvisible c hc).2]
  rfl

/-- Conditions hold alike in both languages. -/
theorem SimpleSelector.pathHolds_eq (hd : d.Comparable) (hi : d.isElement i) {x : SimpleSelector}
    (hread : x.Readable) (hplain : x.plainlyWritten) (hcomparable : x.isComparable) :
    x.pathHolds d (d.focusOf i) = x.meets d i := by
  cases x with
  | universal => rfl
  | tag name =>
    show (d.tag (d.focusOf i).node.id == name) =
      (d.element? i).any fun e => Text.sameLetters e.1 name
    rw [id_focusOf, hd.grown.tag_beq hi hread.2]
  | className name =>
    show AttributeOperator.word.pathHolds (d.attribute? (d.focusOf i).node.id "class") name =
      (d.classes i).contains name
    rw [id_focusOf, hd.pathHolds_attribute (AttributeOperator.isComparable_word hread hplain),
      Document.classes]
    cases d.attribute? i "class" <;> rfl
  | id name =>
    show (d.attribute? (d.focusOf i).node.id "id" == some name) = (d.attribute? i "id" == some name)
    rw [id_focusOf]
  | hasAttribute name test =>
    rcases test with _ | ⟨o, wanted⟩
    · show (d.attribute? (d.focusOf i).node.id name).isSome = (d.attribute? i name).any fun _ => true
      rw [id_focusOf]
      cases d.attribute? i name <;> rfl
    · show o.pathHolds (d.attribute? (d.focusOf i).node.id name) wanted =
        (d.attribute? i name).any (o.holds · wanted)
      rw [id_focusOf, hd.pathHolds_attribute hcomparable]
  | pseudo use =>
    unfold pathHolds meets
    dsimp only
    cases PseudoClass.ofName? use.name with
    | none => rfl
    | some pseudo =>
      cases pseudo with
      | refining kind => rfl
      | structural kind =>
        dsimp only
        cases hargument : kind.read use with
        | error e => rfl
        | ok r =>
          apply Structural.pathHolds_eq hd.grown hd.one_top hd.size_lt hi
          intro htakes
          have hr := Structural.readable_of_read hargument
          rwa [if_pos htakes] at hr

/-- The expression of a compound says about an element what the tests of the compound say. -/
theorem Compound.pathHolds_eq (hd : d.Comparable) (hi : d.isElement i) {compound : Compound}
    (hread : Compound.Readable compound) (hplain : compound.plainlyWritten)
    (hcomparable : compound.isComparable) :
    compound.pathHolds d (d.focusOf i) = compound.all (·.meets d i) := by
  rw [Compound.pathHolds, Bool.eq_iff_iff, List.all_eq_true, List.all_eq_true]
  apply forall₂_congr
  intro x hx
  rw [SimpleSelector.pathHolds_eq hd hi (hread.readable x hx) (List.all_eq_true.1 hplain x hx)
    (List.all_eq_true.1 hcomparable x hx)]

end CssLocator
