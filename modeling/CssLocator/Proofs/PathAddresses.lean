import CssLocator.Notices
import CssLocator.Proofs.DescribedDocuments
import CssLocator.Proofs.DoubleIntegers
import CssLocator.Proofs.NodeSets
import CssLocator.Proofs.PathQueries

/-!
# Paths as addresses

The path that is reported for an element is a location path, and evaluated from the document node it
finds just this element. Each segment leads from the parent to one child: the tag leaves the siblings
that share it, and the position one of them.
-/

namespace CssLocator

open XPath

/-- Whether a node is an element with the tag. -/
def Document.hasTag (d : Document) (tag : Text) (x : Nat) : Bool := d.isElement x && d.tag x == tag

namespace XPath

variable {d : Document}

/-- Steps behind one slash each. -/
theorem cut_steps {ss : List Text} {steps : List Step} (h : List.Forall₂ SpelledStep ss steps)
    (hheads : ∀ s ∈ ss, ∃ c ∈ s.head?, c ≠ '/') (hne : ss ≠ []) :
    ∃ ts, (∀ o, Cut o ('/' :: Text.join ['/'] ss) (.slash :: ts) false) ∧ StepsPhrase steps ts := by
  induction h with
  | nil => exact absurd rfl hne
  | @cons s step ss steps hs hss ih =>
    obtain ⟨ts, hcut, hstep⟩ := hs
    obtain ⟨hhead, hheads⟩ := List.forall_mem_cons.1 hheads
    cases hss with
    | nil => exact ⟨ts, fun o => hcut.slash hhead, hstep.last⟩
    | cons hs' hss =>
      obtain ⟨us, hcuts, hsteps⟩ := ih hheads (List.cons_ne_nil _ _)
      have hboth := hcut.append (hcuts false) fun _ _ => endsToken_mark (by decide) _
      obtain ⟨c, hc, hslash⟩ := hhead
      refine ⟨_, fun o => ?_, hstep.continued hsteps.continuation_slash⟩
      have hwhole := hboth.slash (o := o) ⟨c, by rw [List.head?_append, hc]; rfl, hslash⟩
      simpa [Text.join] using hwhole

private theorem spelled_absolute {ss : List Text} {steps : List Step}
    (h : List.Forall₂ SpelledStep ss steps)
    (hheads : ∀ s ∈ ss, ∃ c ∈ s.head?, c ≠ '/') (hne : ss ≠ []) :
    Spelled 0 ('/' :: Text.join ['/'] ss) (.path true steps) := by
  obtain ⟨ts, hcut, hsteps⟩ := cut_steps h hheads hne
  exact ⟨_, hcut true, hsteps.absolute.phrase⟩

/-- A number keeps the node at its position. -/
theorem keepWhere_number {order : List Nat} {k : Nat} (hk : k ≤ 2 ^ 53) (size position : Nat)
    (nodes : List Node) (hn : position + nodes.length ≤ 2 ^ 53 + 1) :
    keepWhere (eval d order (.number (.ofNat k))) size position nodes =
      .ok (if position ≤ k then nodes[k - position]?.toList else []) := by
  induction nodes generalizing position with
  | nil => simp [keepWhere]
  | cons n nodes ih =>
    rw [List.length_cons] at hn
    have hkeeps : (Value.number (.ofNat k)).keeps position = (k == position) :=
      Double.equals_ofNat hk (by omega)
    have hrest := ih (position + 1) (by omega)
    rw [keepWhere, eval]
    show (keepWhere (eval d order (.number (.ofNat k))) size (position + 1) nodes >>= _) = _
    rw [hrest]
    show Except.ok (if (Value.number (.ofNat k)).keeps position then _ else _) = _
    rw [hkeeps]
    congr 1
    rcases Nat.lt_trichotomy position k with hlt | rfl | hlt
    · obtain ⟨j, rfl⟩ : ∃ j, k = position + 1 + j := ⟨k - position - 1, by omega⟩
      have hnot : (position + 1 + j == position) = false := by simpa using (by omega)
      have hindex : position + 1 + j - position = j + 1 := by omega
      rw [hnot, if_neg Bool.false_ne_true, if_pos (by omega), if_pos (by omega), hindex,
        Nat.add_sub_cancel_left, List.getElem?_cons_succ]
    · simp
    · have hnot : (k == position) = false := by simpa using (by omega)
      rw [hnot, if_neg Bool.false_ne_true, if_neg (by omega), if_neg (by omega)]

@[simp] theorem admits_name (axis : Axis) (name : Text) (x : Nat) :
    (NodeTest.name name).admits d axis (.tree x) = d.hasTag name x := by
  unfold NodeTest.admits Document.hasTag Document.isElement Document.tag Document.element?
  dsimp only
  cases d.kind? x with
  | none => rfl
  | some kind => cases kind <;> rfl

end XPath

namespace Document

variable {d : Document} {x p : Nat}

/-- The position of an element among the siblings that share its tag. -/
def ordinal (d : Document) (x : Nat) : Nat :=
  (d.precedingSiblings x).countP (d.hasTag (d.tag x)) + 1

/-- The elements on the way down to an element, from the top. -/
def line (d : Document) (x : Nat) : List Nat := ((x :: d.ancestors x).takeWhile d.isElement).reverse

/-- The step that a segment of a path writes. -/
def segmentStep (d : Document) (x : Nat) : Step :=
  .mk .child (.name (d.tag x)) [.number (.ofNat (d.ordinal x))]

private theorem spelledStep_segment (hname : isName (d.tag x)) :
    SpelledStep (d.segment x) (d.segmentStep x) := by
  obtain ⟨ts, hcuts, hpredicates⟩ :=
    cut_predicates (.cons ((spelled_number (d.ordinal x)).raise (Nat.zero_le 6)).enclosed .nil)
  have hne : d.tag x ≠ "*" := by
    intro heq
    rw [heq] at hname
    exact absurd hname (by decide)
  have htext : d.tag x ++ predicateText [Text.ofNat (d.ordinal x)] = d.segment x := by
    show _ = d.tag x ++ ['['] ++ Text.ofNat (d.ordinal x) ++ [']']
    simp [predicateText]
  have hcut := hcuts (cut_name hname)
  rw [htext] at hcut
  exact ⟨_, hcut, hpredicates.step .child (.name hne)⟩

private theorem head?_segment (hname : isName (d.tag x)) : ∃ c ∈ (d.segment x).head?, c ≠ '/' := by
  have hsegment : d.segment x = d.tag x ++ (['['] ++ Text.ofNat (d.ordinal x) ++ [']']) := by
    show d.tag x ++ ['['] ++ Text.ofNat (d.ordinal x) ++ [']'] = _
    simp
  rw [hsegment]
  cases htag : d.tag x with
  | nil =>
    rw [htag] at hname
    cases hname
  | cons c s =>
    refine ⟨c, rfl, ?_⟩
    rintro rfl
    rw [htag, isName] at hname
    revert hname
    simp [show isNameStart '/' = false by decide]

/-- The place of an element among the children that share its tag. -/
theorem exists_split_namesakes (h : d.Linked) (hx : d.isElement x) (hp : d.parent? x = some p) :
    ∃ before after, (d.children p).filter (d.hasTag (d.tag x)) = before ++ x :: after ∧
      d.ordinal x = before.length + 1 := by
  obtain ⟨before, after, hsplit⟩ := List.append_of_mem (h.mem_children.2 hp)
  have hself : d.hasTag (d.tag x) x := by simp [hasTag, hx]
  refine ⟨before.filter (d.hasTag (d.tag x)), after.filter (d.hasTag (d.tag x)), ?_, ?_⟩
  · rw [hsplit, List.filter_append, List.filter_cons_of_pos hself]
  · rw [ordinal, h.precedingSiblings_eq hsplit, List.countP_reverse, List.countP_eq_length_filter]

/-- A segment leads from the parent to the element. -/
theorem advance_segment (h : d.Linked) (hx : d.isElement x) (hp : d.parent? x = some p)
    (hchildren : (d.children p).length ≤ 2 ^ 53) :
    advance d d.order (d.segmentStep x) (.tree p) = .ok [.tree x] := by
  obtain ⟨before, after, hsplit, hordinal⟩ := exists_split_namesakes h hx hp
  have hnodes : (Axis.child.nodes d (.tree p)).filter ((NodeTest.name (d.tag x)).admits d .child) =
      (before ++ x :: after).map .tree := by
    rw [← hsplit, nodes_child, List.filter_map]
    congr 1
    exact List.filter_congr fun c _ => admits_name .child (d.tag x) c
  have hlength : (before ++ x :: after).length ≤ 2 ^ 53 := by
    rw [← hsplit]
    exact (List.length_filter_le _ _).trans hchildren
  have hbound : d.ordinal x ≤ 2 ^ 53 := by
    rw [List.length_append, List.length_cons] at hlength
    omega
  have hkept : ((before ++ x :: after).map Node.tree)[d.ordinal x - 1]? = some (.tree x) := by
    simp [hordinal]
  rw [segmentStep, advance, hnodes, narrow, keepWhere_number hbound _ 1 _
    (by rw [List.length_map]; omega), if_pos (by omega), hkept]
  show narrow d d.order [] [.tree x] = _
  rw [narrow]

private theorem walk_segment (h : d.Linked) (hx : d.isElement x) (hp : d.parent? x = some p)
    (hchildren : (d.children p).length ≤ 2 ^ 53) :
    walk d d.order [d.segmentStep x] [.tree p] = .ok [.tree x] := by
  have hfound : Loop.flatMap (advance d d.order (d.segmentStep x)) [.tree p] = .ok [.tree x] := by
    rw [Loop.flatMap, advance_segment h hx hp hchildren]
    rfl
  rw [walk_cons hfound, walk]
  rfl

private theorem line_of_top (h : d.Grown) (hx : d.isElement x) (hp : d.parent? x = some root) :
    d.line x = [x] := by
  have hroot : ¬ d.isElement root := by simp [h.not_isElement_root]
  rw [line, List.takeWhile_cons_of_pos hx, h.linked.ancestors_of_some hp,
    List.takeWhile_cons_of_neg hroot, List.reverse_singleton]

private theorem line_of_parent (h : d.Linked) (hx : d.isElement x) (hp : d.parent? x = some p) :
    d.line x = d.line p ++ [x] := by
  rw [line, List.takeWhile_cons_of_pos hx, h.ancestors_of_some hp, List.reverse_cons, line]

private theorem line_ne_nil (hx : d.isElement x) : d.line x ≠ [] := by
  rw [line, List.takeWhile_cons_of_pos hx]
  simp

private theorem isElement_of_mem_line {y : Nat} (hy : y ∈ d.line x) : d.isElement y :=
  List.mem_takeWhile_imp (List.mem_reverse.1 hy)

/-- By induction on the way up: the steps down to the parent lead to the parent, and one more leads to
the element. -/
theorem walk_line (h : d.Grown) (hchildren : ∀ p, (d.children p).length ≤ 2 ^ 53) (hx : d.isElement x) :
    walk d d.order ((d.line x).map d.segmentStep) [.tree root] = .ok [.tree x] := by
  induction x using h.linked.acyclic.induction with
  | _ x ih =>
    have hne : x ≠ root := by
      rintro rfl
      rw [h.not_isElement_root] at hx
      cases hx
    obtain ⟨p, hp⟩ := h.has_parent (lt_size_of_isElement hx) hne
    have hsegment := walk_segment h.linked hx hp (hchildren p)
    rcases h.parent_element hp with rfl | helement
    · rw [line_of_top h hx hp]
      exact hsegment
    · rw [line_of_parent h.linked hx hp, List.map_append, walk_append, ih p hp helement]
      exact hsegment

private theorem spelled_path (hnames : ∀ y, d.isElement y → isName (d.tag y)) (hx : d.isElement x) :
    Spelled 0 (d.path x) (.path true ((d.line x).map d.segmentStep)) := by
  have htags : ∀ y ∈ d.line x, isName (d.tag y) := fun y hy => hnames y (isElement_of_mem_line hy)
  have hsegments : List.Forall₂ SpelledStep ((d.line x).map d.segment)
      ((d.line x).map d.segmentStep) := by
    rw [List.forall₂_map_left_iff, List.forall₂_map_right_iff, List.forall₂_same]
    exact fun y hy => spelledStep_segment (htags y hy)
  have hheads : ∀ s ∈ (d.line x).map d.segment, ∃ c ∈ s.head?, c ≠ '/' := by
    intro s hs
    obtain ⟨y, hy, rfl⟩ := List.mem_map.1 hs
    exact head?_segment (htags y hy)
  exact spelled_absolute hsegments hheads fun hnil => line_ne_nil hx (List.map_eq_nil_iff.1 hnil)

private theorem select_path_of_element (h : d.Grown) (hnames : ∀ y, d.isElement y → isName (d.tag y))
    (hchildren : ∀ p, (d.children p).length ≤ 2 ^ 53) (hx : d.isElement x) :
    XPath.select d root (d.path x) = .ok [x] :=
  select_path ((spelled_path hnames hx).raise (Nat.zero_le 6)) (walk_line h hchildren hx)

/-- In a described document whose tags are names, and none of whose nodes has more children than doubles
count exactly, the path of an element finds the element and nothing else, so no two elements share one. -/
theorem path_finds_element (json : Text) (d : Document) (hdocument : ofText? json = some d)
    (hnames : ∀ y, d.isElement y → isName (d.tag y))
    (hchildren : ∀ p, (d.children p).length ≤ 2 ^ 53) :
    (∀ x, d.isElement x → XPath.select d root (d.path x) = .ok [x]) ∧
      ∀ x y, d.isElement x → d.isElement y → d.path x = d.path y → x = y := by
  have h := grown_of_ofText? hdocument
  refine ⟨fun x hx => select_path_of_element h hnames hchildren hx, fun x y hx hy hpath => ?_⟩
  have hsame := select_path_of_element h hnames hchildren hx
  rw [hpath, select_path_of_element h hnames hchildren hy] at hsame
  simpa using hsame.symm

/-- Tags that are written like an operator and a kind of nodes, with a text and a comment between the
elements. -/
def keywordsText : Text :=
  "\x7b\"children\":[\x7b\"text\":\"a\"\x7d,\x7b\"tag\":\"div\",\"children\":[\x7b\"tag\":\"text\"\x7d,\x7b\"comment\":\"b\"\x7d,\x7b\"tag\":\"text\"\x7d]\x7d]\x7d"

theorem path_finds_element_keywords : ∃ d, ofText? keywordsText = some d ∧
    (∀ y, d.isElement y → isName (d.tag y)) ∧ (∀ p, (d.children p).length ≤ 2 ^ 53) ∧
    d.isElement 5 ∧ d.path 5 = ("/div[1]/text[2]" : Text) ∧
    XPath.select d root "/div[1]/text[2]" = .ok [5] := by
  have hdocument : (ofText? keywordsText).any fun d =>
      decide (d.isElement 5 ∧ d.path 5 = ("/div[1]/text[2]" : Text) ∧ d.size ≤ 2 ^ 53 ∧
        ∀ y < d.size, d.isElement y → isName (d.tag y)) := by decide +kernel
  obtain ⟨d, hd, hvalues⟩ := (Option.any_eq_true _ _).1 hdocument
  obtain ⟨hx, hpath, hsize, htags⟩ := of_decide_eq_true hvalues
  have hnames : ∀ y, d.isElement y → isName (d.tag y) := fun y hy =>
    htags y (lt_size_of_isElement hy) hy
  have hchildren : ∀ p, (d.children p).length ≤ 2 ^ 53 := fun p =>
    ((grown_of_ofText? hd).linked.length_children_le p).trans hsize
  have hselect := (path_finds_element keywordsText d hd hnames hchildren).1 5 hx
  rw [hpath] at hselect
  exact ⟨d, hd, hnames, hchildren, hx, hpath, hselect⟩

end Document

end CssLocator
