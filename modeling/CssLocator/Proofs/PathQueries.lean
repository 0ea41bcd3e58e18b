import CssLocator.Proofs.PathConditions
import CssLocator.Proofs.TreeBuilding
import CssLocator.Proofs.TreeEngineProbes
import CssLocator.Proofs.TreeOrder

/-!
# Path queries

What the engine of a document tree finds with the expressions of compiled steps, and with those for
children and parents. No such query fails from an attached node, and what one finds does not depend
on how far above it started.
-/

namespace CssLocator

open XPath

namespace Document

variable {d : Document}

/-- The element in focus, with its position among the element children of its parent. -/
def focusOf (d : Document) (x : Nat) : Focus :=
  match d.parent? x with
  | some p => ⟨.tree x, (d.elementChildren p).idxOf x + 1, (d.elementChildren p).length⟩
  | none => ⟨.tree x, 1, 1⟩

private theorem focusOf_of_mem_children (h : d.Linked) {x p : Nat} (hx : x ∈ d.children p) :
    d.focusOf x = ⟨.tree x, (d.elementChildren p).idxOf x + 1, (d.elementChildren p).length⟩ := by
  rw [focusOf, h.mem_children.1 hx]

private theorem sublist_flatMap_cons (f : Nat → List Nat) (l : List Nat) :
    l.Sublist (l.flatMap fun x => x :: f x) := by
  induction l with
  | nil => exact .slnil
  | cons x l ih =>
    rw [List.flatMap_cons]
    exact (ih.trans (List.sublist_append_right _ _)).cons_cons x

theorem Linked.mem_order_of_mem_branch (h : d.Linked) {x y : Nat} (hx : x ∈ d.order)
    (hy : y ∈ x :: d.descendants x) : y ∈ d.order := by
  rcases List.mem_cons.1 hy with rfl | hy
  · exact hx
  · exact h.mem_order_of_mem_descendants hx hy

/-- A child is below a node if its parent is or is the node itself. -/
theorem Linked.mem_descendants_iff_of_mem_children (h : d.Linked) {x p c : Nat}
    (hx : x ∈ d.children p) : x ∈ d.descendants c ↔ p ∈ c :: d.descendants c := by
  rw [h.mem_descendants_iff, h.ancestors_of_some (h.mem_children.1 hx), List.mem_cons, List.mem_cons,
    h.mem_descendants_iff, eq_comm]

theorem Linked.children_sublist_order (h : d.Linked) {x : Nat} (hx : x ∈ d.order) :
    (d.children x).Sublist d.order := by
  refine List.Sublist.trans ?_ (h.descendants_sublist_order hx)
  rw [h.descendants_eq x]
  exact sublist_flatMap_cons _ _

end Document

namespace XPath

variable {d : Document}

@[simp] theorem admits_node (axis : Axis) {x : Nat} (hx : x < d.size) :
    (NodeTest.type .node).admits d axis (.tree x) = true := by
  obtain ⟨n, hn⟩ := Document.exists_node hx
  simp [NodeTest.admits, Document.kind?, hn]

theorem walk_cons {s : Step} {steps : List Step} {nodes found : List Node}
    (h : Loop.flatMap (advance d d.order s) nodes = .ok found) :
    walk d d.order (s :: steps) nodes = walk d d.order steps (Node.sort d.order found) := by
  rw [walk, h]
  rfl

private theorem flatMap_of_ok {f : Node → Except Error (List Node)} {g : Nat → List Nat} {l : List Nat}
    (h : ∀ x ∈ l, f (.tree x) = .ok ((g x).map .tree)) :
    Loop.flatMap f (l.map .tree) = .ok ((l.flatMap g).map .tree) := by
  induction l with
  | nil => rfl
  | cons x l ih =>
    rw [List.map_cons, Loop.flatMap, h x List.mem_cons_self,
      ih fun y hy => h y (List.mem_cons_of_mem x hy), List.flatMap_cons, List.map_append]
    rfl

theorem walk_self (h : d.Linked) {x : Nat} (hx : x ∈ d.order) (steps : List Step) :
    walk d d.order (.mk .self (.type .node) [] :: steps) [.tree x] = walk d d.order steps [.tree x] := by
  have hadvance : advance d d.order (.mk .self (.type .node) []) (.tree x) = .ok [.tree x] := by
    rw [advance, narrow]
    show Except.ok ([Node.tree x].filter _) = _
    rw [List.filter_singleton, admits_node .self (h.lt_size_of_mem_order hx)]
    rfl
  have hfound : Loop.flatMap (advance d d.order (.mk .self (.type .node) [])) [.tree x] =
      .ok [.tree x] := by
    rw [Loop.flatMap, hadvance]
    rfl
  rw [walk_cons hfound]
  rfl

theorem walk_anyDepth (h : d.Linked) {x : Nat} (hx : x ∈ d.order) (steps : List Step) :
    walk d d.order (.anyDepth :: steps) [.tree x] =
      walk d d.order steps ((x :: d.descendants x).map .tree) := by
  have hadvance : advance d d.order .anyDepth (.tree x) = .ok ((x :: d.descendants x).map .tree) := by
    rw [Step.anyDepth, advance, narrow]
    show Except.ok (((x :: d.descendants x).map Node.tree).filter _) = _
    rw [List.filter_eq_self.2]
    intro n hn
    obtain ⟨y, hy, rfl⟩ := List.mem_map.1 hn
    exact admits_node _ (h.lt_size_of_mem_order (h.mem_order_of_mem_branch hx hy))
  have hsublist : (x :: d.descendants x).Sublist d.order := (h.branch_contiguous_order hx).sublist
  rw [walk_cons (by rw [Loop.flatMap, hadvance]; rfl)]
  show walk d d.order steps (Node.sort d.order ((x :: d.descendants x).map Node.tree ++ [])) = _
  rw [List.append_nil, Node.sort_of_sublist h.nodup_order hsublist]

/-- Elements at known positions of a list are kept if they pass the test. -/
theorem keepWhere_of_decides {e : Expr} {test : Focus → Bool} (h : Decides d d.order e test) (k : Nat)
    (before l : List Nat) (hn : (before ++ l).Nodup) :
    keepWhere (eval d d.order e) k (before.length + 1) (l.map .tree) =
      .ok ((l.filter fun x => test ⟨.tree x, (before ++ l).idxOf x + 1, k⟩).map .tree) := by
  induction l generalizing before with
  | nil => rfl
  | cons x l ih =>
    have hassoc : before ++ x :: l = (before ++ [x]) ++ l := by simp
    have hx : x ∉ before := fun hmem =>
      List.disjoint_of_nodup_append hn hmem List.mem_cons_self
    have hidx : (before ++ x :: l).idxOf x = before.length := by
      rw [List.idxOf_append_of_notMem hx, List.idxOf_cons_self, Nat.add_zero]
    obtain ⟨v, hv, htest, hkeeps⟩ := h x (before.length + 1) k
    have hrest := ih (before ++ [x]) (by rwa [← hassoc])
    rw [List.length_append, List.length_singleton] at hrest
    rw [List.map_cons, keepWhere, hv, hrest, ← hassoc, List.filter_cons, hidx, ← htest, ← hkeeps]
    show Except.ok _ = _
    split <;> rfl

/-- The element children of a node, before predicates leave any out. -/
@[simp] theorem nodes_anyChild (p : Nat) :
    (Axis.child.nodes d (.tree p)).filter (NodeTest.any.admits d .child) =
      (d.elementChildren p).map .tree := by
  rw [nodes_child, List.filter_map]
  congr 1
  apply List.filter_congr
  exact fun x _ => admits_any .child x

/-- The children that a step with the predicate of a compound leads to. -/
theorem advance_child (h : d.Linked) (compound : Compound) (p : Nat) :
    advance d d.order (.mk .child .any (conjunction (compound.filterMap (·.condition?)))) (.tree p) =
      .ok (((d.elementChildren p).filter fun x => compound.pathHolds d (d.focusOf x)).map .tree) := by
  have hfocus : ∀ x ∈ d.elementChildren p, d.focusOf x =
      ⟨.tree x, (d.elementChildren p).idxOf x + 1, ((d.elementChildren p).map Node.tree).length⟩ := by
    intro x hx
    rw [Document.focusOf_of_mem_children h (List.mem_of_mem_filter hx), List.length_map]
  rw [advance, nodes_anyChild]
  rcases @decides_conjunction d d.order compound with ⟨hnil, hall⟩ | ⟨e, he, hdecides⟩
  · rw [hnil, narrow, List.filter_eq_self.2 fun x _ => hall _]
  · have hnodup : ([] ++ d.elementChildren p).Nodup := (h.nodup_children p).filter _
    have hkeep := keepWhere_of_decides hdecides ((d.elementChildren p).map Node.tree).length [] _ hnodup
    rw [List.length_nil, Nat.zero_add, List.nil_append] at hkeep
    rw [he, narrow, hkeep]
    show narrow d d.order [] _ = _
    rw [narrow]
    congr 2
    apply List.filter_congr
    intro x hx
    rw [hfocus x hx]

/-- A location path leads on from the context, or from the document node. -/
theorem select_path {s : Text} {absolute : Bool} {steps : List Step} {l : List Nat} {x : Nat}
    (hs : Spelled 6 s (.path absolute steps))
    (hwalk : walk d d.order steps [.tree (if absolute then Document.root else x)] = .ok (l.map .tree)) :
    select d x s = .ok l := by
  have hvalue : evaluate d x s = .ok (.nodes (l.map .tree)) := by
    rw [evaluate, hs.parse]
    show eval d d.order (.path absolute steps) ⟨.tree x, 1, 1⟩ = _
    rw [eval, ← apply_ite, hwalk]
    rfl
  rw [select, hvalue]
  show Except.ok ((l.map Node.tree).filterMap _) = _
  rw [List.filterMap_map]
  exact congrArg _ (List.filterMap_some)

end XPath

namespace TreeEngine

open XPath

variable {t : TreeEngine}

private theorem findAll_path {c : Nat} {s : Text} {l : List Nat} (hc : c ∈ t.document.order)
    (h : XPath.select t.document c s = .ok l) :
    t.findAll c (.path s) = .ok (l.filter t.document.isElement) := by
  rw [findAll, checkAttached_of_mem hc]
  show (Except.mapError _ (XPath.select t.document c s) >>= _) = _
  rw [h]
  rfl

section Kept

variable {ss : List Text} {es : List Expr} {c : Nat} (h : t.document.Linked)
  (hc : c ∈ t.document.order) (hss : List.Forall₂ Enclosed ss es)

include h hc hss

/-- What is found one level below a node with predicates that keep a part of its element children. -/
theorem findAll_keptChildren {kept : List Nat}
    (hadvance : advance t.document t.document.order (.mk .child .any es) (.tree c) =
      .ok (kept.map .tree))
    (hkept : kept.Sublist (t.document.elementChildren c)) :
    t.findAll c (.path ("./*" ++ predicateText ss)) = .ok kept := by
  have hsublist : kept.Sublist t.document.order :=
    hkept.trans (List.filter_sublist.trans (h.children_sublist_order hc))
  have hfound : Loop.flatMap (advance t.document t.document.order (.mk .child .any es)) [.tree c] =
      .ok (kept.map .tree) := by
    rw [Loop.flatMap, hadvance]
    show Except.ok (kept.map Node.tree ++ []) = _
    rw [List.append_nil]
  have hwalk : walk t.document t.document.order [.mk .self (.type .node) [], .mk .child .any es]
      [.tree c] = .ok (kept.map .tree) := by
    rw [walk_self h hc, walk_cons hfound, walk, Node.sort_of_sublist h.nodup_order hsublist]
  rw [findAll_path hc (select_path ((spelled_below hss).1.raise (Nat.zero_le 6)) hwalk)]
  refine congrArg _ (List.filter_eq_self.2 fun x hx => ?_)
  exact (List.mem_filter.1 (hkept.subset hx)).2

/-- What is found on any level below a node with such predicates. -/
theorem findAll_keptBelow {kept : Nat → List Nat}
    (hadvance : ∀ p ∈ c :: t.document.descendants c,
      advance t.document t.document.order (.mk .child .any es) (.tree p) = .ok ((kept p).map .tree))
    (hkept : ∀ p ∈ c :: t.document.descendants c, (kept p).Sublist (t.document.elementChildren p)) :
    t.findAll c (.path (".//*" ++ predicateText ss)) =
      .ok (t.document.order.filter (((c :: t.document.descendants c).flatMap kept).contains ·)) := by
  have hmem : ∀ x ∈ (c :: t.document.descendants c).flatMap kept,
      x ∈ t.document.order ∧ t.document.isElement x := by
    intro x hx
    obtain ⟨p, hp, hx⟩ := List.mem_flatMap.1 hx
    obtain ⟨hchild, helement⟩ := List.mem_filter.1 ((hkept p hp).subset hx)
    exact ⟨(h.children_sublist_order (h.mem_order_of_mem_branch hc hp)).subset hchild, helement⟩
  have hwalk : walk t.document t.document.order
      [.mk .self (.type .node) [], .anyDepth, .mk .child .any es] [.tree c] =
      .ok ((t.document.order.filter
        (((c :: t.document.descendants c).flatMap kept).contains ·)).map .tree) := by
    rw [walk_self h hc, walk_anyDepth h hc, walk_cons (flatMap_of_ok hadvance), walk]
    exact congrArg _ (Node.sort_map_tree h.nodup_order fun x hx => (hmem x hx).1)
  rw [findAll_path hc (select_path ((spelled_below hss).2.raise (Nat.zero_le 6)) hwalk)]
  refine congrArg _ (List.filter_eq_self.2 fun x hx => ?_)
  exact (hmem x (by simpa using (List.mem_filter.1 hx).2)).2

end Kept

/-- Where the steps of an expression with the compound's predicate lead to. -/
def stepsBelow (d : Document) (compound : Compound) (c : Nat) : List Nat :=
  (c :: d.descendants c).flatMap fun p =>
    (d.elementChildren p).filter fun x => compound.pathHolds d (d.focusOf x)

private theorem mem_stepsBelow {d : Document} (h : d.Linked) {compound : Compound} {c x : Nat} :
    x ∈ stepsBelow d compound c ↔
      x ∈ d.descendants c ∧ d.isElement x ∧ compound.pathHolds d (d.focusOf x) := by
  have hbelow : x ∈ d.descendants c ↔ ∃ p ∈ c :: d.descendants c, x ∈ d.children p := by
    constructor
    · intro hx
      obtain ⟨p, hp, -⟩ := h.mem_ancestors.1 (h.mem_descendants_iff.1 hx)
      have hchild := h.mem_children.2 hp
      exact ⟨p, (h.mem_descendants_iff_of_mem_children hchild).1 hx, hchild⟩
    · rintro ⟨p, hp, hchild⟩
      exact (h.mem_descendants_iff_of_mem_children hchild).2 hp
  unfold stepsBelow Document.elementChildren
  simp only [List.mem_flatMap, List.mem_filter]
  rw [hbelow]
  constructor
  · rintro ⟨p, hp, ⟨hx, helement⟩, hholds⟩
    exact ⟨⟨p, hp, hx⟩, helement, hholds⟩
  · rintro ⟨⟨p, hp, hx⟩, helement, hholds⟩
    exact ⟨p, hp, ⟨hx, helement⟩, hholds⟩

/-- The elements below an attached node for which a compound holds, found by the expression with the
compound's predicate. -/
theorem findAll_below (h : t.document.Linked) {c : Nat} (hc : c ∈ t.document.order)
    {compound : Compound} {ss : List Text}
    (hss : List.Forall₂ (Spelled 6) ss (conjunction (compound.filterMap (·.condition?)))) :
    t.findAll c (.path (".//*" ++ predicateText ss)) =
      .ok ((t.document.descendants c).filter fun x =>
        t.document.isElement x && compound.pathHolds t.document (t.document.focusOf x)) := by
  have hbelow : (t.document.descendants c).Sublist t.document.order :=
    h.descendants_sublist_order hc
  rw [findAll_keptBelow h hc (hss.imp fun _ _ => Spelled.enclosed)
    (fun p _ => advance_child h compound p) (fun _ _ => List.filter_sublist)]
  refine congrArg _ (eq_of_sublist h.nodup_order List.filter_sublist
    (List.filter_sublist.trans hbelow) fun x => ?_)
  show x ∈ t.document.order.filter ((stepsBelow t.document compound c).contains ·) ↔ _
  simp only [List.mem_filter, List.contains_iff_mem, mem_stepsBelow h, Bool.and_eq_true]
  constructor
  · rintro ⟨-, hx, helement, hholds⟩
    exact ⟨hx, helement, hholds⟩
  · rintro ⟨hx, helement, hholds⟩
    exact ⟨hbelow.subset hx, hx, helement, hholds⟩

/-- The element children of an attached node. -/
theorem findAll_children (h : t.document.Linked) {c : Nat} (hc : c ∈ t.document.order) :
    t.findAll c (.path "./*") = .ok (t.document.elementChildren c) := by
  have hadvance : advance t.document t.document.order (.mk .child .any []) (.tree c) =
      .ok ((t.document.elementChildren c).map .tree) := by
    rw [advance, nodes_anyChild, narrow]
  exact findAll_keptChildren h hc .nil hadvance (List.Sublist.refl _)

private theorem spelled_parent : Spelled 6 ".." (.path false [.mk .parent (.type .node) []]) := by
  have hcut : Cut true ".." [.doubleDot] false := cut_token (by decide) fun _ _ => rfl
  exact ⟨_, hcut, stepPhrase_doubleDot.last.relative.phrase.raise (Nat.zero_le 6)⟩

/-- The parent of an attached node, if it is an element. -/
theorem findAll_parent (h : t.document.Linked) {c : Nat} (hc : c ∈ t.document.order) :
    t.findAll c (.path "..") = .ok ((t.document.parent? c).toList.filter t.document.isElement) := by
  have hadvance : advance t.document t.document.order (.mk .parent (.type .node) []) (.tree c) =
      .ok ((t.document.parent? c).toList.map .tree) := by
    rw [advance, narrow, nodes_parent]
    cases hp : t.document.parent? c with
    | none => rfl
    | some p =>
      show Except.ok ([Node.tree p].filter _) = _
      rw [List.filter_singleton, admits_node .parent (h.parent_lt hp)]
      rfl
  have hwalk : walk t.document t.document.order [.mk .parent (.type .node) []] [.tree c] =
      .ok ((t.document.parent? c).toList.map .tree) := by
    have hfound := flatMap_of_ok (l := [c]) (g := fun _ => (t.document.parent? c).toList)
      (f := advance t.document t.document.order (.mk .parent (.type .node) []))
      (by simpa using hadvance)
    show walk _ _ _ ([c].map Node.tree) = _
    rw [walk_cons hfound, walk, List.flatMap_singleton]
    cases t.document.parent? c <;> rfl
  exact findAll_path hc (select_path spelled_parent hwalk)

end TreeEngine

end CssLocator
