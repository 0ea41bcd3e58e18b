import CssLocator.Proofs.OrSelfAxes
import CssLocator.Proofs.PathValues
import Mathlib.Data.List.Dedup

/-!
# Repeated nodes

Sorting puts equal nodes next to each other only if they are attached: all nodes outside the tree have
one rank, and among those with one attribute name, or without one, the order stays as it is. So a
node-set lists every attached node once, and a node outside the tree as often as it is met again after
another one. From a node outside the tree a path finds no node twice if after its first step it only
leads to nodes themselves, to children and to attributes; along every other axis it can do so.
-/

namespace CssLocator.XPath

variable {d : Document} {focus : Focus} {e : Expr} {l m found : List Node}

private theorem eraseReps_sublist {α : Type} [BEq α] [LawfulBEq α] (l : List α) :
    l.eraseReps.Sublist l := by
  cases l with
  | nil => exact .slnil
  | cons a l =>
    induction l generalizing a with
    | nil => exact List.Sublist.refl _
    | cons b l ih =>
      rw [eraseReps_cons_cons]
      split
      · rename_i hab
        obtain rfl := eq_of_beq hab
        exact (ih a).cons a
      · exact (ih b).cons_cons a

@[simp] theorem eraseReps_replicate {α : Type} [BEq α] [LawfulBEq α] (k : Nat) (a : α) :
    (List.replicate (k + 1) a).eraseReps = [a] := by
  induction k with
  | zero => rfl
  | succ k ih => rwa [List.replicate_succ, List.replicate_succ, eraseReps_cons_cons, beq_self_eq_true,
      if_pos rfl, ← List.replicate_succ]

namespace Node

variable {order : List Nat} {n m : Node}

/-- Sorting leaves the two nodes in the order in which it finds them. -/
def tied (order : List Nat) (n m : Node) : Bool := notAfter order n m && notAfter order m n

private theorem tied_iff :
    tied order n m ↔ notAfter order n m ∧ notAfter order m n := Bool.and_eq_true_iff

@[simp] theorem tied_self (n : Node) : tied order n n := by
  have h : notAfter order n n := or_self_iff.1 (notAfter_total n n)
  exact tied_iff.2 ⟨h, h⟩

/-- Only nodes outside the tree are tied to other ones. -/
theorem eq_of_tied (hn : n.id ∈ order) (h : tied order n m) : n = m := by
  obtain ⟨hnm, hmn⟩ := tied_iff.1 h
  exact notAfter_antisymm hn hnm hmn

private theorem tied_iff_of_not_mem (hn : n.id ∉ order) :
    tied order n m ↔ m.id ∉ order ∧ m.attributeName? = n.attributeName? := by
  have hlast : order.idxOf n.id = order.length := List.idxOf_eq_length_iff.2 hn
  have hle : order.idxOf m.id ≤ order.length := List.idxOf_le_length
  rw [tied_iff, ← List.idxOf_eq_length_iff]
  unfold notAfter
  dsimp only
  rw [hlast]
  simp only [Bool.or_eq_true, decide_eq_true_eq, Bool.and_eq_true, beq_iff_eq]
  cases hu : n.attributeName? with
  | none =>
    cases hv : m.attributeName? with
    | none => simp; omega
    | some v => simp; omega
  | some u =>
    cases hv : m.attributeName? with
    | none => simp; omega
    | some v =>
      by_cases huv : u = v
      · subst huv
        simp only [Text.before_irrefl, Bool.not_false, and_true]
        omega
      · have hone : ¬ (Text.before v u = false ∧ Text.before u v = false) := fun h => by
          rw [Text.before_of_ne (Ne.symm huv) h.1] at h
          exact absurd h.2 (by decide)
        simp only [Bool.not_eq_true', Option.some.injEq, Ne.symm huv, and_false, iff_false]
        rintro ⟨h, h'⟩
        exact hone ⟨(h.resolve_left (by omega)).2, (h'.resolve_left (by omega)).2⟩

/-- A node is put in front of those that it is tied to. -/
@[simp] theorem filter_tied_insert (n m : Node) (l : List Node) :
    (insert order m l).filter (tied order n) = (m :: l).filter (tied order n) := by
  induction l with
  | nil => rfl
  | cons x l ih =>
    unfold insert
    split
    · rfl
    · rename_i hmx
      rw [List.filter_cons, ih]
      cases hm : tied order n m with
      | false => simp [hm, List.filter_cons]
      | true =>
        have hx : tied order n x = false := by
          rw [Bool.eq_false_iff]
          intro hx
          exact hmx (notAfter_trans (tied_iff.1 hm).2 (tied_iff.1 hx).1)
        simp [hm, hx]

@[simp] theorem filter_tied_foldr_insert (n : Node) (l : List Node) :
    (l.foldr (insert order) []).filter (tied order n) = l.filter (tied order n) := by
  induction l with
  | nil => rfl
  | cons x l ih => simp [List.filter_cons, ih]

private theorem tied_of_between {a b x : Node} (ha : tied order n a) (hx : tied order n x)
    (hab : notAfter order a b) (hbx : notAfter order b x) : tied order n b :=
  tied_iff.2 ⟨notAfter_trans (tied_iff.1 ha).1 hab, notAfter_trans hbx (tied_iff.1 hx).2⟩

/-- Sorted nodes that are tied stand together. -/
theorem filter_tied_eraseReps (h : l.Pairwise (notAfter order · ·)) (n : Node) :
    l.eraseReps.filter (tied order n) = (l.filter (tied order n)).eraseReps := by
  cases l with
  | nil => rfl
  | cons a l =>
    induction l generalizing a with
    | nil =>
      cases ha : tied order n a <;> simp [ha, List.eraseReps, List.eraseRepsBy, List.eraseRepsBy.loop]
    | cons b l ih =>
      obtain ⟨ha, hb⟩ := List.pairwise_cons.1 h
      rw [eraseReps_cons_cons]
      by_cases hab : a = b
      · subst hab
        rw [if_pos (beq_self_eq_true a), ih a hb]
        cases htied : tied order n a with
        | false => simp [htied]
        | true => simp [htied, eraseReps_cons_cons]
      · rw [if_neg (by simpa using hab), List.filter_cons, ih b hb]
        cases htied : tied order n a with
        | false => simp [htied]
        | true =>
          cases hb' : tied order n b with
          | true => simp [htied, hb', eraseReps_cons_cons, hab]
          | false =>
            have hnone : (b :: l).filter (tied order n) = [] := by
              rw [List.filter_eq_nil_iff]
              intro x hx hx'
              have hbx : notAfter order b x := by
                rcases List.mem_cons.1 hx with rfl | hx
                · exact or_self_iff.1 (notAfter_total x x)
                · exact (List.pairwise_cons.1 hb).1 x hx
              rw [tied_of_between htied hx' (ha b List.mem_cons_self) hbx] at hb'
              cases hb'
            rw [hnone, if_pos rfl, List.filter_cons, if_pos htied, hnone]
            rfl

@[simp] theorem filter_tied_sort (n : Node) (l : List Node) :
    (sort order l).filter (tied order n) = (l.filter (tied order n)).eraseReps := by
  simp [sort, filter_tied_eraseReps (pairwise_foldr_insert l)]

/-- A node is listed as often as it is met again among those that it is tied to. -/
theorem count_sort (n : Node) (l : List Node) :
    (sort order l).count n = (l.filter (tied order n)).eraseReps.count n := by
  rw [← filter_tied_sort, List.count_filter (tied_self n)]

private theorem count_sort_le (n : Node) (l : List Node) : (sort order l).count n ≤ l.count n := by
  rw [count_sort]
  calc (l.filter (tied order n)).eraseReps.count n
    _ ≤ (l.filter (tied order n)).count n := (eraseReps_sublist _).count_le n
    _ ≤ l.count n := List.filter_sublist.count_le n

/-- Every attached node is listed once. -/
theorem count_sort_le_one (hn : n.id ∈ order) (l : List Node) : (sort order l).count n ≤ 1 := by
  have hfilter : l.filter (tied order n) = List.replicate (l.filter (tied order n)).length n :=
    List.eq_replicate_iff.2 ⟨rfl, fun m hm => (eq_of_tied hn (List.mem_filter.1 hm).2).symm⟩
  rw [count_sort, hfilter]
  cases (l.filter (tied order n)).length with
  | zero => exact Nat.zero_le 1
  | succ k => simp

private theorem nodup_sort (h : l.Nodup) : (sort order l).Nodup := by
  rw [List.nodup_iff_count_le_one] at h ⊢
  exact fun n => (count_sort_le n l).trans (h n)

end Node

/-- The attached nodes of a list. -/
def attached (d : Document) (l : List Node) : List Node := l.filter fun n => n.id ∈ d.order

private theorem nodeSet_attached_sort (l : List Node) :
    NodeSet d (attached d (Node.sort d.order l)) := by
  have hsorted : (Node.sort d.order l).Pairwise (Node.notAfter d.order · ·) :=
    (Node.pairwise_foldr_insert l).sublist (eraseReps_sublist _)
  have hattached : ∀ n ∈ attached d (Node.sort d.order l), n.id ∈ d.order := by
    intro n hn
    simpa using (List.mem_filter.1 hn).2
  have hnodup : (attached d (Node.sort d.order l)).Nodup := by
    rw [List.nodup_iff_count_le_one]
    intro n
    by_cases hn : n.id ∈ d.order
    · exact (List.filter_sublist.count_le n).trans (Node.count_sort_le_one hn l)
    · rw [List.count_eq_zero_of_not_mem fun hmem => hn (hattached n hmem)]
      exact Nat.zero_le 1
  refine .of_precedes hattached ?_
  exact (hsorted.sublist List.filter_sublist).and hnodup

/-- The nodes that an expression finds one after the other, before they are sorted for the last
time. -/
inductive Gathers (d : Document) (focus : Focus) : Expr → List Node → Prop
  | union {a b : Expr} {l r : List Node} (ha : Selects d focus a l) (hb : Selects d focus b r) :
      Gathers d focus (.binary .union a b) (l ++ r)
  | path {absolute : Bool} {steps : List Step} {s : Step} {m found : List Node}
      (hwalk : walk d d.order steps [startOf focus absolute] = .ok m)
      (hlast : Loop.flatMap (advance d d.order s) m = .ok found) :
      Gathers d focus (.path absolute (steps ++ [s])) found
  | filter {primary : Expr} {predicates : List Expr} {steps : List Step} {s : Step}
      {l kept m found : List Node} (h : Selects d focus primary l)
      (hkept : narrow d d.order predicates l = .ok kept) (hwalk : walk d d.order steps kept = .ok m)
      (hlast : Loop.flatMap (advance d d.order s) m = .ok found) :
      Gathers d focus (.filter primary predicates (steps ++ [s])) found

private theorem walk_concat_iff {steps : List Step} {s : Step} :
    walk d d.order (steps ++ [s]) m = .ok l ↔ ∃ r found, walk d d.order steps m = .ok r ∧
      Loop.flatMap (advance d d.order s) r = .ok found ∧ Node.sort d.order found = l := by
  rw [walk_append, bind_eq_ok]
  simp only [walk_singleton_eq_ok, exists_and_left]

theorem Gathers.selects (h : Gathers d focus e found) :
    Selects d focus e (Node.sort d.order found) := by
  cases h with
  | union ha hb => exact ha.union hb
  | path hwalk hlast => exact selects_path_iff.2 (walk_concat_iff.2 ⟨_, _, hwalk, hlast, rfl⟩)
  | filter h hkept hwalk hlast =>
    exact selects_filter_iff.2 ⟨_, _, h, hkept, walk_concat_iff.2 ⟨_, _, hwalk, hlast, rfl⟩⟩

/-- A node-set is sorted from what was gathered, or it is the start of a path, or a part of another
node-set. -/
theorem Selects.gathered (h : Selects d focus e l) :
    (∃ found, Gathers d focus e found ∧ Node.sort d.order found = l) ∨
      (∃ absolute, e = .path absolute [] ∧ l = [startOf focus absolute]) ∨
      ∃ primary predicates m, e = .filter primary predicates [] ∧ Selects d focus primary m ∧
        l.Sublist m := by
  rcases h.cases with ⟨a, b, m, r, rfl, hm, hr, rfl⟩ | ⟨absolute, steps, rfl, hwalk⟩ |
    ⟨primary, predicates, steps, m, kept, rfl, hm, hkept, hwalk⟩
  · exact .inl ⟨m ++ r, .union hm hr, rfl⟩
  · rcases List.eq_nil_or_concat' steps with rfl | ⟨steps, s, rfl⟩
    · rw [walk] at hwalk
      cases hwalk
      exact .inr (.inl ⟨absolute, rfl, rfl⟩)
    · obtain ⟨r, found, hr, hlast, rfl⟩ := walk_concat_iff.1 hwalk
      exact .inl ⟨found, .path hr hlast, rfl⟩
  · rcases List.eq_nil_or_concat' steps with rfl | ⟨steps, s, rfl⟩
    · rw [walk] at hwalk
      cases hwalk
      exact .inr (.inr ⟨primary, predicates, m, rfl, hm, narrow_sublist hkept⟩)
    · obtain ⟨r, found, hr, hlast, rfl⟩ := walk_concat_iff.1 hwalk
      exact .inl ⟨found, .filter hm hkept hr hlast, rfl⟩

private theorem nodeSet_attached_of_selects {e : Expr} {l : List Node} (h : Selects d focus e l) :
    NodeSet d (attached d l) := by
  rcases h.gathered with ⟨found, -, rfl⟩ | ⟨absolute, rfl, rfl⟩ |
    ⟨primary, predicates, m, rfl, hm, hsub⟩
  · exact nodeSet_attached_sort found
  · by_cases hstart : (startOf focus absolute).id ∈ d.order
    · exact (NodeSet.singleton hstart).sublist List.filter_sublist
    · simpa [attached, hstart] using NodeSet.mk (d := d) (l := []) (by simp) .nil .nil
  · exact (nodeSet_attached_of_selects hm).sublist (hsub.filter _)
termination_by e

/-- The axes on which different nodes lead to different nodes. -/
def Axis.separates : Axis → Bool
  | self | child | attributes => true
  | _ => false

def Step.axis : Step → Axis
  | .mk axis _ _ => axis

private theorem eq_tree_id_of_mem_attributes {n x : Node} (hx : x ∈ Axis.attributes.nodes d n) :
    n = .tree x.id := by
  cases n with
  | attributeOf => cases hx
  | tree i =>
    rw [nodes_attributes] at hx
    cases he : d.element? i with
    | none =>
      rw [he] at hx
      cases hx
    | some element =>
      rw [he] at hx
      obtain ⟨name, -, rfl⟩ := List.mem_map.1 hx
      rfl

section Linked

variable (h : d.Linked)

include h

private theorem nodup_siblings (x : Nat) :
    (d.precedingSiblings x).Nodup ∧ (d.followingSiblings x).Nodup := by
  cases hp : d.parent? x with
  | none =>
    rw [h.precedingSiblings_of_none hp, h.followingSiblings_of_none hp]
    exact ⟨.nil, .nil⟩
  | some p =>
    have hnodup := h.nodup_children p
    rw [← h.siblings_eq_children hp, List.nodup_append, List.nodup_reverse, List.nodup_cons] at hnodup
    exact ⟨hnodup.1, hnodup.2.1.2⟩

/-- From one node every axis leads to different nodes. -/
theorem nodup_nodes (axis : Axis) (n : Node) : (axis.nodes d n).Nodup := by
  have htrees : ∀ {xs : List Nat}, xs.Nodup → (xs.map Node.tree).Nodup := fun hxs =>
    hxs.map fun _ _ heq => Node.tree.inj heq
  have habove : ∀ x, (x :: d.ancestors x).Nodup := fun x =>
    List.nodup_cons.2 ⟨h.not_mem_ancestors_self x, h.nodup_ancestors x⟩
  cases n with
  | attributeOf owner name =>
    cases axis with
    | self | parent => exact List.nodup_singleton _
    | ancestor => exact htrees (habove owner)
    | ancestorOrSelf => exact List.nodup_cons.2 ⟨by simp, htrees (habove owner)⟩
    | _ => exact .nil
  | tree x =>
    cases axis with
    | self => exact List.nodup_singleton _
    | parent =>
      rw [Axis.nodes]
      cases d.parent? x with
      | none => exact .nil
      | some p => exact List.nodup_singleton _
    | ancestor => exact htrees (h.nodup_ancestors x)
    | ancestorOrSelf => exact htrees (habove x)
    | child => exact htrees (h.nodup_children x)
    | descendant => exact htrees (List.nodup_cons.1 (h.nodup_cons_descendants x)).2
    | descendantOrSelf => exact htrees (h.nodup_cons_descendants x)
    | followingSibling => exact htrees (nodup_siblings h x).2
    | precedingSibling => exact htrees (nodup_siblings h x).1
    | attributes =>
      rw [nodes_attributes]
      cases d.element? x with
      | none => exact .nil
      | some element => exact (nodup_names element.2).map fun _ _ heq => (Node.attributeOf.inj heq).2

/-- A child has one parent, and an attribute one element. -/
theorem eq_of_mem_nodes {axis : Axis} (haxis : axis.separates) {n m x : Node}
    (hn : x ∈ axis.nodes d n) (hm : x ∈ axis.nodes d m) : n = m := by
  cases axis with
  | self => exact (List.mem_singleton.1 hn).symm.trans (List.mem_singleton.1 hm)
  | child =>
    have hparent : ∀ {n : Node}, x ∈ Axis.child.nodes d n → ∃ i, n = .tree i ∧ d.parent? x.id = some i := by
      intro n hx
      cases n with
      | attributeOf => cases hx
      | tree i =>
        obtain ⟨c, hc, rfl⟩ := List.mem_map.1 hx
        exact ⟨i, rfl, h.mem_children.1 hc⟩
    obtain ⟨i, rfl, hi⟩ := hparent hn
    obtain ⟨j, rfl, hj⟩ := hparent hm
    rw [Option.some.inj (hi.symm.trans hj)]
  | attributes => rw [eq_tree_id_of_mem_attributes hn, eq_tree_id_of_mem_attributes hm]
  | _ => cases haxis

/-- What a step reaches from one node, or from different ones along an axis that keeps them apart. -/
theorem nodup_reached {s : Step} (hs : s.axis.separates ∨ m.length ≤ 1) (hm : m.Nodup)
    (hfound : Loop.flatMap (advance d d.order s) m = .ok found) : found.Nodup := by
  obtain ⟨axis, test, predicates⟩ := s
  induction m generalizing found with
  | nil =>
    cases hfound
    exact .nil
  | cons n rest ih =>
    obtain ⟨hn, hrest⟩ := List.nodup_cons.1 hm
    obtain ⟨ys, hys, hfound⟩ := bind_eq_ok.1 hfound
    obtain ⟨zs, hzs, hfound⟩ := bind_eq_ok.1 hfound
    cases hfound
    have hfirst : ys.Nodup := by
      have hadvance := hys
      rw [advance] at hadvance
      exact (nodup_nodes h axis n).sublist ((narrow_sublist hadvance).trans List.filter_sublist)
    have hlater : zs.Nodup := by
      refine ih hrest (hs.imp_right fun hone => ?_) hzs
      simp only [List.length_cons] at hone
      omega
    refine List.nodup_append.2 ⟨hfirst, hlater, ?_⟩
    rintro x hx _ hx' rfl
    obtain ⟨n', hn', us, hus, hx'⟩ := (Loop.mem_flatMap hzs).1 hx'
    rcases hs with hseparates | hone
    · have heq := eq_of_mem_nodes h hseparates (mem_nodes_of_mem_advance hys hx)
        (mem_nodes_of_mem_advance hus hx')
      exact hn (heq ▸ hn')
    · obtain rfl : rest = [] := by simpa using hone
      cases hn'

private theorem nodup_walk {steps : List Step} (hsteps : ∀ s ∈ steps, s.axis.separates) (hm : m.Nodup)
    (hwalk : walk d d.order steps m = .ok l) : l.Nodup := by
  induction steps generalizing m with
  | nil =>
    rw [walk] at hwalk
    cases hwalk
    exact hm
  | cons s steps ih =>
    obtain ⟨hs, hsteps⟩ := List.forall_mem_cons.1 hsteps
    rw [walk] at hwalk
    obtain ⟨found, hfound, hwalk⟩ := bind_eq_ok.1 hwalk
    exact ih hsteps (Node.nodup_sort (nodup_reached h (.inl hs) hm hfound)) hwalk

/-- The first step of a path leads on from one node. -/
theorem nodup_of_selects_path {absolute : Bool} {s : Step} {steps : List Step}
    (hsteps : ∀ t ∈ steps, t.axis.separates) (he : Selects d focus (.path absolute (s :: steps)) l) :
    l.Nodup := by
  have hwalk := selects_path_iff.1 he
  rw [walk] at hwalk
  obtain ⟨found, hfound, hwalk⟩ := bind_eq_ok.1 hwalk
  have hone : [startOf focus absolute].length ≤ 1 := Nat.le_refl 1
  have hreached := nodup_reached h (.inr hone) (List.nodup_singleton _) hfound
  exact nodup_walk h hsteps (Node.nodup_sort hreached) hwalk

end Linked

private theorem selects_count (h : Selects d focus e l) :
    eval d d.order (.call "count" [e]) focus = .ok (.number (.ofNat l.length)) :=
  HasValue.call .count rfl (.cons h .nil) rfl

/-- Only nodes outside the tree are listed twice. -/
theorem nodup_iff_of_selects (h : Selects d focus e l) :
    l.Nodup ↔ ∀ n ∈ l, n.id ∉ d.order → l.count n = 1 := by
  constructor
  · intro hnodup n hn _
    exact List.count_eq_one_of_mem hnodup hn
  · intro honce
    rw [List.nodup_iff_count_le_one]
    intro n
    by_cases hn : n.id ∈ d.order
    · have hattached := (nodeSet_attached_of_selects h).nodup
      have hcount : (attached d l).count n = l.count n := List.count_filter (by simpa using hn)
      rw [← hcount]
      exact List.nodup_iff_count_le_one.1 hattached n
    · by_cases hmem : n ∈ l
      · exact (honce n hmem hn).le
      · rw [List.count_eq_zero_of_not_mem hmem]
        exact Nat.zero_le 1

private theorem length_dedup_eq_iff : l.dedup.length = l.length ↔ l.Nodup := by
  rw [← List.dedup_eq_self]
  exact ⟨(List.dedup_sublist l).eq_of_length, congrArg List.length⟩

/-- For any node, also one outside the tree, and any expression with a node-set as its value: the
attached nodes of the set are listed once, in document order. The number that `count` gives is the number
of different nodes if and only if every node outside the tree is listed once, too. This is so if the node
is attached and the document node itself is below no other node, and for every path that only leads to
nodes themselves, to children and to attributes after its first step. In general, a node outside the
tree is listed as often as it is met again after another one: among the nodes outside the tree that are
attributes of its name, or no attributes like it, in the order in which the expression has found them
before it sorted them for the last time. -/
theorem repeated_nodes_exact (d : Document) (focus : Focus) (hbuilt : d.Built) (e : Expr)
    (l : List Node) (he : Selects d focus e l) :
    NodeSet d (attached d l) ∧
      eval d d.order (.call "count" [e]) focus = .ok (.number (.ofNat l.length)) ∧
      (l.dedup.length = l.length ↔ ∀ n ∈ l, n.id ∉ d.order → l.count n = 1) ∧
      (d.parent? Document.root = none → focus.node.id ∈ d.order → l.Nodup) ∧
      (∀ absolute s steps, e = .path absolute (s :: steps) → (∀ t ∈ steps, t.axis.separates) →
        l.Nodup) ∧
      ∀ found, Gathers d focus e found → ∀ n, n.id ∉ d.order →
        l.count n = (found.filter fun m =>
          m.id ∉ d.order ∧ m.attributeName? = n.attributeName?).eraseReps.count n := by
  refine ⟨nodeSet_attached_of_selects he, selects_count he, ?_, ?_, ?_, ?_⟩
  · exact length_dedup_eq_iff.trans (nodup_iff_of_selects he)
  · exact fun hroot hfocus => (nodeSet_of_selects hbuilt.linked hroot hfocus he).nodup
  · rintro absolute s steps rfl hsteps
    exact nodup_of_selects_path hbuilt.linked hsteps he
  · intro found hfound n hn
    have hsorted : l = Node.sort d.order found := by
      cases Except.ok.inj (he.symm.trans hfound.selects)
      rfl
    have htied : Node.tied d.order n = fun m =>
        decide (m.id ∉ d.order ∧ m.attributeName? = n.attributeName?) := by
      funext m
      rw [Bool.eq_iff_iff, Node.tied_iff_of_not_mem hn, decide_eq_true_eq]
    rw [hsorted, Node.count_sort, htied]

/-- A list that is not attached, with four items, and something in the first one. -/
def looseList : Document :=
  Document.Edit.applyAll [.allocate (.elementOf "ul" .empty), .appendElement 1 "li" .empty,
    .appendElement 2 "b" .empty, .appendElement 1 "li" .empty, .appendElement 1 "li" .empty,
    .appendElement 1 "li" .empty] .empty

private theorem built_looseList : looseList.Built := Document.Built.empty.applyAll (by decide +kernel)

/-- Both sides of the union find the items, and those of the second side are met again. -/
theorem repeated_nodes_exact_items :
    looseList.Built ∧
      Selects looseList ⟨.tree 1, 1, 1⟩ (.path false [anyNode .child]) [.tree 2, .tree 4, .tree 5, .tree 6] ∧
      ∃ l, Selects looseList ⟨.tree 1, 1, 1⟩
        (.binary .union (.path false [anyNode .child]) (.path false [anyNode .child])) l ∧
        l.count (.tree 2) = 2 ∧ l.dedup.length ≠ l.length := by
  have hitems : Selects looseList ⟨.tree 1, 1, 1⟩ (.path false [anyNode .child])
      [.tree 2, .tree 4, .tree 5, .tree 6] := by
    unfold Selects
    decide +kernel
  have hunion := hitems.union hitems
  obtain ⟨-, -, hdistinct, -, -, hcount⟩ := repeated_nodes_exact looseList ⟨.tree 1, 1, 1⟩
    built_looseList _ _ hunion
  have hloose : (Node.tree 2).id ∉ looseList.order := by decide +kernel
  have htwice : (Node.sort looseList.order ([.tree 2, .tree 4, .tree 5, .tree 6] ++
      [.tree 2, .tree 4, .tree 5, .tree 6])).count (.tree 2) = 2 :=
    (hcount _ (.union hitems hitems) (.tree 2) hloose).trans (by decide +kernel)
  refine ⟨built_looseList, hitems, _, hunion, htwice, fun hlength => ?_⟩
  have honce := hdistinct.1 hlength (.tree 2) (Node.mem_sort.2 (by simp)) hloose
  rw [htwice] at honce
  cases honce

/-- From a node outside the tree the items are listed and counted twice. -/
theorem repeated_nodes_loose :
    looseList.Built ∧
      found? looseList ⟨.tree 1, 1, 1⟩ "* | *" =
        some [.tree 2, .tree 4, .tree 5, .tree 6, .tree 2, .tree 4, .tree 5, .tree 6] ∧
      evaluate looseList 1 "count(* | *)" = .ok (.number (.ofNat 8)) ∧
      found? looseList ⟨.tree 1, 1, 1⟩ "descendant::node()/.." = some [.tree 1, .tree 2, .tree 1] :=
  ⟨built_looseList, by decide +kernel⟩

end CssLocator.XPath
