import CssLocator.Proofs.LoopResults
import CssLocator.Proofs.NodeOrder
import CssLocator.Proofs.TreeWalks
import CssLocator.XPathEvaluation

/-!
# Node-sets

Whatever expression is evaluated for an attached node: if its value is a node-set, the set consists
of attached nodes, and they are listed in document order without repetitions. No axis leads out of
the tree, predicates only leave nodes out, and each step sorts what it has found. So a union is
determined by the nodes in it.
-/

namespace CssLocator.XPath

variable {d : Document} {focus : Focus} {l r : List Node} {e e' e'' : Expr}

/-- The first node comes before the second one: it belongs to an earlier node of the tree, or both
belong to the same one, which comes before its attributes, and these come one after the other by
name. -/
def Node.Before (d : Document) (n m : Node) : Prop :=
  ∃ i j, d.rank? n.id = some i ∧ d.rank? m.id = some j ∧
    (i < j ∨ i = j ∧
      match n.attributeName?, m.attributeName? with
      | none, some _ => True
      | some u, some v => Text.before u v
      | _, none => False)

/-- A list of attached nodes in document order. -/
structure NodeSet (d : Document) (l : List Node) : Prop where
  attached : ∀ n ∈ l, n.id ∈ d.order
  increasing : l.Pairwise (Node.Before d)
  nodup : l.Nodup

/-- The value of the expression is the node-set. -/
def Selects (d : Document) (focus : Focus) (e : Expr) (l : List Node) : Prop :=
  eval d d.order e focus = .ok (.nodes l)

/-- Attached nodes stand in document order as sorting puts them. -/
theorem Node.before_iff_precedes {n m : Node} (hn : n.id ∈ d.order) (hm : m.id ∈ d.order) :
    n.Before d m ↔ n.Precedes d.order m := by
  have hrank : n.Before d m ↔ d.order.idxOf n.id < d.order.idxOf m.id ∨
      d.order.idxOf n.id = d.order.idxOf m.id ∧
        match n.attributeName?, m.attributeName? with
        | none, some _ => True
        | some u, some v => Text.before u v
        | _, none => False := by
    simp [Before, Document.rank?_of_mem_order hn, Document.rank?_of_mem_order hm]
  rw [hrank, Precedes, notAfter, Bool.or_eq_true, decide_eq_true_eq, Bool.and_eq_true, beq_iff_eq]
  constructor
  · rintro (hlt | ⟨heq, hname⟩)
    · exact ⟨.inl hlt, by rintro rfl; exact Nat.lt_irrefl _ hlt⟩
    · refine ⟨.inr ⟨heq, ?_⟩, ?_⟩
      · cases n <;> cases m <;> simp_all [attributeName?, Text.before_asymm]
      · rintro rfl
        cases n <;> simp_all [attributeName?]
  · rintro ⟨hlt | ⟨heq, hname⟩, hne⟩
    · exact .inl hlt
    · refine .inr ⟨heq, ?_⟩
      have hid : n.id = m.id := (List.idxOf_inj hn).1 heq
      cases n with
      | tree i =>
        cases m with
        | tree j => exact absurd (congrArg tree hid) hne
        | attributeOf => trivial
      | attributeOf i u =>
        cases m with
        | tree => simp [attributeName?] at hname
        | attributeOf j v =>
          have hdiff : u ≠ v := by
            rintro rfl
            exact hne (congrArg (attributeOf · u) hid)
          exact Text.before_of_ne (Ne.symm hdiff) (by simpa [attributeName?] using hname)

namespace NodeSet

theorem of_precedes (hl : ∀ n ∈ l, n.id ∈ d.order) (h : l.Pairwise (Node.Precedes d.order)) :
    NodeSet d l where
  attached := hl
  increasing := h.imp_of_mem fun hn hm => (Node.before_iff_precedes (hl _ hn) (hl _ hm)).2
  nodup := h.imp And.right

private theorem precedes (h : NodeSet d l) : l.Pairwise (Node.Precedes d.order) :=
  h.increasing.imp_of_mem fun hn hm =>
    (Node.before_iff_precedes (h.attached _ hn) (h.attached _ hm)).1

theorem singleton {n : Node} (hn : n.id ∈ d.order) : NodeSet d [n] where
  attached := by simpa using hn
  increasing := List.pairwise_singleton _ n
  nodup := List.nodup_singleton n

theorem sublist (h : NodeSet d r) (hl : l.Sublist r) : NodeSet d l where
  attached n hn := h.attached n (hl.subset hn)
  increasing := h.increasing.sublist hl
  nodup := h.nodup.sublist hl

/-- Sorting makes a node-set of any attached nodes. -/
theorem sort (hl : ∀ n ∈ l, n.id ∈ d.order) : NodeSet d (Node.sort d.order l) :=
  of_precedes (fun n hn => hl n (Node.mem_sort.1 hn)) (Node.pairwise_sort hl)

theorem union (hl : NodeSet d l) (hr : NodeSet d r) : NodeSet d (Node.sort d.order (l ++ r)) :=
  sort fun n hn => (List.mem_append.1 hn).elim (hl.attached n) (hr.attached n)

/-- A node-set is determined by its nodes. -/
theorem ext (hl : NodeSet d l) (hr : NodeSet d r) (h : ∀ n, n ∈ l ↔ n ∈ r) : l = r :=
  Node.eq_of_pairwise hl.attached hl.precedes hr.precedes h

end NodeSet

section Attached

variable (h : d.Linked) {x : Nat} (hx : x ∈ d.order)

include h hx

private theorem mem_order_of_mem_children {c : Nat} (hc : c ∈ d.children x) : c ∈ d.order := by
  refine h.mem_order_of_mem_descendants hx ?_
  rw [h.mem_descendants_iff, h.ancestors_of_some (h.mem_children.1 hc)]
  exact List.mem_cons_self

variable (hroot : d.parent? Document.root = none)

include hroot

private theorem mem_order_of_parent? {p : Nat} (hp : d.parent? x = some p) : p ∈ d.order := by
  rcases h.mem_order_iff.1 hx with rfl | hx
  · cases hroot.symm.trans hp
  · rw [h.ancestors_of_some hp, List.mem_cons] at hx
    exact h.mem_order_iff.2 (hx.imp_left Eq.symm)

private theorem mem_order_of_mem_ancestors {a : Nat} (ha : a ∈ d.ancestors x) : a ∈ d.order := by
  induction x using h.acyclic.induction with
  | _ x ih =>
    obtain ⟨p, hp, ha⟩ := h.mem_ancestors.1 ha
    have hparent := mem_order_of_parent? h hx hroot hp
    rcases ha with rfl | ha
    · exact hparent
    · exact ih p hp hparent ha

private theorem mem_order_of_mem_siblings {s : Nat}
    (hs : s ∈ d.precedingSiblings x ∨ s ∈ d.followingSiblings x) : s ∈ d.order := by
  cases hp : d.parent? x with
  | none =>
    rw [h.precedingSiblings_of_none hp, h.followingSiblings_of_none hp] at hs
    rcases hs with hs | hs <;> cases hs
  | some p =>
    refine mem_order_of_mem_children h (mem_order_of_parent? h hx hroot hp) ?_
    rw [← h.siblings_eq_children hp, List.mem_append, List.mem_reverse, List.mem_cons]
    exact hs.imp_right .inr

end Attached

/-- No axis leads out of the tree. -/
theorem Axis.attached_of_mem_nodes (h : d.Linked) (hroot : d.parent? Document.root = none)
    {axis : Axis} {n m : Node} (hn : n.id ∈ d.order) (hm : m ∈ axis.nodes d n) : m.id ∈ d.order := by
  have htrees : ∀ {xs : List Nat}, (∀ x ∈ xs, x ∈ d.order) → m ∈ xs.map Node.tree → m.id ∈ d.order := by
    intro xs hxs hm
    obtain ⟨x, hx, rfl⟩ := List.mem_map.1 hm
    exact hxs x hx
  have habove : ∀ a ∈ d.ancestors n.id, a ∈ d.order := fun a =>
    mem_order_of_mem_ancestors h hn hroot
  have hbelow : ∀ c ∈ d.descendants n.id, c ∈ d.order := fun c => h.mem_order_of_mem_descendants hn
  have hself : ∀ {xs : List Nat}, (∀ x ∈ xs, x ∈ d.order) → ∀ x ∈ n.id :: xs, x ∈ d.order :=
    fun hxs => List.forall_mem_cons.2 ⟨hn, hxs⟩
  cases n with
  | attributeOf owner name =>
    cases axis with
    | self => exact List.mem_singleton.1 hm ▸ hn
    | parent => exact List.mem_singleton.1 hm ▸ hn
    | ancestor => exact htrees (hself habove) hm
    | ancestorOrSelf => exact (List.mem_cons.1 hm).elim (fun heq => heq ▸ hn) (htrees (hself habove))
    | _ => cases hm
  | tree x =>
    cases axis with
    | self => exact List.mem_singleton.1 hm ▸ hn
    | parent =>
      rw [Axis.nodes, Option.mem_toList, Option.map_eq_some_iff] at hm
      obtain ⟨p, hp, rfl⟩ := hm
      exact mem_order_of_parent? h hn hroot hp
    | ancestor => exact htrees habove hm
    | ancestorOrSelf => exact htrees (hself habove) hm
    | child => exact htrees (fun c => mem_order_of_mem_children h hn) hm
    | descendant => exact htrees hbelow hm
    | descendantOrSelf => exact htrees (hself hbelow) hm
    | followingSibling => exact htrees (fun s hs => mem_order_of_mem_siblings h hn hroot (.inr hs)) hm
    | precedingSibling => exact htrees (fun s hs => mem_order_of_mem_siblings h hn hroot (.inl hs)) hm
    | attributes =>
      have hattributes : ∀ element : Text × Attributes,
          m ∈ element.2.names.map (Node.attributeOf x) → m.id ∈ d.order := by
        intro element hm
        obtain ⟨name, -, rfl⟩ := List.mem_map.1 hm
        exact hn
      rw [Axis.nodes] at hm
      cases he : d.element? x with
      | none =>
        rw [he] at hm
        cases hm
      | some element =>
        rw [he] at hm
        exact hattributes element hm

private theorem keepWhere_sublist {predicate : Focus → Except Error Value} {size position : Nat}
    {nodes kept : List Node} (h : keepWhere predicate size position nodes = .ok kept) :
    kept.Sublist nodes := by
  induction nodes generalizing position kept with
  | nil =>
    cases h
    exact .slnil
  | cons n rest ih =>
    obtain ⟨v, -, h⟩ := bind_eq_ok.1 h
    obtain ⟨more, hmore, h⟩ := bind_eq_ok.1 h
    cases h
    split
    · exact (ih hmore).cons_cons n
    · exact (ih hmore).cons n

theorem narrow_sublist {order : List Nat} {predicates : List Expr} {nodes kept : List Node}
    (h : narrow d order predicates nodes = .ok kept) : kept.Sublist nodes := by
  induction predicates generalizing nodes with
  | nil =>
    rw [narrow] at h
    cases h
    exact List.Sublist.refl _
  | cons p ps ih =>
    rw [narrow] at h
    obtain ⟨left, hleft, h⟩ := bind_eq_ok.1 h
    exact (ih h).trans (keepWhere_sublist hleft)

theorem mem_nodes_of_mem_advance {order : List Nat} {axis : Axis} {test : NodeTest}
    {predicates : List Expr} {n m : Node} {found : List Node}
    (h : advance d order (.mk axis test predicates) n = .ok found) (hm : m ∈ found) :
    m ∈ axis.nodes d n := by
  rw [advance] at h
  exact List.mem_of_mem_filter ((narrow_sublist h).subset hm)

@[simp] theorem walk_append (order : List Nat) (steps more : List Step) (l : List Node) :
    walk d order (steps ++ more) l = walk d order steps l >>= walk d order more := by
  induction steps generalizing l with
  | nil => rfl
  | cons s steps ih =>
    rw [List.cons_append, walk, walk, bind_assoc]
    exact congrArg _ (funext fun found => ih _)

/-- Steps lead from a node-set to a node-set. -/
theorem NodeSet.walk (h : d.Linked) (hroot : d.parent? Document.root = none) {steps : List Step}
    {found : List Node} (hl : NodeSet d l) (hwalk : XPath.walk d d.order steps l = .ok found) :
    NodeSet d found := by
  induction steps generalizing l with
  | nil =>
    rw [XPath.walk] at hwalk
    cases hwalk
    exact hl
  | cons s steps ih =>
    rw [XPath.walk] at hwalk
    obtain ⟨reached, hreached, hwalk⟩ := bind_eq_ok.1 hwalk
    refine ih (NodeSet.sort fun m hm => ?_) hwalk
    obtain ⟨n, hn, nodes, hnodes, hm⟩ := (Loop.mem_flatMap hreached).1 hm
    obtain ⟨axis, test, predicates⟩ := s
    exact Axis.attached_of_mem_nodes h hroot (hl.attached n hn) (mem_nodes_of_mem_advance hnodes hm)

/-- No function has a node-set as its value. -/
theorem Function.apply_ne_nodes {f : Function} {arguments : List Value} :
    f.apply d focus arguments ≠ .ok (.nodes l) := by
  intro h
  unfold Function.apply nodeName at h
  split at h <;> (try split at h) <;> cases h

/-- Only a union has a node-set as its value. -/
theorem Operator.apply_eq_nodes {order : List Nat} {o : Operator} {u v : Value}
    (h : o.apply d order u v = .ok (.nodes l)) :
    ∃ m r, o = .union ∧ u = .nodes m ∧ v = .nodes r ∧ l = Node.sort order (m ++ r) := by
  cases o with
  | union =>
    cases u with
    | nodes m =>
      cases v with
      | nodes r =>
        cases h
        exact ⟨m, r, rfl, rfl, rfl, rfl⟩
      | _ => cases h
    | _ => cases h
  | _ => cases h

theorem Selects.union (h : Selects d focus e l) (h' : Selects d focus e' r) :
    Selects d focus (.binary .union e e') (Node.sort d.order (l ++ r)) := by
  unfold Selects at *
  show (eval d d.order e focus >>= fun u => eval d d.order e' focus >>= fun v =>
    Operator.apply d d.order .union u v) = _
  rw [h, h']
  rfl

/-- The node that a path starts from. -/
def startOf (focus : Focus) (absolute : Bool) : Node :=
  if absolute then .tree Document.root else focus.node

theorem selects_path_iff {absolute : Bool} {steps : List Step} :
    Selects d focus (.path absolute steps) l ↔
      walk d d.order steps [startOf focus absolute] = .ok l := by
  show (walk d d.order steps [startOf focus absolute] >>= fun found => Except.ok (Value.nodes found)) =
    _ ↔ _
  simp [bind_eq_ok]

theorem selects_filter_iff {predicates : List Expr} {steps : List Step} :
    Selects d focus (.filter e predicates steps) l ↔
      ∃ m kept, Selects d focus e m ∧ narrow d d.order predicates m = .ok kept ∧
        walk d d.order steps kept = .ok l := by
  constructor
  · intro he
    obtain ⟨v, hv, he⟩ := bind_eq_ok.1 he
    cases v with
    | nodes m =>
      obtain ⟨kept, hkept, he⟩ := bind_eq_ok.1 he
      obtain ⟨found, hfound, he⟩ := bind_eq_ok.1 he
      cases he
      exact ⟨m, kept, hv, hkept, hfound⟩
    | _ => cases he
  · rintro ⟨m, kept, hm, hkept, hwalk⟩
    exact bind_eq_ok.2 ⟨_, hm, bind_eq_ok.2 ⟨kept, hkept, bind_eq_ok.2 ⟨l, hwalk, rfl⟩⟩⟩

/-- A conjunction or disjunction is a boolean, and no other operator than the union makes a
node-set. -/
theorem Selects.of_binary {o : Operator} (h : Selects d focus (.binary o e e') l) :
    o = .union ∧ ∃ m r, Selects d focus e m ∧ Selects d focus e' r ∧ l = Node.sort d.order (m ++ r) := by
  have happly : ∀ o, (do
      let u ← eval d d.order e focus
      let v ← eval d d.order e' focus
      Operator.apply d d.order o u v) = .ok (.nodes l) →
      o = .union ∧ ∃ m r, Selects d focus e m ∧ Selects d focus e' r ∧
        l = Node.sort d.order (m ++ r) := by
    intro o h
    obtain ⟨u, hu, h⟩ := bind_eq_ok.1 h
    obtain ⟨v, hv, h⟩ := bind_eq_ok.1 h
    obtain ⟨m, r, rfl, rfl, rfl, rfl⟩ := Operator.apply_eq_nodes h
    exact ⟨rfl, m, r, hu, hv, rfl⟩
  unfold Selects at h
  cases o with
  | or =>
    obtain ⟨u, -, h⟩ := bind_eq_ok.1 h
    split at h
    · cases h
    · obtain ⟨v, -, h⟩ := bind_eq_ok.1 h
      cases h
  | and =>
    obtain ⟨u, -, h⟩ := bind_eq_ok.1 h
    split at h
    · obtain ⟨v, -, h⟩ := bind_eq_ok.1 h
      cases h
    · cases h
  | _ => exact happly _ h

/-- Node-sets are the values of unions, paths and filters only. -/
theorem Selects.cases (h : Selects d focus e l) :
    (∃ a b m r, e = .binary .union a b ∧ Selects d focus a m ∧ Selects d focus b r ∧
      l = Node.sort d.order (m ++ r)) ∨
    (∃ absolute steps, e = .path absolute steps ∧
      walk d d.order steps [startOf focus absolute] = .ok l) ∨
    ∃ primary predicates steps m kept, e = .filter primary predicates steps ∧
      Selects d focus primary m ∧ narrow d d.order predicates m = .ok kept ∧
        walk d d.order steps kept = .ok l := by
  cases e with
  | literal | number => cases h
  | negate a =>
    obtain ⟨v, -, h⟩ := bind_eq_ok.1 h
    cases h
  | call name arguments =>
    rw [Selects, eval] at h
    split at h
    · cases h
    · split at h
      · obtain ⟨values, -, h⟩ := bind_eq_ok.1 h
        exact absurd h Function.apply_ne_nodes
      · cases h
  | binary o a b =>
    obtain ⟨rfl, m, r, hm, hr, rfl⟩ := h.of_binary
    exact .inl ⟨a, b, m, r, rfl, hm, hr, rfl⟩
  | path absolute steps => exact .inr (.inl ⟨absolute, steps, rfl, selects_path_iff.1 h⟩)
  | filter primary predicates steps =>
    obtain ⟨m, kept, hm, hkept, hwalk⟩ := selects_filter_iff.1 h
    exact .inr (.inr ⟨primary, predicates, steps, m, kept, rfl, hm, hkept, hwalk⟩)

/-- A union is sorted from its sides, a filter keeps a part of a node-set, and steps lead on from
there. -/
theorem nodeSet_of_selects (h : d.Linked) (hroot : d.parent? Document.root = none)
    (hfocus : focus.node.id ∈ d.order) {e : Expr} {l : List Node} (he : Selects d focus e l) :
    NodeSet d l := by
  rcases he.cases with ⟨a, b, m, r, rfl, hm, hr, rfl⟩ | ⟨absolute, steps, rfl, hwalk⟩ |
    ⟨primary, predicates, steps, m, kept, rfl, hm, hkept, hwalk⟩
  · exact (nodeSet_of_selects h hroot hfocus hm).union (nodeSet_of_selects h hroot hfocus hr)
  · refine NodeSet.walk h hroot (NodeSet.singleton ?_) hwalk
    cases absolute with
    | true => exact Document.Linked.root_mem_order
    | false => exact hfocus
  · have hprimary := nodeSet_of_selects h hroot hfocus hm
    exact NodeSet.walk h hroot (hprimary.sublist (narrow_sublist hkept)) hwalk
termination_by e

/-- For an attached node, every node-set that an expression has as its value is a list of attached
nodes in document order, and a union is the one list of this kind with the nodes of both sides. -/
theorem node_sets_canonical (d : Document) (focus : Focus) (hbuilt : d.Built)
    (hroot : d.parent? Document.root = none) (hfocus : focus.node.id ∈ d.order) :
    (∀ e l, Selects d focus e l → NodeSet d l) ∧
      (∀ a b l r, Selects d focus a l → Selects d focus b r →
        ∃ u, Selects d focus (.binary .union a b) u ∧ Selects d focus (.binary .union b a) u ∧
          NodeSet d u ∧ ∀ n, n ∈ u ↔ n ∈ l ∨ n ∈ r) ∧
      (∀ a l, Selects d focus a l → Selects d focus (.binary .union a a) l) ∧
      ∀ a b c l r s, Selects d focus a l → Selects d focus b r → Selects d focus c s →
        ∃ u, Selects d focus (.binary .union (.binary .union a b) c) u ∧
          Selects d focus (.binary .union a (.binary .union b c)) u := by
  have hset : ∀ {e l}, Selects d focus e l → NodeSet d l :=
    fun h => nodeSet_of_selects hbuilt.linked hroot hfocus h
  have hsame : ∀ {e e' l r}, Selects d focus e l → Selects d focus e' r → (∀ n, n ∈ l ↔ n ∈ r) →
      Selects d focus e' l := by
    intro e e' l r he he' hmem
    rwa [(hset he).ext (hset he') hmem]
  refine ⟨fun e l => hset, ?_, ?_, ?_⟩
  · intro a b l r ha hb
    have hunion := ha.union hb
    have hmem : ∀ n, n ∈ Node.sort d.order (l ++ r) ↔ n ∈ l ∨ n ∈ r := by simp
    refine ⟨_, hunion, hsame hunion (hb.union ha) ?_, hset hunion, hmem⟩
    simp [or_comm]
  · intro a l ha
    exact hsame ha (ha.union ha) (by simp)
  · intro a b c l r s ha hb hc
    have hunion := (ha.union hb).union hc
    exact ⟨_, hunion, hsame hunion (ha.union (hb.union hc)) (by simp [or_assoc])⟩

/-- A list with an id and a class, and two items. -/
def describedList : Document :=
  ((Document.empty.appendElement Document.root "ul" (.ofList [("id", "u"), ("class", "c")])).appendElement
    1 "li" .empty).appendElement 1 "li" .empty

/-- The value of the expression for the last item, if it is a node-set. -/
def selectedByLastItem (e : Expr) : Option (List Node) :=
  match eval describedList describedList.order e ⟨.tree 3, 1, 1⟩ with
  | .ok (.nodes l) => some l
  | _ => none

/-- The step to all nodes of an axis. -/
def anyNode (axis : Axis) : Step := .mk axis (.type .node) []

/-- Nodes that are reached in reverse order, and several times. -/
def ancestorsAndAttributes : Expr :=
  .binary .union (.path false [anyNode .precedingSibling, anyNode .ancestorOrSelf])
    (.path false [anyNode .ancestor, anyNode .descendantOrSelf, anyNode .attributes])

theorem built_describedList : describedList.Built := by
  have hlist := Document.Built.empty.appendElement Document.root (by decide) "ul"
    (.ofList [("id", "u"), ("class", "c")])
  have hfirst := hlist.appendElement 1 (by decide +kernel) "li" .empty
  exact hfirst.appendElement 1 (by decide +kernel) "li" .empty

theorem selects_of_selectedByLastItem (h : selectedByLastItem e = some l) :
    Selects describedList ⟨.tree 3, 1, 1⟩ e l := by
  unfold selectedByLastItem at h
  split at h
  · rename_i m heval
    obtain rfl := Option.some.inj h
    exact heval
  · cases h

theorem node_sets_canonical_list :
    describedList.Built ∧ describedList.parent? Document.root = none ∧ 3 ∈ describedList.order ∧
      selectedByLastItem ancestorsAndAttributes = some [.tree 0, .tree 1, .attributeOf 1 "class",
        .attributeOf 1 "id", .tree 2] ∧
      NodeSet describedList [.tree 0, .tree 1, .attributeOf 1 "class", .attributeOf 1 "id",
        .tree 2] := by
  have hroot : describedList.parent? Document.root = none := by decide +kernel
  have hitem : 3 ∈ describedList.order := by decide +kernel
  have hvalue : selectedByLastItem ancestorsAndAttributes = some [.tree 0, .tree 1,
      .attributeOf 1 "class", .attributeOf 1 "id", .tree 2] := by decide +kernel
  refine ⟨built_describedList, hroot, hitem, hvalue, ?_⟩
  exact (node_sets_canonical describedList ⟨.tree 3, 1, 1⟩ built_describedList hroot hitem).1 _ _
    (selects_of_selectedByLastItem hvalue)

end CssLocator.XPath
