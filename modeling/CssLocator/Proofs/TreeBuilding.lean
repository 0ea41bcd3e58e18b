import CssLocator.Proofs.TreeLinks

/-!
# Building keeps links consistent

Storing a node and attaching a node keep the links of a document consistent, provided that the
attached node has no parent yet and is not above its new parent.
-/

namespace CssLocator.Document

variable {d : Document} {parent child : Nat}

/-- The documents that can be built by storing nodes and attaching them without closing a cycle. -/
inductive Built : Document → Prop
  | empty : Built .empty
  | allocate {d : Document} (kind : NodeKind) (h : Built d) : Built (d.allocate kind)
  | appendChild {d : Document} {parent child : Nat} (h : Built d) (hparent : parent < d.size)
      (hchild : child < d.size) (hfree : d.parent? child = none) (hne : child ≠ parent)
      (habove : child ∉ d.ancestors parent) : Built (d.appendChild parent child)

@[simp] theorem size_allocate (kind : NodeKind) : (d.allocate kind).size = d.size + 1 := by
  simp [allocate, size]

theorem node?_allocate (kind : NodeKind) (i : Nat) :
    (d.allocate kind).node? i = if i = d.size then some (.detached kind) else d.node? i := by
  unfold allocate node? size
  exact Array.getElem?_push

theorem node?_eq_none {i : Nat} (h : d.size ≤ i) : d.node? i = none := by
  simpa [node?, size] using h

theorem lt_size_of_isElement {x : Nat} (h : d.isElement x) : x < d.size := by
  by_contra hsize
  have hnone := node?_eq_none (Nat.le_of_not_lt hsize)
  simp [isElement, element?, kind?, hnone] at h

/-- A new node has no links, and neither has a place without a node. -/
private theorem apply_node?_allocate {β : Type} {kind : NodeKind} {f : Option Node → β}
    (hf : f (some (.detached kind)) = f none) (i : Nat) :
    f ((d.allocate kind).node? i) = f (d.node? i) := by
  rw [node?_allocate]
  split
  · subst i
    rw [hf, node?_eq_none (Nat.le_refl _)]
  · rfl

@[simp] theorem parent?_allocate (kind : NodeKind) (i : Nat) :
    (d.allocate kind).parent? i = d.parent? i :=
  apply_node?_allocate (f := fun n => n.bind (·.parent)) rfl i

@[simp] theorem children_allocate (kind : NodeKind) (i : Nat) :
    (d.allocate kind).children i = d.children i :=
  apply_node?_allocate (f := fun n => n.elim [] (·.children)) rfl i

@[simp] theorem previous?_allocate (kind : NodeKind) (i : Nat) :
    (d.allocate kind).previous? i = d.previous? i :=
  apply_node?_allocate (f := fun n => n.bind (·.previous)) rfl i

@[simp] theorem next?_allocate (kind : NodeKind) (i : Nat) :
    (d.allocate kind).next? i = d.next? i :=
  apply_node?_allocate (f := fun n => n.bind (·.next)) rfl i

theorem Linked.allocate (h : d.Linked) (kind : NodeKind) : (d.allocate kind).Linked where
  root_lt := by simp [root]
  mem_children {p c} := by simpa using h.mem_children (p := p) (c := c)
  nodup_children := by simpa using h.nodup_children
  acyclic := by
    have hsame : (d.allocate kind).IsParent = d.IsParent := by
      funext p c
      simp [IsParent]
    rw [hsame]
    exact h.acyclic
  previous_eq hsplit := by simpa using h.previous_eq (by simpa using hsplit)
  next_eq hsplit := by simpa using h.next_eq (by simpa using hsplit)
  without_parent hfree := by simpa using h.without_parent (by simpa using hfree)

private theorem node?_modify (id : Nat) (f : Node → Node) (i : Nat) :
    (d.modify id f).node? i = if id = i then (d.node? i).map f else d.node? i := by
  simp [modify, node?, Array.getElem?_modify]

@[simp] theorem size_modify (id : Nat) (f : Node → Node) : (d.modify id f).size = d.size := by
  simp [modify, size]

theorem exists_node {i : Nat} (h : i < d.size) : ∃ n, d.node? i = some n :=
  ⟨d.nodes[i], Array.getElem?_eq_getElem h⟩

@[simp] theorem size_appendChild : (d.appendChild parent child).size = d.size := by
  unfold appendChild
  dsimp only
  split <;> simp

/-- A node after the attachment: its kind is the same, and each of its links is the old one unless
the attachment sets it. -/
theorem node?_appendChild (i : Nat) :
    (d.appendChild parent child).node? i = (d.node? i).map fun n =>
      { kind := n.kind
        parent := if i = child then some parent else n.parent
        children := if i = parent then n.children ++ [child] else n.children
        next := if some i = (d.children parent).getLast? then some child else n.next
        previous := if i = child then (d.children parent).getLast? else n.previous } := by
  unfold appendChild
  dsimp only
  cases hlast : (d.children parent).getLast? with
  | none =>
    simp only [node?_modify]
    cases d.node? i with
    | none => simp
    | some n =>
      by_cases hc : child = i <;> by_cases hp : parent = i <;> simp [hc, hp, eq_comm (a := i)]
  | some sibling =>
    simp only [node?_modify]
    cases d.node? i with
    | none => simp
    | some n =>
      by_cases hc : child = i <;> by_cases hp : parent = i <;> by_cases hs : sibling = i <;>
        simp [hc, hp, hs, eq_comm (a := i)]

@[simp] theorem kind?_appendChild (i : Nat) : (d.appendChild parent child).kind? i = d.kind? i := by
  unfold kind?
  rw [node?_appendChild]
  cases d.node? i <;> rfl

theorem parent?_appendChild (hchild : child < d.size) (i : Nat) :
    (d.appendChild parent child).parent? i = if i = child then some parent else d.parent? i := by
  unfold parent?
  rw [node?_appendChild]
  split
  · subst i
    obtain ⟨n, hn⟩ := exists_node hchild
    simp [hn]
  · cases d.node? i <;> simp

private theorem children_appendChild (hparent : parent < d.size) (i : Nat) :
    (d.appendChild parent child).children i =
      if i = parent then d.children i ++ [child] else d.children i := by
  unfold children
  rw [node?_appendChild]
  by_cases hi : i = parent
  · subst hi
    obtain ⟨n, hn⟩ := exists_node hparent
    simp [hn]
  · cases d.node? i <;> simp [hi]

private theorem previous?_appendChild (hchild : child < d.size) (i : Nat) :
    (d.appendChild parent child).previous? i =
      if i = child then (d.children parent).getLast? else d.previous? i := by
  unfold previous?
  rw [node?_appendChild]
  split
  · subst i
    obtain ⟨n, hn⟩ := exists_node hchild
    simp [hn]
  · cases d.node? i <;> simp

private theorem next?_appendChild (h : d.Linked) (i : Nat) :
    (d.appendChild parent child).next? i =
      if some i = (d.children parent).getLast? then some child else d.next? i := by
  unfold next?
  rw [node?_appendChild]
  by_cases hlast : some i = (d.children parent).getLast?
  · have hmem := List.mem_of_getLast? hlast.symm
    obtain ⟨n, hn⟩ := exists_node (h.child_lt hmem)
    simp [hn, hlast]
  · cases d.node? i <;> simp [hlast]

/-- Below the attached node nothing changes, so its new parent is still not below it. -/
theorem wellFounded_appendChild (h : d.Linked) (hchild : child < d.size)
    (hne : child ≠ parent) (habove : child ∉ d.ancestors parent) :
    WellFounded (d.appendChild parent child).IsParent := by
  have hother : ∀ x, x ≠ child → child ∉ d.ancestors x → Acc (d.appendChild parent child).IsParent x := by
    intro x
    induction x using h.acyclic.induction with
    | _ x ih =>
      intro hx hfar
      refine Acc.intro x ?_
      intro p hp
      rw [IsParent, parent?_appendChild hchild, if_neg hx] at hp
      rw [h.ancestors_of_some hp, List.mem_cons, not_or] at hfar
      exact ih p hp (Ne.symm hfar.1) hfar.2
  have hself : Acc (d.appendChild parent child).IsParent child := by
    refine Acc.intro child ?_
    intro p hp
    rw [IsParent, parent?_appendChild hchild, if_pos rfl, Option.some.injEq] at hp
    exact hp ▸ hother parent (Ne.symm hne) habove
  refine ⟨?_⟩
  intro x
  induction x using h.acyclic.induction with
  | _ x ih =>
    by_cases hx : x = child
    · exact hx ▸ hself
    · refine Acc.intro x ?_
      intro p hp
      rw [IsParent, parent?_appendChild hchild, if_neg hx] at hp
      exact ih p hp

/-- Where a child stands in a list to which another one was added at the end. -/
theorem append_singleton_eq_append_cons {l before after : List Nat} {c x : Nat}
    (h : l ++ [x] = before ++ c :: after) :
    (c = x ∧ before = l ∧ after = []) ∨
      ∃ after', after = after' ++ [x] ∧ l = before ++ c :: after' := by
  rcases List.eq_nil_or_concat after with rfl | ⟨after', y, rfl⟩
  · obtain ⟨rfl, hc⟩ := List.append_inj' h rfl
    simp only [List.cons.injEq, and_true] at hc
    exact .inl ⟨hc.symm, rfl, rfl⟩
  · have h' : l ++ [x] = (before ++ c :: after') ++ [y] := by simpa using h
    obtain ⟨rfl, hx⟩ := List.append_inj' h' rfl
    simp only [List.cons.injEq, and_true] at hx
    exact .inr ⟨after', by simp [hx], rfl⟩

private theorem Linked.notMem_children (h : d.Linked) {c : Nat} (hfree : d.parent? c = none)
    (p : Nat) : c ∉ d.children p := by
  intro hmem
  rw [h.mem_children, hfree] at hmem
  cases hmem

/-- A child is the last one of a node if it is one of its children and nothing follows it there. -/
theorem Linked.some_eq_getLast?_iff (h : d.Linked) {p q c : Nat} {before after : List Nat}
    (hsplit : d.children p = before ++ c :: after) :
    some c = (d.children q).getLast? ↔ p = q ∧ after = [] := by
  constructor
  · intro hlast
    have hp : d.parent? c = some p := h.mem_children.1 (hsplit ▸ by simp)
    have hq : d.parent? c = some q := h.mem_children.1 (List.mem_of_getLast? hlast.symm)
    obtain rfl : p = q := Option.some.inj (hp.symm.trans hq)
    refine ⟨rfl, ?_⟩
    rcases List.eq_nil_or_concat after with rfl | ⟨inner, z, rfl⟩
    · rfl
    · have hnodup := h.nodup_children p
      rw [hsplit, List.concat_eq_append] at hlast hnodup
      have hfar : c ∉ inner ++ [z] := (List.nodup_cons.1 (List.nodup_append.1 hnodup).2.1).1
      have hz : c = z := by
        rw [← List.cons_append, ← List.append_assoc, List.getLast?_concat] at hlast
        exact Option.some.inj hlast
      exact absurd (by simp [hz]) hfar
  · rintro ⟨rfl, rfl⟩
    simp [hsplit]

/-- A place among the children of a node is the new one at the end, or it was there before. -/
theorem Linked.split_appendChild (h : d.Linked) (hparent : parent < d.size)
    (hfree : d.parent? child = none) {p c : Nat} {before after : List Nat}
    (hsplit : (d.appendChild parent child).children p = before ++ c :: after) :
    (c = child ∧ before = d.children parent ∧ after = []) ∨
      c ≠ child ∧ ∃ after', d.children p = before ++ c :: after' ∧
        after = if p = parent then after' ++ [child] else after' := by
  have hold : ∀ {after'}, d.children p = before ++ c :: after' → c ≠ child := by
    rintro after' hchildren rfl
    exact h.notMem_children hfree p (hchildren ▸ by simp)
  rw [children_appendChild hparent] at hsplit
  by_cases hp : p = parent
  · rw [if_pos hp] at hsplit
    rcases append_singleton_eq_append_cons hsplit with ⟨rfl, rfl, rfl⟩ | ⟨after', rfl, hchildren⟩
    · exact .inl ⟨rfl, by rw [hp], rfl⟩
    · exact .inr ⟨hold hchildren, after', hchildren, (if_pos hp).symm⟩
  · rw [if_neg hp] at hsplit
    exact .inr ⟨hold hsplit, after, hsplit, (if_neg hp).symm⟩

private theorem Linked.mem_children_appendChild (h : d.Linked) (hparent : parent < d.size)
    (hchild : child < d.size) (hfree : d.parent? child = none) {p c : Nat} :
    c ∈ (d.appendChild parent child).children p ↔
      (d.appendChild parent child).parent? c = some p := by
  rw [children_appendChild hparent, parent?_appendChild hchild]
  by_cases hc : c = child
  · subst hc
    by_cases hp : p = parent
    · subst hp
      simp
    · simp [hp, h.notMem_children hfree, Ne.symm hp]
  · by_cases hp : p = parent <;> simp [hp, hc, h.mem_children]

private theorem Linked.next?_appendChild_eq_head? (h : d.Linked) (hparent : parent < d.size)
    (hfree : d.parent? child = none) {p c : Nat} {before after : List Nat}
    (hsplit : (d.appendChild parent child).children p = before ++ c :: after) :
    (d.appendChild parent child).next? c = after.head? := by
  rw [next?_appendChild h]
  rcases h.split_appendChild hparent hfree hsplit with ⟨rfl, -, rfl⟩ | ⟨-, after', hold, rfl⟩
  · have hlast : ¬ some c = (d.children parent).getLast? := fun hlast =>
      h.notMem_children hfree parent (List.mem_of_getLast? hlast.symm)
    rw [if_neg hlast]
    exact (h.without_parent hfree).2
  · simp only [h.some_eq_getLast?_iff hold, h.next_eq hold]
    by_cases hp : p = parent <;> cases after' <;> simp [hp]

theorem Linked.appendChild (h : d.Linked) (hparent : parent < d.size) (hchild : child < d.size)
    (hfree : d.parent? child = none) (hne : child ≠ parent) (habove : child ∉ d.ancestors parent) :
    (d.appendChild parent child).Linked := by
  constructor
  case root_lt => simpa using h.root_lt
  case mem_children => exact h.mem_children_appendChild hparent hchild hfree
  case nodup_children =>
    intro p
    rw [children_appendChild hparent]
    split
    · refine (h.nodup_children p).append (List.nodup_singleton child) ?_
      simpa using h.notMem_children hfree p
    · exact h.nodup_children p
  case acyclic => exact wellFounded_appendChild h hchild hne habove
  case previous_eq =>
    intro p c before after hsplit
    rw [previous?_appendChild hchild]
    rcases h.split_appendChild hparent hfree hsplit with ⟨rfl, rfl, -⟩ | ⟨hc, after', hold, -⟩
    · rw [if_pos rfl]
    · rw [if_neg hc]
      exact h.previous_eq hold
  case next_eq => exact h.next?_appendChild_eq_head? hparent hfree
  case without_parent =>
    intro c hc
    rw [parent?_appendChild hchild] at hc
    by_cases hcc : c = child
    · simp [hcc] at hc
    · rw [if_neg hcc] at hc
      have hlast : ¬ some c = (d.children parent).getLast? := fun hlast =>
        h.notMem_children hc parent (List.mem_of_getLast? hlast.symm)
      rw [previous?_appendChild hchild, next?_appendChild h, if_neg hcc, if_neg hlast]
      exact h.without_parent hc

theorem linked_empty : Document.empty.Linked := by
  have hnode : ∀ i n, Document.empty.node? i = some n → n = .detached .document := by
    intro i n hn
    cases i with
    | zero => exact (Option.some.inj hn).symm
    | succ i => simp [Document.empty, node?] at hn
  have hparent : ∀ i, Document.empty.parent? i = none := by
    intro i
    unfold parent?
    cases hi : Document.empty.node? i with
    | none => rfl
    | some n => simp [hnode i n hi, Node.detached]
  have hchildren : ∀ i, Document.empty.children i = [] := by
    intro i
    unfold children
    cases hi : Document.empty.node? i with
    | none => rfl
    | some n => simp [hnode i n hi, Node.detached]
  constructor
  case root_lt => exact Nat.one_pos
  case mem_children => simp [hchildren, hparent]
  case nodup_children => simp [hchildren]
  case acyclic =>
    refine ⟨fun x => Acc.intro x ?_⟩
    intro p hp
    simp [IsParent, hparent] at hp
  case previous_eq => simp [hchildren]
  case next_eq => simp [hchildren]
  case without_parent =>
    intro c _
    unfold previous? next?
    cases hc : Document.empty.node? c with
    | none => exact ⟨rfl, rfl⟩
    | some n => simp [hnode c n hc, Node.detached]

/-- Whatever is built has consistent links. -/
theorem Built.linked (h : d.Built) : d.Linked := by
  induction h with
  | empty => exact linked_empty
  | allocate kind _ ih => exact ih.allocate kind
  | appendChild _ hparent hchild hfree hne habove ih =>
    exact ih.appendChild hparent hchild hfree hne habove

/-- A node stored as the last child of another one is new, so no cycle can close. -/
theorem Built.append (h : d.Built) (hparent : parent < d.size) (kind : NodeKind) :
    (d.append parent kind).Built := by
  have hnew : (d.allocate kind).parent? d.size = none := by
    rw [parent?_allocate, parent?, node?_eq_none (Nat.le_refl _)]
    rfl
  refine .appendChild (.allocate kind h) ?_ ?_ hnew (Nat.ne_of_gt hparent) ?_
  · rw [size_allocate]
    omega
  · simp
  · intro hmem
    obtain ⟨c, hc⟩ := (h.linked.allocate kind).exists_child_of_mem_ancestors hmem
    exact Nat.lt_irrefl _ (h.linked.parent_lt (by simpa using hc))

theorem Built.appendElement (h : d.Built) (parent : Nat) (hparent : parent < d.size) (tag : Text)
    (attributes : Attributes) : (d.appendElement parent tag attributes).Built :=
  h.append hparent (.elementOf tag attributes)

end CssLocator.Document
