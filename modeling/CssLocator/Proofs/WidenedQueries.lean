import CssLocator.Proofs.EnclosedExpressions
import CssLocator.Proofs.NodeSets
import CssLocator.Proofs.PathsFromUnions
import CssLocator.Proofs.StepLocators

/-!
# Widened queries

A query for the children of a node can be asked for the whole document. Whatever the predicates are,
the document-wide path looks at the children of one node after the other, so positions are counted
among siblings there as well, and what was found below a node is what a query from the node finds.
-/

namespace CssLocator

open XPath

namespace TreeEngine

variable {t : TreeEngine} {ss : List Text} {es : List Expr} {c x : Nat} {found whole : List Nat}

/-- The children that the predicates keep of every attached node. -/
structure Keeps (d : Document) (es : List Expr) (kept : Nat → List Nat) : Prop where
  advance : ∀ p ∈ d.order, advance d d.order (.mk .child .any es) (.tree p) = .ok ((kept p).map .tree)
  sublist : ∀ p ∈ d.order, (kept p).Sublist (d.elementChildren p)

/-- A path that finds something leads somewhere. -/
theorem exists_walk_of_findAll {s : Text} {steps : List Step}
    (hparse : parse s = .ok (.path false steps)) (hfound : t.findAll c (.path s) = .ok found) :
    ∃ l, walk t.document t.document.order steps [.tree c] = .ok l := by
  obtain ⟨-, -, hfound⟩ := bind_eq_ok.1 hfound
  obtain ⟨selected, hselected, -⟩ := bind_eq_ok.1 hfound
  cases hselect : select t.document c s with
  | error e =>
    change Except.mapError _ (select t.document c s) = _ at hselected
    rw [hselect] at hselected
    cases hselected
  | ok selected =>
    obtain ⟨v, hv, -⟩ := bind_eq_ok.1 hselect
    obtain ⟨e, he, hv⟩ := bind_eq_ok.1 hv
    cases hparse.symm.trans he
    obtain ⟨l, hl, -⟩ := bind_eq_ok.1 hv
    exact ⟨l, hl⟩

/-- A predicate that fails for a child of any attached node makes the document-wide query fail. -/
theorem exists_keeps (h : t.document.Linked) (hss : List.Forall₂ Enclosed ss es)
    (hwhole : t.findAll Document.root (.path (".//*" ++ predicateText ss)) = .ok whole) :
    ∃ kept, Keeps t.document es kept := by
  have hroot : Document.root ∈ t.document.order := Document.Linked.root_mem_order
  have hparse := ((spelled_below hss).2.raise (Nat.zero_le 6)).parse
  obtain ⟨l, hl⟩ := exists_walk_of_findAll hparse hwhole
  rw [walk_self h hroot, walk_anyDepth h hroot] at hl
  have hrounds : ∀ p ∈ t.document.order, ∃ zs : List Nat,
      XPath.advance t.document t.document.order (.mk .child .any es) (.tree p) =
        .ok (zs.map .tree) ∧ zs.Sublist (t.document.elementChildren p) := by
    intro p hp
    obtain ⟨ys, hys⟩ := exists_walk_singleton_iff.1 ⟨l, hl⟩ (.tree p) (List.mem_map_of_mem hp)
    have hnarrow := hys
    rw [XPath.advance, nodes_anyChild] at hnarrow
    obtain ⟨zs, hzs, rfl⟩ := List.sublist_map_iff.1 (narrow_sublist hnarrow)
    exact ⟨zs, hys, hzs⟩
  choose! kept hkept using hrounds
  exact ⟨kept, fun p hp => (hkept p hp).1, fun p hp => (hkept p hp).2⟩

section Kept

variable {kept : Nat → List Nat} (h : t.document.Linked) (hkeeps : Keeps t.document es kept)
  (hc : c ∈ t.document.order) (hss : List.Forall₂ Enclosed ss es)

include hkeeps in
theorem Keeps.mem_children {p : Nat} (hp : p ∈ t.document.order) (hx : x ∈ kept p) :
    x ∈ t.document.children p :=
  List.mem_of_mem_filter ((hkeeps.sublist p hp).subset hx)

include h hkeeps hc

/-- The elements found below a node are those found in the whole document that are below it. -/
theorem filter_below_of_keeps :
    t.document.order.filter (((c :: t.document.descendants c).flatMap kept).contains ·) =
      (t.document.order.filter ((t.document.order.flatMap kept).contains ·)).filter
        ((t.document.descendants c).contains ·) := by
  rw [List.filter_filter]
  refine List.filter_congr fun x _ => ?_
  have hbelow : ∀ p ∈ t.document.order, x ∈ kept p →
      (x ∈ t.document.descendants c ↔ p ∈ c :: t.document.descendants c) := fun p hp hx =>
    h.mem_descendants_iff_of_mem_children (hkeeps.mem_children hp hx)
  rw [Bool.eq_iff_iff, Bool.and_eq_true]
  simp only [List.contains_iff_mem, List.mem_flatMap]
  constructor
  · rintro ⟨p, hp, hx⟩
    have hattached := h.mem_order_of_mem_branch hc hp
    exact ⟨(hbelow p hattached hx).2 hp, p, hattached, hx⟩
  · rintro ⟨hdescendant, p, hp, hx⟩
    exact ⟨p, (hbelow p hp hx).1 hdescendant, hx⟩

include hss

private theorem findAll_below_of_keeps :
    t.findAll c (.path (".//*" ++ predicateText ss)) =
      .ok (t.document.order.filter (((c :: t.document.descendants c).flatMap kept).contains ·)) :=
  findAll_keptBelow h hc hss (fun p hp => hkeeps.advance p (h.mem_order_of_mem_branch hc hp))
    fun p hp => hkeeps.sublist p (h.mem_order_of_mem_branch hc hp)

/-- The children of a node that are found in the whole document are those found from the node. -/
theorem findAll_children_of_keeps :
    t.findAll c (.path ("./*" ++ predicateText ss)) =
      .ok ((t.document.order.filter ((t.document.order.flatMap kept).contains ·)).filter
        ((t.document.children c).contains ·)) := by
  rw [findAll_keptChildren h hc hss (hkeeps.advance c hc) (hkeeps.sublist c hc)]
  have hsublist : (kept c).Sublist t.document.order :=
    (hkeeps.sublist c hc).trans (List.filter_sublist.trans (h.children_sublist_order hc))
  refine congrArg _ (eq_of_sublist h.nodup_order hsublist
    (List.filter_sublist.trans List.filter_sublist) fun x => ?_)
  simp only [List.mem_filter, List.contains_iff_mem, List.mem_flatMap]
  constructor
  · intro hx
    exact ⟨⟨hsublist.subset hx, c, hc, hx⟩, hkeeps.mem_children hc hx⟩
  · rintro ⟨⟨-, p, hp, hx⟩, hchild⟩
    have hparent := h.mem_children.1 (hkeeps.mem_children hp hx)
    obtain rfl : p = c := Option.some.inj (hparent.symm.trans (h.mem_children.1 hchild))
    exact hx

end Kept

/-- A native query from a node is the one for the whole document, restricted to what is below. -/
theorem findAll_native_below (h : t.document.Linked) (hc : c ∈ t.document.order) (selector : Text) :
    t.findAll c (.native selector) = (t.findAll Document.root (.native selector)).map
      (·.filter ((t.document.descendants c).contains ·)) := by
  rcases findAll_native_cases t selector with ⟨reason, herror⟩ | ⟨test, hfinds⟩
  · rw [herror c hc, herror _ Document.Linked.root_mem_order]
    rfl
  · rw [hfinds c hc, hfinds _ Document.Linked.root_mem_order]
    have hbelow : (t.document.descendants c).Sublist t.document.order :=
      h.descendants_sublist_order hc
    have hwhole : (t.document.descendants Document.root).Sublist t.document.order :=
      List.sublist_cons_self _ _
    refine congrArg Except.ok (eq_of_sublist h.nodup_order (List.filter_sublist.trans hbelow)
      (List.filter_sublist.trans (List.filter_sublist.trans hwhole)) fun x => ?_)
    simp only [List.mem_filter, List.contains_iff_mem]
    constructor
    · rintro ⟨hx, htest⟩
      exact ⟨⟨mem_descendants_root h hc hx, htest⟩, hx⟩
    · rintro ⟨⟨-, htest⟩, hx⟩
      exact ⟨hx, htest⟩

end TreeEngine

private theorem forall₂_enclosed {ss : List Text} (hss : ∀ s ∈ ss, ∃ e, parse s = .ok e) :
    ∃ es, List.Forall₂ Enclosed ss es := by
  induction ss with
  | nil => exact ⟨[], .nil⟩
  | cons s ss ih =>
    obtain ⟨⟨e, he⟩, hss⟩ := List.forall_mem_cons.1 hss
    obtain ⟨es, hes⟩ := ih hss
    exact ⟨e :: es, .cons (enclosed_of_parse he) hes⟩

/-- For every document that is read, every attached node and any expressions as predicates: widening
the path to the children of the node gives the path to all elements, and if the widened path finds
elements in the whole document, those of them that are children of the node are what the path finds
from the node, and those below the node are what the widened path finds from there. A native query
finds below the node what it finds there in the whole document, or is refused from both alike. -/
theorem widening_keeps_positions (json : Text) (t : TreeEngine) (c : Nat) (ss : List Text)
    (hdocument : Document.ofText? json = some t.document) (hc : c ∈ t.document.order)
    (hss : ∀ s ∈ ss, ∃ e, parse s = .ok e) :
    (Locator.path ("./*" ++ predicateText ss)).widened = .path (".//*" ++ predicateText ss) ∧
      (∀ whole, t.findAll Document.root (.path (".//*" ++ predicateText ss)) = .ok whole →
        t.findAll c (.path ("./*" ++ predicateText ss)) =
            .ok (whole.filter ((t.document.children c).contains ·)) ∧
          t.findAll c (.path (".//*" ++ predicateText ss)) =
            .ok (whole.filter ((t.document.descendants c).contains ·))) ∧
      ∀ selector, t.findAll c (.native selector) =
        (t.findAll Document.root (.native selector)).map
          (·.filter ((t.document.descendants c).contains ·)) := by
  have h : t.document.Linked := (Document.grown_of_ofText? hdocument).linked
  obtain ⟨es, hes⟩ := forall₂_enclosed hss
  refine ⟨widened_path .child _, fun whole hwhole => ?_, t.findAll_native_below h hc⟩
  obtain ⟨kept, hkeeps⟩ := TreeEngine.exists_keeps h hes hwhole
  have hscan := TreeEngine.findAll_below_of_keeps h hkeeps Document.Linked.root_mem_order hes
  obtain rfl := Except.ok.inj (hwhole.symm.trans hscan)
  refine ⟨TreeEngine.findAll_children_of_keeps h hkeeps hc hes, ?_⟩
  rw [TreeEngine.findAll_below_of_keeps h hkeeps hc hes]
  exact congrArg _ (TreeEngine.filter_below_of_keeps h hkeeps hc)

/-- A list with two items and a list of two items. -/
def nestedListText : Text :=
  "\x7b\"children\":[\x7b\"tag\":\"ul\",\"children\":[\x7b\"tag\":\"li\"\x7d,\x7b\"tag\":\"li\"\x7d,\x7b\"tag\":\"ul\",\"children\":[\x7b\"tag\":\"li\"\x7d,\x7b\"tag\":\"li\"\x7d]\x7d]\x7d]\x7d"

/-- The second child of each parent, as the first one of those that the first predicate keeps. -/
theorem widening_keeps_positions_chained : ∃ t : TreeEngine,
    Document.ofText? nestedListText = some t.document ∧ 1 ∈ t.document.order ∧
      (∀ s ∈ (["position() > 1", "1"] : List Text), ∃ e, parse s = .ok e) ∧
      t.findAll Document.root (.path ".//*[position() > 1][1]") = .ok [3, 6] ∧
      t.findAll 1 (.path "./*[position() > 1][1]") = .ok [3] ∧
      t.findAll 1 (.path ".//*[position() > 1][1]") = .ok [3, 6] := by
  have hvalues : (Document.ofText? nestedListText).any fun d =>
      decide (1 ∈ d.order ∧ d.children 1 = [2, 3, 4] ∧ d.descendants 1 = [2, 3, 4, 5, 6] ∧
        ((TreeEngine.mk d []).findAll Document.root (.path ".//*[position() > 1][1]")).toOption =
          some [3, 6]) := by decide +kernel
  obtain ⟨d, hd, hvalues⟩ := (Option.any_eq_true _ _).1 hvalues
  obtain ⟨hlist, hchildren, hbelow, hfound⟩ := of_decide_eq_true hvalues
  have hfound := toOption_eq_some.1 hfound
  have hvalid : (["position() > 1", "1"] : List Text).all fun s => (parse s).toOption.isSome := by
    decide +kernel
  have hparse : ∀ s ∈ (["position() > 1", "1"] : List Text), ∃ e, parse s = .ok e := by
    intro s hs
    obtain ⟨e, he⟩ := Option.isSome_iff_exists.1 (List.all_eq_true.1 hvalid s hs)
    exact ⟨e, toOption_eq_some.1 he⟩
  obtain ⟨-, hpaths, -⟩ := widening_keeps_positions nestedListText ⟨d, []⟩ 1
    ["position() > 1", "1"] hd hlist hparse
  obtain ⟨honeLevel, hallLevels⟩ := hpaths [3, 6] hfound
  rw [hchildren] at honeLevel
  rw [hbelow] at hallLevels
  exact ⟨⟨d, []⟩, hd, hlist, hparse, hfound, honeLevel, hallLevels⟩

end CssLocator
