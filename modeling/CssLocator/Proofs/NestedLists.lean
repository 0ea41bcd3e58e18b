import CssLocator.Proofs.CompiledPlans
import CssLocator.Proofs.PrintedLists

/-!
# Lists in arguments

The selector lists in the arguments of `:has()` and `:not()`. An argument is shorter than the text that
it stands in, so lists cannot be nested without end.
-/

namespace CssLocator

variable {n : Nesting} {s a rest : Text} {x : SimpleSelector} {relative : Bool}

/-- The list in the argument of a refining pseudo-class that takes one. -/
def Refining.argument? (kind : Refining) (use : PseudoUse) : Option SelectorList :=
  match kind with
  | has => (SelectorList.read true use.argumentText).toOption
  | not => (SelectorList.read false use.argumentText).toOption
  | lang | visible | hidden => none

namespace Compound

def refinings (c : Compound) : List (Refining × PseudoUse) := c.filterMap (·.refining?)

/-- The lists in the arguments of a compound. -/
def arguments (c : Compound) : List SelectorList :=
  c.refinings.filterMap fun (kind, use) => kind.argument? use

end Compound

namespace SelectorList

def compounds (list : SelectorList) : List Compound := list.flatMap (·.map Prod.snd)

/-- Whether all compounds of a list, those in arguments included, pass a test. Selectors that are
nested deeper than the given number of arguments are not looked at. -/
def everywhere (p : Compound → Bool) : (depth : Nat) → SelectorList → Bool
  | 0, list => list.compounds.all p
  | n + 1, list => list.compounds.all fun c => p c && c.arguments.all (everywhere p n)

/-- The first list is in an argument of the second one. -/
def IsArgumentOf (inner outer : SelectorList) : Prop := ∃ c ∈ outer.compounds, inner ∈ c.arguments

end SelectorList

/-- The raw argument of a pseudo-class; other simple selectors have none. -/
def SimpleSelector.argumentText : SimpleSelector → Text
  | pseudo use => use.argumentText
  | _ => []

private theorem eq_of_readArgument? (h : readArgument? n s = some (a, rest)) :
    s = a ++ ')' :: rest := by
  fun_induction readArgument? n s generalizing a with
  | case1 => cases h
  | case2 n c r ih =>
    simp only [Option.map_eq_some_iff, Prod.exists, Prod.mk.injEq] at h
    obtain ⟨a, rest, h, rfl, rfl⟩ := h
    rw [ih h]
    rfl
  | case3 n c r _ hclose =>
    cases h
    rw [hclose.1]
    rfl
  | case4 n c r _ _ ih =>
    simp only [Option.map_eq_some_iff, Prod.exists, Prod.mk.injEq] at h
    obtain ⟨a, rest, h, rfl, rfl⟩ := h
    rw [ih h]
    rfl

private theorem length_argument_of_readPseudo {use : PseudoUse} (h : readPseudo s = .ok (use, rest)) :
    use.argumentText.length + rest.length ≤ s.length := by
  unfold readPseudo at h
  split at h
  · cases h
  · split at h
    · cases h
    · rename_i hname
      have hlength := Identifier.read?_length hname
      split at h
      · cases h
      · rename_i hargument
        cases h
        rw [eq_of_readArgument? hargument] at hlength
        simp only [PseudoUse.named, PseudoUse.argumentText, Option.getD_some, List.length_cons,
          List.length_append] at hlength ⊢
        omega
    · rename_i hname
      have hlength := Identifier.read?_length hname
      cases h
      simp only [PseudoUse.named, PseudoUse.argumentText, Option.getD_none, List.length_nil]
      omega

private theorem length_argument_of_readSimple (h : readSimple s = .ok (x, rest)) :
    x.argumentText.length + rest.length < s.length := by
  cases s with
  | nil => cases h
  | cons c r =>
    cases simpleSource_of_readSimple h with
    | pseudo _ huse =>
      have hlength := length_argument_of_readPseudo huse
      simp only [SimpleSelector.argumentText, List.length_cons]
      omega
    | _ => simpa [SimpleSelector.argumentText] using readSimple_length h

private theorem length_argument_of_readCompoundTail {xs : Compound}
    (h : readCompoundTail s = .ok (xs, rest)) : ∀ x ∈ xs, x.argumentText.length < s.length := by
  fun_induction readCompoundTail s generalizing xs rest with
  | case1 =>
    cases h
    exact List.forall_mem_nil _
  | case2 =>
    cases h
    exact List.forall_mem_nil _
  | case3 => cases h
  | case4 => cases h
  | case5 => cases h
  | case6 c r _ _ x rest' hsimple xs rest'' htail ih =>
    cases h
    have hx := length_argument_of_readSimple hsimple
    refine List.forall_mem_cons.2 ⟨by omega, fun y hy => ?_⟩
    have hy := ih htail y hy
    omega

private theorem length_argument_of_readCompound {xs : Compound} (h : readCompound s = .ok (xs, rest)) :
    ∀ x ∈ xs, x.argumentText.length < s.length := by
  obtain ⟨x, ys, rest', rfl, hsimple, htail⟩ := exists_readSimple h
  have hx := length_argument_of_readSimple hsimple
  refine List.forall_mem_cons.2 ⟨by omega, fun y hy => ?_⟩
  have hy := length_argument_of_readCompoundTail htail y hy
  omega

private theorem length_argument_of_readComplex {complex : Complex}
    (h : readComplex relative s = .ok complex) :
    ∀ p ∈ complex, ∀ x ∈ p.2, x.argumentText.length < s.length := by
  obtain ⟨k, t, -, ht, hchain⟩ := exists_readChain h
  intro p hp x hx
  obtain ⟨u, rest, hu, hcompound⟩ := (exists_readCompound hchain).2 p hp
  have hlength := length_argument_of_readCompound hcompound x hx
  omega

private theorem length_le_of_mem_join {separator part : Text} {parts : List Text} (h : part ∈ parts) :
    part.length ≤ (Text.join separator parts).length := by
  obtain ⟨w, ws, rfl⟩ := List.exists_cons_of_ne_nil (List.ne_nil_of_mem h)
  rw [Text.join_cons, List.length_append]
  rcases List.mem_cons.1 h with rfl | h
  · exact Nat.le_add_right _ _
  · have hpiece := (List.sublist_flatten_of_mem (List.mem_map_of_mem (f := (separator ++ ·)) h)).length_le
    rw [← List.flatMap_def, List.length_append] at hpiece
    omega

/-- Every argument is shorter than the text of its list. -/
theorem length_argument_of_read {list : SelectorList} (h : SelectorList.read relative s = .ok list) :
    ∀ c ∈ list.compounds, ∀ x ∈ c, x.argumentText.length < s.length := by
  intro c hc x hx
  obtain ⟨complex, hcomplex, hc⟩ := List.mem_flatMap.1 hc
  obtain ⟨p, hp, rfl⟩ := List.mem_map.1 hc
  obtain ⟨part, hpart, hread⟩ := forall₂_exists_left (parts_of_read h) hcomplex
  have hlength : part.length ≤ (Text.join [','] (splitOuterCommas .outside s)).length :=
    length_le_of_mem_join hpart
  rw [join_splitOuterCommas] at hlength
  exact Nat.lt_of_lt_of_le (length_argument_of_readComplex hread p hp x hx) hlength

@[simp] theorem Refining.ofName?_name (kind : Refining) :
    PseudoClass.ofName? kind.name = some (.refining kind) := by
  cases kind <;> rfl

theorem refining?_eq_some {kind : Refining} {use : PseudoUse} :
    x.refining? = some (kind, use) ↔
      x = .pseudo use ∧ PseudoClass.ofName? use.name = some (.refining kind) := by
  constructor
  · intro h
    cases x with
    | pseudo use' =>
      unfold SimpleSelector.refining? at h
      dsimp only at h
      split at h
      · cases h
        exact ⟨rfl, ‹_›⟩
      · cases h
    | _ => cases h
  · rintro ⟨rfl, hname⟩
    simp [SimpleSelector.refining?, hname]

theorem read_of_argument? {kind : Refining} {use : PseudoUse} {list : SelectorList}
    (h : kind.argument? use = some list) :
    ∃ relative, SelectorList.read relative use.argumentText = .ok list := by
  cases kind with
  | has => exact ⟨true, toOption_eq_some.1 h⟩
  | not => exact ⟨false, toOption_eq_some.1 h⟩
  | _ => cases h

/-- A list in an argument was read from it. -/
theorem exists_read_of_mem_arguments {c : Compound} {list : SelectorList} (h : list ∈ c.arguments) :
    ∃ x ∈ c, ∃ relative, SelectorList.read relative x.argumentText = .ok list := by
  obtain ⟨⟨kind, use⟩, huse, hargument⟩ := List.mem_filterMap.1 h
  obtain ⟨x, hx, hrefining⟩ := List.mem_filterMap.1 huse
  obtain ⟨rfl, -⟩ := refining?_eq_some.1 hrefining
  exact ⟨_, hx, read_of_argument? hargument⟩

/-- The way from a list to the lists in its arguments, to those in theirs and so on comes to an end:
the texts that they were read from become shorter. -/
theorem wellFounded_isArgumentOf : WellFounded SelectorList.IsArgumentOf := by
  have hread : ∀ (n : Nat) (s : Text) (relative : Bool) (list : SelectorList), s.length < n →
      SelectorList.read relative s = .ok list → Acc SelectorList.IsArgumentOf list := by
    intro n
    induction n with
    | zero => exact fun _ _ _ hs => absurd hs (Nat.not_lt_zero _)
    | succ n ih =>
      intro s relative list hs hlist
      constructor
      rintro inner ⟨c, hc, hinner⟩
      obtain ⟨x, hx, relative', hread⟩ := exists_read_of_mem_arguments hinner
      have hlength := length_argument_of_read hlist c hc x hx
      exact ih x.argumentText relative' inner (by omega) hread
  constructor
  intro outer
  constructor
  rintro inner ⟨c, -, hinner⟩
  obtain ⟨x, -, relative, hinner⟩ := exists_read_of_mem_arguments hinner
  exact hread _ x.argumentText relative inner (Nat.lt_succ_self _) hinner

end CssLocator
