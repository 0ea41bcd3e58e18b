import CssLocator.Proofs.LocatedElements
import CssLocator.Proofs.StepLocators
import CssLocator.Proofs.Texts

/-!
# Tests of compounds

What the conditions of a compound require of an element, refining pseudo-classes apart. A native
locator, which is written and read again, requires the same of the elements it finds.
-/

namespace CssLocator

open Identifier

variable {known : List Structural} {x y : SimpleSelector} {d : Document} {i : Nat}

/-- Whether an element meets a condition. Refining pseudo-classes are left to filters. -/
def SimpleSelector.meets (d : Document) (i : Nat) : SimpleSelector → Bool
  | pseudo use =>
    match PseudoClass.ofName? use.name with
    | some (.structural kind) =>
      match kind.read use with
      | .ok a => kind.holds d i a
      | .error _ => true
    | _ => true
  | x => x.holds d i

/-- Whether a node is an element and meets the conditions of a compound. -/
def Compound.meets (d : Document) (i : Nat) (c : Compound) : Bool :=
  d.isElement i && c.all (·.meets d i)

theorem Compound.isElement_of_meets {d : Document} {i : Nat} {c : Compound} (h : c.meets d i) :
    d.isElement i := (Bool.and_eq_true_iff.1 h).1

/-- A character of a name that is written without loss wherever it stands. -/
def Identifier.isVisible (c : Char) : Bool := isWritable c && !Text.isSpace c

/-- Whether the names of a condition consist of visible characters, and no double quote in its value
follows a backslash. -/
def SimpleSelector.plainlyWritten : SimpleSelector → Bool
  | tag name | className name | id name => name.all isVisible
  | hasAttribute name test =>
    name.all isVisible && test.all fun (_, value) => !Text.occursIn ['\\', '"'] value
  | universal | pseudo _ => true

def Compound.plainlyWritten (c : Compound) : Bool := c.all (·.plainlyWritten)

theorem all_isVisible {name : Text} :
    name.all isVisible ↔ ∀ c ∈ name, isWritable c ∧ Text.isSpace c = false := by
  simp [isVisible]

private theorem SimpleSelector.writable_of_plainlyWritten (h : x.plainlyWritten) : x.Writable := by
  have hhead : ∀ {name : Text}, name.all isVisible →
      ∀ c ∈ name.head?, Text.isSpace c = false := fun h c hc =>
    (all_isVisible.1 h c (List.mem_of_mem_head? hc)).2
  cases x with
  | universal => trivial
  | pseudo use => trivial
  | tag name => exact ⟨fun c hc => (all_isVisible.1 h c hc).1, hhead h⟩
  | className name => exact fun c hc => (all_isVisible.1 h c hc).1
  | id name => exact fun c hc => (all_isVisible.1 h c hc).1
  | hasAttribute name test =>
    rw [plainlyWritten, Bool.and_eq_true] at h
    exact ⟨fun c hc => (all_isVisible.1 h.1 c hc).1, hhead h.1⟩

private theorem SimpleSelector.endsVisibly_of_plainlyWritten (h : x.plainlyWritten) :
    x.EndsVisibly := by
  have hlast : ∀ {name : Text}, name.all isVisible →
      ∀ c ∈ name.getLast?, Text.isSpace c = false := fun h c hc =>
    (all_isVisible.1 h c (List.mem_of_mem_getLast? hc)).2
  cases x with
  | tag name => exact hlast h
  | className name => exact hlast h
  | id name => exact hlast h
  | _ => trivial

private theorem Compound.writable_of_plainlyWritten {c : Compound} (h : c.plainlyWritten) :
    Compound.Writable c where
  names x hx := SimpleSelector.writable_of_plainlyWritten (List.all_eq_true.1 h x hx)
  last x hx := by
    have hmem : x ∈ c := List.mem_of_mem_filter (List.mem_of_mem_getLast? hx)
    exact SimpleSelector.endsVisibly_of_plainlyWritten (List.all_eq_true.1 h x hmem)

/-- The structural pseudo-class that the condition is, if it is one, is a known one. -/
def SimpleSelector.KnownTo (known : List Structural) (x : SimpleSelector) : Prop :=
  ∀ use kind, x = .pseudo use → PseudoClass.ofName? use.name = some (.structural kind) → kind ∈ known

theorem meets_structural {use : PseudoUse} {kind : Structural} {a : AnPlusB}
    (hname : PseudoClass.ofName? use.name = some (.structural kind)) (hread : kind.read use = .ok a) :
    SimpleSelector.meets d i (.pseudo use) = kind.holds d i a := by
  simp [SimpleSelector.meets, hname, hread]

theorem meets_of_not_queried (h : x.isQueried = false) : x.meets d i = true := by
  cases x with
  | universal => rfl
  | pseudo use =>
    unfold SimpleSelector.meets
    dsimp only
    split
    · rename_i kind hname
      rw [isQueried_pseudo hname] at h
      cases h
    · rfl
  | _ => cases h

@[simp] theorem all_meets_queried (c : Compound) :
    c.queried.all (·.meets d i) = c.all (·.meets d i) := by
  rw [Compound.queried, List.all_filter]
  congr 1
  funext x
  cases hx : x.isQueried with
  | false => rw [meets_of_not_queried hx]; rfl
  | true => rfl

/-- The second condition is prepared as a test of the first one. -/
def SimpleSelector.PreparedAs (known : List Structural) (x y : SimpleSelector) : Prop :=
  ∃ test, prepareSimple known y = .ok test ∧ ∀ d i, test.holds d i = x.meets d i

private theorem preparedAs_of_same (hsame : SameCondition x y) (hplain : x.plainlyWritten)
    (hknown : x.KnownTo known) : x.PreparedAs known y := by
  cases hsame with
  | tag name => exact ⟨.plain (.tag name), rfl, fun _ _ => rfl⟩
  | className name => exact ⟨.plain (.className name), rfl, fun _ _ => rfl⟩
  | id name => exact ⟨.plain (.id name), rfl, fun _ _ => rfl⟩
  | hasAttribute name test =>
    have hvalue : test.map (fun (o, value) => (o, unescapeQuotes value)) = test := by
      cases test with
      | none => rfl
      | some test =>
        obtain ⟨o, value⟩ := test
        have hfree : ¬ ['\\', '"'] <:+: value := by
          rw [← Text.occursIn_iff]
          simp only [SimpleSelector.plainlyWritten, Option.all_some, Bool.and_eq_true,
            Bool.not_eq_true'] at hplain
          simp [hplain.2]
        rw [Option.map_some]
        dsimp only
        rw [unescapeQuotes_eq_self hfree]
    rw [hvalue]
    exact ⟨.plain (.hasAttribute name test), rfl, fun _ _ => rfl⟩
  | @structural use use' kind a hname hname' hread hread' =>
    have hmem : kind ∈ known := hknown use kind rfl hname
    refine ⟨.structural kind a, ?_, fun _ _ => (meets_structural hname hread).symm⟩
    simp [prepareSimple, hname', hmem, hread', Except.map, Except.mapError]

theorem exists_tests {rel : SimpleSelector → SimpleSelector → Prop} {compound read : Compound}
    (hrel : List.Forall₂ rel compound read)
    (hprepared : ∀ x ∈ compound, ∀ y, rel x y → x.PreparedAs known y) :
    ∃ tests, Loop.map (prepareSimple known) read = .ok tests ∧
      ∀ d i, tests.all (·.holds d i) = compound.all (·.meets d i) := by
  induction hrel with
  | nil => exact ⟨[], rfl, fun _ _ => rfl⟩
  | @cons x y xs ys hxy _ ih =>
    obtain ⟨test, htest, hholds⟩ := hprepared x List.mem_cons_self y hxy
    obtain ⟨tests, htests, hall⟩ := ih fun z hz => hprepared z (List.mem_cons_of_mem x hz)
    refine ⟨test :: tests, ?_, fun d i => ?_⟩
    · rw [Loop.map, htest, htests]
      rfl
    · rw [List.all_cons, List.all_cons, hholds, hall]

/-- What is read for a compound is prepared as tests of the compound's conditions. -/
theorem exists_tests_of_readAs {compound read : Compound} (hread : ReadAs compound read)
    (hplain : compound.plainlyWritten) (hknown : ∀ x ∈ compound, x.KnownTo known) :
    ∃ tests, Loop.map (prepareSimple known) read = .ok tests ∧
      ∀ d i, matchesCompound d tests i = compound.meets d i := by
  have hmatches : ∀ {tests : List ElementTest},
      (∀ d i, tests.all (·.holds d i) = compound.queried.all (·.meets d i)) →
      ∀ d i, matchesCompound d tests i = compound.meets d i := by
    intro tests htests d i
    rw [matchesCompound, htests, all_meets_queried]
    rfl
  unfold ReadAs at hread
  split at hread
  · rename_i hnone
    rw [hread]
    refine ⟨[.plain .universal], rfl, hmatches fun d i => ?_⟩
    rw [hnone]
    rfl
  · have hqueried : ∀ x ∈ compound.queried, x ∈ compound := fun x hx => List.mem_of_mem_filter hx
    obtain ⟨tests, htests, hall⟩ := exists_tests hread fun x hx y hxy =>
      preparedAs_of_same hxy (List.all_eq_true.1 hplain x (hqueried x hx)) (hknown x (hqueried x hx))
    exact ⟨tests, htests, hmatches hall⟩

namespace TreeEngine

variable {t : TreeEngine} {answers : Answers} {nested : SelectorList → Plan → Prop}
  {compound : Compound} {parts : List StepPart}

theorem knownTo_of_parts (hparts : List.Forall₂ (PartOf (Knows t.known) nested) compound parts)
    (hknown : parts.all (·.known)) : ∀ x ∈ compound, x.KnownTo t.known := by
  induction hparts with
  | nil => exact nofun
  | @cons x p xs ps hpart _ ih =>
    rw [List.all_cons, Bool.and_eq_true] at hknown
    intro z hz
    rcases List.mem_cons.1 hz with rfl | hz
    · intro use kind huse hname
      subst huse
      cases hpart with
      | structural hname' _ hb =>
        rw [hname] at hname'
        cases hname'
        exact hb hknown.1
      | refining hname' =>
        rw [hname] at hname'
        cases hname'
    · exact ih hknown.2 z hz

/-- The native locator of a step finds the elements that meet the conditions of its compound. -/
theorem findsBelow_native (hparts : List.Forall₂ (PartOf answers nested) compound parts)
    (hknown : ∀ x ∈ compound, x.KnownTo t.known) (hread : Compound.Readable compound)
    (hplain : compound.plainlyWritten) :
    t.FindsBelow (.native (nativeExpression parts)) (compound.meets t.document ·) := by
  obtain ⟨read, hlist, hreadAs⟩ :=
    read_nativeExpression hparts hread (Compound.writable_of_plainlyWritten hplain)
  obtain ⟨tests, htests, hmatches⟩ :=
    exists_tests_of_readAs hreadAs hplain hknown
  have hprepare : prepareList t.known [[(.descendant, read)]] = .ok [[(.descendant, tests)]] := by
    simp [prepareList, Loop.map, htests, bind, Except.bind, pure, Except.pure]
  intro c hc
  rw [findAll_native hlist hprepare hc]
  congr 1
  apply List.filter_congr
  intro y _
  rw [List.any_cons, List.any_nil, Bool.or_false, matchesBackwards, hmatches, Compound.meets,
    ← Bool.and_assoc, Bool.and_self]

end TreeEngine

end CssLocator
