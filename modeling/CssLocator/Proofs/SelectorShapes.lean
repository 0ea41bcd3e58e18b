import CssLocator.Proofs.PrintedLists

/-!
# The shape of what is read

Nothing in a list that was read is empty, types come first in their compounds, and the names of types and
pseudo-classes have no capitals. The reading of relative selectors adds lists that begin with a combinator
and changes no others.
-/

namespace CssLocator

open Identifier

variable {k : Combinator} {c : Char} {r s rest : Text} {x : SimpleSelector} {use : PseudoUse}
variable {complex : Complex} {list : SelectorList} {relative : Bool}

/-- A name without capitals. -/
def IsLowerName (name : Text) : Prop := name ≠ [] ∧ ∀ c ∈ name, c.isUpper = false

/-- The names of a simple selector are names. -/
def SimpleSelector.Named : SimpleSelector → Prop
  | universal => True
  | tag name => IsLowerName name
  | className name | id name | hasAttribute name _ => name ≠ []
  | pseudo use => IsLowerName use.name

structure Compound.Shaped (xs : Compound) : Prop where
  ne_nil : xs ≠ []
  named : ∀ x ∈ xs, x.Named
  tag_first : ∀ x ∈ xs.tail, ¬ x.IsTag

structure SelectorList.Shaped (list : SelectorList) : Prop where
  ne_nil : list ≠ []
  complex_ne_nil : ∀ complex ∈ list, complex ≠ []
  compounds : ∀ complex ∈ list, ∀ p ∈ complex, Compound.Shaped p.2

/-- The first compound has no explicit combinator. -/
def Complex.BeginsPlainly (complex : Complex) : Prop :=
  complex.head?.map Prod.fst = some .descendant

@[simp] theorem isUpper_toLower (c : Char) : c.toLower.isUpper = false := by
  rw [Bool.eq_false_iff, Ne, isUpper_iff_toNat, toNat_toLower]
  split <;> omega

private theorem isLowerName_lower {name : Text} (hne : name ≠ []) : IsLowerName (Text.lower name) := by
  refine ⟨by simpa [Text.lower] using hne, fun c hc => ?_⟩
  obtain ⟨d, -, rfl⟩ := List.mem_map.1 hc
  exact isUpper_toLower d

private theorem exists_named_of_readPseudo (h : readPseudo s = .ok (use, rest)) :
    ∃ name argument, name ≠ [] ∧ use = .named name argument := by
  unfold readPseudo at h
  split at h
  · cases h
  · split at h
    · cases h
    · rename_i hname
      split at h
      · cases h
      · cases h
        exact ⟨_, _, read?_ne_nil hname, rfl⟩
    · rename_i hname
      cases h
      exact ⟨_, _, read?_ne_nil hname, rfl⟩

private theorem readSimple_named (h : readSimple (c :: r) = .ok (x, rest)) : x.Named := by
  cases simpleSource_of_readSimple h with
  | universal => trivial
  | className _ hname => exact read?_ne_nil hname
  | id _ hname => exact read?_ne_nil hname
  | hasAttribute _ hne => exact hne
  | pseudo _ huse =>
    obtain ⟨name, argument, hne, rfl⟩ := exists_named_of_readPseudo huse
    exact isLowerName_lower hne
  | tag _ hname => exact isLowerName_lower (read?_ne_nil hname)

private theorem readCompound_shaped {xs : Compound} (h : readCompound s = .ok (xs, rest)) :
    Compound.Shaped xs where
  ne_nil := readCompound_ne_nil h
  named := forall_of_readCompound readSimple_named h
  tag_first := not_isTag_of_readCompound h

private theorem readComplex_shaped (h : readComplex relative s = .ok complex) :
    complex ≠ [] ∧ ∀ p ∈ complex, Compound.Shaped p.2 := by
  obtain ⟨k, t, -, -, hchain⟩ := exists_readChain h
  obtain ⟨hhead, hcompounds⟩ := exists_readCompound hchain
  constructor
  · rintro rfl
    cases hhead
  · intro p hp
    obtain ⟨t, rest, -, hcompound⟩ := hcompounds p hp
    exact readCompound_shaped hcompound

private theorem read_shaped (h : SelectorList.read relative s = .ok list) :
    SelectorList.Shaped list := by
  have hparts := parts_of_read h
  have hcomplex : ∀ complex ∈ list, complex ≠ [] ∧ ∀ p ∈ complex, Compound.Shaped p.2 := by
    intro complex hcomplex
    obtain ⟨part, -, hpart⟩ := forall₂_exists_left hparts hcomplex
    exact readComplex_shaped hpart
  refine ⟨?_, fun complex hc => (hcomplex complex hc).1, fun complex hc => (hcomplex complex hc).2⟩
  rintro rfl
  exact splitOuterCommas_ne_nil _ _ (List.forall₂_nil_right_iff.1 hparts)

private theorem combinatorOf?_ne_descendant (h : combinatorOf? c = some k) : k ≠ .descendant := by
  rcases combinatorOf?_cases h with rfl | rfl | rfl <;> cases h <;> decide

/-- Without an explicit combinator at the beginning a selector is read alike in both ways. -/
theorem readComplex_eq_ok_iff : readComplex false s = .ok complex ↔
    readComplex true s = .ok complex ∧ complex.BeginsPlainly := by
  have hhead : ∀ {k t}, readChain k t = .ok complex → complex.head?.map Prod.fst = some k :=
    fun h => (exists_readCompound h).1
  rw [readComplex, readComplex]
  split
  · simp
  · split
    · exact ⟨fun h => ⟨h, hhead h⟩, And.left⟩
    · -- a leading combinator is refused, or becomes the first one, and is no descendant combinator
      rename_i k hk
      refine ⟨fun h => by simp at h, fun ⟨h, hplain⟩ => ?_⟩
      cases hplain.symm.trans (hhead h)
      exact absurd rfl (combinatorOf?_ne_descendant hk)

theorem read_eq_ok_iff_relative : SelectorList.read false s = .ok list ↔
    SelectorList.read true s = .ok list ∧ ∀ complex ∈ list, complex.BeginsPlainly := by
  simp only [read_eq_ok_iff, readComplex_eq_ok_iff]
  exact forall₂_and_right

/-- Every list that is read is shaped like a list of selectors. Reading without leading combinators is
reading with them, where there are none. -/
theorem read_lists_shaped (s : Text) :
    (∀ relative list, SelectorList.read relative s = .ok list → SelectorList.Shaped list) ∧
    ∀ list, SelectorList.read false s = .ok list ↔
      SelectorList.read true s = .ok list ∧ ∀ complex ∈ list, complex.BeginsPlainly :=
  ⟨fun _ _ h => read_shaped h, fun _ => read_eq_ok_iff_relative⟩

theorem read_lists_shaped_relative :
    SelectorList.read true "> A.b:NOT(c), *[d]" =
        .ok [[(.child, [.tag "a", .className "b", .pseudo ⟨"not", some "c"⟩])],
          [(.descendant, [.universal, .hasAttribute "d" none])]] ∧
      SelectorList.Shaped [[(.child, [.tag "a", .className "b", .pseudo ⟨"not", some "c"⟩])],
        [(.descendant, [.universal, .hasAttribute "d" none])]] := by
  have hread : SelectorList.read true "> A.b:NOT(c), *[d]" =
      .ok [[(.child, [.tag "a", .className "b", .pseudo ⟨"not", some "c"⟩])],
        [(.descendant, [.universal, .hasAttribute "d" none])]] := by decide +kernel
  exact ⟨hread, (read_lists_shaped "> A.b:NOT(c), *[d]").1 true _ hread⟩

end CssLocator
