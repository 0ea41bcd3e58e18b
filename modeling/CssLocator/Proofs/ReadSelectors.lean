import CssLocator.Proofs.LoopResults
import CssLocator.Proofs.Texts
import CssLocator.SelectorReading

/-!
# What is read

A selector list that was read has at least one complex selector, and these have at least one
compound. Names are not empty, types are in lower case, and a type comes first in its compound.
-/

namespace CssLocator

def SimpleSelector.Readable : SimpleSelector → Prop
  | universal | pseudo _ => True
  | tag name => name ≠ [] ∧ Text.lower name = name
  | className name | id name | hasAttribute name _ => name ≠ []

def SimpleSelector.IsTag : SimpleSelector → Prop
  | tag _ => True
  | _ => False

structure Compound.Readable (c : Compound) : Prop where
  ne_nil : c ≠ []
  readable : ∀ x ∈ c, x.Readable
  tag_first : ∀ x ∈ c.tail, ¬ x.IsTag

/-- A complex selector that begins with the combinator. -/
structure Complex.Readable (k : Combinator) (complex : Complex) : Prop where
  head : complex.head?.map Prod.fst = some k
  compounds : ∀ p ∈ complex, Compound.Readable p.2

theorem read?_ne_nil {s name rest : Text} (h : Identifier.read? s = some (name, rest)) :
    name ≠ [] := by
  unfold Identifier.read? at h
  split at h
  · cases h
  · cases h
    exact List.cons_ne_nil _ _

private theorem exists_of_readAttribute {s rest : Text} {x : SimpleSelector}
    (h : readAttribute s = .ok (x, rest)) : ∃ name test, name ≠ [] ∧ x = .hasAttribute name test := by
  unfold readAttribute at h
  split at h
  · cases h
  · rename_i hname
    have hne := read?_ne_nil hname
    split at h
    · cases h
    · cases h
      exact ⟨_, _, hne, rfl⟩
    · split at h
      · cases h
      · split at h
        · cases h
          exact ⟨_, _, hne, rfl⟩
        · cases h

/-- What a simple selector is read from: its first character decides its kind. -/
inductive SimpleSource (c : Char) (r rest : Text) : SimpleSelector → Prop
  | universal (hc : c = '*') : SimpleSource c r rest .universal
  | className {name : Text} (hc : c = '.') (hname : Identifier.read? r = some (name, rest)) :
      SimpleSource c r rest (.className name)
  | id {name : Text} (hc : c = '#') (hname : Identifier.read? r = some (name, rest)) :
      SimpleSource c r rest (.id name)
  | hasAttribute {name : Text} {test : Option (AttributeOperator × Text)} (hc : c = '[')
      (hne : name ≠ []) : SimpleSource c r rest (.hasAttribute name test)
  | pseudo {use : PseudoUse} (hc : c = ':') (huse : readPseudo r = .ok (use, rest)) :
      SimpleSource c r rest (.pseudo use)
  | tag {name : Text} (hc : startsType c) (hname : Identifier.read? (c :: r) = some (name, rest)) :
      SimpleSource c r rest (.tag (Text.lower name))

theorem simpleSource_of_readSimple {c : Char} {r rest : Text} {x : SimpleSelector}
    (h : readSimple (c :: r) = .ok (x, rest)) : SimpleSource c r rest x := by
  unfold readSimple at h
  dsimp only at h
  split at h
  · cases h
    exact .universal ‹_›
  · split at h
    · split at h
      · cases h
      · cases h
        exact .className ‹_› ‹_›
    · split at h
      · split at h
        · cases h
        · cases h
          exact .id ‹_› ‹_›
      · split at h
        · obtain ⟨name, test, hne, rfl⟩ := exists_of_readAttribute h
          exact .hasAttribute ‹_› hne
        · split at h
          · split at h
            · cases h
            · cases h
              exact .pseudo ‹_› ‹_›
          · split at h
            · split at h
              · cases h
              · cases h
                exact .tag ‹_› ‹_›
            · cases h

/-- Only a text that begins like a type is read as one. -/
theorem readSimple_readable {c : Char} {r rest : Text} {x : SimpleSelector}
    (h : readSimple (c :: r) = .ok (x, rest)) :
    x.Readable ∧ (startsType c = false → ¬ x.IsTag) := by
  cases simpleSource_of_readSimple h with
  | universal => exact ⟨trivial, fun _ => id⟩
  | className _ hname => exact ⟨read?_ne_nil hname, fun _ => id⟩
  | id _ hname => exact ⟨read?_ne_nil hname, fun _ => id⟩
  | hasAttribute _ hne => exact ⟨hne, fun _ => id⟩
  | pseudo => exact ⟨trivial, fun _ => id⟩
  | @tag name htype hname =>
    refine ⟨⟨?_, lower_lower name⟩, fun hfalse => absurd htype (by simp [hfalse])⟩
    simpa [Text.lower] using read?_ne_nil hname

/-- A simple selector behind the first one of its compound was read where no type can begin. -/
theorem exists_readSimple_of_mem_tail {s : Text} :
    ∀ {xs : Compound} {rest : Text}, readCompoundTail s = .ok (xs, rest) →
      ∀ x ∈ xs, ∃ c r rest', startsType c = false ∧ readSimple (c :: r) = .ok (x, rest') := by
  fun_induction readCompoundTail s with
  | case1 =>
    intro xs rest h x hx
    cases h
    cases hx
  | case2 =>
    intro xs rest h x hx
    cases h
    cases hx
  | case3 => simp
  | case4 => simp
  | case5 => simp
  | case6 c r _ htype x rest hsimple xs rest' htail ih =>
    intro ys out h y hy
    cases h
    rcases List.mem_cons.1 hy with rfl | hy
    · exact ⟨c, r, rest, by simpa using htype, hsimple⟩
    · exact ih htail y hy

theorem exists_readSimple {s rest : Text} {xs : Compound} (h : readCompound s = .ok (xs, rest)) :
    ∃ x ys rest', xs = x :: ys ∧ readSimple s = .ok (x, rest') ∧
      readCompoundTail rest' = .ok (ys, rest) := by
  unfold readCompound at h
  split at h
  · cases h
  · rename_i x rest' hsimple
    split at h
    · cases h
    · rename_i ys rest'' htail
      cases h
      exact ⟨x, ys, rest', rfl, hsimple, htail⟩

/-- What holds of every simple selector that can be read holds throughout a compound. -/
theorem forall_of_readCompound {p : SimpleSelector → Prop}
    (hp : ∀ {c r x rest}, readSimple (c :: r) = .ok (x, rest) → p x) {s rest : Text} {xs : Compound}
    (h : readCompound s = .ok (xs, rest)) : ∀ x ∈ xs, p x := by
  obtain ⟨x, ys, rest', rfl, hsimple, htail⟩ := exists_readSimple h
  refine List.forall_mem_cons.2 ⟨?_, fun y hy => ?_⟩
  · cases s with
    | nil => cases hsimple
    | cons c r => exact hp hsimple
  · obtain ⟨c, r, _, -, hy⟩ := exists_readSimple_of_mem_tail htail y hy
    exact hp hy

theorem not_isTag_of_readCompound {s rest : Text} {xs : Compound}
    (h : readCompound s = .ok (xs, rest)) : ∀ x ∈ xs.tail, ¬ x.IsTag := by
  obtain ⟨x, ys, rest', rfl, -, htail⟩ := exists_readSimple h
  intro y hy
  obtain ⟨c, r, _, htype, hy⟩ := exists_readSimple_of_mem_tail htail y hy
  exact (readSimple_readable hy).2 htype

theorem readCompound_ne_nil {s rest : Text} {xs : Compound} (h : readCompound s = .ok (xs, rest)) :
    xs ≠ [] := by
  obtain ⟨x, ys, _, rfl, -⟩ := exists_readSimple h
  exact List.cons_ne_nil x ys

private theorem readCompound_readable {s rest : Text} {xs : Compound}
    (h : readCompound s = .ok (xs, rest)) : Compound.Readable xs where
  ne_nil := readCompound_ne_nil h
  readable := forall_of_readCompound (fun hx => (readSimple_readable hx).1) h
  tag_first := not_isTag_of_readCompound h

/-- A chain begins with its combinator, and every compound of it was read at some place. -/
theorem exists_readCompound {k : Combinator} {s : Text} :
    ∀ {complex : Complex}, readChain k s = .ok complex →
      complex.head?.map Prod.fst = some k ∧
        ∀ p ∈ complex, ∃ t rest, t.length ≤ s.length ∧ readCompound t = .ok (p.2, rest) := by
  have hmore : ∀ {j t k} {xs : Compound} {complex : Complex} {u rest}, t.length ≤ u.length →
      readCompound u = .ok (xs, rest) →
      (∀ {more}, readChain j t = .ok more → more.head?.map Prod.fst = some j ∧
        ∀ p ∈ more, ∃ v rest, v.length ≤ t.length ∧ readCompound v = .ok (p.2, rest)) →
      (readChain j t).map ((k, xs) :: ·) = .ok complex →
      complex.head?.map Prod.fst = some k ∧
        ∀ p ∈ complex, ∃ v rest, v.length ≤ u.length ∧ readCompound v = .ok (p.2, rest) := by
    intro j t k xs complex u rest hlength hcompound ih h
    cases hchain : readChain j t with
    | error e => simp [hchain, Except.map] at h
    | ok more =>
      rw [hchain] at h
      cases h
      refine ⟨rfl, List.forall_mem_cons.2 ⟨⟨u, rest, Nat.le_refl _, hcompound⟩, fun p hp => ?_⟩⟩
      obtain ⟨v, rest, hv, hcompound⟩ := (ih hchain).2 p hp
      exact ⟨v, rest, Nat.le_trans hv hlength, hcompound⟩
  have hshorter : ∀ {c d r rest rest'} {xs : Compound}, readCompound (c :: r) = .ok (xs, rest) →
      Text.skipSpace rest = d :: rest' → (d :: rest').length ≤ (c :: r).length := by
    intro c d r rest rest' xs hcompound hskip
    have hcost := readCompound_length hcompound
    have hlength := skipSpace_length rest
    rw [hskip] at hlength
    omega
  fun_induction readChain k s with
  | case1 => simp
  | case2 => simp
  | case3 => simp
  | case4 k c r _ compound rest hcompound _ =>
    intro complex h
    cases h
    exact ⟨rfl, List.forall_mem_singleton.2 ⟨_, rest, Nat.le_refl _, hcompound⟩⟩
  | case5 k c r _ compound rest hcompound d rest' hskip k' _ ih =>
    have htail : (Text.skipSpace rest').length ≤ (d :: rest').length :=
      Nat.le_succ_of_le (skipSpace_length rest')
    intro complex
    exact hmore (Nat.le_trans htail (hshorter hcompound hskip)) hcompound ih
  | case6 k c r _ compound rest hcompound d rest' hskip _ ih =>
    intro complex
    exact hmore (hshorter hcompound hskip) hcompound ih

theorem readChain_readable {k : Combinator} {s : Text} {complex : Complex}
    (h : readChain k s = .ok complex) : Complex.Readable k complex := by
  obtain ⟨hhead, hcompounds⟩ := exists_readCompound h
  refine ⟨hhead, fun p hp => ?_⟩
  obtain ⟨t, rest, -, hcompound⟩ := hcompounds p hp
  exact readCompound_readable hcompound

/-- Only a relative selector may begin with another combinator. -/
theorem exists_readChain {relative : Bool} {s : Text} {complex : Complex}
    (h : readComplex relative s = .ok complex) :
    ∃ k t, (relative = false → k = .descendant) ∧ t.length ≤ s.length ∧
      readChain k t = .ok complex := by
  have htrim : (Text.trim s).length ≤ s.length := by
    have hfront := (List.dropWhile_suffix (l := s) Text.isSpace).length_le
    have hback :=
      (List.dropWhile_suffix (l := (s.dropWhile Text.isSpace).reverse) Text.isSpace).length_le
    simp only [Text.trim, Text.strip, List.length_reverse] at hback ⊢
    omega
  unfold readComplex at h
  split at h
  · cases h
  · rename_i c r hcons
    rw [hcons] at htrim
    split at h
    · exact ⟨.descendant, _, fun _ => rfl, htrim, h⟩
    · rename_i k _
      split at h
      · rename_i hrelative
        have hskip := skipSpace_length r
        rw [List.length_cons] at htrim
        exact ⟨k, _, by simp [hrelative], by omega, h⟩
      · cases h

private theorem readComplex_readable {relative : Bool} {s : Text} {complex : Complex}
    (h : readComplex relative s = .ok complex) :
    ∃ k, (relative = false → k = .descendant) ∧ Complex.Readable k complex := by
  obtain ⟨k, t, hk, -, hchain⟩ := exists_readChain h
  exact ⟨k, hk, readChain_readable hchain⟩

/-- Every part between commas is read as the complex selector at its place. -/
theorem parts_of_read {relative : Bool} {s : Text} {list : SelectorList}
    (h : SelectorList.read relative s = .ok list) :
    List.Forall₂ (fun part complex => readComplex relative part = .ok complex)
      (splitOuterCommas .outside s) list := by
  unfold SelectorList.read at h
  dsimp only at h
  split at h
  · cases h
  · cases hmap : Loop.map (readComplex relative) (splitOuterCommas .outside s) with
    | error e =>
      rw [hmap] at h
      cases h
    | ok complexes =>
      rw [hmap] at h
      cases h
      exact Loop.map_eq_ok.1 hmap

/-- Every complex selector of a read list. -/
theorem readable_of_read {relative : Bool} {s : Text} {list : SelectorList}
    (h : SelectorList.read relative s = .ok list) :
    ∀ complex ∈ list, ∃ k, (relative = false → k = .descendant) ∧ Complex.Readable k complex := by
  intro complex hcomplex
  obtain ⟨part, -, hpart⟩ := forall₂_exists_left (parts_of_read h) hcomplex
  exact readComplex_readable hpart

end CssLocator
