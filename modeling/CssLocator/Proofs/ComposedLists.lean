import CssLocator.Proofs.PrintedLists

/-!
# Composed lists

Texts that close what they open can be put together. Joined by commas they are read as their lists, one
after the other, and between the parentheses of a pseudo-class such a text is the argument as it stands.
-/

namespace CssLocator

open Identifier

variable {n : Nesting} {s t name : Text} {ss parts : List Text}

private theorem splitOuterCommas_cons_append {c : Char} (hc : c ≠ '\\')
    (h : splitOuterCommas (n.afterBracket c) (s ++ t) =
      splitOuterCommas (n.afterBracket c) s ++ parts) :
    splitOuterCommas n (c :: (s ++ t)) = splitOuterCommas n (c :: s) ++ parts := by
  rw [splitOuterCommas_cons hc, splitOuterCommas_cons hc]
  by_cases hcomma : c = ',' ∧ n.isOutside
  · -- an outer comma splits, and leaves the nesting as it is
    have hsame : n.afterBracket c = n := by
      rw [hcomma.1]
      obtain ⟨depth, _ | quote⟩ := n <;> simp [Nesting.afterBracket, Nesting.after, Nesting.isOutside] at *
    rw [hsame] at h
    rw [if_pos hcomma, if_pos hcomma, h, List.cons_append]
  · rw [if_neg hcomma, if_neg hcomma, h, Text.extendHead_append (splitOuterCommas_ne_nil _ _)]

/-- A comma behind a text that closes what it opens is an outer one. -/
theorem Nested.splitOuterCommas_append {q : Option Char} {i j : Nat} (h : Nested q i j s) (t : Text) :
    splitOuterCommas ⟨i + j, q⟩ (s ++ ',' :: t) =
      splitOuterCommas ⟨i + j, q⟩ s ++ splitOuterCommas .outside t := by
  induction h using Nested.scan_induction with
  | nil => exact splitOuterCommas_cons (by decide) .outside t
  | escaped c h ih =>
    have hne := splitOuterCommas_ne_nil
    rw [List.cons_append, List.cons_append, splitOuterCommas, splitOuterCommas, ih,
      Text.extendHead_append (hne _ _), Text.extendHead_append (Text.extendHead_ne_nil _ _)]
  | step _ _ hc hbracket _ _ ih =>
    have hafter := hbracket 0
    rw [Nat.add_zero, Nat.add_zero] at hafter
    refine splitOuterCommas_cons_append hc ?_
    rwa [hafter]

private theorem splitOuterCommas_join (hne : ss ≠ []) (h : ∀ s ∈ ss, Nested none 0 0 s) :
    splitOuterCommas .outside (Text.join [','] ss) = ss.flatMap (splitOuterCommas .outside) := by
  induction ss with
  | nil => exact absurd rfl hne
  | cons s ss ih =>
    obtain ⟨hs, hss⟩ := List.forall_mem_cons.1 h
    cases ss with
    | nil => simp [Text.join]
    | cons u ss =>
      rw [Text.join, List.append_assoc, List.singleton_append, List.flatMap_cons]
      exact (hs.splitOuterCommas_append _).trans
        (congrArg (splitOuterCommas .outside s ++ ·) (ih (List.cons_ne_nil _ _) hss))

theorem read_join_iff {relative : Bool} {list : SelectorList} (hne : ss ≠ [])
    (h : ∀ s ∈ ss, Nested none 0 0 s) :
    SelectorList.read relative (Text.join [','] ss) = .ok list ↔
      ∃ lists, List.Forall₂ (fun s l => SelectorList.read relative s = .ok l) ss lists ∧
        list = lists.flatten := by
  simp only [read_eq_ok_iff, splitOuterCommas_join hne h, forall₂_flatMap_iff]

/-- Letters are written as they are. -/
theorem escape_of_isAlpha (hname : ∀ c ∈ name, c.isAlpha) : escape name = name := by
  have hcolon : ∀ c ∈ name, c ≠ ':' := by
    rintro c hc rfl
    exact absurd (hname ':' hc) (by decide)
  have htail : ∀ s : Text, (∀ c ∈ s, c ≠ ':') → escapeTail s = s := by
    intro s hs
    induction s with
    | nil => rfl
    | cons c s ih =>
      obtain ⟨hc, hs⟩ := List.forall_mem_cons.1 hs
      simpa [escapeTail, hc] using ih hs
  cases name with
  | nil => rfl
  | cons c s =>
    have hs := htail s (List.forall_mem_cons.1 hcolon).2
    have hc := hname c List.mem_cons_self
    rcases escape_cons_cases c s with ⟨hdigit, -⟩ | ⟨rfl | rfl, -⟩ | ⟨-, -, hescape⟩
    · exact absurd (isAlpha_iff_toNat.1 hc) (by have := isDigit_iff_toNat.1 hdigit; omega)
    · exact absurd hc (by decide)
    · exact absurd hc (by decide)
    · rw [hescape, hs]

theorem isName_of_isAlpha (hne : name ≠ []) (hname : ∀ c ∈ name, c.isAlpha) : IsName name :=
  ⟨hne, fun c hc => ⟨by simp [isWritable, isContinue, isStart, hname c hc],
    isSpace_of_isAlpha (hname c hc)⟩⟩

private theorem read_pseudo_argument (hne : name ≠ []) (hname : ∀ c ∈ name, c.isAlpha)
    (h : Nested none 0 0 s) :
    SelectorList.read false (":" ++ name ++ "(" ++ s ++ ")") =
      .ok [[(.descendant, [.pseudo ⟨Text.lower name, some s⟩])]] := by
  have hletters := isName_of_isAlpha hne hname
  have hread := (Written.last (spells_pseudo_argument hletters h)
    (spellsLast_pseudo_argument hletters h)).read
  rwa [escape_of_isAlpha hname, List.flatten_cons, List.flatten_nil, List.append_nil] at hread

/-- Texts that close what they open, joined by commas, are read if each of them is, as their lists in
order. Between the parentheses of a pseudo-class such a text is the argument. -/
theorem nested_texts_compose :
    (∀ (relative : Bool) (ss : List Text), ss ≠ [] → (∀ s ∈ ss, Nested none 0 0 s) →
      ∀ list, SelectorList.read relative (Text.join [','] ss) = .ok list ↔
        ∃ lists, List.Forall₂ (fun s l => SelectorList.read relative s = .ok l) ss lists ∧
          list = lists.flatten) ∧
    ∀ name s : Text, name ≠ [] → (∀ c ∈ name, c.isAlpha) → Nested none 0 0 s →
      SelectorList.read false (":" ++ name ++ "(" ++ s ++ ")") =
        .ok [[(.descendant, [.pseudo ⟨Text.lower name, some s⟩])]] :=
  ⟨fun _ _ hne h _ => read_join_iff hne h, fun _ _ hne hname h => read_pseudo_argument hne hname h⟩

/-- One comma is in quotes, one separates the texts, and one is in the second text. -/
theorem nested_texts_compose_commas :
    SelectorList.read true (Text.join [','] ["> a", "b,[c=',']"]) =
        .ok [[(.child, [.tag "a"])], [(.descendant, [.tag "b"])],
          [(.descendant, [.hasAttribute "c" (some (.equal, ","))])]] ∧
      SelectorList.read false (":" ++ "Not" ++ "(" ++ "b,[c=',']" ++ ")") =
        .ok [[(.descendant, [.pseudo ⟨"not", some "b,[c=',']"⟩])]] := by
  have hfirst : Nested none 0 0 "> a" := .flat rfl (.flat rfl (.flat rfl .nil))
  have hquoted : Nested none 0 1 "',']" :=
    .openQuote (.inr rfl) (.quoted (by decide) (by decide) (.closeQuote (by decide) (.closeBracket .nil)))
  have hsecond : Nested none 0 0 "b,[c=',']" :=
    .flat rfl (.flat rfl (.openBracket (.flat rfl (.flat rfl hquoted))))
  have hletters : ("Not" : Text).all Char.isAlpha := by decide
  constructor
  · refine (nested_texts_compose.1 true _ (List.cons_ne_nil _ _)
      (List.forall_mem_cons.2 ⟨hfirst, List.forall_mem_singleton.2 hsecond⟩) _).2
      ⟨[[[(.child, [.tag "a"])]], [[(.descendant, [.tag "b"])],
        [(.descendant, [.hasAttribute "c" (some (.equal, ","))])]]], ?_, rfl⟩
    exact .cons (by decide +kernel) (.cons (by decide +kernel) .nil)
  · exact nested_texts_compose.2 _ _ (List.cons_ne_nil _ _) (List.all_eq_true.1 hletters) hsecond

end CssLocator
