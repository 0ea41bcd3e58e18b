import CssLocator.Proofs.TestedSearches

/-!
# Navigated elements

Navigation asks an engine for nothing but queries and attributes, while a document has its links. In
a described document both lead to the same elements: upwards, among the siblings, and on the way up on
which a language is looked for, which ends at the top.
-/

namespace CssLocator

variable {m : Type → Type} [Monad m]

namespace Engine

variable {ν : Type}

/-- Looking for a language at one element after the other, each the parent element of the one before it,
ends with the result. -/
inductive LanguageSearch (engine : Engine m ν) : List ν → Option Text → Prop
  | found {e : ν} {language : Text} (h : engine.attributeValue e "lang" = pure (some language)) :
      LanguageSearch engine [e] (some language)
  | top {e : ν} (hnone : engine.attributeValue e "lang" = pure none)
      (hparent : engine.parent? e = pure none) : LanguageSearch engine [e] none
  | up {e p : ν} {above : List ν} {result : Option Text}
      (hnone : engine.attributeValue e "lang" = pure none)
      (hparent : engine.parent? e = pure (some p))
      (h : LanguageSearch engine (p :: above) result) : LanguageSearch engine (e :: p :: above) result

/-- A search that ends is found by any bound that leaves room for it. -/
theorem LanguageSearch.languageWithin?_eq [LawfulMonad m] {engine : Engine m ν} {e : ν}
    {above : List ν} {result : Option Text} (h : engine.LanguageSearch (e :: above) result) {n : Nat}
    (hn : above.length < n) : engine.languageWithin? n e = pure result := by
  induction above generalizing e n with
  | nil =>
    obtain ⟨n, rfl⟩ : ∃ k, n = k + 1 := ⟨n - 1, by omega⟩
    cases h with
    | found h => rw [Engine.languageWithin?, h, pure_bind]
    | top hnone hparent =>
      rw [Engine.languageWithin?, hnone, pure_bind]
      dsimp only
      rw [hparent, pure_bind]
  | cons p above ih =>
    rw [List.length_cons] at hn
    obtain ⟨n, rfl⟩ : ∃ k, n = k + 1 := ⟨n - 1, by omega⟩
    cases h with
    | up hnone hparent h =>
      rw [Engine.languageWithin?, hnone, pure_bind]
      dsimp only
      rw [hparent, pure_bind]
      exact ih h (by omega)

end Engine

namespace Document

variable {d : Document} {x p : Nat}

/-- The value of `lang` at the nearest of a node and its ancestors that has one. -/
def inheritedLanguage? (d : Document) (x : Nat) : Option Text :=
  (x :: d.ancestors x).findSome? (d.attribute? · "lang")

private theorem attribute?_of_not_isElement (hx : ¬ d.isElement x) (name : Text) :
    d.attribute? x name = none := by
  rw [isElement, Bool.not_eq_true, Option.isSome_eq_false_iff, Option.isNone_iff_eq_none] at hx
  rw [attribute?, hx]
  rfl

private theorem inheritedLanguage?_of_some {language : Text}
    (hx : d.attribute? x "lang" = some language) : d.inheritedLanguage? x = some language := by
  rw [inheritedLanguage?, List.findSome?_cons, hx]

/-- An element without a language of its own has that of its parent. -/
theorem inheritedLanguage?_of_none (h : d.Linked) (hx : d.attribute? x "lang" = none)
    (hp : d.parent? x = some p) : d.inheritedLanguage? x = d.inheritedLanguage? p := by
  rw [inheritedLanguage?, inheritedLanguage?, List.findSome?_cons, hx, h.ancestors_of_some hp]

/-- Nothing above an element on top of the document has a language. -/
theorem Grown.inheritedLanguage?_of_top (h : d.Grown) (hx : d.attribute? x "lang" = none)
    (htop : d.parentElement? x = none) : d.inheritedLanguage? x = none := by
  rw [inheritedLanguage?, List.findSome?_cons, hx]
  cases hp : d.parent? x with
  | none => rw [Linked.ancestors_of_none hp, List.findSome?_nil]
  | some p =>
    have hnot : ¬ d.isElement p := by
      intro helement
      have hparent := parentElement?_eq_some.2 ⟨hp, helement⟩
      rw [htop] at hparent
      cases hparent
    obtain rfl : p = root := (h.parent_element hp).resolve_right hnot
    rw [h.linked.ancestors_of_some hp, Linked.ancestors_of_none h.parent?_root]
    simp [attribute?_of_not_isElement hnot]

private theorem nodup_siblingElements (h : d.Linked) (x : Nat) : (d.siblingElements x).Nodup := by
  cases hparent : d.parentElement? x with
  | none =>
    rw [siblingElements_of_none hparent]
    exact List.nodup_singleton x
  | some p =>
    rw [siblingElements_of_some hparent]
    exact nodup_elementChildren h p

/-- An element stands behind the nearest sibling before it that is an element. -/
theorem exists_split_siblingElements (h : d.Linked) (hx : d.isElement x) :
    ∃ before after, d.siblingElements x = before ++ x :: after ∧
      before.getLast? = (d.parentElement? x).bind fun _ => (d.precedingSiblings x).find? d.isElement := by
  cases hparent : d.parentElement? x with
  | none =>
    rw [siblingElements_of_none hparent]
    exact ⟨[], [], rfl, rfl⟩
  | some p =>
    rw [siblingElements_of_some hparent]
    obtain ⟨before, after, hsplit, hfilter⟩ :=
      filter_precedingSiblings h hx (parentElement?_eq_some.1 hparent).1
    refine ⟨before, after, hsplit, ?_⟩
    rw [Option.bind_some, ← List.head?_filter, hfilter, List.head?_reverse]

end Document

namespace TreeEngine

variable [LawfulMonad m] {t : TreeEngine} {x : Nat}

/-- By induction on the way up: the engine finds the attribute or the parent element, as the tree has
them. -/
theorem languageSearch_toEngine (h : t.document.Grown) (hx : t.document.isElement x) :
    ∃ above, above <+: t.document.ancestors x ∧
      (t.toEngine : Engine m Nat).LanguageSearch (x :: above) (t.document.inheritedLanguage? x) := by
  induction x using h.linked.acyclic.induction with
  | _ x ih =>
    have hattached : x ∈ t.document.order := h.mem_order (Document.lt_size_of_isElement hx)
    have hvalue := attributeValue_toEngine (m := m) hattached "lang"
    have hparent := parent?_toEngine (m := m) h.linked hattached
    cases hlang : t.document.attribute? x "lang" with
    | some language =>
      rw [hlang] at hvalue
      rw [Document.inheritedLanguage?_of_some hlang]
      exact ⟨[], List.nil_prefix, .found hvalue⟩
    | none =>
      rw [hlang] at hvalue
      cases hp : t.document.parentElement? x with
      | none =>
        rw [hp] at hparent
        rw [h.inheritedLanguage?_of_top hlang hp]
        exact ⟨[], List.nil_prefix, .top hvalue hparent⟩
      | some p =>
        rw [hp] at hparent
        obtain ⟨hlink, helement⟩ := Document.parentElement?_eq_some.1 hp
        obtain ⟨above, habove, hsearch⟩ := ih p hlink helement
        rw [Document.inheritedLanguage?_of_none h.linked hlang hlink,
          h.linked.ancestors_of_some hlink]
        exact ⟨p :: above, (List.prefix_cons_inj p).2 habove, .up hvalue hparent hsearch⟩

theorem language?_toEngine (h : t.document.Grown) (hx : t.document.isElement x) :
    (t.toEngine : Engine m Nat).language? x = pure (t.document.inheritedLanguage? x) := by
  obtain ⟨above, habove, hsearch⟩ := languageSearch_toEngine (m := m) h hx
  have hlength := habove.length_le
  have hbound := h.linked.length_ancestors_lt x
  exact hsearch.languageWithin?_eq (Nat.lt_succ_of_lt (hlength.trans_lt hbound))

/-- For an attached element of a described document, navigation by queries leads where the links of the
tree lead, and the search for a language ends. -/
theorem navigation_follows_tree (t : TreeEngine) (json : Text)
    (hdocument : Document.ofText? json = some t.document) (x : Nat) (hx : x ∈ t.document.order)
    (helement : t.document.isElement x) :
    (t.toEngine : Engine m Nat).parent? x = pure (t.document.parentElement? x) ∧
      (t.toEngine : Engine m Nat).itselfWithSiblings x = pure (t.document.siblingElements x) ∧
      (∃ before, (t.toEngine : Engine m Nat).previousSiblings x = pure before ∧
        before ++ [x] <+: t.document.siblingElements x) ∧
      (t.toEngine : Engine m Nat).previousSibling? x = pure ((t.document.parentElement? x).bind
        fun _ => (t.document.precedingSiblings x).find? t.document.isElement) ∧
      (t.toEngine : Engine m Nat).language? x = pure (t.document.inheritedLanguage? x) ∧
      ∃ above, above <+: t.document.ancestors x ∧
        (t.toEngine : Engine m Nat).LanguageSearch (x :: above) (t.document.inheritedLanguage? x) := by
  have h := Document.grown_of_ofText? hdocument
  have hsiblings := itselfWithSiblings_toEngine (m := m) h.linked hx (h.rooted.settled hx helement)
  obtain ⟨before, after, hsplit, hlast⟩ := Document.exists_split_siblingElements h.linked helement
  have hbefore : (t.toEngine : Engine m Nat).previousSiblings x = pure before := by
    rw [Engine.previousSiblings, hsiblings, pure_bind,
      Document.takeWhile_ne hsplit (Document.nodup_siblingElements h.linked x)]
  refine ⟨parent?_toEngine h.linked hx, hsiblings, ⟨before, hbefore, ?_⟩, ?_,
    language?_toEngine h helement, languageSearch_toEngine h helement⟩
  · rw [hsplit]
    exact ⟨after, by simp⟩
  · rw [Engine.previousSibling?, hbefore, pure_bind, hlast]

/-- A list in no language with two items, a text before them and a comment between them. -/
def separatedText : Text :=
  "\x7b\"children\":[\x7b\"tag\":\"ul\",\"attrs\":\x7b\"lang\":\"\"\x7d,\"children\":[\x7b\"text\":\"a\"\x7d,\x7b\"tag\":\"li\"\x7d,\x7b\"comment\":\"b\"\x7d,\x7b\"tag\":\"li\"\x7d]\x7d]\x7d"

theorem navigation_follows_tree_separated : ∃ d, Document.ofText? separatedText = some d ∧
    5 ∈ d.order ∧ d.isElement 5 ∧
    ((mk d []).toEngine : Engine Id Nat).parent? 5 = pure (some 1) ∧
    ((mk d []).toEngine : Engine Id Nat).itselfWithSiblings 5 = pure [3, 5] ∧
    (∃ before, ((mk d []).toEngine : Engine Id Nat).previousSiblings 5 = pure before ∧
      before ++ [5] <+: [3, 5]) ∧
    ((mk d []).toEngine : Engine Id Nat).previousSibling? 5 = pure (some 3) ∧
    ((mk d []).toEngine : Engine Id Nat).language? 5 = pure (some []) ∧
    ∃ above, above <+: [1, 0] ∧
      ((mk d []).toEngine : Engine Id Nat).LanguageSearch (5 :: above) (some []) := by
  have hdocument : (Document.ofText? separatedText).any fun d =>
      decide (5 ∈ d.order ∧ d.isElement 5 ∧ d.parentElement? 5 = some 1 ∧
        d.siblingElements 5 = [3, 5] ∧ (d.precedingSiblings 5).find? d.isElement = some 3 ∧
        d.ancestors 5 = [1, 0] ∧ d.inheritedLanguage? 5 = some []) := by decide +kernel
  obtain ⟨d, hd, hvalues⟩ := (Option.any_eq_true _ _).1 hdocument
  obtain ⟨hx, helement, hparent, hsiblings, hprevious, habove, hlanguage⟩ := of_decide_eq_true hvalues
  have hnavigation := navigation_follows_tree (m := Id) (mk d []) separatedText hd 5 hx helement
  dsimp only at hnavigation
  rw [hparent, hsiblings, hlanguage, habove, Option.bind_some, hprevious] at hnavigation
  exact ⟨d, hd, hx, helement, hnavigation⟩

end TreeEngine

end CssLocator
