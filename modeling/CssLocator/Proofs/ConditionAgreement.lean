import CssLocator.Proofs.PathAgreement

/-!
# Agreement of single conditions

What the predicates of class and attribute conditions and of structural pseudo-classes say about an
element, and exactly when that is what the matcher says. The two differ for empty operands, for words
in a row, for white space that is not ASCII white space, and for a second top-level element.
-/

namespace CssLocator

open XPath

variable {d : Document} {i : Nat}

/-- The truth value of a predicate, if it has one. -/
def truth? (d : Document) (focus : Focus) (text : Text) : Option Bool :=
  ((parse text).toOption.bind fun e => (eval d d.order e focus).toOption).map (·.toBoolean)

/-- The text is parsed, and for the node it has the truth value, wherever the node stands. -/
def Says (d : Document) (i : Nat) (text : Text) (b : Bool) : Prop :=
  ∃ e, parse text = .ok e ∧ ∀ position size, ∃ v,
    eval d d.order e ⟨.tree i, position, size⟩ = .ok v ∧ v.toBoolean = b

private theorem says_of_decides {text : Text} {e : Expr} {holds : Focus → Bool} {b : Bool}
    (hspelled : Spelled 4 text e) (hdecides : Decides d d.order e holds)
    (hholds : ∀ position size, holds ⟨.tree i, position, size⟩ = b) : Says d i text b := by
  refine ⟨e, (hspelled.raise (j := 6) (by decide)).parse, fun position size => ?_⟩
  obtain ⟨v, hv, htruth, -⟩ := hdecides i position size
  exact ⟨v, hv, htruth.trans (hholds position size)⟩

private theorem says_class (d : Document) (i : Nat) (name : Text) :
    Says d i (classPathText name) (AttributeOperator.word.pathHolds (d.attribute? i "class") name) :=
  says_of_decides (spelled_class name) (decides_condition (x := .className name) rfl) fun _ _ => rfl

private theorem says_exists (d : Document) (i : Nat) (name : Text) :
    Says d i (attributePathText name none) (d.attribute? i name).isSome :=
  says_of_decides (spelled_attributeCondition name none)
    (decides_condition (x := .hasAttribute name none) rfl) fun _ _ => rfl

private theorem says_comparison (d : Document) (i : Nat) (name : Text) (o : AttributeOperator)
    (wanted : Text) :
    Says d i (attributePathText name (some (o, wanted)))
      (o.pathHolds (d.attribute? i name) wanted) :=
  says_of_decides (spelled_attributeCondition name (some (o, wanted)))
    (decides_condition (x := .hasAttribute name (some (o, wanted))) rfl) fun _ _ => rfl

private theorem holds_className (name : Text) : (SimpleSelector.className name).holds d i =
    (d.attribute? i "class").any (AttributeOperator.word.holds · name) := by
  show (d.classes i).contains name = _
  rw [Document.classes]
  cases d.attribute? i "class" <;> rfl

/-- For every node of a document, whatever its attributes are: the predicates of class and attribute
conditions have truth values. That an attribute exists means the same for the matcher, and a class or
a comparison does exactly when the operator agrees. -/
theorem attribute_conditions_agree_iff (d : Document) (i : Nat)
    (hlength : ∀ name, ∀ value ∈ d.attribute? i name, value.length < 2 ^ 52) :
    (∀ name, ∃ b, Says d i (classPathText name) b ∧
      (b = (SimpleSelector.className name).holds d i ↔
        AttributeOperator.word.Agrees (d.attribute? i "class") name)) ∧
    (∀ name, Says d i (attributePathText name none)
      ((SimpleSelector.hasAttribute name none).holds d i)) ∧
    ∀ name o wanted, ∃ b, Says d i (attributePathText name (some (o, wanted))) b ∧
      (b = (SimpleSelector.hasAttribute name (some (o, wanted))).holds d i ↔
        AttributeOperator.Agrees (d.attribute? i name) wanted o) := by
  refine ⟨fun name => ⟨_, says_class d i name, ?_⟩, fun name => ?_, fun name o wanted =>
    ⟨_, says_comparison d i name o wanted, ?_⟩⟩
  · rw [holds_className]
    exact AttributeOperator.pathHolds_eq_iff (hlength "class")
  · have hexists : (SimpleSelector.hasAttribute name none).holds d i =
        (d.attribute? i name).isSome := by
      show (d.attribute? i name).any (fun _ => true) = _
      cases d.attribute? i name <;> rfl
    rw [hexists]
    exact says_exists d i name
  · exact AttributeOperator.pathHolds_eq_iff (hlength name)

/-- A paragraph of three words, the last two with a vertical tab between them. -/
def paragraphDocument : Document :=
  Document.empty.appendElement Document.root "p" (.ofList [("class", "x y\x0bz")])

theorem attribute_conditions_agree_iff_paragraph :
    (∀ name, ∀ value ∈ paragraphDocument.attribute? 1 name, value.length < 2 ^ 52) ∧
      Says paragraphDocument 1 (attributePathText "class" (some (.finish, "z"))) true ∧
      (SimpleSelector.hasAttribute "class" (some (.finish, "z"))).holds paragraphDocument 1 = true := by
  have hvalues : ∀ value ∈ paragraphDocument.values, value.length < 2 ^ 52 := by decide +kernel
  have hlength : ∀ name, ∀ value ∈ paragraphDocument.attribute? 1 name, value.length < 2 ^ 52 :=
    fun _ value hvalue => hvalues value (Document.mem_values hvalue)
  have hholds : (SimpleSelector.hasAttribute "class" (some (.finish, "z"))).holds
      paragraphDocument 1 = true := by decide +kernel
  obtain ⟨b, hsays, hagree⟩ :=
    (attribute_conditions_agree_iff paragraphDocument 1 hlength).2.2 "class" .finish "z"
  have hnonempty : AttributeOperator.finish.Agrees (paragraphDocument.attribute? 1 "class") "z" :=
    List.cons_ne_nil _ _
  rw [hagree.2 hnonempty, hholds] at hsays
  exact ⟨hlength, hsays, hholds⟩

/-- The text is true of the paragraph, and the matcher refuses it. -/
def trueOnlyAsPath (text : Text) (x : SimpleSelector) : Bool :=
  truth? paragraphDocument ⟨.tree 1, 1, 1⟩ text == some true && !x.holds paragraphDocument 1

/-- Where predicates say more than the matcher: an empty operand, even for an attribute that is
missing, two words in a row, and a word before a vertical tab. -/
theorem attribute_conditions_disagree :
    trueOnlyAsPath (attributePathText "title" (some (.start, "")))
        (.hasAttribute "title" (some (.start, ""))) ∧
      trueOnlyAsPath (attributePathText "title" (some (.finish, "")))
        (.hasAttribute "title" (some (.finish, ""))) ∧
      trueOnlyAsPath (attributePathText "title" (some (.anywhere, "")))
        (.hasAttribute "title" (some (.anywhere, ""))) ∧
      trueOnlyAsPath (attributePathText "title" (some (.word, "")))
        (.hasAttribute "title" (some (.word, ""))) ∧
      trueOnlyAsPath (attributePathText "class" (some (.word, "x y")))
        (.hasAttribute "class" (some (.word, "x y"))) ∧
      trueOnlyAsPath (classPathText "y") (.className "y") := by
  decide +kernel

/-- The predicate for a word of an attribute is exact. For every node, attribute and word without white
space: the predicate is true of the node, wherever it stands, if and only if the attribute is there and
the word is one of those its white space separates, so that it stands in the value between white space
or the ends. -/
theorem word_conditions_exact (d : Document) (i : Nat) (name word : Text) (hne : word ≠ [])
    (hspace : ∀ c ∈ word, Text.isSpace c = false) :
    ∃ e b, parse (wordPath (attributePath name) word) = .ok e ∧
      (∀ position size, eval d d.order e ⟨.tree i, position, size⟩ = .ok (.boolean b)) ∧
      (b ↔ ∃ value ∈ d.attribute? i name, word ∈ Text.words Text.isSpace value) ∧
      (b ↔ ∃ value ∈ d.attribute? i name, Text.StandsIn Text.isSpace word value) := by
  have hblank : ' ' ∉ word := fun h => absurd (hspace ' ' h) (by decide)
  have htoken : AttributeOperator.word.pathHolds (d.attribute? i name) word ↔
      ∃ value ∈ d.attribute? i name, word ∈ Text.words Text.isSpace value := by
    rw [pathHolds_word_iff, Text.isRun_iff_mem hne hblank]
    cases d.attribute? i name with
    | none => exact ⟨nofun, nofun⟩
    | some value => simp
  refine ⟨_, _, ((spelled_word (spelled_attribute name) word).raise (Nat.zero_le 6)).parse,
    fun position size => hasValue_comparison .word name word i position size, htoken, ?_⟩
  rw [htoken]
  refine exists_congr fun value => and_congr_right fun _ => ?_
  exact Text.mem_words_iff hne hspace

/-- A paragraph with a class that begins and ends the others. -/
def repeatedDocument : Document :=
  Document.empty.appendElement Document.root "p" (.ofList [("class", "abab\taba\u00a0ab")])

/-- A word that begins and ends other ones of the value, and stands there alone. -/
theorem word_conditions_exact_repeated :
    ("ab" : Text) ≠ [] ∧ (∀ c ∈ ("ab" : Text), Text.isSpace c = false) ∧
      ∃ e, parse "contains(concat(' ', normalize-space(@class), ' '), ' ab ')" = .ok e ∧
        ∀ position size, eval repeatedDocument repeatedDocument.order e ⟨.tree 1, position, size⟩ =
          .ok (.boolean true) := by
  have hspace : ∀ c ∈ ("ab" : Text), Text.isSpace c = false :=
    List.forall_mem_cons.2 ⟨by decide, List.forall_mem_singleton.2 (by decide)⟩
  have hvalue : repeatedDocument.attribute? 1 "class" = some ("abab\taba\u00a0ab" : Text) := by
    decide +kernel
  obtain ⟨e, b, hparse, heval, -, hstands⟩ :=
    word_conditions_exact repeatedDocument 1 "class" "ab" (by decide) hspace
  have hlast : ("abab\taba\u00a0" : Text).getLast? = some '\u00a0' := rfl
  have hbefore : ∀ c ∈ ("abab\taba\u00a0" : Text).getLast?, Text.isSpace c := by
    intro c hc
    cases hlast.symm.trans hc
    decide
  have hb : b = true := hstands.2 ⟨_, hvalue, "abab\taba\u00a0", [], rfl, hbefore, by simp⟩
  rw [hb] at heval
  exact ⟨by decide, hspace, e, hparse, heval⟩

private theorem Document.place?_eq_some (h : d.Linked) {k n : Nat}
    (hplace : d.place? i = some (k, n)) :
    d.isElement i ∧ ∃ p, d.parent? i = some p ∧ k = (d.elementChildren p).idxOf i + 1 ∧
      n = (d.elementChildren p).length := by
  cases hp : d.parent? i with
  | none => simp [place?, hp] at hplace
  | some p =>
    have hmem : i ∈ d.elementChildren p := by
      rw [← List.isSome_idxOf?]
      cases hindex : (d.elementChildren p).idxOf? i with
      | none => simp [place?, hp, hindex] at hplace
      | some j => rfl
    have helement := ((mem_elementChildren h).1 hmem).2
    rw [place?_eq h helement hp, Option.some.injEq, Prod.mk.injEq] at hplace
    exact ⟨helement, p, rfl, hplace.1.symm, hplace.2.symm⟩

/-- For every element of a document that is read, at its place among the element children of its
parent: the predicate of a structural pseudo-class has a truth value, and it is what the matcher says
except that `:root` is true of every top-level element and not only of the first one. -/
theorem structural_conditions_agree_iff (json : Text) (d : Document) (i position size : Nat)
    (kind : Structural) (use : PseudoUse) (argument : AnPlusB)
    (hdocument : Document.ofText? json = some d) (hplace : d.place? i = some (position, size))
    (hread : kind.read use = .ok argument) (hsize : size + 2 ^ 31 ≤ 2 ^ 53) :
    ∃ text e v, kind.pathText use = .ok text ∧ parse text = .ok e ∧
      eval d d.order e ⟨.tree i, position, size⟩ = .ok v ∧
      (v.toBoolean = kind.holds d i argument ↔
        (kind = .root → d.documentElement? = some i ∨ (d.parent? i).any d.isElement)) := by
  have h : d.Grown := Document.grown_of_ofText? hdocument
  obtain ⟨helement, p, hp, hposition, hcount⟩ := Document.place?_eq_some h.linked hplace
  have hindex := Document.idxOf_elementChildren_lt h.linked helement hp
  have htext : kind.pathText use = .ok (kind.pathSpelling argument) := by
    rw [kind.pathText_eq, hread]
    rfl
  refine ⟨_, _, _, htext, (spelled_structural kind argument).parse,
    hasValue_structural kind argument i position size, ?_⟩
  show kind.pathHolds d ⟨.tree i, position, size⟩ argument = _ ↔ _
  by_cases hroot : kind = .root
  · subst hroot
    rw [Structural.pathHolds_root_iff h hp, hp]
    exact ⟨fun hfirst _ => hfirst, fun hfirst => hfirst rfl⟩
  · have hreadable : kind.takesArgument → argument.Readable := by
      intro htakes
      have hargument := Structural.readable_of_read hread
      rwa [if_pos htakes] at hargument
    have hequal := Structural.pathHolds_eq_of_place h hplace (by omega) (by omega) hsize hroot hreadable
    exact ⟨fun _ heq => absurd heq hroot, fun _ => hequal⟩

/-- Two top-level elements. -/
def fragmentText : Text := "\x7b\"children\":[\x7b\"tag\":\"a\"\x7d,\x7b\"tag\":\"b\"\x7d]\x7d"

theorem structural_conditions_agree_iff_fragment :
    ∃ d, Document.ofText? fragmentText = some d ∧ d.place? 2 = some (2, 2) ∧
      Structural.nthLastChild.read ⟨"nth-last-child", some "2n+1"⟩ = .ok ⟨some 2, some 1⟩ ∧
      2 + 2 ^ 31 ≤ 2 ^ 53 ∧
      ∃ text e v, Structural.nthLastChild.pathText ⟨"nth-last-child", some "2n+1"⟩ = .ok text ∧
        parse text = .ok e ∧ eval d d.order e ⟨.tree 2, 2, 2⟩ = .ok v ∧
        v.toBoolean = Structural.nthLastChild.holds d 2 ⟨some 2, some 1⟩ := by
  have hfragment : (Document.ofText? fragmentText).any fun d => d.place? 2 == some (2, 2) := by
    decide +kernel
  obtain ⟨d, hd, hplace⟩ := (Option.any_eq_true _ _).1 hfragment
  have hplace : d.place? 2 = some (2, 2) := by simpa using hplace
  have hread : Structural.nthLastChild.read ⟨"nth-last-child", some "2n+1"⟩ = .ok ⟨some 2, some 1⟩ := by
    decide +kernel
  obtain ⟨text, e, v, htext, hparse, heval, hagree⟩ := structural_conditions_agree_iff fragmentText d 2
    2 2 .nthLastChild ⟨"nth-last-child", some "2n+1"⟩ ⟨some 2, some 1⟩ hd hplace hread (by decide)
  exact ⟨d, hd, hplace, hread, by decide, text, e, v, htext, hparse, heval, hagree.2 nofun⟩

/-- The second of two top-level elements is a root for its predicate and not for the matcher. -/
theorem structural_conditions_disagree :
    Structural.root.pathText ⟨"root", none⟩ = .ok "not(parent::*)" ∧
      (Document.ofText? fragmentText).any fun d => d.place? 2 == some (2, 2) &&
        truth? d ⟨.tree 2, 2, 2⟩ "not(parent::*)" == some true &&
          !Structural.root.holds d 2 ⟨none, none⟩ := by
  decide +kernel

end CssLocator
