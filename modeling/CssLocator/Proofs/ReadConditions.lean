import CssLocator.Proofs.WrittenConditions

/-!
# Reading written conditions

Every condition written as selector text is read as the same condition, whatever other condition
follows it. At the end of a selector the text may have lost its trailing white space.
-/

namespace CssLocator

open Identifier

variable {n : Nesting} {u v : Text} {x : SimpleSelector}

/-- The characters with which a condition other than a type begins. -/
def startsCondition (c : Char) : Bool := c == '.' || c == '#' || c == '[' || c == ':'

theorem startsCondition_cases {c : Char} (h : startsCondition c) :
    c = '.' ∨ c = '#' ∨ c = '[' ∨ c = ':' := by
  simpa [startsCondition, or_assoc] using h

theorem not_startsType_of_startsCondition {c : Char} (h : startsCondition c) :
    startsType c = false := by
  rcases startsCondition_cases h with rfl | rfl | rfl | rfl <;> decide

theorem not_endsCompound_of_startsCondition {c : Char} (h : startsCondition c) :
    endsCompound c = false := by
  rcases startsCondition_cases h with rfl | rfl | rfl | rfl <;> decide

/-- The end of a compound or another condition. -/
def Continues (r : Text) : Prop := ∀ c ∈ r.head?, startsCondition c

theorem Continues.endsName {r : Text} (h : Continues r) : EndsName r := by
  intro c hc
  rcases startsCondition_cases (h c hc) with rfl | rfl | rfl | rfl <;> decide

/-- What neither continues a name nor begins an argument. -/
structure EndsSimple (r : Text) : Prop where
  endsName : EndsName r
  noArgument : r.head? ≠ some '('

theorem EndsSimple.nil : EndsSimple [] := ⟨by simp [EndsName], nofun⟩

theorem Continues.endsSimple {r : Text} (h : Continues r) : EndsSimple r where
  endsName := h.endsName
  noArgument := fun hparen => by
    have hstarts := h '(' hparen
    revert hstarts
    decide

/-- The text stands for the simple selector. -/
structure Spells (u : Text) (x : SimpleSelector) : Prop where
  unsplit : Unsplit .outside u .outside
  read : ∀ r, EndsSimple r → readSimple (u ++ r) = .ok (x, r)
  head : ∀ c ∈ u.head?, Text.isSpace c = false ∧ combinatorOf? c = none

/-- The text stands for the simple selector even when trailing white space is taken away. -/
def SpellsLast (u : Text) (x : SimpleSelector) : Prop := readSimple (trimEnd u) = .ok (x, [])

theorem Spells.ne_nil (h : Spells u x) : u ≠ [] := by
  rintro rfl
  have := h.read [] .nil
  cases this

theorem Spells.last (h : Spells u x) (hu : ∀ c ∈ u.getLast?, Text.isSpace c = false) :
    SpellsLast u x := by
  have hread := h.read [] .nil
  rw [List.append_nil] at hread
  rw [SpellsLast, trimEnd_eq_self hu, hread]

private theorem readSimple_of_startsType {c : Char} {r name rest : Text} (hc : startsType c)
    (hread : read? (c :: r) = some (name, rest)) :
    readSimple (c :: r) = .ok (.tag (Text.lower name), rest) := by
  have hne : ∀ y, startsType y = false → c ≠ y := by
    rintro y hy rfl
    simp [hc] at hy
  rw [readSimple, if_neg (hne '*' (by decide)), if_neg (hne '.' (by decide)),
    if_neg (hne '#' (by decide)), if_neg (hne '[' (by decide)), if_neg (hne ':' (by decide)),
    if_pos hc, hread]

private theorem combinatorOf?_of_startsType {c : Char} (hc : startsType c) :
    combinatorOf? c = none := by
  have hne : ∀ y, startsType y = false → c ≠ y := by
    rintro y hy rfl
    simp [hc] at hy
  rw [combinatorOf?, if_neg (hne '>' (by decide)), if_neg (hne '+' (by decide)),
    if_neg (hne '~' (by decide))]

/-- A written name begins with its first character or with a backslash. -/
theorem escape_eq_cons {name : Text} (hne : name ≠ []) (hname : ∀ c ∈ name, isWritable c) :
    ∃ c r, escape name = c :: r ∧ startsType c ∧ (c = '\\' ∨ name.head? = some c) := by
  obtain ⟨c, s, rfl⟩ := List.exists_cons_of_ne_nil hne
  rcases escape_cons_cases c s with ⟨-, hescape⟩ | ⟨-, hescape⟩ | ⟨hdigit, hcolon, hescape⟩
  · exact ⟨'\\', _, hescape, by decide, .inl rfl⟩
  · exact ⟨'\\', _, hescape, by decide, .inl rfl⟩
  · refine ⟨c, _, hescape, ?_, .inr rfl⟩
    have hc : isWritable c := hname c List.mem_cons_self
    simp only [isWritable, isContinue, hdigit, Bool.or_false, Bool.or_eq_true, beq_iff_eq, hcolon,
      or_false] at hc
    simp [startsType, hc]

private theorem head_escape {name : Text} (hne : name ≠ []) (hname : ∀ c ∈ name, isWritable c)
    (hstart : ∀ c ∈ name.head?, Text.isSpace c = false) :
    ∀ c ∈ (escape name).head?, Text.isSpace c = false ∧ combinatorOf? c = none := by
  obtain ⟨c, r, hescape, htype, hc⟩ := escape_eq_cons hne hname
  intro d hd
  rw [hescape, List.head?_cons, Option.mem_some_iff] at hd
  subst hd
  refine ⟨?_, combinatorOf?_of_startsType htype⟩
  rcases hc with rfl | hc
  · decide
  · exact hstart c hc

theorem spells_tag {name : Text} (hne : name ≠ []) (hname : ∀ c ∈ name, isWritable c)
    (hlower : Text.lower name = name) (hstart : ∀ c ∈ name.head?, Text.isSpace c = false) :
    Spells (escape name) (.tag name) where
  unsplit := unsplit_escape rfl hname
  read := by
    intro r hr
    obtain ⟨c, s, hescape, htype, -⟩ := escape_eq_cons hne hname
    have hread := read?_escape hne hname hr.endsName
    rw [hescape, List.cons_append] at hread ⊢
    rw [readSimple_of_startsType htype hread, hlower]
  head := head_escape hne hname hstart

theorem spellsLast_tag {name : Text} (hne : name ≠ []) (hname : ∀ c ∈ name, isWritable c)
    (hlower : Text.lower name = name) (hstart : ∀ c ∈ name.head?, Text.isSpace c = false)
    (hend : ∀ c ∈ name.getLast?, Text.isSpace c = false) :
    SpellsLast (escape name) (.tag name) := by
  obtain ⟨c, s, hescape, htype, -⟩ := escape_eq_cons hne hname
  have hspace : Text.isSpace c = false :=
    (head_escape hne hname hstart c (by simp [hescape])).1
  have ht := trimEnd_cons hspace s
  have hread := read?_trimEnd_escape hne hname hend
  rw [hescape, ht] at hread
  rw [SpellsLast, hescape, ht, readSimple_of_startsType htype hread, hlower]

/-- The mark in front of a name makes it a condition. -/
inductive Marks : Char → (Text → SimpleSelector) → Prop
  | className : Marks '.' .className
  | id : Marks '#' .id

namespace Marks

variable {mark : Char} {condition : Text → SimpleSelector} (h : Marks mark condition)

include h

theorem readSimple {r name rest : Text} (hread : read? r = some (name, rest)) :
    CssLocator.readSimple (mark :: r) = .ok (condition name, rest) := by
  cases h <;> simp [CssLocator.readSimple, hread]

theorem spells {name : Text} (hne : name ≠ []) (hname : ∀ c ∈ name, isWritable c) :
    Spells (mark :: escape name) (condition name) where
  unsplit := by
    have hmark : isNeutral mark := by cases h <;> decide
    exact (unsplit_neutral rfl hmark).cons (unsplit_escape rfl hname)
  read r hr := h.readSimple (read?_escape hne hname hr.endsName)
  head := by cases h <;> simp <;> decide

theorem spellsLast {name : Text} (hne : name ≠ []) (hname : ∀ c ∈ name, isWritable c)
    (hend : ∀ c ∈ name.getLast?, Text.isSpace c = false) :
    SpellsLast (mark :: escape name) (condition name) := by
  have hspace : Text.isSpace mark = false := by cases h <;> decide
  rw [SpellsLast, trimEnd_cons hspace]
  exact h.readSimple (read?_trimEnd_escape hne hname hend)

end Marks

section Attributes

private theorem readSimple_attribute {r rest : Text} (h : readAttribute r = .ok (x, rest)) :
    readSimple ('[' :: r) = .ok (x, rest) := by
  simp [readSimple, h]

theorem skipSpace_of_head {s : Text} (h : ∀ c ∈ s.head?, Text.isSpace c = false) :
    Text.skipSpace s = s := by
  cases s with
  | nil => rfl
  | cons c s => simp [Text.skipSpace, h c rfl]

/-- No operator begins like the rest of a name or with white space. -/
theorem head_symbol (o : AttributeOperator) (r : Text) :
    ∀ c ∈ (o.symbol ++ r).head?, (isContinue c = false ∧ c ≠ '\\') ∧ Text.isSpace c = false := by
  cases o <;> simp [AttributeOperator.symbol, AttributeOperator.mark] <;> decide

@[simp] theorem readOperator_symbol (o : AttributeOperator) (r : Text) :
    readOperator (o.symbol ++ r) = .ok (some o, r) := by
  cases o <;> simp [AttributeOperator.symbol, AttributeOperator.mark, readOperator, operatorOfMark?]

@[simp] theorem readAttributeValue_quoted (value r : Text) :
    readAttributeValue (quoted value ++ r) = .ok (unescapeQuotes value, r) := by
  rw [quoted_eq]
  simp [readAttributeValue]

private theorem head?_escape_append {name : Text} (hne : name ≠ []) (hname : ∀ c ∈ name, isWritable c)
    (r : Text) : (escape name ++ r).head? = (escape name).head? := by
  obtain ⟨c, s, hescape, -⟩ := escape_eq_cons hne hname
  simp [hescape]

variable {name : Text} (hne : name ≠ []) (hname : ∀ c ∈ name, isWritable c)
  (hstart : ∀ c ∈ name.head?, Text.isSpace c = false)

include hne hname hstart

private theorem skipSpace_escape (r : Text) :
    Text.skipSpace (escape name ++ r) = escape name ++ r := by
  refine skipSpace_of_head ?_
  rw [head?_escape_append hne hname]
  exact fun c hc => (head_escape hne hname hstart c hc).1

private theorem readAttribute_presence (r : Text) :
    readAttribute (escape name ++ ']' :: r) = .ok (.hasAttribute name none, r) := by
  have hread := read?_escape hne hname (r := ']' :: r) (by simp [EndsName]; decide)
  have hskip : Text.skipSpace (']' :: r) = ']' :: r := skipSpace_of_head (by simp; decide)
  rw [readAttribute, skipSpace_escape hne hname hstart, hread]
  simp [hskip, readOperator]

private theorem readAttribute_comparison (o : AttributeOperator) (value r : Text) :
    readAttribute (escape name ++ o.symbol ++ quoted value ++ ']' :: r) =
      .ok (.hasAttribute name (some (o, unescapeQuotes value)), r) := by
  have hread := read?_escape hne hname (r := o.symbol ++ (quoted value ++ ']' :: r))
    fun c hc => (head_symbol o _ c hc).1
  have hsymbol : Text.skipSpace (o.symbol ++ (quoted value ++ ']' :: r)) =
      o.symbol ++ (quoted value ++ ']' :: r) :=
    skipSpace_of_head fun c hc => (head_symbol o _ c hc).2
  have hvalue : Text.skipSpace (quoted value ++ ']' :: r) = quoted value ++ ']' :: r :=
    skipSpace_of_head (by simp [quoted_eq]; decide)
  have hclose : Text.skipSpace (']' :: r) = ']' :: r := skipSpace_of_head (by simp; decide)
  rw [List.append_assoc, List.append_assoc, readAttribute, skipSpace_escape hne hname hstart, hread]
  simp [hsymbol, hvalue, hclose]

omit hne hstart in
private theorem unsplit_attribute (test : Option (AttributeOperator × Text)) :
    Unsplit .outside (attributeNativeText name test) .outside := by
  have hopen : Unsplit .outside ['['] ⟨1, none⟩ := unsplit_singleton (by decide) (.inl (by decide))
  have hclose : Unsplit ⟨1, none⟩ [']'] .outside := unsplit_singleton (by decide) (.inl (by decide))
  have hwritten : Unsplit ⟨1, none⟩ (escape name) ⟨1, none⟩ := unsplit_escape rfl hname
  cases test with
  | none => exact (hopen.append hwritten).append hclose
  | some test =>
    obtain ⟨o, value⟩ := test
    have hsymbol : Unsplit ⟨1, none⟩ o.symbol ⟨1, none⟩ := by
      have hneutral : o.symbol.all isNeutral := by cases o <;> decide
      exact unsplit_of_neutral rfl (List.all_eq_true.1 hneutral)
    exact (((hopen.append hwritten).append hsymbol).append (unsplit_quoted 1 value)).append hclose

/-- A value loses the backslashes of its escaped double quotes. -/
theorem spells_attribute (test : Option (AttributeOperator × Text)) :
    Spells (attributeNativeText name test)
      (.hasAttribute name (test.map fun (o, value) => (o, unescapeQuotes value))) where
  unsplit := unsplit_attribute hname test
  read := by
    intro r _
    cases test with
    | none =>
      have hread := readSimple_attribute (readAttribute_presence hne hname hstart r)
      simpa [attributeNativeText] using hread
    | some test =>
      obtain ⟨o, value⟩ := test
      have hread := readSimple_attribute (readAttribute_comparison hne hname hstart o value r)
      simpa [attributeNativeText] using hread
  head := by
    rcases test with _ | ⟨o, value⟩ <;> simp [attributeNativeText] <;> decide

omit hne hname hstart in
theorem getLast?_attributeNativeText (test : Option (AttributeOperator × Text)) :
    ∀ c ∈ (attributeNativeText name test).getLast?, Text.isSpace c = false := by
  have hlast : (attributeNativeText name test).getLast? = some ']' := by
    cases test with
    | none => exact List.getLast?_concat
    | some test => exact List.getLast?_concat
  intro c hc
  rw [hlast] at hc
  cases hc
  decide

end Attributes

theorem readSimple_pseudo {r rest : Text} {use : PseudoUse} (h : readPseudo r = .ok (use, rest)) :
    readSimple (':' :: r) = .ok (.pseudo use, rest) := by
  simp [readSimple, h]

section Pseudo

theorem readPseudo_of_read? {s name r : Text} (hhead : s.head? ≠ some ':')
    (hread : read? s = some (name, r)) (hr : r.head? ≠ some '(') :
    readPseudo s = .ok (⟨Text.lower name, none⟩, r) := by
  rw [readPseudo, if_neg hhead, hread]
  split
  · rename_i h
    cases h
  · rename_i h
    cases h
    exact absurd rfl hr
  · rename_i h
    cases h
    rfl

variable {name : Text} (hne : name ≠ []) (hname : ∀ c ∈ name, isWritable c)

include hne hname

theorem head?_escape_ne : (escape name).head? ≠ some ':' := by
  obtain ⟨c, s, hescape, htype, -⟩ := escape_eq_cons hne hname
  rw [hescape]
  rintro heq
  cases heq
  revert htype
  decide

theorem readPseudo_escape {r : Text} (hr : EndsSimple r) :
    readPseudo (escape name ++ r) = .ok (⟨Text.lower name, none⟩, r) := by
  refine readPseudo_of_read? ?_ (read?_escape hne hname hr.endsName) hr.noArgument
  rw [head?_escape_append hne hname]
  exact head?_escape_ne hne hname

theorem readPseudo_escape_argument {argument later r : Text}
    (h : readArgument? .outside later = some (argument, r)) :
    readPseudo (escape name ++ '(' :: later) = .ok (⟨Text.lower name, some argument⟩, r) := by
  have hread := read?_escape hne hname (r := '(' :: later) (by simp [EndsName]; decide)
  have hhead : (escape name ++ '(' :: later).head? ≠ some ':' := by
    rw [head?_escape_append hne hname]
    exact head?_escape_ne hne hname
  rw [readPseudo, if_neg hhead, hread]
  simp only [h]
  rfl

end Pseudo

private theorem readArgument?_append {s : Text} (hs : ∀ c ∈ s, isNeutral c) (r : Text) :
    readArgument? .outside (s ++ ')' :: r) = some (s, r) := by
  induction s with
  | nil => rfl
  | cons c s ih =>
    have hc := hs c List.mem_cons_self
    have ih := ih fun x hx => hs x (List.mem_cons_of_mem c hx)
    simp only [isNeutral, Bool.and_eq_true, bne_iff_ne] at hc
    obtain ⟨⟨⟨⟨⟨⟨⟨hback, -⟩, hdouble⟩, hsingle⟩, hopen⟩, hclose⟩, -⟩, -⟩ := hc
    have hsame : Nesting.afterParenthesis .outside c = .outside := by
      simp [Nesting.afterParenthesis, Nesting.after, Nesting.outside, hdouble, hsingle, hopen, hclose]
    rw [List.cons_append, readArgument?, if_neg fun h => hclose h.1, hsame, ih]
    · rfl
    · intro d t hd
      exact absurd hd hback

private theorem mem_text {a : AnPlusB} {c : Char} (h : c ∈ a.text) :
    c.isDigit ∨ c = '-' ∨ c = '+' ∨ c = 'n' := by
  have hint : ∀ i : Int, c ∈ Text.ofInt i → c.isDigit ∨ c = '-' := by
    intro i hi
    unfold Text.ofInt at hi
    split at hi
    · rcases List.mem_cons.1 hi with rfl | hi
      · exact .inr rfl
      · exact .inl (isDigit_of_mem_ofNat hi)
    · exact .inl (isDigit_of_mem_ofNat hi)
  unfold AnPlusB.text at h
  rcases a with ⟨_ | a, _ | b⟩
  · simp at h
  · exact (hint b h).imp_right .inl
  · rcases List.mem_append.1 h with h | h
    · exact (hint a h).imp_right .inl
    · exact .inr (.inr (.inr (by simpa using h)))
  · dsimp only at h
    rcases List.mem_append.1 h with h | h
    · rcases List.mem_append.1 h with h | h
      · exact (hint a h).imp_right .inl
      · exact .inr (.inr (.inr (by simpa using h)))
    · split at h
      · exact (hint b h).imp_right .inl
      · rcases List.mem_cons.1 h with rfl | h
        · exact .inr (.inr (.inl rfl))
        · exact (hint b h).imp_right .inl

private theorem isNeutral_of_mem_text {a : AnPlusB} {c : Char} (h : c ∈ a.text) : isNeutral c := by
  rcases mem_text h with h | rfl | rfl | rfl
  · exact isNeutral_of_isContinue (isContinue_of_isDigit h)
  all_goals decide

namespace Structural

variable {kind : Structural} {a : AnPlusB}

@[simp] theorem escape_name (kind : Structural) : escape kind.name = kind.name := by cases kind <;> rfl

private theorem name_ne_nil (kind : Structural) : kind.name ≠ [] := by cases kind <;> decide

private theorem isWritable_of_mem_name (kind : Structural) {c : Char} (h : c ∈ kind.name) :
    isWritable c := by
  have hname : kind.name.all isWritable := by cases kind <;> decide
  exact List.all_eq_true.1 hname c h

/-- The pseudo-class with a read argument, as it is read again. -/
def respelled (kind : Structural) (a : AnPlusB) : PseudoUse :=
  ⟨kind.name, if kind.takesArgument then some a.text else none⟩

@[simp] theorem lower_name (kind : Structural) : Text.lower kind.name = kind.name := by
  cases kind <;> rfl

private theorem readPseudo_name (kind : Structural) {r : Text} (hr : EndsSimple r) :
    readPseudo (kind.name ++ r) = .ok (⟨kind.name, none⟩, r) := by
  have hread := readPseudo_escape kind.name_ne_nil (fun _ => kind.isWritable_of_mem_name) hr
  rwa [escape_name, lower_name] at hread

@[simp] theorem readPseudo_argument (kind : Structural) (r : Text) :
    readPseudo (kind.name ++ '(' :: (a.text ++ ')' :: r)) = .ok (⟨kind.name, some a.text⟩, r) := by
  have hargument := readArgument?_append (fun c => isNeutral_of_mem_text (a := a)) r
  have hread := readPseudo_escape_argument kind.name_ne_nil
    (fun _ => kind.isWritable_of_mem_name) hargument
  rwa [escape_name, lower_name] at hread

theorem spelling_eq_cons (kind : Structural) (a : AnPlusB) :
    kind.spelling a =
      ':' :: (kind.name ++ if kind.takesArgument then '(' :: (a.text ++ [')']) else []) := by
  cases h : kind.takesArgument <;> simp [spelling, AnPlusB.nativeText, h]

private theorem unsplit_spelling (kind : Structural) (a : AnPlusB) :
    Unsplit .outside (kind.spelling a) .outside := by
  have hcolon : Unsplit .outside [':'] .outside := unsplit_neutral rfl (by decide)
  have hname : Unsplit .outside kind.name .outside := by
    have := unsplit_escape (n := .outside) rfl fun c => kind.isWritable_of_mem_name (c := c)
    rwa [escape_name] at this
  have hopen : Unsplit .outside ['('] ⟨1, none⟩ := unsplit_singleton (by decide) (.inl (by decide))
  have htext : Unsplit ⟨1, none⟩ a.text ⟨1, none⟩ :=
    unsplit_of_neutral rfl fun c => isNeutral_of_mem_text
  have hclose : Unsplit ⟨1, none⟩ [')'] .outside := unsplit_singleton (by decide) (.inl (by decide))
  rw [spelling_eq_cons]
  refine hcolon.cons (hname.append ?_)
  cases kind.takesArgument with
  | false => exact .nil _
  | true => exact hopen.cons (htext.append hclose)

theorem spells_spelling (kind : Structural) (a : AnPlusB) :
    Spells (kind.spelling a) (.pseudo (kind.respelled a)) where
  unsplit := unsplit_spelling kind a
  read := by
    intro r hr
    rw [spelling_eq_cons, List.cons_append, List.append_assoc]
    refine readSimple_pseudo ?_
    cases h : kind.takesArgument with
    | false =>
      have hread := kind.readPseudo_name hr
      simpa [respelled, h] using hread
    | true => simp [respelled, h]
  head := by
    rw [spelling_eq_cons]
    simp only [List.head?_cons, Option.mem_def, Option.some.injEq, forall_eq']
    decide

theorem getLast?_spelling (kind : Structural) (a : AnPlusB) :
    ∀ c ∈ (kind.spelling a).getLast?, Text.isSpace c = false := by
  have hname : ∀ c ∈ kind.name.getLast?, Text.isSpace c = false := by
    intro c hc
    cases kind <;> cases hc <;> decide
  intro c hc
  cases h : kind.takesArgument with
  | false =>
    obtain ⟨x, s, hxs⟩ := List.exists_cons_of_ne_nil kind.name_ne_nil
    have hlast : (kind.spelling a).getLast? = kind.name.getLast? := by
      rw [spelling_eq_cons, h, hxs]
      simp [List.getLast?_cons_cons]
    exact hname c (hlast ▸ hc)
  | true =>
    have hlast : (kind.spelling a).getLast? = some ')' := by
      have hsplit : kind.spelling a = (':' :: kind.name ++ '(' :: a.text) ++ [')'] := by
        simp [spelling_eq_cons, h]
      rw [hsplit, List.getLast?_concat]
    rw [hlast] at hc
    cases hc
    decide

/-- The argument is the same when it is read again. -/
theorem read_respelled (h : if kind.takesArgument then a.Readable else a = ⟨none, none⟩) :
    kind.read (kind.respelled a) = .ok a := by
  cases harg : kind.takesArgument with
  | false =>
    rw [harg] at h
    simp only [Bool.false_eq_true, if_false] at h
    simp [read, check, checkArgument, respelled, harg, h, bind, Except.bind, pure, Except.pure]
  | true =>
    rw [harg] at h
    simp only [if_true] at h
    simp [read, check, checkArgument, respelled, harg, argument, PseudoUse.argumentText,
      AnPlusB.ofArgument_text h, bind, Except.bind]

@[simp] theorem ofName?_name (kind : Structural) :
    PseudoClass.ofName? kind.name = some (.structural kind) := by
  cases kind <;> rfl

end Structural

end CssLocator
