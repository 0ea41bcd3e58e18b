import CssLocator.Proofs.ReadCompounds

/-!
# Printed simple selectors and compounds

Every simple selector whose parts can be printed is read back from its text, and so is a compound,
whatever white space or combinator follows it. Arguments are printed as they are, so they have to
close their own parentheses, brackets and quotes.
-/

namespace CssLocator

open Identifier

variable {x : SimpleSelector} {xs : Compound} {name s r rest : Text}

/-- Characters that neither nest nor quote nor escape. -/
def isFlat (c : Char) : Bool :=
  c != '\\' && c != '"' && c != '\'' && c != '(' && c != ')' && c != '[' && c != ']'

/-- The text closes the quote, if any, and so many parentheses and brackets, and whatever it opens
itself. The two kinds of brackets are counted apart. -/
inductive Nested : (quote : Option Char) → (parentheses brackets : Nat) → Text → Prop
  | nil : Nested none 0 0 []
  | escaped {q : Option Char} {i j : Nat} {s : Text} (c : Char) (h : Nested q i j s) :
      Nested q i j ('\\' :: c :: s)
  | flat {c : Char} {i j : Nat} {s : Text} (hc : isFlat c) (h : Nested none i j s) :
      Nested none i j (c :: s)
  | openQuote {q : Char} {i j : Nat} {s : Text} (hq : q = '"' ∨ q = '\'') (h : Nested (some q) i j s) :
      Nested none i j (q :: s)
  | quoted {c q : Char} {i j : Nat} {s : Text} (hc : c ≠ '\\') (hq : c ≠ q)
      (h : Nested (some q) i j s) : Nested (some q) i j (c :: s)
  | closeQuote {q : Char} {i j : Nat} {s : Text} (hq : q ≠ '\\') (h : Nested none i j s) :
      Nested (some q) i j (q :: s)
  | openParenthesis {i j : Nat} {s : Text} (h : Nested none (i + 1) j s) : Nested none i j ('(' :: s)
  | closeParenthesis {i j : Nat} {s : Text} (h : Nested none i j s) : Nested none (i + 1) j (')' :: s)
  | openBracket {i j : Nat} {s : Text} (h : Nested none i (j + 1) s) : Nested none i j ('[' :: s)
  | closeBracket {i j : Nat} {s : Text} (h : Nested none i j s) : Nested none i (j + 1) (']' :: s)

private theorem isFlat_iff {c : Char} : isFlat c ↔
    c ≠ '\\' ∧ c ≠ '"' ∧ c ≠ '\'' ∧ c ≠ '(' ∧ c ≠ ')' ∧ c ≠ '[' ∧ c ≠ ']' := by
  simp [isFlat, and_assoc]

private theorem unsplit_inside {n n' : Nesting} {c : Char} (hc : c ≠ '\\') (hn : n.isOutside = false)
    (hafter : n.afterBracket c = n') : Unsplit n [c] n' := by
  rw [← hafter]
  exact unsplit_singleton hc (.inr hn)

private theorem readArgument?_inside {n n' : Nesting} {c : Char} (hc : c ≠ '\\')
    (hn : c ≠ ')' ∨ n.isOutside = false) (hafter : n.afterParenthesis c = n')
    (h : readArgument? n' r = some (s, rest)) : readArgument? n (c :: r) = some (c :: s, rest) := by
  have hsplit : ¬ (c = ')' ∧ n.isOutside = true) := by
    rintro ⟨hclose, hout⟩
    rcases hn with hn | hn
    · exact hn hclose
    · simp [hout] at hn
  rw [readArgument?, if_neg hsplit, hafter, h]
  · rfl
  · intro d t hd
    exact absurd hd hc

namespace Nested

variable {q : Option Char} {i j : Nat}

/-- Induction along a nested text. Every character that is not escaped moves both scans: the one for
commas counts the two kinds of brackets together, the reading of an argument counts parentheses only. -/
theorem scan_induction {motive : ∀ q i j s, Nested q i j s → Prop} (nil : motive none 0 0 [] .nil)
    (escaped : ∀ {q i j s} (c : Char) (h : Nested q i j s), motive q i j s h →
      motive q i j ('\\' :: c :: s) (.escaped c h))
    (step : ∀ {q q' i i' j j' c s} (h : Nested q i j (c :: s)) (h' : Nested q' i' j' s), c ≠ '\\' →
      (∀ k, Nesting.afterBracket ⟨i + j + k, q⟩ c = ⟨i' + j' + k, q'⟩) →
      Nesting.afterParenthesis ⟨i, q⟩ c = ⟨i', q'⟩ →
      (c ≠ ')' ∨ Nesting.isOutside ⟨i, q⟩ = false) → motive q' i' j' s h' → motive q i j (c :: s) h)
    {q : Option Char} {i j : Nat} {s : Text} (h : Nested q i j s) : motive q i j s h := by
  induction h with
  | nil => exact nil
  | escaped c h ih => exact escaped c h ih
  | flat hc h ih =>
    obtain ⟨hback, hdouble, hsingle, hopen, hclose, hopen', hclose'⟩ := isFlat_iff.1 hc
    refine step _ h hback (fun k => ?_) ?_ (.inl hclose) ih
    · simp [Nesting.afterBracket, Nesting.after, hdouble, hsingle, hopen, hclose, hopen', hclose']
    · simp [Nesting.afterParenthesis, Nesting.after, hdouble, hsingle, hopen, hclose]
  | openQuote hq h ih =>
    rcases hq with rfl | rfl
    · exact step _ h (by decide) (fun _ => rfl) rfl (.inl (by decide)) ih
    · exact step _ h (by decide) (fun _ => rfl) rfl (.inl (by decide)) ih
  | quoted hc hq h ih =>
    refine step _ h hc (fun k => ?_) ?_ (.inr (by simp [Nesting.isOutside])) ih
    · simp [Nesting.afterBracket, Nesting.after, hq]
    · simp [Nesting.afterParenthesis, Nesting.after, hq]
  | closeQuote hq h ih =>
    refine step _ h hq (fun k => ?_) ?_ (.inr (by simp [Nesting.isOutside])) ih
    · simp [Nesting.afterBracket, Nesting.after]
    · simp [Nesting.afterParenthesis, Nesting.after]
  | openParenthesis h ih =>
    refine step _ h (by decide) (fun k => ?_) rfl (.inl (by decide)) ih
    simp [Nesting.afterBracket, Nesting.after]
    omega
  | closeParenthesis h ih =>
    refine step _ h (by decide) (fun k => ?_) rfl (.inr rfl) ih
    simp [Nesting.afterBracket, Nesting.after]
    omega
  | openBracket h ih =>
    refine step _ h (by decide) (fun k => ?_) rfl (.inl (by decide)) ih
    simp [Nesting.afterBracket, Nesting.after]
    omega
  | closeBracket h ih =>
    refine step _ h (by decide) (fun k => ?_) rfl (.inl (by decide)) ih
    simp [Nesting.afterBracket, Nesting.after]
    omega

/-- The scan for commas is inside the parenthesis before an argument. -/
theorem unsplit (h : Nested q i j s) : Unsplit ⟨i + j + 1, q⟩ s ⟨1, none⟩ := by
  induction h using scan_induction with
  | nil => exact .nil _
  | escaped c _ ih => exact (unsplit_escaped _ c).append ih
  | step _ _ hc hbracket _ _ ih => exact (unsplit_inside hc rfl (hbracket 1)).cons ih

/-- The reading of an argument ends at the parenthesis behind it. -/
theorem readArgument? (h : Nested q i j s) (r : Text) :
    CssLocator.readArgument? ⟨i, q⟩ (s ++ ')' :: r) = some (s, r) := by
  induction h using scan_induction with
  | nil => rfl
  | escaped c _ ih =>
    rw [List.cons_append, List.cons_append, CssLocator.readArgument?, ih]
    rfl
  | step _ _ hc _ hparenthesis hinside ih => exact readArgument?_inside hc hinside hparenthesis ih

end Nested

/-- Characters of names, none of them white space, and at least one. -/
def IsName (name : Text) : Prop := name ≠ [] ∧ ∀ c ∈ name, isWritable c ∧ Text.isSpace c = false

namespace SimpleSelector

/-- Names are escaped, values quoted, and arguments stay as they are. -/
def text : SimpleSelector → Text
  | universal => "*"
  | tag name => escape name
  | className name => classNativeText name
  | id name => idNativeText name
  | hasAttribute name test => attributeNativeText name test
  | pseudo ⟨name, none⟩ => ":" ++ escape name
  | pseudo ⟨name, some argument⟩ => ":" ++ escape name ++ "(" ++ argument ++ ")"

/-- What can be told from the text again. -/
def Printable : SimpleSelector → Prop
  | universal => True
  | tag name => IsName name ∧ Text.lower name = name
  | className name | id name => IsName name
  | hasAttribute name test => IsName name ∧ ∀ p ∈ test, ¬ ['\\', '"'] <:+: p.2
  | pseudo use => IsName use.name ∧ Text.lower use.name = use.name ∧
      ∀ argument ∈ use.argument, Nested none 0 0 argument

end SimpleSelector

namespace IsName

variable (h : IsName name)
include h

theorem isWritable : ∀ c ∈ name, Identifier.isWritable c := fun c hc => (h.2 c hc).1

theorem head : ∀ c ∈ name.head?, Text.isSpace c = false :=
  fun c hc => (h.2 c (List.mem_of_mem_head? hc)).2

private theorem getLast : ∀ c ∈ name.getLast?, Text.isSpace c = false :=
  fun c hc => (h.2 c (List.mem_of_mem_getLast? hc)).2

private theorem trimEnd_escape_ne_nil : trimEnd (escape name) ≠ [] := by
  intro hnil
  have hread := read?_trimEnd_escape h.1 h.isWritable h.getLast
  simp [hnil, read?, readWhile] at hread

end IsName

private theorem spells_pseudo (hname : IsName name) :
    Spells (":" ++ escape name) (.pseudo ⟨Text.lower name, none⟩) where
  unsplit := (unsplit_neutral rfl (by decide)).cons (unsplit_escape rfl hname.isWritable)
  read _ hr := readSimple_pseudo (readPseudo_escape hname.1 hname.isWritable hr)
  head := by simp; decide

private theorem spellsLast_pseudo (hname : IsName name) :
    SpellsLast (":" ++ escape name) (.pseudo ⟨Text.lower name, none⟩) := by
  have htrim : trimEnd (':' :: escape name) = _ := trimEnd_cons (by decide) (escape name)
  have hread := read?_trimEnd_escape hname.1 hname.isWritable hname.getLast
  have hhead : (trimEnd (escape name)).head? ≠ some ':' := by
    rw [head?_trimEnd hname.trimEnd_escape_ne_nil]
    exact head?_escape_ne hname.1 hname.isWritable
  rw [SpellsLast, show (":" ++ escape name : Text) = ':' :: escape name from rfl, htrim]
  exact readSimple_pseudo (readPseudo_of_read? hhead hread (by simp))

section Arguments

variable {argument : Text}

theorem spells_pseudo_argument (hname : IsName name) (hargument : Nested none 0 0 argument) :
    Spells (":" ++ escape name ++ "(" ++ argument ++ ")")
      (.pseudo ⟨Text.lower name, some argument⟩) where
  unsplit := by
    have hcolon : Unsplit .outside [':'] .outside := unsplit_neutral rfl (by decide)
    have hescape : Unsplit .outside (escape name) .outside := unsplit_escape rfl hname.isWritable
    have hopen : Unsplit .outside ['('] ⟨1, none⟩ := unsplit_singleton (by decide) (.inl (by decide))
    have hclose : Unsplit ⟨1, none⟩ [')'] .outside := unsplit_singleton (by decide) (.inl (by decide))
    exact (((hcolon.append hescape).append hopen).append hargument.unsplit).append hclose
  read r _ := by
    have hread := readPseudo_escape_argument hname.1 hname.isWritable (hargument.readArgument? r)
    simpa using readSimple_pseudo hread
  head := by simp; decide

theorem spellsLast_pseudo_argument (hname : IsName name) (hargument : Nested none 0 0 argument) :
    SpellsLast (":" ++ escape name ++ "(" ++ argument ++ ")")
      (.pseudo ⟨Text.lower name, some argument⟩) := by
  refine (spells_pseudo_argument hname hargument).last fun c hc => ?_
  have hlast : (":" ++ escape name ++ "(" ++ argument ++ ")" : Text).getLast? = some ')' :=
    List.getLast?_concat
  rw [hlast] at hc
  cases hc
  decide

end Arguments

namespace SimpleSelector

theorem Printable.spells (h : x.Printable) : Spells x.text x := by
  cases x with
  | universal => exact ⟨unsplit_neutral rfl (by decide), fun _ _ => rfl, by rintro c ⟨⟩; decide⟩
  | tag name => exact spells_tag h.1.1 h.1.isWritable h.2 h.1.head
  | className name => exact Marks.className.spells h.1 (IsName.isWritable h)
  | id name => exact Marks.id.spells h.1 (IsName.isWritable h)
  | hasAttribute name test =>
    obtain ⟨hname, hvalue⟩ := h
    have hspells := spells_attribute hname.1 hname.isWritable hname.head test
    cases test with
    | none => exact hspells
    | some test =>
      have hsame : unescapeQuotes test.2 = test.2 := unescapeQuotes_eq_self (hvalue test rfl)
      simpa [text, hsame] using hspells
  | pseudo use =>
    obtain ⟨name, _ | argument⟩ := use
    · have hspells := spells_pseudo h.1
      rwa [h.2.1] at hspells
    · have hspells := spells_pseudo_argument h.1 (h.2.2 argument rfl)
      rwa [h.2.1] at hspells

theorem Printable.spellsLast (h : x.Printable) : SpellsLast x.text x := by
  cases x with
  | universal => exact h.spells.last (by rintro c ⟨⟩; decide)
  | tag name => exact spellsLast_tag h.1.1 h.1.isWritable h.2 h.1.head h.1.getLast
  | className name => exact Marks.className.spellsLast h.1 (IsName.isWritable h) (IsName.getLast h)
  | id name => exact Marks.id.spellsLast h.1 (IsName.isWritable h) (IsName.getLast h)
  | hasAttribute name test => exact h.spells.last (getLast?_attributeNativeText test)
  | pseudo use =>
    obtain ⟨name, _ | argument⟩ := use
    · have hlast := spellsLast_pseudo h.1
      rwa [h.2.1] at hlast
    · have hlast := spellsLast_pseudo_argument h.1 (h.2.2 argument rfl)
      rwa [h.2.1] at hlast

/-- A simple selector other than a type begins with a character of its own. -/
theorem exists_text_eq_cons (hx : ¬ x.IsTag) :
    ∃ c r, x.text = c :: r ∧ (c = '*' ∨ startsCondition c) := by
  cases x with
  | universal => exact ⟨'*', [], rfl, .inl rfl⟩
  | tag name => exact absurd trivial hx
  | className name => exact ⟨'.', _, rfl, .inr rfl⟩
  | id name => exact ⟨'#', _, rfl, .inr rfl⟩
  | hasAttribute name test => cases test <;> exact ⟨'[', _, rfl, .inr rfl⟩
  | pseudo use => obtain ⟨name, _ | argument⟩ := use <;> exact ⟨':', _, rfl, .inr rfl⟩

end SimpleSelector

/-- Such a character cannot belong to what stands before it, and ends no compound. -/
theorem not_continues_of_starts {c : Char} (hc : c = '*' ∨ startsCondition c) :
    (isContinue c = false ∧ c ≠ '\\' ∧ c ≠ '(') ∧ endsCompound c = false ∧ startsType c = false ∧
      Text.isSpace c = false := by
  rcases hc with rfl | hc
  · decide
  · rcases startsCondition_cases hc with rfl | rfl | rfl | rfl <;> decide

/-- White space within ASCII, which cannot stand in a name. -/
def Blank (s : Text) : Prop := ∀ c ∈ s, Text.isAscii c ∧ Text.isSpace c

/-- What ends a compound: nothing, white space within ASCII, or a combinator. -/
def EndsCompound (r : Text) : Prop := ∀ c ∈ r.head?, endsCompound c ∧ Text.isAscii c

/-- Not all of the text is white space, or there is none. -/
def Visible (r : Text) : Prop := r ≠ [] → trimEnd r ≠ []

private theorem not_isContinue_of_isSpace {c : Char} (hspace : Text.isSpace c)
    (hascii : Text.isAscii c) : isContinue c = false := by
  have hne : ∀ d, Text.isSpace d = false → c ≠ d := by
    rintro d hd rfl
    rw [hd] at hspace
    cases hspace
  have halpha : c.isAlpha = false := by
    rw [Bool.eq_false_iff]
    intro h
    simp [isSpace_of_isAlpha h] at hspace
  have hdigit : c.isDigit = false := by
    rw [Bool.eq_false_iff]
    intro h
    simp [isSpace_of_isDigit h] at hspace
  simp [isContinue, isStart, halpha, hdigit, hascii, hne '_' (by decide), hne '-' (by decide)]

theorem combinatorOf?_cases {c : Char} {k : Combinator} (h : combinatorOf? c = some k) :
    c = '>' ∨ c = '+' ∨ c = '~' := by
  unfold combinatorOf? at h
  split at h
  · exact .inl ‹_›
  · split at h
    · exact .inr (.inl ‹_›)
    · split at h
      · exact .inr (.inr ‹_›)
      · cases h

theorem EndsCompound.endsSimple (h : EndsCompound r) : EndsSimple r := by
  have hne : ∀ c ∈ r.head?, isContinue c = false ∧ c ≠ '\\' ∧ c ≠ '(' := by
    intro c hc
    obtain ⟨hends, hascii⟩ := h c hc
    rw [endsCompound, Bool.or_eq_true] at hends
    rcases hends with hspace | hmark
    · refine ⟨not_isContinue_of_isSpace hspace hascii, ?_, ?_⟩ <;> rintro rfl <;> cases hspace
    · obtain ⟨k, hk⟩ := Option.isSome_iff_exists.1 hmark
      rcases combinatorOf?_cases hk with rfl | rfl | rfl <;> decide
  exact ⟨fun c hc => ⟨(hne c hc).1, (hne c hc).2.1⟩, fun hparen => (hne _ hparen).2.2 rfl⟩

theorem EndsCompound.trimEnd (h : EndsCompound r) : EndsCompound (Identifier.trimEnd r) := by
  by_cases hnil : Identifier.trimEnd r = []
  · rw [hnil]
    nofun
  · intro c hc
    rw [head?_trimEnd hnil] at hc
    exact h c hc

private theorem readCompoundTail_of_ends (h : EndsCompound r) : readCompoundTail r = .ok ([], r) := by
  cases r with
  | nil => exact readCompoundTail_nil
  | cons c r =>
    unfold readCompoundTail
    rw [if_pos (h c rfl).1]

/-- A simple selector in front of the rest of a text whose trailing white space is gone. -/
theorem SimpleSelector.Printable.readSimple (h : x.Printable) (hends : EndsSimple r)
    (hvisible : Visible r) :
    CssLocator.readSimple (trimEnd (x.text ++ r)) = .ok (x, trimEnd r) := by
  by_cases hr : r = []
  · subst hr
    rw [List.append_nil]
    exact h.spellsLast
  · have hne := hvisible hr
    rw [trimEnd_append hne]
    refine h.spells.read _ ⟨?_, ?_⟩
    · intro c hc
      rw [head?_trimEnd hne] at hc
      exact hends.endsName c hc
    · rw [head?_trimEnd hne]
      exact hends.noArgument

namespace Compound

def text (xs : Compound) : Text := xs.flatMap SimpleSelector.text

@[simp] theorem text_cons_append (x : SimpleSelector) (xs : Compound) (r : Text) :
    text (x :: xs) ++ r = x.text ++ (text xs ++ r) := by
  rw [text, List.flatMap_cons, List.append_assoc]
  rfl

structure Printable (xs : Compound) : Prop where
  ne_nil : xs ≠ []
  printable : ∀ x ∈ xs, x.Printable
  tag_first : ∀ x ∈ xs.tail, ¬ x.IsTag

/-- What follows a simple selector: the next ones, which are no types, and what ends the compound. -/
theorem follows_text (hxs : ∀ x ∈ xs, x.Printable ∧ ¬ x.IsTag) (hends : EndsCompound r)
    (hvisible : Visible r) : EndsSimple (text xs ++ r) ∧ Visible (text xs ++ r) := by
  cases xs with
  | nil => exact ⟨hends.endsSimple, hvisible⟩
  | cons x xs =>
    obtain ⟨c, s, htext, hc⟩ := SimpleSelector.exists_text_eq_cons (hxs x List.mem_cons_self).2
    have hcons : text (x :: xs) ++ r = c :: (s ++ text xs ++ r) := by simp [text, htext]
    obtain ⟨⟨hcontinue, hback, hparen⟩, -, -, hspace⟩ := not_continues_of_starts hc
    rw [hcons]
    refine ⟨⟨by simpa [EndsName] using ⟨hcontinue, hback⟩, by simpa using hparen⟩, fun _ => ?_⟩
    exact trimEnd_ne_nil List.mem_cons_self hspace

private theorem readCompoundTail_text (hxs : ∀ x ∈ xs, x.Printable ∧ ¬ x.IsTag)
    (hends : EndsCompound r) (hvisible : Visible r) :
    readCompoundTail (trimEnd (text xs ++ r)) = .ok (xs, trimEnd r) := by
  induction xs with
  | nil => exact readCompoundTail_of_ends hends.trimEnd
  | cons x xs ih =>
    obtain ⟨hx, hxs⟩ := List.forall_mem_cons.1 hxs
    obtain ⟨hendsSimple, hvisible'⟩ := follows_text hxs hends hvisible
    have hread := hx.1.readSimple hendsSimple hvisible'
    obtain ⟨c, s, htext, hc⟩ := SimpleSelector.exists_text_eq_cons hx.2
    obtain ⟨-, hcompound, htype, hspace⟩ := not_continues_of_starts hc
    have hcons : trimEnd (x.text ++ (text xs ++ r)) = c :: trimEnd (s ++ (text xs ++ r)) := by
      rw [htext, List.cons_append, trimEnd_cons hspace]
    rw [hcons] at hread
    rw [text_cons_append, hcons]
    exact readCompoundTail_cons hcompound htype hread (ih hxs)

theorem Printable.readCompound (h : Printable xs) (hends : EndsCompound r) (hvisible : Visible r) :
    CssLocator.readCompound (trimEnd (text xs ++ r)) = .ok (xs, trimEnd r) := by
  obtain ⟨hne, hprintable, htag⟩ := h
  obtain ⟨x, xs, rfl⟩ := List.exists_cons_of_ne_nil hne
  obtain ⟨hx, hxs⟩ := List.forall_mem_cons.1 hprintable
  have hxs : ∀ y ∈ xs, y.Printable ∧ ¬ y.IsTag := fun y hy => ⟨hxs y hy, htag y hy⟩
  obtain ⟨hendsSimple, hvisible'⟩ := follows_text hxs hends hvisible
  rw [text_cons_append]
  exact readCompound_cons (hx.readSimple hendsSimple hvisible') (readCompoundTail_text hxs hends hvisible)

theorem Printable.unsplit (h : Printable xs) : Unsplit .outside (text xs) .outside := by
  have hall := h.printable
  clear h
  induction xs with
  | nil => exact .nil _
  | cons x xs ih =>
    obtain ⟨hx, hxs⟩ := List.forall_mem_cons.1 hall
    exact hx.spells.unsplit.append (ih hxs)

/-- A compound begins with neither white space nor a combinator. -/
theorem Printable.head (h : Printable xs) :
    ∃ c s, text xs = c :: s ∧ Text.isSpace c = false ∧ combinatorOf? c = none := by
  obtain ⟨x, xs, rfl⟩ := List.exists_cons_of_ne_nil h.ne_nil
  have hspells := (h.printable x List.mem_cons_self).spells
  obtain ⟨c, s, htext⟩ := List.exists_cons_of_ne_nil hspells.ne_nil
  exact ⟨c, s ++ text xs, by simp [text, htext], hspells.head c (by simp [htext])⟩

end Compound

end CssLocator
