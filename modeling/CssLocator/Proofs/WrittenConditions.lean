import CssLocator.ConditionTexts
import CssLocator.NativeMatching
import CssLocator.Proofs.ArgumentGrammar

/-!
# Written conditions are read back

Every condition written as selector text is read as the same condition, whatever other condition
follows it, and no comma in it splits a list. At the end of a selector the text may have lost its
trailing white space.
-/

namespace CssLocator

open Identifier

variable {n n' n'' : Nesting} {u v : Text}

/-- A text that is not split; the scan has the first nesting before it and the second one after. -/
def Unsplit (n : Nesting) (u : Text) (n' : Nesting) : Prop :=
  ∀ rest, splitOuterCommas n (u ++ rest) = u.foldr Text.extendHead (splitOuterCommas n' rest)

theorem Unsplit.nil (n : Nesting) : Unsplit n [] n := fun _ => rfl

theorem Unsplit.append (h : Unsplit n u n') (h' : Unsplit n' v n'') : Unsplit n (u ++ v) n'' := by
  intro rest
  rw [List.append_assoc, h, h', List.foldr_append]

theorem Unsplit.cons {c : Char} (h : Unsplit n [c] n') (h' : Unsplit n' u n'') :
    Unsplit n (c :: u) n'' := h.append h'

theorem unsplit_escaped (n : Nesting) (c : Char) : Unsplit n ['\\', c] n := by
  intro rest
  rfl

/-- One step of the scan for commas. -/
theorem splitOuterCommas_cons {c : Char} (hc : c ≠ '\\') (n : Nesting) (r : Text) :
    splitOuterCommas n (c :: r) =
      if c = ',' ∧ n.isOutside then [] :: splitOuterCommas n r
      else Text.extendHead c (splitOuterCommas (n.afterBracket c) r) := by
  rw [splitOuterCommas]
  intro d t hd
  exact absurd hd hc

theorem unsplit_singleton {c : Char} (hc : c ≠ '\\') (h : c ≠ ',' ∨ n.isOutside = false) :
    Unsplit n [c] (n.afterBracket c) := by
  intro rest
  have hsplit : ¬ (c = ',' ∧ n.isOutside = true) := by
    rintro ⟨hcomma, hout⟩
    rcases h with h | h
    · exact h hcomma
    · simp [hout] at h
  show splitOuterCommas n (c :: rest) = _
  rw [splitOuterCommas_cons hc, if_neg hsplit]
  rfl

/-- Characters that mean nothing to the scan for commas. -/
def isNeutral (c : Char) : Bool :=
  c != '\\' && c != ',' && c != '"' && c != '\'' && c != '(' && c != ')' && c != '[' && c != ']'

/-- The characters of a class are neutral if none of the others belongs to it. -/
theorem isNeutral_of_class {p : Char → Bool} {c : Char}
    (hp : ['\\', ',', '"', '\'', '(', ')', '[', ']'].any p = false) (hc : p c) : isNeutral c := by
  have hne : ∀ x ∈ ['\\', ',', '"', '\'', '(', ')', '[', ']'], c ≠ x := by
    rintro x hx rfl
    exact List.any_eq_false.1 hp c hx hc
  simpa [isNeutral, and_assoc] using hne

theorem isNeutral_of_isContinue {c : Char} (hc : isContinue c) : isNeutral c :=
  isNeutral_of_class (by decide) hc

theorem unsplit_neutral {c : Char} (hquote : n.quote = none) (hc : isNeutral c) :
    Unsplit n [c] n := by
  simp only [isNeutral, Bool.and_eq_true, bne_iff_ne] at hc
  obtain ⟨⟨⟨⟨⟨⟨⟨hback, hcomma⟩, hdouble⟩, hsingle⟩, hopen⟩, hclose⟩, hopen'⟩, hclose'⟩ := hc
  have hsame : n.afterBracket c = n := by
    simp [Nesting.afterBracket, Nesting.after, hquote, hdouble, hsingle, hopen, hclose, hopen', hclose']
  have hsingleton := unsplit_singleton (n := n) hback (.inl hcomma)
  rwa [hsame] at hsingleton

theorem unsplit_of_neutral (hquote : n.quote = none) (hu : ∀ c ∈ u, isNeutral c) :
    Unsplit n u n := by
  induction u with
  | nil => exact .nil n
  | cons c u ih =>
    have hc := unsplit_neutral hquote (hu c List.mem_cons_self)
    exact hc.cons (ih fun x hx => hu x (List.mem_cons_of_mem c hx))

private theorem unsplit_escapeTail (hquote : n.quote = none) (hu : ∀ c ∈ u, isWritable c) :
    Unsplit n (escapeTail u) n := by
  induction u with
  | nil => exact .nil n
  | cons c u ih =>
    have ih := ih fun x hx => hu x (List.mem_cons_of_mem c hx)
    by_cases hc : c = ':'
    · subst hc
      exact (unsplit_escaped n ':').append ih
    · have hcontinue : isContinue c := by simpa [isWritable, hc] using hu c List.mem_cons_self
      have htail : escapeTail (c :: u) = [c] ++ escapeTail u := by simp [escapeTail, hc]
      rw [htail]
      exact (unsplit_neutral hquote (isNeutral_of_isContinue hcontinue)).append ih

theorem unsplit_escape (hquote : n.quote = none) (hu : ∀ c ∈ u, isWritable c) :
    Unsplit n (escape u) n := by
  cases u with
  | nil => exact .nil n
  | cons c u =>
    have htail := unsplit_escapeTail hquote fun x hx => hu x (List.mem_cons_of_mem c hx)
    have hneutral : ∀ x, isNeutral x → Unsplit n [x] n := fun x => unsplit_neutral hquote
    rcases escape_cons_cases c u with ⟨hdigit, hescape⟩ | ⟨-, hescape⟩ | ⟨-, hcolon, hescape⟩
    · have hc := hneutral c (isNeutral_of_isContinue (isContinue_of_isDigit hdigit))
      rw [hescape]
      exact (unsplit_escaped n '3').append (hc.cons ((hneutral ' ' (by decide)).cons htail))
    · rw [hescape]
      exact (unsplit_escaped n c).append htail
    · have hcontinue : isContinue c := by simpa [isWritable, hcolon] using hu c List.mem_cons_self
      rw [hescape]
      exact (hneutral c (isNeutral_of_isContinue hcontinue)).cons htail

private theorem unsplit_quotedBody (k : Nat) (s : Text) :
    Unsplit ⟨k, some '"'⟩ (quotedBody s) ⟨k, some '"'⟩ := by
  induction s with
  | nil => exact .nil _
  | cons c s ih =>
    by_cases hc : c = '\\' ∨ c = '"'
    · have hbody : quotedBody (c :: s) = ['\\', c] ++ quotedBody s := by simp [quotedBody, hc]
      rw [hbody]
      exact (unsplit_escaped _ c).append ih
    · have hbody : quotedBody (c :: s) = [c] ++ quotedBody s := by simp [quotedBody, hc]
      rw [not_or] at hc
      have hsame : Nesting.afterBracket ⟨k, some '"'⟩ c = ⟨k, some '"'⟩ := by
        simp [Nesting.afterBracket, Nesting.after, hc.2]
      have hsingleton := unsplit_singleton (n := ⟨k, some '"'⟩) hc.1 (.inr (by simp [Nesting.isOutside]))
      rw [hsame] at hsingleton
      rw [hbody]
      exact hsingleton.append ih

theorem unsplit_quoted (k : Nat) (value : Text) : Unsplit ⟨k, none⟩ (quoted value) ⟨k, none⟩ := by
  have hopen : Unsplit ⟨k, none⟩ ['"'] ⟨k, some '"'⟩ := unsplit_singleton (by decide) (.inl (by decide))
  have hclose : Unsplit ⟨k, some '"'⟩ ['"'] ⟨k, none⟩ := unsplit_singleton (by decide) (.inl (by decide))
  rw [quoted_eq]
  exact hopen.cons ((unsplit_quotedBody k _).append hclose)

namespace Structural

/-- A pseudo-class with a read argument, as selector text. -/
def spelling (kind : Structural) (r : AnPlusB) : Text :=
  if kind.takesArgument then r.nativeText kind.name else ":" ++ kind.name

/-- A pseudo-class with a read argument, as an XPath predicate. -/
def pathSpelling (kind : Structural) (r : AnPlusB) : Text :=
  match kind with
  | nthChild => r.pathText "position()"
  | nthLastChild => r.pathText "(last() - position() + 1)"
  | firstChild => "position() = 1"
  | lastChild => "position() = last()"
  | onlyChild => "last() = 1"
  | empty => "not(*) and not(text())"
  | root => "not(parent::*)"

theorem nativeText_eq (kind : Structural) (use : PseudoUse) :
    kind.nativeText use = (kind.read use).map kind.spelling := by
  unfold nativeText read
  cases kind.check use with
  | error e => rfl
  | ok =>
    cases harg : kind.takesArgument with
    | false => simp [bind, Except.bind, pure, Except.pure, Except.map, spelling, harg]
    | true => cases kind.argument use <;> simp [bind, Except.bind, pure, Except.pure, Except.map, spelling, harg]

theorem pathText_eq (kind : Structural) (use : PseudoUse) :
    kind.pathText use = (kind.read use).map kind.pathSpelling := by
  unfold pathText read
  cases kind.check use with
  | error e => rfl
  | ok =>
    cases kind with
    | nthChild => cases nthChild.argument use <;> rfl
    | nthLastChild => cases nthLastChild.argument use <;> rfl
    | _ => rfl

theorem readable_of_read {kind : Structural} {use : PseudoUse} {r : AnPlusB}
    (h : kind.read use = .ok r) : if kind.takesArgument then r.Readable else r = ⟨none, none⟩ := by
  unfold read at h
  cases hcheck : kind.check use with
  | error e => simp [hcheck, bind, Except.bind] at h
  | ok =>
    cases harg : kind.takesArgument with
    | false =>
      simp only [hcheck, harg, bind, Except.bind, pure, Except.pure] at h
      cases h
      rfl
    | true =>
      simp only [hcheck, harg, bind, Except.bind, if_true] at h
      exact AnPlusB.readable_of_ofArgument h

end Structural

end CssLocator
