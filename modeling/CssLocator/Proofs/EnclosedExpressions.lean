import CssLocator.Proofs.ParsedExpressions
import CssLocator.Proofs.SpelledExpressions
import CssLocator.Proofs.TokenSlices

/-!
# Enclosed expressions

A text that is an expression by itself is one between parentheses or brackets as well. The character
that closes it neither continues a token nor gives a name another role, so every token is cut off as
it is without it.
-/

namespace CssLocator.XPath

variable {o : Bool} {c x : Char} {s s' r rest : Text} {t u : Token} {ts : List Token} {e e' : Expr}

/-- The character is a token wherever it stands, and the one before it ends there and keeps its
role. -/
structure Closes (x : Char) (t : Token) : Prop where
  notSpace : Text.isSpace x = false
  notName : isNameChar x = false
  /-- None of the characters that are looked for after another one. -/
  notAwaited : x ∉ ['(', ':', '/', '.', '=']
  token : ∀ o r, scan o x r = .ok (t, r)

private theorem closes_rightParen : Closes ')' .rightParen :=
  ⟨by decide, by decide, by decide, fun _ _ => rfl⟩

private theorem closes_rightBracket : Closes ']' .rightBracket :=
  ⟨by decide, by decide, by decide, fun _ _ => rfl⟩

private theorem dropWhile_append_cons {p : Char → Bool} (hx : p x = false) (r later : Text) :
    (r ++ x :: later).dropWhile p = r.dropWhile p ++ x :: later := by
  induction r with
  | nil => simp [hx]
  | cons c r ih =>
    simp only [List.cons_append, List.dropWhile_cons, ih]
    split <;> rfl

namespace Closes

variable (hx : Closes x t) (later : Text)

include hx

/-- A name before the end of the text keeps its role. -/
theorem sameRole_append : SameRole r (r ++ x :: later) := by
  intro name
  have hawaited := hx.notAwaited
  simp only [List.mem_cons, not_or] at hawaited
  obtain ⟨hparen, hcolon, -⟩ := hawaited
  unfold roleOfName Text.skipSpace
  rw [dropWhile_append_cons hx.notSpace]
  match r.dropWhile Text.isSpace with
  | [] => simp [hparen, hcolon]
  | [c] => by_cases hc : c = '(' <;> simp [hc, hcolon]
  | c :: d :: rest =>
    by_cases hc : c = '('
    · simp [hc]
    · by_cases hd : c = ':' ∧ d = ':'
      · simp [hd]
      · simp_all

/-- A token is cut off as before. -/
theorem scan_append (hspace : Text.isSpace c = false) (h : scan o c r = .ok (u, rest)) :
    scan o c (r ++ x :: later) = .ok (u, rest ++ x :: later) := by
  obtain ⟨s, rfl, hslice⟩ := (scan_eq_ok_iff hspace).1 h
  refine (scan_eq_ok_iff hspace).2 ⟨s, List.append_assoc .., ?_⟩
  refine hslice.followed (hx.sameRole_append later) ?_
  cases rest with
  | cons d rest => exact .inl rfl
  | nil =>
    refine .inr fun d hd => ?_
    cases hd
    have hawaited := hx.notAwaited
    exact ⟨hx.notName, by simp_all⟩

/-- All tokens are cut off as before, and the character is the next one. -/
theorem tokensFrom_append (h : tokensFrom o s = .ok ts) :
    tokensFrom o (s ++ x :: later) =
      (tokensFrom t.opensOperand later).map (ts ++ [t] ++ ·) := by
  induction o, s using tokensFrom.induct generalizing ts with
  | case1 o =>
    rw [tokensFrom.eq_def] at h
    cases h
    exact tokensFrom_cons hx.notSpace (hx.token o later)
  | case2 o c r hspace ih =>
    rw [tokensFrom_space hspace] at h
    rw [List.cons_append, tokensFrom_space hspace]
    exact ih h
  | case3 o c r hspace fault hscan =>
    rw [tokensFrom.eq_def] at h
    dsimp only at h
    rw [if_neg hspace] at h
    split at h
    · cases h
    · rename_i hok
      cases hscan.symm.trans hok
  | case4 o c r hspace u rest hscan ih =>
    have hspace : Text.isSpace c = false := by simpa using hspace
    rw [tokensFrom_cons hspace hscan] at h
    cases hus : tokensFrom u.opensOperand rest with
    | error e =>
      rw [hus] at h
      cases h
    | ok us =>
      rw [hus] at h
      cases h
      rw [List.cons_append, tokensFrom_cons hspace (hx.scan_append later hspace hscan), ih hus]
      cases tokensFrom t.opensOperand later <;> rfl

end Closes

/-- What is an expression by itself is the same one between parentheses or brackets. -/
theorem enclosed_of_parse (h : parse s = .ok e) : Enclosed s e := by
  cases htokens : tokens s with
  | error fault =>
    rw [parse, htokens] at h
    cases h
  | ok ts =>
    rw [parse, htokens] at h
    have hcut : ∀ {x t}, Closes x t → t.opensOperand = false → Cut true (s ++ [x]) (ts ++ [t]) false := by
      intro x t hx ht r _
      rw [List.append_assoc, List.singleton_append, hx.tokensFrom_append r htokens, ht]
    exact ⟨ts, hcut closes_rightParen rfl, hcut closes_rightBracket rfl,
      Chained.phrase (derives_of_ofTokens h).reads⟩

/-- The text is a path that is parsed as the expression. -/
def SpelledPath (s : Text) (e : Expr) : Prop := ∃ ts, Cut true s ts false ∧ PathPhrase e ts

theorem SpelledPath.spelled (h : SpelledPath s e) : Spelled 0 s e := by
  obtain ⟨ts, hcut, hpath⟩ := h
  exact ⟨ts, hcut, hpath.phrase⟩

theorem Enclosed.path (h : Enclosed s e) : SpelledPath ('(' :: (s ++ [')'])) e := by
  obtain ⟨ts, hcut, hfilter⟩ := h.filterPhrase
  exact ⟨ts, hcut, hfilter.bare⟩

/-- A step after an enclosed expression. -/
theorem Enclosed.continued {p : Step} (h : Enclosed s e) (hp : SpelledStep s' p)
    (hs : ∃ c ∈ s'.head?, c ≠ '/') :
    SpelledPath ('(' :: (s ++ [')']) ++ '/' :: s') (.filter e [] [p]) := by
  obtain ⟨ts, hcut, hfilter⟩ := h.filterPhrase
  obtain ⟨us, hcuts, hstep⟩ := hp
  have hwhole := hcut.append (hcuts.slash hs) fun _ _ => endsToken_mark (by decide) _
  exact ⟨_, hwhole, hfilter.continued predicatesPhrase_nil hstep.last.continuation_slash (by simp)⟩

/-- Two paths with a bar between them. -/
theorem SpelledPath.union (h : SpelledPath s e) (h' : SpelledPath s' e') :
    Spelled 0 (s ++ " | " ++ s') (.binary .union e e') := by
  obtain ⟨ts, hcut, hpath⟩ := h
  obtain ⟨us, hcuts, hpath'⟩ := h'
  have hbar := (cut_bar false).blank_right.blank_left
  have hleft := hcut.append hbar fun _ r => .blank (by decide) (by decide)
  have hboth := hleft.then hcuts
  rw [List.append_assoc ts, List.singleton_append] at hboth
  exact ⟨_, hboth, (hpath.union.binary hpath').phrase⟩

end CssLocator.XPath
