import CssLocator.Proofs.PrintedLists

/-!
# Names that writing protects

Which names are read back as they were when they are written behind the mark of ids: those of
characters that a name can hold, and colons, if no white space is at the end. Any other name is refused
or comes back as something else.
-/

namespace CssLocator

open Identifier

variable {k : Combinator} {x : SimpleSelector} {c : Char} {s r name rest : Text}

namespace Identifier

/-- Every character of a name takes a character of the text, and one that cannot stand in a name on
its own takes two. -/
theorem readWhile_cost (s : Text) :
    (readWhile isContinue s).1.length + (readWhile isContinue s).1.countP (!isContinue ·) +
      (readWhile isContinue s).2.length ≤ s.length := by
  fun_induction readWhile isContinue s with
  | case1 => exact Nat.le_refl 0
  | case2 r escaped more ih =>
    show (more.1.length + 1) + (escaped.1 :: more.1).countP (!isContinue ·) + more.2.length ≤
      r.length + 1
    have ih : more.1.length + more.1.countP (!isContinue ·) + more.2.length ≤ escaped.2.length := ih
    cases r with
    | nil =>
      have hcount : (escaped.1 :: more.1).countP (!isContinue ·) = more.1.countP (!isContinue ·) :=
        List.countP_cons_of_neg (by decide)
      have hlength : escaped.2.length = 0 := rfl
      omega
    | cons c r =>
      have hcount : (escaped.1 :: more.1).countP (!isContinue ·) ≤
          more.1.countP (!isContinue ·) + 1 := by
        rw [List.countP_cons]
        split <;> omega
      have hlength : escaped.2.length ≤ r.length := readEscape_cons_length c r
      rw [List.length_cons]
      omega
  | case3 c r _ hc more ih =>
    show (more.1.length + 1) + (c :: more.1).countP (!isContinue ·) + more.2.length ≤ r.length + 1
    have ih : more.1.length + more.1.countP (!isContinue ·) + more.2.length ≤ r.length := ih
    rw [List.countP_cons_of_neg (by simp [hc])]
    omega
  | case4 => simp

@[simp] theorem length_escapeTail (s : Text) : (escapeTail s).length = s.length + s.count ':' := by
  induction s with
  | nil => rfl
  | cons c s ih =>
    have hcons : (escapeTail (c :: s)).length =
        (if c = ':' then 2 else 1) + (escapeTail s).length := by
      rw [escapeTail, List.flatMap_cons, List.length_append, ← escapeTail]
      split <;> rfl
    rw [hcons, ih, List.length_cons, List.count_cons]
    by_cases hc : c = ':'
    · simp [hc]
      omega
    · simp [hc]
      omega

private theorem countP_not_isContinue (s : Text) :
    s.countP (!isContinue ·) = s.count ':' + s.countP (!isWritable ·) := by
  induction s with
  | nil => rfl
  | cons c s ih =>
    rw [List.countP_cons, List.countP_cons, List.count_cons, ih]
    by_cases hc : c = ':'
    · subst hc
      have hcontinue : isContinue ':' = false := by decide
      simp [isWritable, hcontinue]
      omega
    · simp [isWritable, hc]
      omega

private theorem length_le_of_readWhile (h : readWhile isContinue s = (name, r)) :
    name.length + (name.count ':' + name.countP (!isWritable ·)) + r.length ≤ s.length := by
  have hcost := readWhile_cost s
  rwa [h, countP_not_isContinue] at hcost

/-- A first character that is written as it is, but cannot stand in a name on its own, does not come
back: it is written in one place and would have to be read from two. -/
theorem isContinue_of_readWhile (hcolon : c ≠ ':')
    (h : readWhile isContinue (trimEnd (c :: escapeTail s)) = (c :: s, r)) : isContinue c := by
  by_contra hcontinue
  have hcost := length_le_of_readWhile h
  have hprefix := trimEnd_prefix (c :: escapeTail s)
  have hlength := hprefix.length_le
  rw [List.count_cons_of_ne hcolon, List.countP_cons_of_pos (by simp [isWritable, hcontinue, hcolon]),
    List.length_cons] at hcost
  rw [List.length_cons, length_escapeTail] at hlength
  omega

/-- If a name comes back, its first character is one that survives, and the rest of it comes back. -/
theorem of_readWhile_escape_cons
    (h : readWhile isContinue (trimEnd (escape (c :: s))) = (c :: s, r)) :
    isWritable c ∧ readWhile isContinue (trimEnd (escapeTail s)) = (s, r) := by
  have hsplit : ∀ u, (c :: (readWhile isContinue u).1, (readWhile isContinue u).2) = (c :: s, r) →
      readWhile isContinue u = (s, r) := by
    intro u hu
    obtain ⟨hname, hrest⟩ := Prod.mk.inj hu
    exact Prod.ext (List.cons.inj hname).2 hrest
  have hbackslash : Text.isSpace '\\' = false := by decide
  rcases escape_cons_cases c s with ⟨hdigit, hescape⟩ | ⟨hc, hescape⟩ | ⟨-, hcolon, hescape⟩
  · refine ⟨by simp [isWritable, isContinue, hdigit], hsplit _ ?_⟩
    rw [hescape, trimEnd_cons hbackslash, trimEnd_cons (by decide),
      trimEnd_cons (isSpace_of_isDigit hdigit)] at h
    rcases trimEnd_cons_cases ' ' (escapeTail s) with htrim | ⟨htrim, hnil⟩
    · rwa [htrim, readWhile_backslash (readEscape_digit hdigit _)] at h
    · rwa [htrim, readWhile_backslash (readEscape_last_digit hdigit), ← hnil] at h
  · have hkept : isWritable c ∧ Text.isSpace c = false := by rcases hc with rfl | rfl <;> decide
    refine ⟨hkept.1, hsplit _ ?_⟩
    rwa [hescape, trimEnd_cons hbackslash, trimEnd_cons hkept.2,
      readWhile_backslash (readEscape_colon_or_hyphen _ hc)] at h
  · rw [hescape] at h
    have hcontinue := isContinue_of_readWhile hcolon h
    refine ⟨by simp [isWritable, hcontinue], hsplit _ ?_⟩
    rcases trimEnd_cons_cases c (escapeTail s) with htrim | ⟨htrim, -⟩
    · rwa [htrim, readWhile_cons _ hcontinue (isContinue_ne_backslash hcontinue)] at h
    · rw [htrim, readWhile] at h
      cases h

private theorem visible_of_trimEnd_escape (h : trimEnd (escape [c]) ≠ []) :
    Text.isSpace c = false := by
  rcases escape_cons_cases c [] with ⟨hdigit, -⟩ | ⟨hc, -⟩ | ⟨-, -, hescape⟩
  · exact isSpace_of_isDigit hdigit
  · rcases hc with rfl | rfl <;> decide
  · by_contra hspace
    rw [Bool.not_eq_false] at hspace
    apply h
    rw [hescape]
    simp [escapeTail, trimEnd, hspace]

/-- A name comes back only if all of its characters survive and none is trimmed away. -/
theorem of_read?_escape (h : read? (trimEnd (escape name)) = some (name, rest)) :
    (∀ c ∈ name, isWritable c) ∧ ∀ c ∈ name.getLast?, Text.isSpace c = false := by
  obtain ⟨c, s, rfl⟩ := List.exists_cons_of_ne_nil (read?_ne_nil h)
  have hread : readWhile isContinue (trimEnd (escape (c :: s))) = (c :: s, rest) := by
    unfold read? at h
    split at h
    · cases h
    · rename_i hread
      rw [hread]
      exact Option.some.inj h
  obtain ⟨hc, htail⟩ := of_readWhile_escape_cons hread
  have hcost := length_le_of_readWhile htail
  have hprefix := trimEnd_prefix (escapeTail s)
  have hlength := hprefix.length_le
  rw [length_escapeTail] at hlength
  have hwritable : s.countP (!isWritable ·) = 0 := by omega
  have hwhole : trimEnd (escapeTail s) = escapeTail s :=
    hprefix.eq_of_length (by rw [length_escapeTail]; omega)
  constructor
  · refine List.forall_mem_cons.2 ⟨hc, fun d hd => ?_⟩
    simpa using List.countP_eq_zero.1 hwritable d hd
  · cases s with
    | nil =>
      have hne : trimEnd (escape [c]) ≠ [] := by
        intro hnil
        rw [hnil, readWhile] at hread
        cases hread
      simpa using visible_of_trimEnd_escape hne
    | cons d s =>
      rw [List.getLast?_cons_cons, ← getLast?_escapeTail, ← hwhole]
      exact getLast?_trimEnd _

private theorem isWritable_iff : isWritable c ↔
    c.isAlpha ∨ c.isDigit ∨ c = '_' ∨ c = '-' ∨ c = ':' ∨ Text.isAscii c = false := by
  simp only [isWritable, isContinue, isStart, Bool.or_eq_true, beq_iff_eq, Bool.not_eq_true']
  tauto

end Identifier

private theorem readComplex_of_read {relative : Bool} {complex : Complex}
    (h : SelectorList.read relative s = .ok [complex]) : readComplex relative s = .ok complex := by
  obtain ⟨part, parts, hread, hparts, hsplit⟩ := List.forall₂_cons_right_iff.1 (parts_of_read h)
  rw [List.forall₂_nil_right_iff.1 hparts] at hsplit
  have hjoin := join_splitOuterCommas .outside s
  rw [hsplit] at hjoin
  rwa [← hjoin]

private theorem readCompound_of_readChain {k' : Combinator} {xs : Compound}
    (h : readChain k (c :: s) = .ok [(k', xs)]) : ∃ rest, readCompound (c :: s) = .ok (xs, rest) := by
  have hmore : ∀ {j t} {p : Combinator × Compound}, (readChain j t).map (p :: ·) ≠ .ok [(k', xs)] := by
    intro j t p hmap
    cases hchain : readChain j t with
    | error e =>
      rw [hchain] at hmap
      cases hmap
    | ok complex =>
      rw [hchain] at hmap
      cases hmap
      cases (readChain_readable hchain).head
  rw [readChain] at h
  split at h
  · cases h
  · split at h
    · cases h
    · rename_i compound rest hcompound
      split at h
      · cases h
        exact ⟨rest, hcompound⟩
      · split at h
        · exact absurd h hmore
        · exact absurd h hmore

private theorem readSimple_of_readCompound (h : readCompound s = .ok ([x], rest)) :
    ∃ rest, readSimple s = .ok (x, rest) := by
  obtain ⟨y, ys, rest', hxs, hsimple, -⟩ := exists_readSimple h
  cases hxs
  exact ⟨rest', hsimple⟩

private theorem read?_of_readSimple (h : readSimple ('#' :: s) = .ok (.id name, rest)) :
    read? s = some (name, rest) := by
  cases simpleSource_of_readSimple h with
  | id _ hname => exact hname

/-- Exactly the names of letters, digits, underscores, hyphens, colons and characters outside ASCII are
protected, unless they end with white space: behind the mark of ids, the written name is read as the
id selector of the name. -/
theorem read_escapedId_iff (hne : name ≠ []) :
    SelectorList.read false ('#' :: escape name) = .ok [[(.descendant, [.id name])]] ↔
      (∀ c ∈ name, c.isAlpha ∨ c.isDigit ∨ c = '_' ∨ c = '-' ∨ c = ':' ∨ Text.isAscii c = false) ∧
        ∀ c ∈ name.getLast?, Text.isSpace c = false := by
  simp only [← isWritable_iff]
  constructor
  · intro h
    have hcomplex := readComplex_of_read h
    have htrim : Text.trim ('#' :: escape name) = '#' :: trimEnd (escape name) :=
      trimEnd_cons (by decide) (escape name)
    rw [readComplex, htrim] at hcomplex
    obtain ⟨rest, hcompound⟩ := readCompound_of_readChain hcomplex
    obtain ⟨rest', hsimple⟩ := readSimple_of_readCompound hcompound
    exact of_read?_escape (read?_of_readSimple hsimple)
  · rintro ⟨hname, hlast⟩
    have hwritten := Written.last (Marks.id.spells hne hname) (Marks.id.spellsLast hne hname hlast)
    have hread := hwritten.read
    rwa [List.flatten_cons, List.flatten_nil, List.append_nil] at hread

theorem read_escapedId_iff_mixed :
    SelectorList.read false ('#' :: escape "1a:-é") = .ok [[(.descendant, [.id "1a:-é"])]] ∧
      SelectorList.read false ('#' :: escape "a.b") ≠ .ok [[(.descendant, [.id "a.b"])]] := by
  have hkept : ("1a:-é" : Text) ≠ [] := by decide
  have hlost : ("a.b" : Text) ≠ [] := by decide
  have hwritable : ("1a:-é" : Text).all isWritable := by decide
  have hlast : ("1a:-é" : Text).getLast?.all (!Text.isSpace ·) := by decide
  constructor
  · refine (read_escapedId_iff hkept).2 ⟨fun c hc => ?_, fun c hc => ?_⟩
    · exact isWritable_iff.1 (List.all_eq_true.1 hwritable c hc)
    · simpa using (Option.all_eq_true _ _).1 hlast c hc
  · intro h
    have hdot := ((read_escapedId_iff hlost).1 h).1 '.' (by decide)
    revert hdot
    decide

end CssLocator
