import CssLocator.Proofs.IdentifierTexts
import CssLocator.Proofs.Texts
import CssLocator.XPathTokens

/-!
# Tokens of written expressions

How the parts of an expression are cut into tokens, whatever follows them. After an operand an
operator is expected, and after an operator an operand.
-/

namespace CssLocator.XPath

variable {o o' o'' : Bool} {s s' r : Text} {t : Token} {ts ts' : List Token}

/-- A text that neither continues the token before it nor gives it another role. -/
structure EndsToken (r : Text) : Prop where
  head : ∀ c ∈ r.head?, isNameChar c = false
  role : ∀ c ∈ (Text.skipSpace r).head?, c ≠ '(' ∧ c ≠ ':'

theorem isDigit_of_not_isNameChar {c : Char} (h : isNameChar c = false) :
    c.isDigit = false ∧ c ≠ '.' := by
  simp only [isNameChar, Identifier.isContinue, Bool.or_eq_false_iff, beq_eq_false_iff_ne] at h
  exact ⟨h.1.1.2, h.2⟩

theorem EndsToken.nil : EndsToken [] := ⟨by simp, by simp [Text.skipSpace]⟩

theorem EndsToken.cons {c : Char} (hname : isNameChar c = false) (hspace : Text.isSpace c = false)
    (hrole : c ≠ '(' ∧ c ≠ ':') : EndsToken (c :: r) where
  head := by simpa using hname
  role := by simpa [Text.skipSpace, hspace] using hrole

theorem EndsToken.blank {c : Char} (hspace : Text.isSpace c = false) (hrole : c ≠ '(' ∧ c ≠ ':') :
    EndsToken (' ' :: c :: r) where
  head := by
    intro d hd
    cases hd
    decide
  role := by
    have hblank : Text.isSpace ' ' = true := by decide
    simpa [Text.skipSpace, hspace, hblank] using hrole

/-- The text is cut into the tokens; an operand is or is not expected before and after it. -/
def Cut (o : Bool) (s : Text) (ts : List Token) (o' : Bool) : Prop :=
  ∀ r, (o' = false → EndsToken r) → tokensFrom o (s ++ r) = (tokensFrom o' r).map (ts ++ ·)

theorem Cut.append (h : Cut o s ts o') (h' : Cut o' s' ts' o'')
    (hends : o' = false → ∀ r, EndsToken (s' ++ r)) : Cut o (s ++ s') (ts ++ ts') o'' := by
  intro r hr
  rw [List.append_assoc, h (s' ++ r) fun ho => hends ho r, h' r hr]
  cases tokensFrom o'' r <;> simp [Except.map]

/-- After an operator or an opening bracket anything may follow. -/
theorem Cut.then (h : Cut o s ts true) (h' : Cut true s' ts' o') :
    Cut o (s ++ s') (ts ++ ts') o' := h.append h' fun ho => absurd ho (by decide)

theorem tokensFrom_cons {c : Char} {rest : Text} (hspace : Text.isSpace c = false)
    (h : scan o c r = .ok (t, rest)) :
    tokensFrom o (c :: r) = (tokensFrom t.opensOperand rest).map (t :: ·) := by
  conv => lhs; unfold tokensFrom
  rw [if_neg (by simp [hspace])]
  split
  · rename_i hscan
    rw [h] at hscan
    cases hscan
  · rename_i hscan
    rw [h] at hscan
    cases hscan
    rfl

theorem tokensFrom_space {c : Char} (hspace : Text.isSpace c) :
    tokensFrom o (c :: r) = tokensFrom o r := by
  rw [tokensFrom.eq_def]
  exact if_pos hspace

@[simp] theorem tokensFrom_blank :
    tokensFrom o (' ' :: r) = tokensFrom o r := tokensFrom_space (by decide)

/-- One token without white space. -/
theorem cut_token {c : Char} (hspace : Text.isSpace c = false)
    (h : ∀ r, (t.opensOperand = false → EndsToken r) → scan o c (s ++ r) = .ok (t, r)) :
    Cut o (c :: s) [t] t.opensOperand := by
  intro r hr
  exact tokensFrom_cons hspace (h r hr)

theorem Cut.blank_left (h : Cut o s ts o') : Cut o (' ' :: s) ts o' := by
  intro r hr
  simp [h r hr]

theorem Cut.blank_right (h : Cut o s ts true) : Cut o (s ++ [' ']) ts true := by
  intro r _
  rw [List.append_assoc, h _ (by simp)]
  simp

theorem cut_leftParen (o : Bool) : Cut o ['('] [.leftParen] true :=
  cut_token (by decide) fun _ _ => rfl

theorem cut_rightParen (o : Bool) : Cut o [')'] [.rightParen] false :=
  cut_token (by decide) fun _ _ => rfl

theorem cut_leftBracket (o : Bool) : Cut o ['['] [.leftBracket] true :=
  cut_token (by decide) fun _ _ => rfl

theorem cut_rightBracket (o : Bool) : Cut o [']'] [.rightBracket] false :=
  cut_token (by decide) fun _ _ => rfl

theorem cut_comma (o : Bool) : Cut o [','] [.comma] true :=
  cut_token (by decide) fun _ _ => rfl

theorem cut_bar (o : Bool) : Cut o ['|'] [.operator .union] true :=
  cut_token (by decide) fun _ _ => rfl

theorem cut_atSign (o : Bool) : Cut o ['@'] [.atSign] true :=
  cut_token (by decide) fun _ _ => rfl

theorem cut_minus (o : Bool) : Cut o ['-'] [.operator .subtract] true :=
  cut_token (by decide) fun _ _ => rfl

theorem cut_plus (o : Bool) : Cut o ['+'] [.operator .add] true :=
  cut_token (by decide) fun _ _ => rfl

theorem cut_equal (o : Bool) : Cut o ['='] [.operator .equal] true :=
  cut_token (by decide) fun _ _ => rfl

theorem cut_greaterEqual (o : Bool) : Cut o ['>', '='] [.operator .greaterEqual] true :=
  cut_token (by decide) fun _ _ => rfl

private theorem cut_doubleColon (o : Bool) : Cut o [':', ':'] [.doubleColon] true :=
  cut_token (by decide) fun _ _ => rfl

theorem cut_doubleSlash (o : Bool) : Cut o ['/', '/'] [.doubleSlash] true :=
  cut_token (by decide) fun _ _ => rfl

theorem cut_asterisk : Cut true ['*'] [.name "*"] false :=
  cut_token (by decide) fun _ _ => rfl

/-- A slash, unless another one follows it. -/
theorem Cut.slash (h : Cut true s ts o') (hs : ∃ c ∈ s.head?, c ≠ '/') :
    Cut o ('/' :: s) (.slash :: ts) o' := by
  intro r hr
  obtain ⟨c, hc, hne⟩ := hs
  obtain ⟨s, rfl⟩ := List.head?_eq_some_iff.1 hc
  have hpair : pair? '/' (c :: s ++ r) = none := by
    unfold pair?
    split <;> simp_all
  have hscan : scan o '/' (c :: s ++ r) = .ok (.slash, c :: s ++ r) := by
    rw [scan, if_neg (by simp [startsNumber]), if_neg (by decide), if_neg (by decide), hpair]
    rfl
  rw [List.cons_append, tokensFrom_cons (by decide) hscan]
  show Except.map _ (tokensFrom true (c :: s ++ r)) = _
  rw [h r hr]
  cases tokensFrom o' r <;> rfl

/-- Whether a text is one name token unless what follows gives it another role. -/
def isName : Text → Bool
  | [] => false
  | c :: s => isNameStart c && !Text.isSpace c && s.all isNameChar

theorem scan_name {c : Char} {u v : Text} (hc : isNameStart c) (hu : ∀ d ∈ u, isNameChar d)
    (hv : ∀ d ∈ v.head?, isNameChar d = false) :
    scan o c (u ++ v) = .ok (ofName o (c :: u) v, v) := by
  have hdigit : ¬ c.isDigit = true := by
    intro hdigit
    rw [isNameStart, Identifier.not_isStart_of_isDigit hdigit] at hc
    cases hc
  have hdot : c ≠ '.' := by
    rintro rfl
    revert hc
    decide
  have hnumber : ¬ startsNumber c (u ++ v) = true := by simp [startsNumber, hdigit, hdot]
  obtain ⟨htake, hdrop⟩ := takeWhile_append_of_head hu hv
  rw [scan, if_neg hnumber, if_pos hc, htake, hdrop]

/-- A name is cut off and given a role by what follows it. -/
theorem tokensFrom_name (name : Text) (h : isName name) (hr : ∀ d ∈ r.head?, isNameChar d = false) :
    tokensFrom o (name ++ r) =
      (tokensFrom (ofName o name r).opensOperand r).map (ofName o name r :: ·) := by
  cases name with
  | nil => cases h
  | cons c s =>
    simp only [isName, Bool.and_eq_true, Bool.not_eq_true', List.all_eq_true] at h
    exact tokensFrom_cons h.1.2 (scan_name h.1.1 h.2 hr)

theorem cut_name {name : Text} (h : isName name) : Cut true name [.name name] false := by
  intro r hr
  have hends := hr rfl
  have hrole : ofName true name r = .name name := by
    show roleOfName name r = .name name
    unfold roleOfName
    split
    · rename_i heq
      exact absurd rfl (hends.role '(' (by rw [heq]; rfl)).1
    · rename_i heq
      exact absurd rfl (hends.role ':' (by rw [heq]; rfl)).2
    · rfl
  have hname := tokensFrom_name name (o := true) h hends.head
  rw [hrole] at hname
  exact hname

/-- A name is cut together with the mark behind it that gives it its role. -/
theorem Cut.after_name {name mark : Text} {d : Char} {t t' : Token}
    (hcut : Cut false (d :: mark) [t'] true) (h : isName name) (hd : isNameChar d = false)
    (hrole : ∀ r, ofName true name (d :: mark ++ r) = t) (ht : t.opensOperand = false) :
    Cut true (name ++ d :: mark) [t, t'] true := by
  intro r _
  have hname := tokensFrom_name name (o := true) (r := d :: mark ++ r) h (by simp [hd])
  rw [hrole, ht, hcut r (by simp)] at hname
  rw [List.append_assoc, hname]
  cases tokensFrom true r <;> rfl

theorem cut_function {name : Text} (h : isName name) (hnone : nodeTypeOfName? name = none) :
    Cut true (name ++ ['(']) [.function name, .leftParen] true := by
  refine (cut_leftParen false).after_name h (by decide) (fun r => ?_) rfl
  show (nodeTypeOfName? name).elim (Token.function name) Token.nodeType = .function name
  rw [hnone]
  rfl

theorem cut_nodeType (type : NodeType) :
    Cut true (type.name ++ ['(']) [.nodeType type, .leftParen] true := by
  have hname : isName type.name := by cases type <;> decide +kernel
  refine (cut_leftParen false).after_name hname (by decide) (fun r => ?_) rfl
  cases type <;> rfl

theorem cut_axis (name : Text) (h : isName name) :
    Cut true (name ++ [':', ':']) [.axis name, .doubleColon] true :=
  (cut_doubleColon false).after_name h (by decide) (fun _ => rfl) rfl

/-- The name of an operator where an operator is expected. -/
theorem cut_operatorName {name : Text} {operator : Operator} (h : isName name)
    (hoperator : operatorOfName? name = some operator) :
    Cut false (name ++ [' ']) [.operator operator] true := by
  intro r _
  have hrole : ofName false name (' ' :: r) = .operator operator := by
    show (operatorOfName? name).elim _ _ = _
    rw [hoperator]
    rfl
  have hname := tokensFrom_name name (o := false) (r := ' ' :: r) h (by simp; decide)
  rw [hrole] at hname
  rw [List.append_assoc, List.singleton_append, hname]
  show Except.map _ (tokensFrom true (' ' :: r)) = _
  rw [tokensFrom_blank]
  rfl

@[simp] theorem ofDecimal_ofNat (n : Nat) : Double.ofDecimal (Text.ofNat n) = .ofNat n := by
  have hcut : ∀ s : Text, '.' ∉ s → Text.cut? '.' s = none := by
    intro s hs
    induction s with
    | nil => rfl
    | cons c s ih =>
      rw [List.mem_cons, not_or] at hs
      rw [Text.cut?, if_neg (Ne.symm hs.1), ih hs.2]
      rfl
  have hdot : '.' ∉ Text.ofNat n := by
    intro hmem
    have := isDigit_of_mem_ofNat hmem
    revert this
    decide
  rw [Double.ofDecimal, hcut _ hdot]
  show Double.ofNat _ = _
  rw [digitsValue_ofNat]

theorem cut_number (n : Nat) : Cut true (Text.ofNat n) [.number (.ofNat n)] false := by
  obtain ⟨c, s, hcs⟩ := List.exists_cons_of_ne_nil (ofNat_ne_nil n)
  have hdigit : c.isDigit := isDigit_of_mem_ofNat (n := n) (by simp [hcs])
  rw [hcs]
  apply cut_token (Identifier.isSpace_of_isDigit hdigit)
  intro r hr
  have hends : ∀ d ∈ r.head?, d.isDigit = false ∧ d ≠ '.' := fun d hd =>
    isDigit_of_not_isNameChar ((hr rfl).head d hd)
  have hsplit : splitNumber (c :: (s ++ r)) = (c :: s, r) := by
    have htake := takeWhile_ofNat_append n fun d hd => (hends d hd).1
    have hdrop := dropWhile_ofNat_append n fun d hd => (hends d hd).1
    rw [hcs, List.cons_append] at htake hdrop
    rw [splitNumber, htake, hdrop]
    cases r with
    | nil => rfl
    | cons d r =>
      split
      · rename_i heq
        cases heq
        exact absurd rfl (hends '.' rfl).2
      · rfl
  rw [scan, if_pos (by simp [startsNumber, hdigit]), hsplit, ← hcs]
  simp only [ofDecimal_ofNat]

theorem cut?_append {c : Char} {u v : Text} (h : c ∉ u) :
    Text.cut? c (u ++ c :: v) = some (u, v) := by
  induction u with
  | nil => simp [Text.cut?]
  | cons d u ih =>
    rw [List.mem_cons, not_or] at h
    rw [List.cons_append, Text.cut?, if_neg (Ne.symm h.1), ih h.2]
    rfl

theorem cut_literal {quote : Char} (hquote : quote = '"' ∨ quote = '\'') {value : Text}
    (h : quote ∉ value) : Cut true (quote :: (value ++ [quote])) [.literal value] false := by
  have hspace : Text.isSpace quote = false := by rcases hquote with rfl | rfl <;> decide
  apply cut_token hspace
  intro r _
  have hnumber : ¬ startsNumber quote (value ++ [quote] ++ r) = true := by
    rcases hquote with rfl | rfl <;> simp [startsNumber]
  have hname : ¬ isNameStart quote = true := by rcases hquote with rfl | rfl <;> decide
  rw [scan, if_neg hnumber, if_neg hname, if_pos hquote, List.append_assoc, List.singleton_append,
    cut?_append h]

end CssLocator.XPath
