import CssLocator.Errors
import CssLocator.Identifiers
import CssLocator.Selectors

/-!
# Reading selector lists

A list is split at its outer commas. Each part is a chain of compounds; a compound is read one
simple selector at a time, and every reader returns what follows the part it has read. The argument
of a pseudo-class is kept as raw text.
-/

namespace CssLocator

/-- How far a scan of raw text is inside brackets, and the quote it is inside of. -/
structure Nesting where
  depth : Nat
  quote : Option Char
  deriving DecidableEq, Repr

namespace Nesting

def outside : Nesting := ⟨0, none⟩

def isOutside (n : Nesting) : Bool := n.depth == 0 && n.quote.isNone

/-- The nesting after one more character, with the given classes of opening and closing brackets.
Inside quotes only the closing quote counts. -/
def after (opening closing : Char → Bool) (n : Nesting) (c : Char) : Nesting :=
  match n.quote with
  | some q => if c = q then ⟨n.depth, none⟩ else n
  | none =>
    if c = '"' ∨ c = '\'' then ⟨n.depth, some c⟩
    else if opening c then ⟨n.depth + 1, none⟩
    else if closing c then ⟨n.depth - 1, none⟩
    else n

def afterBracket : Nesting → Char → Nesting :=
  after (fun c => c == '(' || c == '[') (fun c => c == ')' || c == ']')

def afterParenthesis : Nesting → Char → Nesting := after (· == '(') (· == ')')

end Nesting

/-- Splits at the commas outside brackets and quotes. A character after a backslash is ordinary. -/
def splitOuterCommas (n : Nesting) : Text → List Text
  | [] => [[]]
  | '\\' :: c :: r => Text.extendHead '\\' (Text.extendHead c (splitOuterCommas n r))
  | c :: r =>
    if c = ',' ∧ n.isOutside then [] :: splitOuterCommas n r
    else Text.extendHead c (splitOuterCommas (n.afterBracket c) r)

/-- The raw argument up to the parenthesis that closes it, and what follows. -/
def readArgument? (n : Nesting) : Text → Option (Text × Text)
  | [] => none
  | '\\' :: c :: r => (readArgument? n r).map fun (a, rest) => ('\\' :: c :: a, rest)
  | c :: r =>
    if c = ')' ∧ n.isOutside then some ([], r)
    else (readArgument? (n.afterParenthesis c) r).map fun (a, rest) => (c :: a, rest)

/-- Reads a pseudo-class after its colon. -/
def readPseudo (s : Text) : Except ParseFault (PseudoUse × Text) :=
  if s.head? = some ':' then .error .pseudoElement
  else
    match Identifier.read? s with
    | none => .error .noPseudoName
    | some (name, '(' :: rest) =>
      match readArgument? .outside rest with
      | none => .error (.openArgument name)
      | some (argument, rest) => .ok (.named name (some argument), rest)
    | some (name, rest) => .ok (.named name none, rest)

def operatorOfMark? (c : Char) : Option AttributeOperator :=
  if c = '~' then some .word
  else if c = '|' then some .dash
  else if c = '^' then some .start
  else if c = '$' then some .finish
  else if c = '*' then some .anywhere
  else none

/-- Reads the comparison of an attribute selector: an operator, or the closing bracket. -/
def readOperator : Text → Except ParseFault (Option AttributeOperator × Text)
  | [] => .error .malformedAttribute
  | c :: r =>
    if c = ']' then .ok (none, r)
    else if c = '=' then .ok (some .equal, r)
    else
      match operatorOfMark? c with
      | none => .error .malformedAttribute
      | some o => if r.head? = some '=' then .ok (some o, r.tail) else .error (.incompleteOperator c)

/-- Reads a value of an attribute selector, quoted or bare. -/
def readAttributeValue (s : Text) : Except ParseFault (Text × Text) :=
  match s with
  | '"' :: r => (Identifier.readQuoted? '"' r).elim (.error .openString) .ok
  | '\'' :: r => (Identifier.readQuoted? '\'' r).elim (.error .openString) .ok
  | _ => (Identifier.readBare? s).elim (.error .noAttributeValue) .ok

/-- Reads an attribute selector after its opening bracket. -/
def readAttribute (s : Text) : Except ParseFault (SimpleSelector × Text) :=
  match Identifier.read? (Text.skipSpace s) with
  | none => .error .noAttributeName
  | some (name, rest) =>
    match readOperator (Text.skipSpace rest) with
    | .error fault => .error fault
    | .ok (none, rest) => .ok (.hasAttribute name none, rest)
    | .ok (some o, rest) =>
      match readAttributeValue (Text.skipSpace rest) with
      | .error fault => .error fault
      | .ok (value, rest) =>
        match Text.skipSpace rest with
        | ']' :: rest => .ok (.hasAttribute name (some (o, value)), rest)
        | _ => .error .openAttribute

/-- Whether a type selector can begin with the character. -/
def startsType (c : Char) : Bool := Identifier.isStart c || c == '-' || c == '\\'

/-- Reads one simple selector. -/
def readSimple : Text → Except ParseFault (SimpleSelector × Text)
  | [] => .error .emptyCompound
  | c :: r =>
    if c = '*' then .ok (.universal, r)
    else if c = '.' then
      match Identifier.read? r with
      | none => .error .noClassName
      | some (name, rest) => .ok (.className name, rest)
    else if c = '#' then
      match Identifier.read? r with
      | none => .error .noId
      | some (name, rest) => .ok (.id name, rest)
    else if c = '[' then readAttribute r
    else if c = ':' then
      match readPseudo r with
      | .error fault => .error fault
      | .ok (use, rest) => .ok (.pseudo use, rest)
    else if startsType c then
      match Identifier.read? (c :: r) with
      | none => .error (.unexpected c)
      | some (name, rest) => .ok (.tag (Text.lower name), rest)
    else .error (.unexpected c)

theorem readArgument?_length (n : Nesting) (s : Text) :
    ∀ {a rest : Text}, readArgument? n s = some (a, rest) → rest.length < s.length := by
  fun_induction readArgument? n s with
  | case1 => simp
  | case2 n c r ih =>
    intro a rest h
    simp only [Option.map_eq_some_iff, Prod.exists, Prod.mk.injEq] at h
    obtain ⟨a', rest', h', -, rfl⟩ := h
    have := ih h'
    simp only [List.length_cons]
    omega
  | case3 => simp
  | case4 n c r _ _ ih =>
    intro a rest h
    simp only [Option.map_eq_some_iff, Prod.exists, Prod.mk.injEq] at h
    obtain ⟨a', rest', h', -, rfl⟩ := h
    have := ih h'
    simp only [List.length_cons]
    omega

theorem skipSpace_length (s : Text) : (Text.skipSpace s).length ≤ s.length :=
  (List.dropWhile_suffix _).length_le

theorem readPseudo_length {s rest : Text} {use : PseudoUse} (h : readPseudo s = .ok (use, rest)) :
    rest.length ≤ s.length := by
  unfold readPseudo at h
  split at h
  · cases h
  · split at h
    · cases h
    · rename_i name rest' hname
      have hlength := Identifier.read?_length hname
      split at h
      · cases h
      · rename_i argument rest'' hargument
        have := readArgument?_length _ _ hargument
        cases h
        simp only [List.length_cons] at hlength
        omega
    · rename_i name rest' _ hname
      have := Identifier.read?_length hname
      cases h
      omega

theorem readOperator_length {s rest : Text} {o : Option AttributeOperator}
    (h : readOperator s = .ok (o, rest)) : rest.length ≤ s.length := by
  unfold readOperator at h
  split at h
  · cases h
  · split at h
    · cases h
      simp
    · split at h
      · cases h
        simp
      · split at h
        · cases h
        · split at h
          · cases h
            simp
            omega
          · cases h

theorem readAttributeValue_length {s value rest : Text}
    (h : readAttributeValue s = .ok (value, rest)) : rest.length ≤ s.length := by
  unfold readAttributeValue at h
  split at h
  · rename_i r
    cases hr : Identifier.readQuoted? '"' r with
    | none => simp [hr] at h
    | some p =>
      obtain ⟨v, w⟩ := p
      simp only [hr, Option.elim_some, Except.ok.injEq, Prod.mk.injEq] at h
      obtain ⟨rfl, rfl⟩ := h
      have := Identifier.readQuoted?_length hr
      simp only [List.length_cons]
      omega
  · rename_i r
    cases hr : Identifier.readQuoted? '\'' r with
    | none => simp [hr] at h
    | some p =>
      obtain ⟨v, w⟩ := p
      simp only [hr, Option.elim_some, Except.ok.injEq, Prod.mk.injEq] at h
      obtain ⟨rfl, rfl⟩ := h
      have := Identifier.readQuoted?_length hr
      simp only [List.length_cons]
      omega
  · cases hr : Identifier.readBare? s with
    | none => simp [hr] at h
    | some p =>
      obtain ⟨v, w⟩ := p
      simp only [hr, Option.elim_some, Except.ok.injEq, Prod.mk.injEq] at h
      obtain ⟨rfl, rfl⟩ := h
      have := Identifier.readBare?_length hr
      omega

theorem readAttribute_length {s rest : Text} {x : SimpleSelector}
    (h : readAttribute s = .ok (x, rest)) : rest.length ≤ s.length := by
  unfold readAttribute at h
  split at h
  · cases h
  · rename_i name r₁ h₁
    have := Identifier.read?_length h₁
    have := skipSpace_length s
    have := skipSpace_length r₁
    split at h
    · cases h
    · rename_i r₂ h₂
      have := readOperator_length h₂
      cases h
      omega
    · rename_i o r₂ h₂
      have := readOperator_length h₂
      have := skipSpace_length r₂
      split at h
      · cases h
      · rename_i value r₃ h₃
        have := readAttributeValue_length h₃
        have h₄ := skipSpace_length r₃
        split at h
        · rename_i r₄ h₅
          rw [h₅] at h₄
          cases h
          simp only [List.length_cons] at h₄
          omega
        · cases h

theorem readSimple_length {s rest : Text} {x : SimpleSelector}
    (h : readSimple s = .ok (x, rest)) : rest.length < s.length := by
  unfold readSimple at h
  split at h
  · cases h
  · rename_i c r
    simp only [List.length_cons]
    repeat' split at h
    all_goals try cases h
    · omega
    · rename_i hname
      have := Identifier.read?_length hname
      omega
    · rename_i hname
      have := Identifier.read?_length hname
      omega
    · have := readAttribute_length h
      omega
    · rename_i hpseudo
      have := readPseudo_length hpseudo
      omega
    · rename_i hname
      have := Identifier.read?_length hname
      simpa using this

def combinatorOf? (c : Char) : Option Combinator :=
  if c = '>' then some .child
  else if c = '+' then some .nextSibling
  else if c = '~' then some .subsequentSibling
  else none

/-- White space and combinators end a compound. -/
def endsCompound (c : Char) : Bool := Text.isSpace c || (combinatorOf? c).isSome

/-- Reads what follows the first simple selector of a compound. -/
def readCompoundTail (s : Text) : Except ParseFault (Compound × Text) :=
  match s with
  | [] => .ok ([], [])
  | c :: r =>
    if endsCompound c then .ok ([], c :: r)
    else if startsType c then .error .misplacedType
    else
      match _h : readSimple (c :: r) with
      | .error fault => .error fault
      | .ok (x, rest) =>
        match readCompoundTail rest with
        | .error fault => .error fault
        | .ok (xs, rest') => .ok (x :: xs, rest')
termination_by s.length
decreasing_by exact readSimple_length _h

/-- Reads a compound, which holds at least one simple selector. -/
def readCompound (s : Text) : Except ParseFault (Compound × Text) :=
  match readSimple s with
  | .error fault => .error fault
  | .ok (x, rest) =>
    match readCompoundTail rest with
    | .error fault => .error fault
    | .ok (xs, rest') => .ok (x :: xs, rest')

theorem readCompoundTail_length (s : Text) :
    ∀ {xs : Compound} {rest : Text}, readCompoundTail s = .ok (xs, rest) →
      rest.length ≤ s.length := by
  fun_induction readCompoundTail s with
  | case1 => simp
  | case2 => simp
  | case3 => simp
  | case4 => simp
  | case5 => simp
  | case6 c r _ _ x rest hx xs rest' hxs ih =>
    intro ys out h
    cases h
    have := readSimple_length hx
    have := ih hxs
    omega

theorem readCompound_length {s rest : Text} {xs : Compound}
    (h : readCompound s = .ok (xs, rest)) : rest.length < s.length := by
  unfold readCompound at h
  split at h
  · cases h
  · rename_i x r₁ h₁
    have := readSimple_length h₁
    split at h
    · cases h
    · rename_i h₂
      have := readCompoundTail_length _ h₂
      cases h
      omega

/-- Reads the compounds from one on whose combinator is already read, and which starts the text. -/
def readChain (k : Combinator) (s : Text) : Except ParseFault Complex :=
  match s with
  | [] => .error .trailingCombinator
  | c :: r =>
    if (combinatorOf? c).isSome then .error .adjacentCombinators
    else
      match _h : readCompound (c :: r) with
      | .error fault => .error fault
      | .ok (compound, rest) =>
        match _h' : Text.skipSpace rest with
        | [] => .ok [(k, compound)]
        | d :: rest' =>
          match combinatorOf? d with
          | some k' => (readChain k' (Text.skipSpace rest')).map ((k, compound) :: ·)
          | none => (readChain .descendant (d :: rest')).map ((k, compound) :: ·)
termination_by s.length
decreasing_by
  all_goals
    have := readCompound_length _h
    have := skipSpace_length rest'
    have htail := skipSpace_length rest
    rw [_h'] at htail
    simp only [List.length_cons] at *
    omega

/-- Reads a complex selector. Only a relative one may begin with a combinator. -/
def readComplex (relative : Bool) (s : Text) : Except ParseFault Complex :=
  match Text.trim s with
  | [] => .error .emptyCompound
  | c :: r =>
    match combinatorOf? c with
    | none => readChain .descendant (c :: r)
    | some k =>
      if relative then readChain k (Text.skipSpace r) else .error (.leadingCombinator c)

/-- Reads a list of complex selectors, relative ones if wanted. -/
def SelectorList.read (relative : Bool) (s : Text) : Except SelectorError SelectorList :=
  let faultless : Except ParseFault SelectorList :=
    if (Text.trim s).isEmpty then .error .emptyList
    else Loop.map (readComplex relative) (splitOuterCommas .outside s)
  faultless.mapError (.malformed s)

end CssLocator
