import CssLocator.DoubleDecimals
import CssLocator.Identifiers

/-!
# XPath tokens

An expression is cut into tokens from left to right. What a name or an asterisk means depends on
its neighbours: after an operand it is an operator, before a parenthesis a function or node type,
before a double colon an axis, and elsewhere a name test.
-/

namespace CssLocator.XPath

/-- Binary operators, from the loosest to the tightest binding. -/
inductive Operator where
  | or
  | and
  | equal
  | notEqual
  | less
  | lessEqual
  | greater
  | greaterEqual
  | add
  | subtract
  | multiply
  | divide
  | modulo
  | union
  deriving DecidableEq, Repr

def Operator.text : Operator → Text
  | or => "or"
  | and => "and"
  | equal => "="
  | notEqual => "!="
  | less => "<"
  | lessEqual => "<="
  | greater => ">"
  | greaterEqual => ">="
  | add => "+"
  | subtract => "-"
  | multiply => "*"
  | divide => "div"
  | modulo => "mod"
  | union => "|"

inductive NodeType where
  | node
  | text
  | comment
  deriving DecidableEq, Repr

def NodeType.name : NodeType → Text
  | node => "node"
  | text => "text"
  | comment => "comment"

inductive Token where
  | slash
  | doubleSlash
  | dot
  | doubleDot
  | atSign
  | comma
  | leftParen
  | rightParen
  | leftBracket
  | rightBracket
  | doubleColon
  | operator (o : Operator)
  | literal (value : Text)
  | number (value : Double)
  | name (name : Text)
  | function (name : Text)
  | axis (name : Text)
  | nodeType (type : NodeType)
  deriving DecidableEq, Repr

namespace Token

def text : Token → Text
  | slash => "/"
  | doubleSlash => "//"
  | dot => "."
  | doubleDot => ".."
  | atSign => "@"
  | comma => ","
  | leftParen => "("
  | rightParen => ")"
  | leftBracket => "["
  | rightBracket => "]"
  | doubleColon => "::"
  | operator o => o.text
  | literal value => "'" ++ value ++ "'"
  | number value => value.decimalText
  | name n | function n | axis n => n
  | nodeType t => t.name

/-- Whether an operand, and so no operator, follows the token. -/
def opensOperand : Token → Bool
  | slash | doubleSlash | atSign | comma | leftParen | leftBracket | doubleColon | operator _ => true
  | _ => false

end Token

def isNameStart (c : Char) : Bool := Identifier.isStart c

def isNameChar (c : Char) : Bool := Identifier.isContinue c || c == '.'

/-- Splits off digits with at most one point among them. -/
def splitNumber (s : Text) : Text × Text :=
  let whole := s.takeWhile Char.isDigit
  match s.dropWhile Char.isDigit with
  | '.' :: r => (whole ++ '.' :: r.takeWhile Char.isDigit, r.dropWhile Char.isDigit)
  | rest => (whole, rest)

def operatorOfName? (name : Text) : Option Operator :=
  if name = "and" then some .and
  else if name = "or" then some .or
  else if name = "mod" then some .modulo
  else if name = "div" then some .divide
  else none

def nodeTypeOfName? (name : Text) : Option NodeType :=
  [NodeType.node, .text, .comment].find? fun t => t.name == name

/-- The role of a name that is no operator, told by what follows it. -/
def roleOfName (name following : Text) : Token :=
  match Text.skipSpace following with
  | '(' :: _ => (nodeTypeOfName? name).elim (.function name) .nodeType
  | ':' :: ':' :: _ => .axis name
  | _ => .name name

/-- The token of a name. -/
def ofName (operand : Bool) (name following : Text) : Token :=
  if operand then roleOfName name following
  else (operatorOfName? name).elim (roleOfName name following) .operator

inductive LexicalFault where
  | unexpected
  | openLiteral
  deriving DecidableEq, Repr

/-- The token of two punctuation characters, and what follows it. -/
def pair? (c : Char) (r : Text) : Option (Token × Text) :=
  match c, r with
  | '/', '/' :: r => some (.doubleSlash, r)
  | '.', '.' :: r => some (.doubleDot, r)
  | ':', ':' :: r => some (.doubleColon, r)
  | '!', '=' :: r => some (.operator .notEqual, r)
  | '<', '=' :: r => some (.operator .lessEqual, r)
  | '>', '=' :: r => some (.operator .greaterEqual, r)
  | _, _ => none

/-- The token of one punctuation character. -/
def single? (operand : Bool) (c : Char) : Option Token :=
  match c with
  | '/' => some .slash
  | '.' => some .dot
  | '@' => some .atSign
  | ',' => some .comma
  | '(' => some .leftParen
  | ')' => some .rightParen
  | '[' => some .leftBracket
  | ']' => some .rightBracket
  | '|' => some (.operator .union)
  | '+' => some (.operator .add)
  | '-' => some (.operator .subtract)
  | '*' => some (if operand then .name "*" else .operator .multiply)
  | '=' => some (.operator .equal)
  | '<' => some (.operator .less)
  | '>' => some (.operator .greater)
  | _ => none

/-- Whether a number starts here: a digit, or a point before a digit. -/
def startsNumber (c : Char) (r : Text) : Bool := c.isDigit || (c == '.' && r.head?.any Char.isDigit)

/-- The token that starts with the character `c`, and what follows it. An operand is expected at
the start and after a token that opens one. -/
def scan (operand : Bool) (c : Char) (r : Text) : Except LexicalFault (Token × Text) :=
  if startsNumber c r then
    let (digits, rest) := splitNumber (c :: r)
    .ok (.number (.ofDecimal digits), rest)
  else if isNameStart c then
    let name := c :: r.takeWhile isNameChar
    let rest := r.dropWhile isNameChar
    .ok (ofName operand name rest, rest)
  else if c = '"' ∨ c = '\'' then
    match Text.cut? c r with
    | none => .error .openLiteral
    | some (value, rest) => .ok (.literal value, rest)
  else
    match pair? c r with
    | some found => .ok found
    | none =>
      match single? operand c with
      | some t => .ok (t, r)
      | none => .error .unexpected

theorem length_dropWhile (p : Char → Bool) (s : Text) : (s.dropWhile p).length ≤ s.length :=
  (List.dropWhile_suffix _).length_le

theorem cut?_length {c : Char} {s : Text} :
    ∀ {u v : Text}, Text.cut? c s = some (u, v) → v.length ≤ s.length := by
  induction s with
  | nil => simp [Text.cut?]
  | cons x r ih =>
    intro u v h
    unfold Text.cut? at h
    split at h
    · cases h
      simp
    · simp only [Option.map_eq_some_iff, Prod.exists, Prod.mk.injEq] at h
      obtain ⟨u', v', h', -, rfl⟩ := h
      have := ih h'
      simp only [List.length_cons]
      omega

theorem splitNumber_length {c : Char} {r : Text} (h : startsNumber c r) :
    (splitNumber (c :: r)).2.length ≤ r.length := by
  unfold splitNumber
  by_cases hc : c.isDigit
  · simp only [List.dropWhile_cons, hc, if_true]
    have hr := length_dropWhile Char.isDigit r
    split
    · rename_i r' hr'
      rw [hr'] at hr
      have := length_dropWhile Char.isDigit r'
      simp only [List.length_cons] at hr ⊢
      omega
    · exact hr
  · have hdot : c = '.' := by simp_all [startsNumber]
    subst hdot
    simp only [List.dropWhile_cons, hc]
    exact length_dropWhile Char.isDigit r

theorem pair?_length {c : Char} {r rest : Text} {t : Token} (h : pair? c r = some (t, rest)) :
    rest.length ≤ r.length := by
  unfold pair? at h
  split at h <;> cases h <;> simp

theorem scan_length {operand : Bool} {c : Char} {r rest : Text} {t : Token}
    (h : scan operand c r = .ok (t, rest)) : rest.length ≤ r.length := by
  unfold scan at h
  split at h
  · rename_i hnumber
    cases h
    exact splitNumber_length hnumber
  · split at h
    · cases h
      exact length_dropWhile isNameChar r
    · split at h
      · split at h
        · cases h
        · rename_i hcut
          cases h
          exact cut?_length hcut
      · split at h
        · rename_i found hpair
          cases h
          exact pair?_length hpair
        · split at h <;> cases h
          exact Nat.le_refl _

/-- A refused text: the cause, and what was left to read. -/
structure LexicalError where
  fault : LexicalFault
  rest : Text
  deriving DecidableEq, Repr

/-- Cuts a text into tokens; `operand` tells whether an operand is expected first. -/
def tokensFrom (operand : Bool) (s : Text) : Except LexicalError (List Token) :=
  match s with
  | [] => .ok []
  | c :: r =>
    if Text.isSpace c then tokensFrom operand r
    else
      match _h : scan operand c r with
      | .error fault => .error ⟨fault, c :: r⟩
      | .ok (t, rest) => (tokensFrom t.opensOperand rest).map (t :: ·)
termination_by s.length
decreasing_by
  · simp
  · have := scan_length _h
    simp only [List.length_cons]
    omega

def tokens (s : Text) : Except LexicalError (List Token) := tokensFrom true s

end CssLocator.XPath
