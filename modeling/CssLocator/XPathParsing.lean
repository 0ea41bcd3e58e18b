import CssLocator.XPathExpressions

/-!
# Parsing XPath expressions

One reader for each rule of the grammar, from the loosest binding operators to location paths. The
readers of operands take the reader of whole expressions as an argument, which stands for what is
inside parentheses and brackets; the nesting is bounded by the number of tokens.
-/

namespace CssLocator.XPath

/-- Reads something from the front of a list of tokens. -/
abbrev Reader (α : Type) := List Token → Except Error (α × List Token)

namespace Reader

def expect (wanted : Token) : List Token → Except Error (List Token)
  | [] => .error (.malformed (.expected wanted none))
  | t :: ts => if t = wanted then .ok ts else .error (.malformed (.expected wanted (some t)))

/-- The operator of a token, if it is one of the given ones. -/
def operatorAmong? (operators : List Operator) : Token → Option Operator
  | .operator o => if o ∈ operators then some o else none
  | _ => none

/-- Continues a chain of operands whose first ones are joined to `left`. Every round takes a token,
so as many rounds as there are tokens suffice. -/
def chainFrom (operators : List Operator) (operand : Reader Expr) :
    (rounds : Nat) → (left : Expr) → Reader Expr
  | 0, left, ts => .ok (left, ts)
  | _ + 1, left, [] => .ok (left, [])
  | rounds + 1, left, t :: ts =>
    match operatorAmong? operators t with
    | none => .ok (left, t :: ts)
    | some o => do
      let (right, ts) ← operand ts
      chainFrom operators operand rounds (.binary o left right) ts

/-- Operands joined by operators of one rank, grouped to the left. -/
def chain (operators : List Operator) (operand : Reader Expr) : Reader Expr := fun ts => do
  let (left, ts) ← operand ts
  chainFrom operators operand ts.length left ts

def predicatesFrom (expression : Reader Expr) : (rounds : Nat) → Reader (List Expr)
  | rounds + 1, .leftBracket :: ts => do
    let (p, ts) ← expression ts
    let ts ← expect .rightBracket ts
    let (ps, ts) ← predicatesFrom expression rounds ts
    .ok (p :: ps, ts)
  | _, ts => .ok ([], ts)

def predicates (expression : Reader Expr) : Reader (List Expr) := fun ts =>
  predicatesFrom expression ts.length ts

def axis : Reader Axis
  | .atSign :: ts => .ok (.attributes, ts)
  | .axis name :: ts =>
    match Axis.ofName? name with
    | none => .error (.unsupportedAxis name)
    | some a => do
      let ts ← expect .doubleColon ts
      .ok (a, ts)
  | ts => .ok (.child, ts)

def nodeTest : Reader NodeTest
  | .name name :: ts => .ok (if name = "*" then .any else .name name, ts)
  | .nodeType type :: ts => do
    let ts ← expect .leftParen ts
    let ts ← expect .rightParen ts
    .ok (.type type, ts)
  | ts => .error (.malformed (.noNodeTest ts.head?))

def step (expression : Reader Expr) : Reader Step
  | .dot :: ts => .ok (.mk .self (.type .node) [], ts)
  | .doubleDot :: ts => .ok (.mk .parent (.type .node) [], ts)
  | ts => do
    let (a, ts) ← axis ts
    let (test, ts) ← nodeTest ts
    let (ps, ts) ← predicates expression ts
    .ok (.mk a test ps, ts)

/-- The steps after the first one. -/
def stepsFrom (expression : Reader Expr) : (rounds : Nat) → Reader (List Step)
  | rounds + 1, .slash :: ts => do
    let (s, ts) ← step expression ts
    let (more, ts) ← stepsFrom expression rounds ts
    .ok (s :: more, ts)
  | rounds + 1, .doubleSlash :: ts => do
    let (s, ts) ← step expression ts
    let (more, ts) ← stepsFrom expression rounds ts
    .ok (.anyDepth :: s :: more, ts)
  | _, ts => .ok ([], ts)

def relativePath (expression : Reader Expr) : Reader (List Step) := fun ts => do
  let (s, ts) ← step expression ts
  let (more, ts) ← stepsFrom expression ts.length ts
  .ok (s :: more, ts)

/-- Whether a step can start with the token. -/
def startsStep : Token → Bool
  | .dot | .doubleDot | .atSign | .name _ | .nodeType _ | .axis _ => true
  | _ => false

def locationPath (expression : Reader Expr) : Reader Expr
  | .doubleSlash :: ts => do
    let (steps, ts) ← relativePath expression ts
    .ok (.path true (.anyDepth :: steps), ts)
  | .slash :: ts =>
    if ts.head?.any startsStep then do
      let (steps, ts) ← relativePath expression ts
      .ok (.path true steps, ts)
    else .ok (.path true [], ts)
  | ts => do
    let (steps, ts) ← relativePath expression ts
    .ok (.path false steps, ts)

/-- The arguments of a call after the first one, and the closing parenthesis. -/
def argumentsFrom (expression : Reader Expr) : (rounds : Nat) → Reader (List Expr)
  | rounds + 1, .comma :: ts => do
    let (e, ts) ← expression ts
    let (more, ts) ← argumentsFrom expression rounds ts
    .ok (e :: more, ts)
  | _, ts => do
    let ts ← expect .rightParen ts
    .ok ([], ts)

/-- The arguments of a call, from its opening to its closing parenthesis. -/
def arguments (expression : Reader Expr) : Reader (List Expr) := fun ts => do
  match ← expect .leftParen ts with
  | .rightParen :: ts => .ok ([], ts)
  | ts =>
    let (e, ts) ← expression ts
    let (more, ts) ← argumentsFrom expression ts.length ts
    .ok (e :: more, ts)

/-- The steps that may follow a primary expression. -/
def continuation (expression : Reader Expr) : Reader (List Step)
  | .doubleSlash :: ts => do
    let (steps, ts) ← relativePath expression ts
    .ok (.anyDepth :: steps, ts)
  | .slash :: ts => relativePath expression ts
  | ts => .ok ([], ts)

/-- A primary expression with what narrows and continues it. -/
def filtered (expression : Reader Expr) (primary : Expr) : Reader Expr := fun ts => do
  let (ps, ts) ← predicates expression ts
  let (steps, ts) ← continuation expression ts
  .ok (if ps.isEmpty && steps.isEmpty then primary else .filter primary ps steps, ts)

def pathExpression (expression : Reader Expr) : Reader Expr
  | .literal value :: ts => filtered expression (.literal value) ts
  | .number value :: ts => filtered expression (.number value) ts
  | .leftParen :: ts => do
    let (e, ts) ← expression ts
    let ts ← expect .rightParen ts
    filtered expression e ts
  | .function name :: ts => do
    let (args, ts) ← arguments expression ts
    filtered expression (.call name args) ts
  | ts => locationPath expression ts

/-- Minus signs before an operand. -/
def negation (operand : Reader Expr) : Reader Expr
  | .operator .subtract :: ts => do
    let (e, ts) ← negation operand ts
    .ok (.negate e, ts)
  | ts => operand ts

/-- An expression whose inner expressions are read by `expression`. -/
def disjunction (expression : Reader Expr) : Reader Expr :=
  chain [.or] <| chain [.and] <| chain [.equal, .notEqual] <|
    chain [.less, .lessEqual, .greater, .greaterEqual] <| chain [.add, .subtract] <|
      chain [.multiply, .divide, .modulo] <| negation <| chain [.union] <|
        pathExpression expression

/-- An expression with at most `nesting` levels of parentheses and brackets around its parts. -/
def expression : (nesting : Nat) → Reader Expr
  | 0, ts => .error (.malformed (.noExpression ts.head?))
  | nesting + 1, ts => disjunction (expression nesting) ts

end Reader

/-- Reads a whole list of tokens as one expression. -/
def ofTokens (ts : List Token) : Except Error Expr :=
  if ts.isEmpty then .error (.malformed .emptyExpression)
  else do
    match ← Reader.expression (ts.length + 1) ts with
    | (e, []) => .ok e
    | (_, t :: _) => .error (.malformed (.leftOver t))

def LexicalError.toError (whole : Text) (e : LexicalError) : Error :=
  let offset := whole.length - e.rest.length
  match e.fault, e.rest with
  | .unexpected, c :: _ => .unexpectedCharacter c offset
  | _, _ => .openLiteral offset

def parse (s : Text) : Except Error Expr := do
  let ts ← (tokens s).mapError (·.toError s)
  ofTokens ts

end CssLocator.XPath
