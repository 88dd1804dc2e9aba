import Lox.Grammar.Expression

/-!
The grammar of declarations and statements, with recovery.

A declaration that cannot be read is recorded and dropped, and reading resumes at the next place
where a statement may start.  As with expressions, each recursion has a bound that is no less than
the number of tokens left.
-/

namespace Lox

/-- Whether a token of this kind starts a statement by a keyword. -/
def Kind.startsStatement : Kind → Bool
  | kwClass | kwFun | kwVar | kwFor | kwIf | kwWhile | kwPrint | kwReturn => true
  | _ => false

/-- A loop with a head of three clauses, built from simpler statements: an increment runs behind
the body in a scope of the two, and an initializer runs once in a scope around the loop. -/
def Stmt.forLoop (initializer : Option Stmt) (condition : Expr) (increment : Option Expr)
    (body : Stmt) : Stmt :=
  let repeated := match increment with
    | none => body
    | some e => .block [body, .expression e]
  match initializer with
  | none => .loop condition repeated
  | some s => .block [s, .loop condition repeated]

namespace Parser

/-- The tokens from the first boundary on, where `previous` stands in front of `rest`. -/
def resume (previous : Token) : List Token → List Token
  | [] => []
  | t :: rest =>
    if previous.kind = .semicolon || t.kind.startsStatement then t :: rest else resume t rest

/-- The tokens that are left after a fault at the first of them.  That one is always given up. -/
def dropToBoundary : List Token → List Token
  | [] => []
  | t :: rest => resume t rest

/-- Reads a declaration, or records why there is none and finds the next boundary. -/
def recovering (declaration : Parser Stmt) : Parser (Option Stmt) := fun s =>
  match declaration s with
  | .ok statement s => .ok (some statement) s
  | .error e s => .ok none { s.record e with rest := dropToBoundary s.rest }

/-- Reads inside a function body.  However that ends, the place behind it is not inside. -/
def insideFunction {α : Type} (body : Parser α) : Parser α := fun s =>
  match body { s with depth := s.depth + 1 } with
  | .ok a s' => .ok a { s' with depth := s.depth }
  | .error e s' => .error e { s' with depth := s.depth }

/-- The declarations up to a token of a kind that ends them. -/
def declarations (ends : Kind → Bool) (declaration : Parser (Option Stmt)) :
    Nat → Parser (List Stmt)
  | 0 => pure []
  | n + 1 => do
    if ends (← peek).kind then
      pure []
    else
      let first? ← declaration
      let others ← declarations ends declaration n
      return first?.toList ++ others

/-- The rest of a block behind its opening brace. -/
def block (bound : Nat) (declaration : Parser (Option Stmt)) : Parser (List Stmt) := do
  let body ← declarations (fun k => k == .rightBrace || k == .eof) declaration bound
  let _ ← expect .afterBlock
  return body

/-- An expression with the semicolon that makes it a statement. -/
def expressionStatement (bound : Nat) : Parser Stmt := do
  let value ← assignment bound
  let _ ← expect .afterExpression
  return .expression value

/-- The rest of a variable declaration behind its keyword. -/
def variableDeclaration (bound : Nat) : Parser Stmt := do
  let name ← expect .variableName
  let initializer ← if ← skip .equal then some <$> assignment bound else pure none
  let _ ← expect .afterVariable
  return .declare name initializer

/-- A list of parameters, of which `count` were read before. -/
def parameters : Nat → Nat → Parser (List Token)
  | 0, count => do
    limit count .tooManyParameters
    return [← expect .parameterName]
  | n + 1, count => do
    limit count .tooManyParameters
    let first ← expect .parameterName
    if ← skip .comma then
      return first :: (← parameters n (count + 1))
    else
      return [first]

/-- What stands between the parentheses of a function's head. -/
def parameterList (bound : Nat) : Parser (List Token) := do
  if (← peek).kind = .rightParen then pure [] else parameters bound 0

/-- The rest of a function declaration behind its keyword. -/
def functionDeclaration (bound : Nat) (declaration : Parser (Option Stmt)) : Parser Stmt := do
  let name ← expect .functionName
  let _ ← expect .beforeParameters
  let parameters ← parameterList bound
  let _ ← expect .afterParameters
  let _ ← expect .beforeFunctionBody
  let body ← insideFunction (block bound declaration)
  return .function ⟨name, parameters, body⟩

/-- The rest of an `if` statement behind its keyword. -/
def branch (bound : Nat) (statement : Parser Stmt) : Parser Stmt := do
  let _ ← expect .beforeIfCondition
  let condition ← assignment bound
  let _ ← expect .afterIfCondition
  let whenTrue ← statement
  let whenFalse ← if ← skip .kwElse then some <$> statement else pure none
  return .branch condition whenTrue whenFalse

/-- The rest of a `while` statement behind its keyword. -/
def whileLoop (bound : Nat) (statement : Parser Stmt) : Parser Stmt := do
  let _ ← expect .beforeWhileCondition
  let condition ← assignment bound
  let _ ← expect .afterWhileCondition
  return .loop condition (← statement)

/-- The first clause in the head of a `for` statement, with its semicolon. -/
def initializer (bound : Nat) : Parser (Option Stmt) := do
  match (← peek).kind with
  | .semicolon =>
    let _ ← take
    return none
  | .kwVar =>
    let _ ← take
    some <$> variableDeclaration bound
  | _ => some <$> expressionStatement bound

/-- The rest of a `for` statement behind its keyword.  A missing condition counts as true. -/
def forLoop (bound : Nat) (statement : Parser Stmt) : Parser Stmt := do
  let _ ← expect .beforeForClauses
  let initializer ← initializer bound
  let condition ←
    if (← peek).kind = .semicolon then pure (.literal (.bool true)) else assignment bound
  let _ ← expect .afterLoopCondition
  let increment ←
    if (← peek).kind = .rightParen then pure none else some <$> assignment bound
  let _ ← expect .afterForClauses
  return .forLoop initializer condition increment (← statement)

/-- The rest of a `print` statement behind its keyword. -/
def print (bound : Nat) (keyword : Token) : Parser Stmt := do
  let value ← assignment bound
  let _ ← expect .afterPrintedValue
  return .print keyword value

/-- Records a `return` that no function body is around. -/
def checkReturn (keyword : Token) : Parser Unit := do
  if (← get).depth = 0 then report keyword .topLevelReturn else pure ()

/-- The rest of a `return` statement behind its keyword. -/
def ret (bound : Nat) (keyword : Token) : Parser Stmt := do
  checkReturn keyword
  let value ← if (← peek).kind = .semicolon then pure none else some <$> assignment bound
  let _ ← expect .afterReturnValue
  return .ret keyword value

/-- A statement, given how to read the statements and declarations inside it. -/
def statementOf (bound : Nat) (statement : Parser Stmt) (declaration : Parser (Option Stmt)) :
    Parser Stmt := do
  let t ← peek
  match t.kind with
  | .kwIf =>
    let _ ← take
    branch bound statement
  | .kwPrint =>
    let _ ← take
    print bound t
  | .kwReturn =>
    let _ ← take
    ret bound t
  | .leftBrace =>
    let _ ← take
    return .block (← block bound declaration)
  | .kwWhile =>
    let _ ← take
    whileLoop bound statement
  | .kwFor =>
    let _ ← take
    forLoop bound statement
  | _ => expressionStatement bound

/-- A declaration, given how to read the statements and declarations inside it. -/
def declarationOf (bound : Nat) (statement : Parser Stmt) (declaration : Parser (Option Stmt)) :
    Parser Stmt := do
  match (← peek).kind with
  | .kwVar =>
    let _ ← take
    variableDeclaration bound
  | .kwFun =>
    let _ ← take
    functionDeclaration bound declaration
  | _ => statementOf bound statement declaration

mutual

def statement : Nat → Parser Stmt
  | 0 => missingExpression
  | n + 1 => statementOf (n + 1) (statement n) (declaration n)

/-- A declaration or a statement, or nothing where there was a fault. -/
def declaration : Nat → Parser (Option Stmt)
  | 0 => recovering missingExpression
  | n + 1 => recovering (declarationOf (n + 1) (statement n) (declaration n))

end

end Parser

end Lox
