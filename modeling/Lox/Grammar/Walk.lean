import Lox.Program

/-!
Reading tokens by an index.

A walker stands at an index into all the tokens and reads the one there and the one in front of it.
Nothing bounds a recursion here.  A walk that looks beyond the tokens gives no result, and so does
one that goes on forever.
-/

namespace Lox

structure Walker where
  tokens : Array Token
  /-- The index of the token ahead. -/
  current : Nat
  /-- How many function bodies the place is inside of. -/
  depth : Nat
  /-- The faults so far, in the order in which they were found. -/
  errors : List ParseError

namespace Walker

def ofTokens (tokens : List Token) : Walker := ⟨tokens.toArray, 0, 0, []⟩

def record (s : Walker) (e : ParseError) : Walker := { s with errors := s.errors ++ [e] }

end Walker

/-- What moves a walker. -/
abbrev Stride := StateT Walker Option

/-- A move over a phrase, up to the fault that keeps it from being one. -/
abbrev Walk := ExceptT ParseError Stride

namespace Walk

open Lox.Parser (arityLimit)

/-! ## Tokens -/

/-- The token at an index, which has to be the index of one. -/
def token (index : Nat) : Walk Token := fun s => s.tokens[index]?.map fun t => (.ok t, s)

/-- The token ahead. -/
def peek : Walk Token := do
  let s ← get
  token (min s.current (s.tokens.size - 1))

/-- The token that was taken last. -/
def previous : Walk Token := do token ((← get).current - 1)

/-- Takes the token ahead, unless it ends the tokens. -/
def take : Walk Token := do
  if (← peek).kind ≠ .eof then
    modify fun s => { s with current := s.current + 1 }
  previous

/-- Takes the token ahead if it has the given kind. -/
def skip (kind : Kind) : Walk Bool := do
  if (← peek).kind = kind then
    let _ ← take
    return true
  else
    return false

/-- Takes a token that the grammar asks for. -/
def expect (what : Missing) : Walk Token := do
  let t ← peek
  if t.kind = what.kind then take else throw ⟨t, .missing what⟩

/-- Records a fault that does not stop the walk. -/
def report (t : Token) (fault : ParseFault) : Walk Unit := modify (·.record ⟨t, fault⟩)

/-- Records a fault at the token ahead if `count` entries are as many as there may be. -/
def limit (count : Nat) (fault : ParseFault) : Walk Unit := do
  if arityLimit ≤ count then report (← peek) fault else pure ()

/-- Fails because no expression starts with the token ahead. -/
def missingExpression {α : Type} : Walk α := do throw ⟨← peek, .missingExpression⟩

/-- Records a `return` that no function body is around. -/
def checkReturn (keyword : Token) : Walk Unit := do
  if (← get).depth = 0 then report keyword .topLevelReturn else pure ()

/-! ## Rules -/

/-- What can be read, with the kind of result. -/
inductive Rule : Type → Type
  /-- An assignment or anything tighter. -/
  | assignment : Rule Expr
  /-- An expression of the given levels, loosest first. -/
  | operators (levels : List Level) : Rule Expr
  /-- Operators of one level with their right operands, grouped to the left. -/
  | operations (level : Level) (tighter : List Level) (left : Expr) : Rule Expr
  /-- Prefix operators in front of a call. -/
  | unary : Rule Expr
  /-- The argument lists behind a callee. -/
  | calls (callee : Expr) : Rule Expr
  /-- What stands between the parentheses of a call. -/
  | argumentList : Rule (List Expr)
  /-- A list of arguments, of which `count` were read before. -/
  | arguments (count : Nat) : Rule (List Expr)
  /-- A literal, a name, or an expression in parentheses. -/
  | primary : Rule Expr
  /-- An expression with the semicolon that makes it a statement. -/
  | expressionStatement : Rule Stmt
  /-- The rest of a variable declaration behind its keyword. -/
  | variableDeclaration : Rule Stmt
  /-- What stands between the parentheses of a function's head. -/
  | parameterList : Rule (List Token)
  /-- A list of parameters, of which `count` were read before. -/
  | parameters (count : Nat) : Rule (List Token)
  /-- The first clause in the head of a `for` statement, with its semicolon. -/
  | initializer : Rule (Option Stmt)
  | statement : Rule Stmt
  /-- The rest of a `print` statement behind its keyword. -/
  | print : Rule Stmt
  /-- The rest of a `return` statement behind its keyword. -/
  | ret : Rule Stmt
  /-- The rest of an `if` statement behind its keyword. -/
  | branch : Rule Stmt
  /-- The rest of a `while` statement behind its keyword. -/
  | whileLoop : Rule Stmt
  /-- The rest of a `for` statement behind its keyword. -/
  | forLoop : Rule Stmt
  /-- The rest of a block behind its opening brace. -/
  | block : Rule (List Stmt)
  /-- The declarations up to a token of a kind that ends them. -/
  | declarations (ends : Kind → Bool) : Rule (List Stmt)
  /-- A declaration or a statement, or nothing where there was a fault.  Such a fault is recorded,
  and the walk goes on at the next boundary. -/
  | declaration : Rule (Option Stmt)
  /-- A declaration or a statement, or the fault that keeps it from being one. -/
  | declarationOrFault : Rule Stmt
  /-- The rest of a function declaration behind its keyword. -/
  | functionDeclaration : Rule Stmt
  /-- A block inside a function.  However it ends, the place behind it is not inside. -/
  | functionBody : Rule (List Stmt)
  /-- Gives up the token ahead and all others up to the next boundary. -/
  | synchronize : Rule Unit
  /-- Passes tokens up to the next boundary. -/
  | resume : Rule Unit

/-- Reads what a rule says. -/
def Rule.walk {α : Type} : Rule α → Walk α
  | assignment => do
    let target ← operators Level.all |>.walk
    if (← peek).kind = .equal then
      let equals ← take
      let value ← assignment |>.walk
      match target with
      | .variable x => return .assign x value
      | _ =>
        report equals .invalidAssignmentTarget
        return target
    else
      return target
  | operators [] => unary |>.walk
  | operators (level :: tighter) => do
    let left ← operators tighter |>.walk
    operations level tighter left |>.walk
  | operations level tighter left => do
    if level.operators.contains (← peek).kind then
      let operator ← take
      let right ← operators tighter |>.walk
      operations level tighter (level.combine left operator right) |>.walk
    else
      return left
  | unary => do
    let t ← peek
    if t.kind = .bang ∨ t.kind = .minus then
      let operator ← take
      let right ← unary |>.walk
      return .unary operator right
    else
      let callee ← primary |>.walk
      calls callee |>.walk
  | calls callee => do
    if ← skip .leftParen then
      let given ← argumentList |>.walk
      let paren ← expect .afterArguments
      calls (.call callee paren given) |>.walk
    else
      return callee
  | argumentList => do
    if (← peek).kind = .rightParen then return [] else arguments 0 |>.walk
  | arguments count => do
    limit count .tooManyArguments
    let first ← assignment |>.walk
    if ← skip .comma then
      let others ← arguments (count + 1) |>.walk
      return first :: others
    else
      return [first]
  | primary => do
    let t ← peek
    match t.literal? with
    | some v =>
      let _ ← take
      return .literal v
    | none =>
      match t.kind with
      | .identifier => return .variable (← take)
      | .leftParen =>
        let _ ← take
        let inner ← assignment |>.walk
        let _ ← expect .afterGrouping
        return .grouping inner
      | _ => missingExpression
  | expressionStatement => do
    let value ← assignment |>.walk
    let _ ← expect .afterExpression
    return .expression value
  | variableDeclaration => do
    let name ← expect .variableName
    let initializer ← if ← skip .equal then some <$> (assignment |>.walk) else pure none
    let _ ← expect .afterVariable
    return .declare name initializer
  | parameterList => do
    if (← peek).kind = .rightParen then return [] else parameters 0 |>.walk
  | parameters count => do
    limit count .tooManyParameters
    let first ← expect .parameterName
    if ← skip .comma then
      let others ← parameters (count + 1) |>.walk
      return first :: others
    else
      return [first]
  | initializer => do
    match (← peek).kind with
    | .semicolon =>
      let _ ← take
      return none
    | .kwVar =>
      let _ ← take
      some <$> (variableDeclaration |>.walk)
    | _ => some <$> (expressionStatement |>.walk)
  | statement => do
    match (← peek).kind with
    | .kwIf =>
      let _ ← take
      branch |>.walk
    | .kwPrint =>
      let _ ← take
      print |>.walk
    | .kwReturn =>
      let _ ← take
      ret |>.walk
    | .leftBrace =>
      let _ ← take
      let body ← block |>.walk
      return .block body
    | .kwWhile =>
      let _ ← take
      whileLoop |>.walk
    | .kwFor =>
      let _ ← take
      forLoop |>.walk
    | _ => expressionStatement |>.walk
  | print => do
    let keyword ← previous
    let value ← assignment |>.walk
    let _ ← expect .afterPrintedValue
    return .print keyword value
  | ret => do
    let keyword ← previous
    checkReturn keyword
    let value ←
      if (← peek).kind = .semicolon then pure none else some <$> (assignment |>.walk)
    let _ ← expect .afterReturnValue
    return .ret keyword value
  | branch => do
    let _ ← expect .beforeIfCondition
    let condition ← assignment |>.walk
    let _ ← expect .afterIfCondition
    let whenTrue ← statement |>.walk
    let whenFalse ← if ← skip .kwElse then some <$> (statement |>.walk) else pure none
    return .branch condition whenTrue whenFalse
  | whileLoop => do
    let _ ← expect .beforeWhileCondition
    let condition ← assignment |>.walk
    let _ ← expect .afterWhileCondition
    let body ← statement |>.walk
    return .loop condition body
  | forLoop => do
    let _ ← expect .beforeForClauses
    let first ← initializer |>.walk
    -- A missing condition counts as true.
    let condition ←
      if (← peek).kind = .semicolon then pure (.literal (.bool true)) else assignment |>.walk
    let _ ← expect .afterLoopCondition
    let increment ←
      if (← peek).kind = .rightParen then pure none else some <$> (assignment |>.walk)
    let _ ← expect .afterForClauses
    let body ← statement |>.walk
    return .forLoop first condition increment body
  | block => do
    let body ← declarations (fun k => k == .rightBrace || k == .eof) |>.walk
    let _ ← expect .afterBlock
    return body
  | declarations ends => do
    if ends (← peek).kind then
      return []
    else
      let first? ← declaration |>.walk
      let others ← declarations ends |>.walk
      return first?.toList ++ others
  | declaration => (do
    match ← (declarationOrFault |>.walk).run with
    | .ok found => return .ok (some found)
    | .error e =>
      modify (·.record e)
      let ending ← (synchronize |>.walk).run
      return ending.map fun _ => none : Stride (Except ParseError (Option Stmt)))
  | declarationOrFault => do
    match (← peek).kind with
    | .kwVar =>
      let _ ← take
      variableDeclaration |>.walk
    | .kwFun =>
      let _ ← take
      functionDeclaration |>.walk
    | _ => statement |>.walk
  | functionDeclaration => do
    let name ← expect .functionName
    let _ ← expect .beforeParameters
    let parameters ← parameterList |>.walk
    let _ ← expect .afterParameters
    let _ ← expect .beforeFunctionBody
    let body ← functionBody |>.walk
    return .function ⟨name, parameters, body⟩
  | functionBody => (do
    modify fun s => { s with depth := s.depth + 1 }
    let ending ← (block |>.walk).run
    modify fun s => { s with depth := s.depth - 1 }
    return ending : Stride (Except ParseError (List Stmt)))
  | synchronize => do
    let _ ← take
    resume |>.walk
  | resume => do
    if (← peek).kind = .eof then
      return ()
    else if (← previous).kind = .semicolon then
      return ()
    else if (← peek).kind.startsStatement then
      return ()
    else
      let _ ← take
      resume |>.walk
partial_fixpoint

/-! ## Programs -/

/-- Reads the tokens in front of the first one of kind `eof`. -/
def parse (tokens : List Token) : Option Parse :=
  match (Rule.declarations (· == .eof)).walk.run.run (.ofTokens tokens) with
  | some (.ok statements, s) => some ⟨statements, s.errors⟩
  | some (.error e, s) => some ⟨[], s.errors ++ [e]⟩
  | none => none

-- The equations of the rules can be computed with, although nothing bounds the recursion.
example : parse [⟨.bare .eof, "", 1, 1⟩] = some ⟨[], []⟩ := by cbv

end Walk
end Lox
