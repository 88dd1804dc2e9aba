import Lox.Token

/-!
What is reported to the user when a program goes wrong.

A diagnostic is the finished report.  The phases that find a fault name its cause, and each cause
has one wording.
-/

namespace Lox

inductive Diagnostic where
  | scan (line column : Nat) (message : String)
  /-- The location reads on from the word `Error`. -/
  | parse (line : Nat) (location message : String)
  | runtime (token : Token) (message : String)
deriving BEq

namespace Diagnostic

/-- Where a syntax error stands, as its report says it. -/
def locationOf (t : Token) : String :=
  if t.kind = .eof then " at end" else " at '" ++ t.lexeme ++ "'"

/-- A syntax error blamed on a token. -/
def parseAt (t : Token) (message : String) : Diagnostic :=
  parse t.line (locationOf t) message

def line : Diagnostic → Nat
  | scan line _ _ => line
  | parse line _ _ => line
  | runtime token _ => token.line

/-- A hint at the place within the line.  Faults of spelling have none. -/
def location : Diagnostic → String
  | scan _ _ _ => ""
  | parse _ location _ => location
  | runtime token _ => token.lexeme

def message : Diagnostic → String
  | scan _ _ message => message
  | parse _ _ message => message
  | runtime _ message => message

/-- Whether the fault was found without running the program. -/
def isStatic : Diagnostic → Bool
  | runtime _ _ => false
  | _ => true

/-- The report as it is shown. -/
def text : Diagnostic → String
  | scan line _ message => "[line " ++ toString line ++ "] Error: " ++ message
  | parse line location message =>
    "[line " ++ toString line ++ "] Error" ++ location ++ ": " ++ message
  | runtime token message => message ++ "\n[line " ++ toString token.line ++ "]"

end Diagnostic

/-- What can be wrong with the spelling of a program. -/
inductive ScanFault where
  | unexpectedCharacter
  | unterminatedString
deriving DecidableEq, Repr

def ScanFault.message : ScanFault → String
  | unexpectedCharacter => "Unexpected character."
  | unterminatedString => "Unterminated string."

structure ScanError where
  fault : ScanFault
  line : Nat
  column : Nat
deriving DecidableEq, Repr

def ScanError.diagnostic (e : ScanError) : Diagnostic := .scan e.line e.column e.fault.message

/-- The tokens that the grammar asks for, each in its context. -/
inductive Missing where
  | variableName | afterVariable
  | functionName | beforeParameters | parameterName | afterParameters | beforeFunctionBody
  | beforeIfCondition | afterIfCondition
  | beforeWhileCondition | afterWhileCondition
  | beforeForClauses | afterLoopCondition | afterForClauses
  | afterBlock | afterPrintedValue | afterReturnValue | afterExpression
  | afterArguments | afterGrouping
deriving DecidableEq, Repr

namespace Missing

/-- The kind of token that is asked for. -/
def kind : Missing → Kind
  | variableName | functionName | parameterName => .identifier
  | beforeParameters | beforeIfCondition | beforeWhileCondition | beforeForClauses => .leftParen
  | afterParameters | afterIfCondition | afterWhileCondition | afterForClauses
  | afterArguments | afterGrouping => .rightParen
  | beforeFunctionBody => .leftBrace
  | afterBlock => .rightBrace
  | afterVariable | afterLoopCondition | afterPrintedValue | afterReturnValue
  | afterExpression => .semicolon

def message : Missing → String
  | variableName => "Expect variable name."
  | afterVariable => "Expect ';' after variable declaration."
  | functionName => "Expect function name."
  | beforeParameters => "Expect '(' after function name."
  | parameterName => "Expect parameter name."
  | afterParameters => "Expect ')' after parameters."
  | beforeFunctionBody => "Expect '\x7b' before function body."
  | beforeIfCondition => "Expect '(' after 'if'."
  | afterIfCondition => "Expect ')' after if condition."
  | beforeWhileCondition => "Expect '(' after 'while'."
  | afterWhileCondition => "Expect ')' after condition."
  | beforeForClauses => "Expect '(' after 'for'."
  | afterLoopCondition => "Expect ';' after loop condition."
  | afterForClauses => "Expect ')' after for clauses."
  | afterBlock => "Expect '\x7d' after block."
  | afterPrintedValue => "Expect ';' after value."
  | afterReturnValue => "Expect ';' after return value."
  | afterExpression => "Expect ';' after expression."
  | afterArguments => "Expect ')' after arguments."
  | afterGrouping => "Expect ')' after expression."

end Missing

/-- What can be wrong with the grammar of a program. -/
inductive ParseFault where
  | missing (what : Missing)
  | missingExpression
  | invalidAssignmentTarget
  | topLevelReturn
  | tooManyParameters
  | tooManyArguments
deriving DecidableEq, Repr

def ParseFault.message : ParseFault → String
  | missing what => what.message
  | missingExpression => "Expect expression."
  | invalidAssignmentTarget => "Invalid assignment target."
  | topLevelReturn => "Can't return from top-level code."
  | tooManyParameters => "Can't have more than 255 parameters."
  | tooManyArguments => "Can't have more than 255 arguments."

/-- A fault of grammar with the token it is blamed on. -/
structure ParseError where
  token : Token
  fault : ParseFault

def ParseError.diagnostic (e : ParseError) : Diagnostic := .parseAt e.token e.fault.message

/-- How an output sink can fail. -/
inductive SinkFault where
  /-- It refuses every write. -/
  | closed
  /-- It takes no byte of any write. -/
  | full
  /-- It takes what is written but cannot pass it on. -/
  | unflushable
deriving DecidableEq, Repr

def SinkFault.message : SinkFault → String
  | closed => "sink closed"
  | full => "failed to write whole buffer"
  | unflushable => "flush failed"

/-- What can go wrong while a program runs. -/
inductive RuntimeFault where
  | operandNotNumber
  | operandsNotNumbers
  | operandsNotAddable
  | unknownOperator
  | undefinedVariable
  | notCallable
  | wrongArity (expected given : Nat)
  | outputFailed (cause : SinkFault)
deriving DecidableEq, Repr

/-- A fault of a running program with the token it is blamed on. -/
structure RuntimeError where
  token : Token
  fault : RuntimeFault

namespace RuntimeError

def message (e : RuntimeError) : String :=
  match e.fault with
  | .operandNotNumber => "Operand must be a number."
  | .operandsNotNumbers => "Operands must be numbers."
  | .operandsNotAddable => "Operands must be two numbers or two strings."
  | .unknownOperator => "Unknown operator '" ++ e.token.lexeme ++ "'."
  | .undefinedVariable => "Undefined variable '" ++ e.token.lexeme ++ "'."
  | .notCallable => "Can only call functions and classes."
  | .wrongArity expected given =>
    "Expected " ++ toString expected ++ " arguments but got " ++ toString given ++ "."
  | .outputFailed cause => "Failed to write output: " ++ cause.message

def diagnostic (e : RuntimeError) : Diagnostic := .runtime e.token e.message

end RuntimeError

end Lox
