import CellScript.CodeBuffer
import CellScript.Heap
import CellScript.Limits
import CellScript.Source

/-!
# Compile errors

The compiler stops at the first error. While it works, an error is a cause and
the range of bytes it concerns; code and wording are functions of the cause
alone. A diagnostic is the error as it is reported, with the line it is on.
-/

namespace CellScript

inductive Wanted where
  | expression
  | symbol (b : UInt8)
  | inputVariable
  | bodyName (word : String)
  | parameter
  deriving Repr, DecidableEq

def Wanted.text : Wanted → String
  | expression => "an expression"
  | symbol b => "'" ++ Ascii.text [b] ++ "'"
  | inputVariable => "a variable name after 'input'"
  | bodyName word => "a name after '" ++ word ++ "'"
  | parameter => "a parameter name"

inductive Bound where
  | pending
  | control
  | loops
  | jumps
  deriving Repr, DecidableEq

def Bound.text : Bound → String
  | pending => "expression is too complex"
  | control => "too many nested control statements"
  | loops => "too many nested loops"
  | jumps => "control flow is too complicated"

inductive Cause where
  | exponentWithoutDigits
  | integerOutOfRange (text : String)
  | missingQuote
  | invalidEscape (e : UInt8)
  | endOfInput (wanted : Wanted)
  | expected (wanted : Wanted)
  | expectedExpression
  | keywordInExpression (word : String)
  | keywordStartsStatement (word : String)
  | trailingInput
  | expectedStatement
  | builtinArguments (name : String) (arity found : Nat)
  | tooManyArguments (name : String) (found : Nat)
  | mismatched (word opened : String)
  | unopened (word opener : String)
  | unbalancedControl
  | unbalancedLoop
  | unterminated (word : String)
  | definedAs (name what : String)
  | alreadyDefined (name : String)
  | reservedWord (word : String)
  | duplicateParameter (name : String)
  | notAtTopLevel (word : String)
  | localOutsideBody
  | returnOutsideBody
  | returnWithValue
  | returnWithoutValue
  | breakOutsideLoop
  | tooComplex (bound : Bound)
  | arrayTooLong (found : Nat)
  | tooManyLocals (most : Nat)
  | heap (e : Heap.Error)
  | code (e : CodeBuffer.Error)
  | entryOutOfRange
  | limits (e : Limits.Error)
  /-- The bound on recursion was too small; it never is. -/
  | outOfFuel
  deriving Repr, DecidableEq

namespace Cause

def number : Cause → Nat
  | exponentWithoutDigits => 100
  | integerOutOfRange _ => 101
  | missingQuote => 102
  | invalidEscape _ => 103
  | endOfInput _ => 200
  | expected _ => 201
  | expectedExpression => 202
  | keywordInExpression _ | keywordStartsStatement _ => 203
  | trailingInput => 204
  | expectedStatement => 205
  | builtinArguments .. | tooManyArguments .. => 300
  | mismatched .. | unopened .. | unbalancedControl | unbalancedLoop => 301
  | unterminated _ => 302
  | definedAs .. | alreadyDefined _ => 303
  | reservedWord _ => 304
  | duplicateParameter _ => 305
  | notAtTopLevel _ | localOutsideBody => 306
  | returnOutsideBody | returnWithValue | returnWithoutValue => 307
  | breakOutsideLoop => 308
  | tooComplex _ | arrayTooLong _ | outOfFuel => 400
  | tooManyLocals _ => 401
  | heap _ => 402
  | code _ | entryOutOfRange => 403
  | limits _ => 404

def message : Cause → String
  | exponentWithoutDigits => "malformed number: exponent has no digits"
  | integerOutOfRange text => s!"integer literal {text} is out of range"
  | missingQuote => "missing closing '\"'"
  | invalidEscape e => "invalid string escape '\\" ++ Ascii.text [e] ++ "'"
  | endOfInput wanted => "expected " ++ wanted.text ++ " but reached end of input"
  | expected wanted => "expected " ++ wanted.text
  | expectedExpression => "expected an expression"
  | keywordInExpression word => s!"unexpected '{word}' in expression"
  | keywordStartsStatement word => s!"'{word}' cannot start a statement"
  | trailingInput => "expected ';' after statement"
  | expectedStatement => "expected a statement"
  | builtinArguments name arity found =>
    let problem := if found < arity then "too few" else "too many"
    s!"{problem} arguments to '{name}': expected {arity}, got {found}"
  | tooManyArguments name found => s!"too many arguments to '{name}': {found}"
  | mismatched word opened => s!"'{word}' does not match open '{opened}'"
  | unopened word opener => s!"'{word}' without '{opener}'"
  | unbalancedControl => "unbalanced control statement"
  | unbalancedLoop => "unbalanced loop"
  | unterminated word => s!"unterminated '{word}'"
  | definedAs name what => s!"'{name}' is already defined as a {what}"
  | alreadyDefined name => s!"'{name}' is already defined"
  | reservedWord word => s!"'{word}' is a reserved word"
  | duplicateParameter name => s!"duplicate parameter '{name}'"
  | notAtTopLevel word => s!"'{word}' is only allowed at top level"
  | localOutsideBody => "local outside of a func or proc"
  | returnOutsideBody => "'return' outside of a func or proc"
  | returnWithValue => "'return' in a proc takes no value"
  | returnWithoutValue => "'return' in a func needs a value"
  | breakOutsideLoop => "'break' outside of a loop"
  | tooComplex bound => bound.text
  | arrayTooLong found => s!"array literal has {found} elements, at most 255 allowed"
  | tooManyLocals most => s!"too many parameters and locals (at most {most})"
  | heap e => e.message
  | code e => e.message
  | entryOutOfRange => "function entry is out of range"
  | limits e => e.message
  | outOfFuel => "out of fuel"

end Cause

structure CompileError where
  cause : Cause
  start : Nat
  stop : Nat
  deriving Repr, DecidableEq

/-- Families of errors, by the hundreds of their numbers. -/
inductive Category where
  | lexical
  | grammar
  | semantic
  | resource
  deriving Repr, DecidableEq

namespace Category

def ofNumber (n : Nat) : Category :=
  if 100 ≤ n && n < 200 then lexical
  else if 200 ≤ n && n < 300 then grammar
  else if 300 ≤ n && n < 400 then semantic
  else resource

def name : Category → String
  | lexical => "lexical"
  | grammar => "syntax"
  | semantic => "semantic"
  | resource => "resource"

end Category

structure Diagnostic where
  file : String
  number : Nat
  message : String
  span : Span
  sourceLine : String
  deriving Repr, DecidableEq

namespace Diagnostic

def numberText (n : Nat) : String := "E" ++ toString n

/-- An error at a range of bytes, with the line on which the range begins. -/
def locate (source : Source) (number : Nat) (message : String) (start stop : Nat) : Diagnostic :=
  let span := source.span start stop
  { file := source.name, number, message, span
    sourceLine := (source.line? span.startLine).getD "" }

def ofError (source : Source) (e : CompileError) : Diagnostic :=
  locate source e.cause.number e.cause.message e.start e.stop

def category (d : Diagnostic) : Category := .ofNumber d.number

def text (d : Diagnostic) : String :=
  d.span.text ++ ": " ++ numberText d.number ++ " [" ++ d.category.name ++ "] " ++ d.message

end Diagnostic

end CellScript
