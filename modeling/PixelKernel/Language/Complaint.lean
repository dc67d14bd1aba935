import PixelKernel.Language.Syntax
import PixelKernel.Language.Token

/-! # Complaints about source text

A complaint is a cause at a byte position. Locating it in the text gives the diagnostic
that users see.
-/

namespace PixelKernel.Language

inductive Cause where
  -- spelling
  | unterminatedComment
  | exponentWithoutDigits
  | malformedNumber
  | integerTooLarge
  | unexpectedChar (c : Char)
  -- structure
  | expected (what : String) (found : Token.Kind)
  | unknownType (name : String)
  | tooDeep (what : String) (limit : Nat)
  -- functions
  | noKernel
  | manyKernels (first second : String)
  | redefinition (name : String)
  | builtinRedefined (name : String)
  | samplerReturned
  | kernelResult (name : String) (ret : Ty)
  | reduceResult (name : String)
  | voidParameter (name : String)
  | staticParameter
  | redeclaration (name : String)
  | tooManyLocals
  -- statements
  | voidVariable
  | samplerVariable
  | constWithoutInit (name : String)
  | breakOutside
  | continueOutside
  | missingValue (function : String) (ret : Ty)
  | valueInVoid (function : String)
  | condition (found : Ty)
  | mismatch (what : String) (found wanted : Ty)
  -- expressions
  | intOutOfRange (n : Nat)
  | undeclared (name : String)
  | cannotNegate (t : Ty)
  | cannotNot (t : Ty)
  | branches (yes no : Ty)
  | selectFrom (fields : String) (t : Ty)
  | badSelection (fields : String)
  | mixedSets (fields : String)
  | laneOutOfRange (lane : Char) (width : Nat)
  | repeatedLane (fields : String)
  | needsBools (op : String)
  | cannotApply (op : String) (left right : Ty)
  | notAssignable
  | assignConst (name : String)
  | assignSampler (name : String)
  | needsCounter
  | cannotCombine (target value : Ty)
  -- calls
  | tooManyArguments
  | argumentCount (callee : String) (wanted given : Nat)
  | oneArgument (callee : String)
  | cannotConvert (t : Ty) (callee : String)
  | cannotBuild (callee : String) (t : Ty)
  | laneCount (callee : String) (wanted given : Nat)
  | undeclaredFunction (name : String)
  | noOverload (name : String) (args : List Ty)
  | emitOutside
  deriving Repr, DecidableEq

private def plain (t : Ty) : String := t.name

def Cause.text : Cause → String
  | unterminatedComment => "unterminated block comment"
  | exponentWithoutDigits => "invalid number exponent (expected digits)"
  | malformedNumber => "invalid numeric literal"
  | integerTooLarge => "integer literal out of range"
  | unexpectedChar c => "unexpected character '" ++ String.singleton c ++ "'"
  | expected what found => "expected " ++ what ++ ", found " ++ found.describe
  | unknownType name => "unknown type '" ++ name ++ "'"
  | tooDeep what limit =>
    what ++ " nesting is deeper than " ++ toString limit ++ " levels"
  | noKernel => "no function tagged 'kernel' was found"
  | manyKernels first second =>
    "multiple kernel functions ('" ++ first ++ "' and '" ++ second ++ "')"
  | redefinition name => "redefinition of function '" ++ name ++ "'"
  | builtinRedefined name => "'" ++ name ++ "' is a builtin and cannot be redefined"
  | samplerReturned => "functions cannot return a sampler"
  | kernelResult name ret => "kernel '" ++ name ++ "' must return vec4, not " ++ plain ret
  | reduceResult name => "__reduce kernel '" ++ name ++ "' must return void"
  | voidParameter name => "parameter '" ++ name ++ "' cannot be void"
  | staticParameter => "'static' is only allowed on kernel arguments"
  | redeclaration name => "redeclaration of '" ++ name ++ "' in the same scope"
  | tooManyLocals => "too many local variables"
  | voidVariable => "variables cannot be void"
  | samplerVariable => "sampler variables can only be declared as arguments"
  | constWithoutInit name => "const variable '" ++ name ++ "' needs an initializer"
  | breakOutside => "'break' outside of a loop"
  | continueOutside => "'continue' outside of a loop"
  | missingValue function ret =>
    "function '" ++ function ++ "' must return a " ++ plain ret
  | valueInVoid function => "void function '" ++ function ++ "' cannot return a value"
  | condition found => "condition must be bool, found " ++ plain found
  | mismatch what found wanted =>
    what ++ " has type " ++ plain found ++ " but " ++ plain wanted ++ " was expected"
  | intOutOfRange n => "integer literal " ++ toString n ++ " is out of range"
  | undeclared name => "undeclared identifier '" ++ name ++ "'"
  | cannotNegate t => "cannot negate a " ++ plain t
  | cannotNot t => "'!' needs a bool, found " ++ plain t
  | branches yes no =>
    "conditional branches have different types (" ++ plain yes ++ " and " ++ plain no ++ ")"
  | selectFrom fields t => "cannot select components '." ++ fields ++ "' of a " ++ plain t
  | badSelection fields => "invalid component selection '." ++ fields ++ "'"
  | mixedSets fields => "cannot mix component sets in '." ++ fields ++ "'"
  | laneOutOfRange lane width =>
    "component '" ++ String.singleton lane ++ "' is out of range for a " ++ toString width
      ++ "-component vector"
  | repeatedLane fields => "component '." ++ fields ++ "' repeats in an assignment"
  | needsBools op => "'" ++ op ++ "' needs bool operands"
  | cannotApply op left right =>
    "operator '" ++ op ++ "' cannot be applied to " ++ plain left ++ " and " ++ plain right
  | notAssignable => "expression is not assignable"
  | assignConst name => "cannot assign to const variable '" ++ name ++ "'"
  | assignSampler name => "cannot assign to sampler '" ++ name ++ "'"
  | needsCounter => "'++'/'--' need an int or float variable"
  | cannotCombine target value =>
    "cannot combine " ++ plain target ++ " with " ++ plain value ++ " in compound assignment"
  | tooManyArguments => "too many call arguments"
  | argumentCount callee wanted given =>
    "'" ++ callee ++ "' expects " ++ toString wanted ++ " argument(s) but " ++ toString given
      ++ " were given"
  | oneArgument callee => "'" ++ callee ++ "' takes one argument"
  | cannotConvert t callee => "cannot convert " ++ plain t ++ " to " ++ callee
  | cannotBuild callee t => "cannot build " ++ callee ++ " from a " ++ plain t
  | laneCount callee wanted given =>
    callee ++ " needs " ++ toString wanted ++ " components but " ++ toString given
      ++ " were given"
  | undeclaredFunction name => "undeclared function '" ++ name ++ "'"
  | noOverload name args =>
    "no overload of '" ++ name ++ "' accepts (" ++ ", ".intercalate (args.map Ty.name) ++ ")"
  | emitOutside => "'emit' is only allowed in the body of a __reduce kernel"

structure Complaint where
  pos : Nat
  cause : Cause
  deriving Repr, DecidableEq

/-- A complaint placed in its source. Lines and columns count from one, columns in
    characters. -/
structure Diagnostic where
  offset : Nat
  line : Nat
  column : Nat
  text : String
  deriving Repr, DecidableEq

/-- Line and column of the character `n` bytes further on. -/
def advance (n line column : Nat) : List Char → Nat × Nat
  | [] => (line, column)
  | c :: cs =>
    if n = 0 then (line, column)
    else if c = '\n' then advance (n - c.utf8Size) (line + 1) 1 cs
    else advance (n - c.utf8Size) line (column + 1) cs

def Complaint.locate (source : String) (c : Complaint) : Diagnostic :=
  let (line, column) := advance c.pos 1 1 source.toList
  ⟨c.pos, line, column, c.cause.text⟩

/-- One line: position, then text. -/
def Diagnostic.message (d : Diagnostic) : String :=
  toString d.line ++ ":" ++ toString d.column ++ ": error: " ++ d.text

end PixelKernel.Language
