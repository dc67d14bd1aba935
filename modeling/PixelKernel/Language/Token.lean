import PixelKernel.Decimal.Text

/-! # Tokens

Everything with a fixed spelling is a `Symbol`; the rest are words and numbers. A token
carries the byte span of its spelling.
-/

namespace PixelKernel.Language

inductive Symbol where
  | trueWord | falseWord
  | kernelWord | reduceWord | staticWord | constWord
  | ifWord | elseWord | forWord | whileWord | doWord
  | breakWord | continueWord | returnWord
  | lparen | rparen | lbrace | rbrace | comma | semi | dot
  | plus | minus | star | slash | plusPlus | minusMinus
  | assign | plusAssign | minusAssign | starAssign | slashAssign
  | bang
  | eqEq | ne | lt | le | gt | ge
  | andAnd | orOr
  | question | colon
  deriving Repr, DecidableEq

namespace Symbol

def spelling : Symbol → String
  | trueWord => "true"
  | falseWord => "false"
  | kernelWord => "kernel"
  | reduceWord => "__reduce"
  | staticWord => "static"
  | constWord => "const"
  | ifWord => "if"
  | elseWord => "else"
  | forWord => "for"
  | whileWord => "while"
  | doWord => "do"
  | breakWord => "break"
  | continueWord => "continue"
  | returnWord => "return"
  | lparen => "("
  | rparen => ")"
  | lbrace => "\x7b"
  | rbrace => "\x7d"
  | comma => ","
  | semi => ";"
  | dot => "."
  | plus => "+"
  | minus => "-"
  | star => "*"
  | slash => "/"
  | plusPlus => "++"
  | minusMinus => "--"
  | assign => "="
  | plusAssign => "+="
  | minusAssign => "-="
  | starAssign => "*="
  | slashAssign => "/="
  | bang => "!"
  | eqEq => "=="
  | ne => "!="
  | lt => "<"
  | le => "<="
  | gt => ">"
  | ge => ">="
  | andAnd => "&&"
  | orOr => "||"
  | question => "?"
  | colon => ":"

/-- How messages refer to a symbol: brackets and separators by their quoted spelling, the
    rest by a name. -/
def label : Symbol → String
  | trueWord => "True"
  | falseWord => "False"
  | kernelWord => "Kernel"
  | reduceWord => "Reduce"
  | staticWord => "Static"
  | constWord => "Const"
  | ifWord => "If"
  | elseWord => "Else"
  | forWord => "For"
  | whileWord => "While"
  | doWord => "Do"
  | breakWord => "Break"
  | continueWord => "Continue"
  | returnWord => "Return"
  | dot => "Dot"
  | plus => "Plus"
  | minus => "Minus"
  | star => "Star"
  | slash => "Slash"
  | plusPlus => "PlusPlus"
  | minusMinus => "MinusMinus"
  | assign => "Assign"
  | plusAssign => "PlusAssign"
  | minusAssign => "MinusAssign"
  | starAssign => "StarAssign"
  | slashAssign => "SlashAssign"
  | bang => "Bang"
  | eqEq => "EqEq"
  | ne => "Ne"
  | lt => "Lt"
  | le => "Le"
  | gt => "Gt"
  | ge => "Ge"
  | andAnd => "AndAnd"
  | orOr => "OrOr"
  | question => "Question"
  | colon => "Colon"
  | s => "'" ++ s.spelling ++ "'"

/-- Words that cannot be names. -/
def keywords : List Symbol :=
  [trueWord, falseWord, kernelWord, reduceWord, staticWord, constWord, ifWord, elseWord,
    forWord, whileWord, doWord, breakWord, continueWord, returnWord]

/-- Operators of two characters, tried before those of one. -/
def ofPair? : Char → Char → Option Symbol
  | '&', '&' => some andAnd
  | '|', '|' => some orOr
  | '=', '=' => some eqEq
  | '!', '=' => some ne
  | '<', '=' => some le
  | '>', '=' => some ge
  | '+', '+' => some plusPlus
  | '-', '-' => some minusMinus
  | '+', '=' => some plusAssign
  | '-', '=' => some minusAssign
  | '*', '=' => some starAssign
  | '/', '=' => some slashAssign
  | _, _ => none

def ofChar? : Char → Option Symbol
  | '(' => some lparen
  | ')' => some rparen
  | '{' => some lbrace
  | '}' => some rbrace
  | ',' => some comma
  | ';' => some semi
  | '.' => some dot
  | '+' => some plus
  | '-' => some minus
  | '*' => some star
  | '/' => some slash
  | '=' => some assign
  | '!' => some bang
  | '<' => some lt
  | '>' => some gt
  | '?' => some question
  | ':' => some colon
  | _ => none

end Symbol

namespace Token

inductive Kind where
  | word (name : String)
  | int (n : Nat)
  | float (x : Float)
  | sym (s : Symbol)
  | stop
  deriving Repr, DecidableEq

/-- How messages refer to a token. -/
def Kind.describe : Kind → String
  | word name => "identifier '" ++ name ++ "'"
  | int n => "integer " ++ toString n
  | float x => "number " ++ Decimal.textFloat .plain x
  | sym s => s.label
  | stop => "end of input"

/-- The symbol or word that a run of letters, digits and underscores spells. -/
def Kind.ofWord (text : String) : Kind :=
  match Symbol.keywords.find? (·.spelling == text) with
  | some s => sym s
  | none => word text

end Token

/-- A token with the byte positions where its spelling starts and ends. -/
structure Token where
  kind : Token.Kind
  start : Nat
  stop : Nat
  deriving Repr, DecidableEq

end PixelKernel.Language
