/-
  Calculator/Token.lean
  =====================
  **Tokens** (`Token`, `TokenKind`).  A token is a lexeme and the place of its text
  in the source.  A lexeme is an identifier, a number that has already been read, or
  a symbol.
  The calculator's grammar uses only some of the symbols; the others are tokens
  all the same, so that an expression with one of them fails in the parser, at
  that token.
-/
import Calculator.Number.Text
import Calculator.Text.Quoted

namespace Calculator

/-! ### Symbols -/

/-- The symbols, in the order in which they are tried (`SYMBOLS`): a symbol stands before every
symbol that its text starts with. -/
inductive Symbol where
  | leftBrace
  | rightBrace
  | leftBracket
  | rightBracket
  | leftParen
  | rightParen
  | ellipsis
  | dot
  | comma
  | colon
  | semicolon
  | arrow
  | plusPlus
  | plusAssign
  | plus
  | minusMinus
  | minusAssign
  | minus
  | starAssign
  | star
  | slashAssign
  | slash
  | percentAssign
  | percent
  | caretAssign
  | caret
  | equal
  | notEqual
  | assign
  | ampAmp
  | ampAssign
  | amp
  | pipePipe
  | pipeAssign
  | pipe
  | bang
  | question
  | tilde
  | shiftLeftAssign
  | shiftLeft
  | shiftRightAssign
  | shiftRight
  | lessEqual
  | greaterEqual
  | less
  | greater
  deriving DecidableEq, Repr

namespace Symbol

/-- Every symbol, in the order in which they are tried. -/
def all : List Symbol := [
  leftBrace, rightBrace, leftBracket, rightBracket, leftParen, rightParen,
  ellipsis, dot, comma, colon, semicolon, arrow,
  plusPlus, plusAssign, plus, minusMinus, minusAssign, minus,
  starAssign, star, slashAssign, slash, percentAssign, percent, caretAssign, caret,
  equal, notEqual, assign, ampAmp, ampAssign, amp, pipePipe, pipeAssign, pipe,
  bang, question, tilde,
  shiftLeftAssign, shiftLeft, shiftRightAssign, shiftRight,
  lessEqual, greaterEqual, less, greater]

/-- The characters of a symbol. -/
def chars : Symbol → List Char
  | leftBrace => ['\x7b']
  | rightBrace => ['\x7d']
  | leftBracket => ['[']
  | rightBracket => [']']
  | leftParen => ['(']
  | rightParen => [')']
  | ellipsis => ['.', '.', '.']
  | dot => ['.']
  | comma => [',']
  | colon => [':']
  | semicolon => [';']
  | arrow => ['-', '>']
  | plusPlus => ['+', '+']
  | plusAssign => ['+', '=']
  | plus => ['+']
  | minusMinus => ['-', '-']
  | minusAssign => ['-', '=']
  | minus => ['-']
  | starAssign => ['*', '=']
  | star => ['*']
  | slashAssign => ['/', '=']
  | slash => ['/']
  | percentAssign => ['%', '=']
  | percent => ['%']
  | caretAssign => ['^', '=']
  | caret => ['^']
  | equal => ['=', '=']
  | notEqual => ['!', '=']
  | assign => ['=']
  | ampAmp => ['&', '&']
  | ampAssign => ['&', '=']
  | amp => ['&']
  | pipePipe => ['|', '|']
  | pipeAssign => ['|', '=']
  | pipe => ['|']
  | bang => ['!']
  | question => ['?']
  | tilde => ['~']
  | shiftLeftAssign => ['<', '<', '=']
  | shiftLeft => ['<', '<']
  | shiftRightAssign => ['>', '>', '=']
  | shiftRight => ['>', '>']
  | lessEqual => ['<', '=']
  | greaterEqual => ['>', '=']
  | less => ['<']
  | greater => ['>']

/-- The text of a symbol. -/
def text (s : Symbol) : String := String.ofList s.chars

/-- The name by which token listings show the symbol. -/
def label : Symbol → String
  | leftBrace => "LBRACE"
  | rightBrace => "RBRACE"
  | leftBracket => "LBRACKET"
  | rightBracket => "RBRACKET"
  | leftParen => "LPAREN"
  | rightParen => "RPAREN"
  | ellipsis => "ELLIPSIS"
  | dot => "DOT"
  | comma => "COMMA"
  | colon => "COLON"
  | semicolon => "SEMICOLON"
  | arrow => "ARROW"
  | plusPlus => "INCREMENT"
  | plusAssign => "PLUS_ASSIGN"
  | plus => "PLUS"
  | minusMinus => "DECREMENT"
  | minusAssign => "MINUS_ASSIGN"
  | minus => "MINUS"
  | starAssign => "STAR_ASSIGN"
  | star => "STAR"
  | slashAssign => "SLASH_ASSIGN"
  | slash => "SLASH"
  | percentAssign => "PERCENT_ASSIGN"
  | percent => "PERCENT"
  | caretAssign => "CARET_ASSIGN"
  | caret => "CARET"
  | equal => "EQ"
  | notEqual => "NE"
  | assign => "ASSIGN"
  | ampAmp => "AND_AND"
  | ampAssign => "AMP_ASSIGN"
  | amp => "AMP"
  | pipePipe => "PIPE_PIPE"
  | pipeAssign => "PIPE_ASSIGN"
  | pipe => "PIPE"
  | bang => "BANG"
  | question => "QUESTION"
  | tilde => "TILDE"
  | shiftLeftAssign => "SHL_ASSIGN"
  | shiftLeft => "SHL"
  | shiftRightAssign => "SHR_ASSIGN"
  | shiftRight => "SHR"
  | lessEqual => "LE"
  | greaterEqual => "GE"
  | less => "LT"
  | greater => "GT"

end Symbol

/-! ### Lexemes and tokens -/

/-- What a token says. -/
inductive Lexeme where
  | identifier (name : String)
  | number (value : Binary64)
  | symbol (symbol : Symbol)
  deriving DecidableEq, Repr

namespace Lexeme

/-- The name by which token listings show the kind of lexeme. -/
def label : Lexeme → String
  | identifier _ => "IDENT"
  | number _ => "NUMBER"
  | symbol s => s.label

/-- The content of a lexeme in messages: a quoted text, or the debug text of a number. -/
def debugText : Lexeme → String
  | identifier name => quoted name
  | number value => value.debugText
  | symbol s => quoted s.text

end Lexeme

/-- A lexeme, and the offsets of its first character and of the character after its last. -/
structure Token where
  lexeme : Lexeme
  start : Nat
  stop : Nat
  deriving DecidableEq, Repr

/-- The token in a token listing (`__repr__`). -/
def Token.debugText (t : Token) : String :=
  "Token(" ++ t.lexeme.label ++ ", " ++ t.lexeme.debugText ++ ", pos=" ++ toString t.start ++ ")"

end Calculator
