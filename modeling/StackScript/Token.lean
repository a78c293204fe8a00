/-
# Tokens

A token is a slice of the source with its kind and the line on which the slice ends.
A part of the source that is no token stands among the tokens with its fault; after
the last of them comes the end of the source, a token with an empty slice.
-/

namespace StackScript

/-- The reserved words. -/
inductive Keyword where
  | andWord
  | classWord
  | elseWord
  | falseWord
  | forWord
  | funWord
  | ifWord
  | nilWord
  | orWord
  | printWord
  | returnWord
  | superWord
  | thisWord
  | trueWord
  | varWord
  | whileWord
  deriving DecidableEq, Repr

namespace Keyword

/-- All reserved words. -/
def all : List Keyword :=
  [andWord, classWord, elseWord, falseWord, forWord, funWord, ifWord, nilWord, orWord, printWord,
    returnWord, superWord, thisWord, trueWord, varWord, whileWord]

/-- How a reserved word is written. -/
def spelling : Keyword → List Char
  | andWord => ['a', 'n', 'd']
  | classWord => ['c', 'l', 'a', 's', 's']
  | elseWord => ['e', 'l', 's', 'e']
  | falseWord => ['f', 'a', 'l', 's', 'e']
  | forWord => ['f', 'o', 'r']
  | funWord => ['f', 'u', 'n']
  | ifWord => ['i', 'f']
  | nilWord => ['n', 'i', 'l']
  | orWord => ['o', 'r']
  | printWord => ['p', 'r', 'i', 'n', 't']
  | returnWord => ['r', 'e', 't', 'u', 'r', 'n']
  | superWord => ['s', 'u', 'p', 'e', 'r']
  | thisWord => ['t', 'h', 'i', 's']
  | trueWord => ['t', 'r', 'u', 'e']
  | varWord => ['v', 'a', 'r']
  | whileWord => ['w', 'h', 'i', 'l', 'e']

/-- The reserved word that is written like this. -/
def ofSpelling? (word : List Char) : Option Keyword :=
  all.find? (·.spelling == word)

/-- The name of a reserved word in a token listing. -/
def name : Keyword → String
  | andWord => "And"
  | classWord => "Class"
  | elseWord => "Else"
  | falseWord => "False"
  | forWord => "For"
  | funWord => "Fun"
  | ifWord => "If"
  | nilWord => "Nil"
  | orWord => "Or"
  | printWord => "Print"
  | returnWord => "Return"
  | superWord => "Super"
  | thisWord => "This"
  | trueWord => "True"
  | varWord => "Var"
  | whileWord => "While"

/-- A word is a keyword exactly if it is how the keyword is spelt. -/
theorem ofSpelling?_eq_some_iff {word : List Char} {k : Keyword} :
    ofSpelling? word = some k ↔ k.spelling = word := by
  constructor
  · intro h
    simpa using List.find?_some h
  · rintro rfl
    cases k <;> rfl

end Keyword

/-- Why a part of the source is no token. -/
inductive LexicalFault where
  | unexpectedCharacter
  | unterminatedString
  deriving DecidableEq, Repr

/-- The message of a lexical fault. -/
def LexicalFault.message : LexicalFault → String
  | unexpectedCharacter => "Unexpected character."
  | unterminatedString => "Unterminated string."

/-- The kinds of tokens. -/
inductive Token.Kind where
  | leftParen
  | rightParen
  | leftBrace
  | rightBrace
  | comma
  | dot
  | minus
  | plus
  | semicolon
  | slash
  | star
  | bang
  | bangEqual
  | equal
  | equalEqual
  | greater
  | greaterEqual
  | less
  | lessEqual
  | identifier
  | string
  | number
  | keyword (k : Keyword)
  | fault (f : LexicalFault)
  | finish
  deriving DecidableEq, Repr

/-- The name of a kind in a token listing. -/
def Token.Kind.name : Kind → String
  | leftParen => "LeftParen"
  | rightParen => "RightParen"
  | leftBrace => "LeftBrace"
  | rightBrace => "RightBrace"
  | comma => "Comma"
  | dot => "Dot"
  | minus => "Minus"
  | plus => "Plus"
  | semicolon => "Semicolon"
  | slash => "Slash"
  | star => "Star"
  | bang => "Bang"
  | bangEqual => "BangEqual"
  | equal => "Equal"
  | equalEqual => "EqualEqual"
  | greater => "Greater"
  | greaterEqual => "GreaterEqual"
  | less => "Less"
  | lessEqual => "LessEqual"
  | identifier => "Identifier"
  | string => "String"
  | number => "Number"
  | keyword k => k.name
  | fault _ => "Error"
  | finish => "Eof"

/-- A slice of the source, its kind and the line on which it ends. -/
structure Token where
  kind : Token.Kind
  text : List Char
  line : Nat
  deriving DecidableEq, Repr

/-- What a token listing shows of a token: its slice, or the message of its fault. -/
def Token.lexeme (t : Token) : List Char :=
  match t.kind with
  | .fault f => f.message.toList
  | _ => t.text

/-- Whether a token stands for a part of the source that is no token. -/
def Token.isFault (t : Token) : Bool :=
  match t.kind with
  | .fault _ => true
  | _ => false

/-- The tokens of a source, and the line on which it ends. -/
structure TokenStream where
  tokens : List Token
  lastLine : Nat
  deriving DecidableEq, Repr

/-- The token that stands for the end of a source. -/
def Token.atEnd (line : Nat) : Token :=
  ⟨.finish, [], line⟩

/-- The token at the end of a source. -/
def TokenStream.finish (stream : TokenStream) : Token :=
  Token.atEnd stream.lastLine

end StackScript
