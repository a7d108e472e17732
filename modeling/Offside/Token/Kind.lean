/-!
# Kinds of token

A token is a number, a string, a comment, a name, a mark or a keyword, or it says that the input
has ended. Marks and keywords have a fixed spelling; the others are classes of texts.

Where two marks start alike the longer one is meant, so `Mark.all` lists the marks of two
characters before those of one.
-/

namespace Offside

/-- The punctuation of the language. -/
inductive Mark where
  | equality | walrus | greaterEq | lesserEq | and | or | doubleColon
  | openBracket | closeBracket | openParen | closeParen | openBrace | closeBrace
  | comma | dot | plus | minus | star | slash | percent | equal | colon | greater | lesser
  | exclamation
  deriving DecidableEq

namespace Mark

def spelling : Mark → String
  | equality => "=="
  | walrus => ":="
  | greaterEq => ">="
  | lesserEq => "<="
  | and => "&&"
  | or => "||"
  | doubleColon => "::"
  | openBracket => "["
  | closeBracket => "]"
  | openParen => "("
  | closeParen => ")"
  | openBrace => "\x7b"
  | closeBrace => "\x7d"
  | comma => ","
  | dot => "."
  | plus => "+"
  | minus => "-"
  | star => "*"
  | slash => "/"
  | percent => "%"
  | equal => "="
  | colon => ":"
  | greater => ">"
  | lesser => "<"
  | exclamation => "!"

/-- The word for the mark in messages. -/
def label : Mark → String
  | equality => "Equality"
  | walrus => "Walrus"
  | greaterEq => "GreaterEq"
  | lesserEq => "LesserEq"
  | and => "And"
  | or => "Or"
  | doubleColon => "DoubleColon"
  | openBracket => "OpenBracket"
  | closeBracket => "CloseBracket"
  | openParen => "OpenParen"
  | closeParen => "CloseParen"
  | openBrace => "OpenBrace"
  | closeBrace => "CloseBrace"
  | comma => "Comma"
  | dot => "Dot"
  | plus => "Plus"
  | minus => "Minus"
  | star => "Star"
  | slash => "Slash"
  | percent => "Percent"
  | equal => "Equal"
  | colon => "Colon"
  | greater => "Greater"
  | lesser => "Lesser"
  | exclamation => "Exclamation"

/-- Every mark, the longer spellings first. -/
def all : List Mark :=
  [equality, walrus, greaterEq, lesserEq, and, or, doubleColon, openBracket, closeBracket,
    openParen, closeParen, openBrace, closeBrace, comma, dot, plus, minus, star, slash, percent,
    equal, colon, greater, lesser, exclamation]

def ofSpelling? (s : String) : Option Mark := all.find? fun m => m.spelling == s

theorem mem_all (m : Mark) : m ∈ all := by cases m <;> decide

end Mark

/-- The words that are not names. -/
inductive Keyword where
  | function | ifWord | elseWord
  deriving DecidableEq

namespace Keyword

def spelling : Keyword → String
  | function => "fn"
  | ifWord => "if"
  | elseWord => "else"

/-- The word for the keyword in messages. -/
def label : Keyword → String
  | function => "Function"
  | ifWord => "If"
  | elseWord => "Else"

def all : List Keyword := [function, ifWord, elseWord]

def ofSpelling? (s : String) : Option Keyword := all.find? fun k => k.spelling == s

theorem mem_all (k : Keyword) : k ∈ all := by cases k <;> decide

theorem ofSpelling?_spelling (k : Keyword) : ofSpelling? k.spelling = some k := by
  cases k <;> decide

end Keyword

inductive Kind where
  | number
  | string
  | comment
  | name
  | mark (mark : Mark)
  | keyword (word : Keyword)
  /-- The end of the input. -/
  | eof
  deriving DecidableEq

/-- The word for the kind in messages. -/
def Kind.label : Kind → String
  | number => "Number"
  | string => "String"
  | comment => "Comment"
  | name => "Symbol"
  | mark m => m.label
  | keyword k => k.label
  | eof => "Eof"

/-- Every kind. -/
def Kind.all : List Kind :=
  [.number, .string, .comment, .name] ++ Mark.all.map .mark ++ Keyword.all.map .keyword ++ [.eof]

theorem Kind.mem_all (k : Kind) : k ∈ Kind.all := by
  cases k <;> simp [Kind.all, Mark.mem_all, Keyword.mem_all]

end Offside
