/-!
# Kinds of tokens

Reserved words and marks are each written in exactly one way; integers, floats and identifiers
stand for many lexemes.  Two further kinds mark the end of the text and a character at which no
pattern matches.
-/

namespace TensorTree

/-! ## §1 Reserved words -/

/-- The reserved words. -/
inductive Word where
  | elementWord | externalWord | funcWord | procWord | varWord | constWord | inoutWord
  | ifWord | elifWord | elseWord | endWord | whileWord | doWord | forWord | inWord
  | printWord | mapWord | toWord | reduceWord | andWord | orWord | xorWord | notWord
  | intWord | floatWord | boolWord | setWord | tensorWord | trueWord | falseWord
deriving DecidableEq

namespace Word

/-- Every reserved word. -/
def all : List Word :=
  [.elementWord, .externalWord, .funcWord, .procWord, .varWord, .constWord, .inoutWord,
   .ifWord, .elifWord, .elseWord, .endWord, .whileWord, .doWord, .forWord, .inWord,
   .printWord, .mapWord, .toWord, .reduceWord, .andWord, .orWord, .xorWord, .notWord,
   .intWord, .floatWord, .boolWord, .setWord, .tensorWord, .trueWord, .falseWord]

/-- The only way to write a reserved word. -/
def spelling : Word → String
  | .elementWord => "element"
  | .externalWord => "extern"
  | .funcWord => "func"
  | .procWord => "proc"
  | .varWord => "var"
  | .constWord => "const"
  | .inoutWord => "inout"
  | .ifWord => "if"
  | .elifWord => "elif"
  | .elseWord => "else"
  | .endWord => "end"
  | .whileWord => "while"
  | .doWord => "do"
  | .forWord => "for"
  | .inWord => "in"
  | .printWord => "print"
  | .mapWord => "map"
  | .toWord => "to"
  | .reduceWord => "reduce"
  | .andWord => "and"
  | .orWord => "or"
  | .xorWord => "xor"
  | .notWord => "not"
  | .intWord => "int"
  | .floatWord => "float"
  | .boolWord => "bool"
  | .setWord => "set"
  | .tensorWord => "tensor"
  | .trueWord => "true"
  | .falseWord => "false"

end Word

/-! ## §2 Marks -/

/-- Operators, delimiters and the marker of an embedded test. -/
inductive Mark where
  | plus | minus | star | slash | dotStar | dotSlash | caret | quote
  | assign | equal | notEqual | less | lessEqual | greater | greaterEqual | arrow | dotDot
  | parenOpen | parenClose | bracketOpen | bracketClose | braceOpen | braceClose
  | comma | semicolon | colon | dot | bar | testMarker
deriving DecidableEq

namespace Mark

/-- Every mark. -/
def all : List Mark :=
  [.plus, .minus, .star, .slash, .dotStar, .dotSlash, .caret, .quote,
   .assign, .equal, .notEqual, .less, .lessEqual, .greater, .greaterEqual, .arrow, .dotDot,
   .parenOpen, .parenClose, .bracketOpen, .bracketClose, .braceOpen, .braceClose,
   .comma, .semicolon, .colon, .dot, .bar, .testMarker]

/-- The only way to write a mark. -/
def spelling : Mark → String
  | .plus => "+"
  | .minus => "-"
  | .star => "*"
  | .slash => "/"
  | .dotStar => ".*"
  | .dotSlash => "./"
  | .caret => "^"
  | .quote => "'"
  | .assign => "="
  | .equal => "=="
  | .notEqual => "!="
  | .less => "<"
  | .lessEqual => "<="
  | .greater => ">"
  | .greaterEqual => ">="
  | .arrow => "->"
  | .dotDot => ".."
  | .parenOpen => "("
  | .parenClose => ")"
  | .bracketOpen => "["
  | .bracketClose => "]"
  | .braceOpen => "\x7b"
  | .braceClose => "\x7d"
  | .comma => ","
  | .semicolon => ";"
  | .colon => ":"
  | .dot => "."
  | .bar => "|"
  | .testMarker => "%!"

end Mark

/-! ## §3 Token kinds -/

/-- The kind of a token. -/
inductive TokenKind where
  | word (w : Word)
  | mark (m : Mark)
  | int
  | float
  | ident
  /-- The end of the text. -/
  | eof
  /-- A character at which no pattern matches. -/
  | error
deriving DecidableEq

namespace TokenKind

/-- How a kind is named to a reader: by its spelling if it has only one. -/
def text : TokenKind → String
  | .word w => w.spelling
  | .mark m => m.spelling
  | .int => "integer"
  | .float => "float literal"
  | .ident => "identifier"
  | .eof => "end of file"
  | .error => "error"

/-- Reserved words are keywords, the two truth values included. -/
def isKeyword : TokenKind → Bool
  | .word _ => true
  | _ => false

/-- Numbers and the two truth values are literals. -/
def isLiteral : TokenKind → Bool
  | .int | .float | .word .trueWord | .word .falseWord => true
  | _ => false

end TokenKind

end TensorTree
