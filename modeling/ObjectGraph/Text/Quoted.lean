import ObjectGraph.Text.Printable

/-!
# Quoted text

Two ways to write a text between quotation marks.  `escapeLiteral` is the body
of a literal in a query: the two characters that would end or bend it, and the
line and tab controls, stand behind a backslash.  `inspect` is the form for
messages, in which each character without a shape of its own is written as its
code.
-/

namespace ObjectGraph.Text

/-- A character inside a literal of a query. -/
def escapeLiteralChar (c : Char) : List Char :=
  match c with
  | '\\' => ['\\', '\\']
  | '"' => ['\\', '"']
  | '\n' => ['\\', 'n']
  | '\r' => ['\\', 'r']
  | '\t' => ['\\', 't']
  | c => [c]

/-- The body of a literal that stands for a text. -/
def escapeLiteral (s : String) : String :=
  String.ofList (s.toList.flatMap escapeLiteralChar)

/-- A character in a message. -/
def inspectChar (c : Char) : List Char :=
  match c with
  | '\\' => ['\\', '\\']
  | '"' => ['\\', '"']
  | '\n' => ['\\', 'n']
  | '\r' => ['\\', 'r']
  | '\t' => ['\\', 't']
  | '\x00' => ['\\', '0']
  | c =>
    if isPrintable c then [c]
    else ['\\', 'u', '\x7b'] ++ Nat.toDigits 16 c.toNat ++ ['\x7d']

/-- A text in a message, between quotation marks. -/
def inspect (s : String) : String :=
  String.ofList ('"' :: s.toList.flatMap inspectChar ++ ['"'])

end ObjectGraph.Text
