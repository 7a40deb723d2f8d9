import TreeEvolution.Text.Numeral

/-!
# Quoted text of documents

Text stands between quotation marks, of which there are two kinds.  Between double ones the
backslash gives a meaning to what follows it, and between single ones every character stands for
itself.  Three marks of either kind enclose text of several lines.

The readers of this module begin after the opening marks.  They answer with the text and with what
follows the closing marks.
-/

namespace TreeEvolution.Document

/-- Whether a character stands for itself within a line. -/
def isPlain (c : Char) : Bool :=
  c = '\t' || (0x20 ≤ c.toNat && c.toNat ≠ 0x7F)

/-- The character that stands after a backslash for another one. -/
def escaped? : Char → Option Char
  | 'b' => some '\x08'
  | 'e' => some '\x1B'
  | 't' => some '\t'
  | 'n' => some '\n'
  | 'f' => some '\x0C'
  | 'r' => some '\r'
  | '"' => some '"'
  | '\\' => some '\\'
  | _ => none

/-- The character with a code point, given by hexadecimal digits. -/
def codePoint? (digits : List Char) : Option Char :=
  if digits.all fun c => c.isDigit || ('a' ≤ c && c ≤ 'f') || ('A' ≤ c && c ≤ 'F') then
    let n := Text.ofDigits 16 digits
    if n.isValidChar then some (Char.ofNat n) else none
  else none

/-- Put a character in front of the text that has been read. -/
def before (c : Char) (read : Option (List Char × List Char)) : Option (List Char × List Char) :=
  read.map fun (text, rest) => (c :: text, rest)

/-- Text up to a double mark. -/
def readBasic : List Char → Option (List Char × List Char)
  | '"' :: rest => some ([], rest)
  | '\\' :: 'x' :: a :: b :: rest => do
    before (← codePoint? [a, b]) (readBasic rest)
  | '\\' :: 'u' :: a :: b :: c :: d :: rest => do
    before (← codePoint? [a, b, c, d]) (readBasic rest)
  | '\\' :: 'U' :: a :: b :: c :: d :: e :: f :: g :: h :: rest => do
    before (← codePoint? [a, b, c, d, e, f, g, h]) (readBasic rest)
  | '\\' :: c :: rest => do before (← escaped? c) (readBasic rest)
  | c :: rest => if isPlain c && c ≠ '\\' then before c (readBasic rest) else none
  | [] => none

/-- Text up to a single mark. -/
def readLiteral : List Char → Option (List Char × List Char)
  | '\'' :: rest => some ([], rest)
  | c :: rest => if isPlain c then before c (readLiteral rest) else none
  | [] => none

/-! ### Several lines -/

/-- Up to two marks may stand directly before the three that close a text. -/
def closing (mark : Char) (rest : List Char) : List Char × List Char :=
  match rest with
  | a :: b :: further =>
    if a = mark && b = mark then ([mark, mark], further)
    else if a = mark then ([mark], b :: further)
    else ([], rest)
  | [a] => if a = mark then ([mark], []) else ([], rest)
  | [] => ([], [])

/-- Whether a backslash before this text joins two lines: there are only blanks up to the end of the
line. -/
def joinsLines (text : List Char) : Bool :=
  match text.dropWhile fun c => c = ' ' || c = '\t' with
  | '\n' :: _ => true
  | '\r' :: '\n' :: _ => true
  | _ => false

/-- Text up to three double marks.  After a backslash at the end of a line, blanks and ends of lines
are skipped. -/
def readBasicLines : (skipping : Bool) → List Char → Option (List Char × List Char)
  | _, '"' :: '"' :: '"' :: rest => some (closing '"' rest)
  | skipping, '\r' :: '\n' :: rest =>
    if skipping then readBasicLines true rest else before '\n' (readBasicLines false rest)
  | skipping, '\n' :: rest =>
    if skipping then readBasicLines true rest else before '\n' (readBasicLines false rest)
  | _, '\\' :: 'x' :: a :: b :: rest => do
    before (← codePoint? [a, b]) (readBasicLines false rest)
  | _, '\\' :: 'u' :: a :: b :: c :: d :: rest => do
    before (← codePoint? [a, b, c, d]) (readBasicLines false rest)
  | _, '\\' :: 'U' :: a :: b :: c :: d :: e :: f :: g :: h :: rest => do
    before (← codePoint? [a, b, c, d, e, f, g, h]) (readBasicLines false rest)
  | _, '\\' :: c :: rest =>
    if joinsLines (c :: rest) then readBasicLines true (c :: rest)
    else do before (← escaped? c) (readBasicLines false rest)
  | skipping, c :: rest =>
    if skipping && (c = ' ' || c = '\t') then readBasicLines true rest
    else if isPlain c && c ≠ '\\' then before c (readBasicLines false rest)
    else none
  | _, [] => none

/-- Text up to three single marks. -/
def readLiteralLines : List Char → Option (List Char × List Char)
  | '\'' :: '\'' :: '\'' :: rest => some (closing '\'' rest)
  | '\r' :: '\n' :: rest => before '\n' (readLiteralLines rest)
  | c :: rest => if isPlain c || c = '\n' then before c (readLiteralLines rest) else none
  | [] => none

/-- The text after the opening marks of several lines, without the end of a line that follows them
directly. -/
def dropFirstNewline : List Char → List Char
  | '\n' :: rest => rest
  | '\r' :: '\n' :: rest => rest
  | text => text

/-- Read text between marks of any kind. -/
def readQuoted (text : List Char) : Option (String × List Char) :=
  let read : Option (List Char × List Char) := match text with
    | '"' :: '"' :: '"' :: rest => readBasicLines false (dropFirstNewline rest)
    | '"' :: rest => readBasic rest
    | '\'' :: '\'' :: '\'' :: rest => readLiteralLines (dropFirstNewline rest)
    | '\'' :: rest => readLiteral rest
    | _ => none
  read.map fun (content, rest) => (String.ofList content, rest)

end TreeEvolution.Document
