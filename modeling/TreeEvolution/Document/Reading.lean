import TreeEvolution.Document.Outline
import TreeEvolution.Document.Quoted
import TreeEvolution.Document.Scalar

/-!
# Reading documents

A document, in the format TOML, is a sequence of statements, one to a line.  A statement assigns a
value to a key of the current table, or it is a header that opens another table.  Values may contain
values, in lists and in tables between braces, down to `greatestDepth`; within them, lines may end
wherever a blank may stand, save between the keys of a path.  A bound on the number of steps keeps
the reading of values finite, and the length of the text is such a bound, since every step takes a
character at least.

`read` answers with the entries of the whole document, or with nothing if it breaks a rule of the
format.
-/

namespace TreeEvolution.Document

/-! ### Blanks, comments and ends of lines -/

/-- A text without the blanks at its beginning. -/
def skipBlanks (text : List Char) : List Char :=
  text.dropWhile fun c => c = ' ' || c = '\t'

/-- The text after the end of a line. -/
def newline? : List Char → Option (List Char)
  | '\n' :: rest => some rest
  | '\r' :: '\n' :: rest => some rest
  | _ => none

/-- A text without the comment at its beginning. -/
def skipComment : List Char → List Char
  | '#' :: rest => rest.dropWhile isPlain
  | text => text

/-- The text after the rest of a line, which must be empty up to a comment. -/
def endLine (text : List Char) : Option (List Char) :=
  match skipComment (skipBlanks text) with
  | [] => some []
  | rest => newline? rest

/-- A text without the blanks, comments and ends of lines at its beginning. -/
def skipLines : (comment : Bool) → List Char → Option (List Char)
  | _, [] => some []
  | _, '\n' :: rest => skipLines false rest
  | _, '\r' :: '\n' :: rest => skipLines false rest
  | true, c :: rest => if isPlain c then skipLines true rest else none
  | false, '#' :: rest => skipLines true rest
  | false, c :: rest =>
    if c = ' ' || c = '\t' then skipLines false rest else some (c :: rest)

/-! ### Keys -/

/-- Whether a character may stand in a key without quotation marks. -/
def isKeyChar (c : Char) : Bool :=
  c.isAlphanum || c = '_' || c = '-'

/-- Read one key, with or without quotation marks. -/
def readKey (text : List Char) : Option (String × List Char) :=
  match text with
  | '"' :: rest => (readBasic rest).map fun (key, rest) => (String.ofList key, rest)
  | '\'' :: rest => (readLiteral rest).map fun (key, rest) => (String.ofList key, rest)
  | text =>
    let (key, rest) := text.span isKeyChar
    if key.isEmpty then none else some (String.ofList key, rest)

/-- The number of keys that a path has at most, and the number of lists and tables in braces that
may lie inside each other. -/
def greatestDepth : Nat := 80

/-- Read keys with points between them, at most a given number. -/
def readKeys : Nat → List Char → Option (List String × List Char)
  | 0, _ => none
  | more + 1, text => do
    let (key, rest) ← readKey (skipBlanks text)
    match skipBlanks rest with
    | '.' :: rest => do
      let (path, rest) ← readKeys more rest
      some (key :: path, rest)
    | rest => some ([key], rest)

/-- Read a path of keys. -/
def readPath (text : List Char) : Option (List String × List Char) :=
  readKeys greatestDepth text

/-- The text after a given character. -/
def expect (c : Char) : List Char → Option (List Char)
  | d :: rest => if d = c then some rest else none
  | [] => none

/-! ### Values -/

mutual

/-- Read a value that contains lists and tables down to a given depth. -/
def readValue : (steps depth : Nat) → List Char → Option (Datum × List Char)
  | 0, _, _ => none
  | _ + 1, 0, '[' :: _ => none
  | _ + 1, 0, '{' :: _ => none
  | steps + 1, depth + 1, '[' :: rest => do
    let (items, rest) ← readItems steps depth rest
    some (.list items, rest)
  | steps + 1, depth + 1, '{' :: rest => do
    let (assignments, rest) ← readAssignments steps depth rest
    let entries ← Outline.ofAssignments assignments
    some (.table (Outline.data entries), rest)
  | _ + 1, _, '"' :: rest => (readQuoted ('"' :: rest)).map fun (s, rest) => (.text s, rest)
  | _ + 1, _, '\'' :: rest => (readQuoted ('\'' :: rest)).map fun (s, rest) => (.text s, rest)
  | _ + 1, _, text => readScalar text

/-- Read the items of a list, up to the bracket that closes it. -/
def readItems : (steps depth : Nat) → List Char → Option (List Datum × List Char)
  | 0, _, _ => none
  | steps + 1, depth, text => do
    match ← skipLines false text with
    | ']' :: rest => some ([], rest)
    | text =>
      let (item, rest) ← readValue steps depth text
      match ← skipLines false rest with
      | ',' :: rest => do
        let (items, rest) ← readItems steps depth rest
        some (item :: items, rest)
      | ']' :: rest => some ([item], rest)
      | _ => none

/-- Read the assignments of a table, up to the brace that closes it. -/
def readAssignments :
    (steps depth : Nat) → List Char → Option (List (List String × Datum) × List Char)
  | 0, _, _ => none
  | steps + 1, depth, text => do
    match ← skipLines false text with
    | '}' :: rest => some ([], rest)
    | text =>
      let (path, rest) ← readPath text
      let rest ← expect '=' (← skipLines false rest)
      let (d, rest) ← readValue steps depth (← skipLines false rest)
      match ← skipLines false rest with
      | ',' :: rest => do
        let (assignments, rest) ← readAssignments steps depth rest
        some ((path, d) :: assignments, rest)
      | '}' :: rest => some ([(path, d)], rest)
      | _ => none

end

/-! ### Statements -/

/-- A line of a document. -/
inductive Statement where
  /-- The value of a key. -/
  | assignment (path : List String) (d : Datum)
  /-- The header of a table. -/
  | header (path : List String)
  /-- The header of the next table of a series. -/
  | nextHeader (path : List String)

/-- Read a statement. -/
def readStatement (text : List Char) : Option (Statement × List Char) :=
  match text with
  | '[' :: '[' :: rest => do
    let (path, rest) ← readPath rest
    let rest ← expect ']' rest
    let rest ← expect ']' rest
    some (.nextHeader path, rest)
  | '[' :: rest => do
    let (path, rest) ← readPath rest
    let rest ← expect ']' rest
    some (.header path, rest)
  | text => do
    let (path, rest) ← readPath text
    let rest ← expect '=' rest
    let (d, rest) ← readValue (text.length + 1) greatestDepth (skipBlanks rest)
    some (.assignment path d, rest)

/-- Read statements up to the end of the text. -/
def readStatements : Nat → List Char → Option (List Statement)
  | 0, _ => none
  | steps + 1, text => do
    match ← skipLines false text with
    | [] => some []
    | text =>
      let (statement, rest) ← readStatement text
      let rest ← endLine rest
      let statements ← readStatements steps rest
      some (statement :: statements)

/-! ### Documents -/

/-- A document as far as it has been read. -/
structure Draft where
  /-- The entries of the document. -/
  entries : Outline.Entries := []
  /-- The path of the current table. -/
  current : List String := []

/-- Carry out a statement. -/
def Draft.apply (draft : Draft) : Statement → Option Draft
  | .assignment path d => do
    let entries ← Outline.beneath (Outline.assign d path) draft.current draft.entries
    some { draft with entries := entries }
  | .header path => do
    let entries ← Outline.beneath (Outline.openTable (path.getLastD "")) path.dropLast draft.entries
    some ⟨entries, path⟩
  | .nextHeader path => do
    let entries ← Outline.beneath (Outline.openNext (path.getLastD "")) path.dropLast draft.entries
    some ⟨entries, path⟩

/-- A text without the mark of the byte order at its beginning. -/
def dropMark : List Char → List Char
  | '\uFEFF' :: rest => rest
  | text => text

/-- The entries of a document.  A mark of the byte order may stand in front of it. -/
def read (text : List Char) : Option (List (String × Datum)) := do
  let characters := dropMark text
  let statements ← readStatements (characters.length + 1) characters
  let draft ← statements.foldlM Draft.apply {}
  some (Outline.data draft.entries)

end TreeEvolution.Document
