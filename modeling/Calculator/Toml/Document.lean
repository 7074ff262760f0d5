/-
  Calculator/Toml/Document.lean
  =============================
  **TOML documents.**  A document is a list of lines: blank ones, comments,
  table headers, and keys with values.  An array may run over several lines, an
  inline table may not.  A document that is not of this form, or that gives a
  key or a table twice, is not read at all.

  A table that a header names cannot be named by another header, nor be
  extended by a dotted key of another table.  A header in double brackets adds a
  table to an array, and a path leads through such an array to its latest table.
  A table that a dotted key makes is open until the next header.  Other arrays
  and inline tables are complete as they stand.
-/
import Calculator.Toml.Scalar

namespace Calculator.Toml

/-! ### Blanks and comments -/

/-- The text from the end of a comment on, if a comment starts here. -/
def skipComment? (text : List Char) : Option (List Char) :=
  match text with
  | '#' :: rest =>
    let comment := rest.takeWhile (· ≠ '\n')
    if comment.any isControl then none else some (rest.drop comment.length)
  | _ => some text

/-- The text after blanks, line ends and comments, inside an array.  At most `count` runs
are skipped. -/
def skipLines? : (count : Nat) → List Char → Option (List Char)
  | 0, text => some text
  | count + 1, text =>
    let text := text.dropWhile fun c => isBlank c || c = '\n'
    match text with
    | '#' :: _ => (skipComment? text).bind (skipLines? count)
    | _ => some text

/-- The text after blanks, line ends and comments. -/
def skipAll? (text : List Char) : Option (List Char) := skipLines? (text.length + 1) text

/-! ### Tables -/

/-- Replaces the value of a key. -/
def replaceAt (key : String) (value : Value) (t : Table) : Table :=
  t.map fun entry => if entry.1 = key then (key, value) else entry

/-- Changes the table at a path, and makes the tables on the way that are missing.  With `lists` the
path may go through arrays, to their last tables.  Nothing when the path goes through another
value, or when the change is refused. -/
def changeAt (lists : Bool) : List String → (Table → Option Table) → Table → Option Table
  | [], change, t => change t
  | k :: path, change, t =>
    match t.lookup k with
    | none => (changeAt lists path change []).map fun inner => t ++ [(k, .table inner)]
    | some (.table inner) =>
      (changeAt lists path change inner).map fun inner => replaceAt k (.table inner) t
    | some (.array items) =>
      match lists, items.getLast? with
      | true, some (.table inner) =>
        (changeAt lists path change inner).map fun inner =>
          replaceAt k (.array (items.dropLast ++ [.table inner])) t
      | _, _ => none
    | some _ => none

/-- Adds an entry to a table that has none of its key. -/
def insertNew? (key : String) (value : Value) (t : Table) : Option Table :=
  if (t.lookup key).isSome then none else some (t ++ [(key, value)])

/-- Adds an empty table to the array of a key, which is made if it is missing. -/
def insertItem? (key : String) (t : Table) : Option Table :=
  match t.lookup key with
  | none => some (t ++ [(key, .array [.table []])])
  | some (.array items) => some (replaceAt key (.array (items ++ [.table []])) t)
  | some _ => none

/-- Whether a value is complete as it stands. -/
def Value.isClosed : Value → Bool
  | .array _ => true
  | .table _ => true
  | _ => false

/-- A key split into the way to its table and its last part. -/
def splitKey (key : List String) : List String × String := (key.dropLast, key.getLastD "")

/-- Adds an entry to an inline table whose complete entries are at the `closed` paths. -/
def addInline? (closed : List (List String)) (key : List String) (value : Value) (t : Table) :
    Option Table :=
  let (path, last) := splitKey key
  if closed.any fun c => c.isPrefixOf key then none
  else changeAt false path (insertNew? last value) t

/-! ### Values -/

mutual

/-- A value.  The count bounds the nesting and the items, and the text's length is enough. -/
def value? : (count : Nat) → List Char → Option (Value × List Char)
  | 0, _ => none
  | count + 1, text =>
    match text with
    | '[' :: rest => do
      let rest ← skipAll? rest
      match rest with
      | ']' :: rest => return (.array [], rest)
      | _ =>
        let (items, rest) ← items? count rest
        return (.array items, rest)
    | '\x7b' :: rest =>
      match skipBlanks rest with
      | '\x7d' :: rest => some (.table [], rest)
      | rest => entries? count [] [] rest
    | '"' :: _ => (anyString? text).map fun (s, rest) => (.string s, rest)
    | '\'' :: _ => (anyString? text).map fun (s, rest) => (.string s, rest)
    | _ => plainValue? text

/-- The items of an array up to its end.  A comma may follow the last one. -/
def items? : (count : Nat) → List Char → Option (List Value × List Char)
  | 0, _ => none
  | count + 1, text => do
    let (item, rest) ← value? count text
    let rest ← skipAll? rest
    match rest with
    | ']' :: rest => return ([item], rest)
    | ',' :: rest =>
      let rest ← skipAll? rest
      match rest with
      | ']' :: rest => return ([item], rest)
      | _ =>
        let (items, rest) ← items? count rest
        return (item :: items, rest)
    | _ => none

/-- The entries of an inline table up to its end, after the ones that have been read. -/
def entries? : (count : Nat) → List (List String) → Table → List Char →
    Option (Value × List Char)
  | 0, _, _, _ => none
  | count + 1, closed, t, text => do
    let (key, rest) ← key? text
    match rest with
    | '=' :: rest =>
      let (value, rest) ← value? count (skipBlanks rest)
      let t ← addInline? closed key value t
      match skipBlanks rest with
      | '\x7d' :: rest => return (.table t, rest)
      | ',' :: rest =>
        entries? count (if value.isClosed then key :: closed else closed) t (skipBlanks rest)
      | _ => none
    | _ => none

end

/-! ### Documents -/

/-- A document that has been read up to some line. -/
structure Draft where
  /-- The table of the whole document. -/
  root : Table
  /-- The path of the latest header. -/
  header : List String
  /-- Tables that may not be named or extended any more. -/
  declared : List (List String)
  /-- Tables made by dotted keys, which the next header declares. -/
  pending : List (List String)
  /-- Arrays and inline tables. -/
  closed : List (List String)

namespace Draft

/-- The draft before the first line. -/
def start : Draft := ⟨[], [], [], [], []⟩

/-- Whether a path leads into an array or an inline table. -/
def isClosed (d : Draft) (path : List String) : Bool := d.closed.any fun c => c.isPrefixOf path

/-- Takes a table header. -/
def declare? (d : Draft) (path : List String) : Option Draft :=
  let declared := d.pending ++ d.declared
  if path ∈ declared ∨ d.isClosed path then none
  else
    (changeAt true path some d.root).map fun root =>
      { d with root, header := path, declared := path :: declared, pending := [] }

/-- Takes the header of a further table of an array.  What has been said of the tables in the one
before it no longer counts. -/
def declareItem? (d : Draft) (path : List String) : Option Draft :=
  let (way, last) := splitKey path
  let others (paths : List (List String)) := paths.filter fun p => !path.isPrefixOf p
  if d.isClosed path then none
  else
    (changeAt true way (insertItem? last) d.root).map fun root =>
      { d with
        root
        header := path
        declared := path :: others (d.pending ++ d.declared)
        pending := []
        closed := others d.closed }

/-- Takes a key and its value. -/
def enter? (d : Draft) (key : List String) (value : Value) : Option Draft :=
  let (path, last) := splitKey key
  let made := (List.range path.length).map fun i => d.header ++ path.take (i + 1)
  let table := d.header ++ path
  if made.any (· ∈ d.declared) ∨ d.isClosed table then none
  else
    (changeAt true table (insertNew? last value) d.root).map fun root =>
      { d with
        root
        pending := made ++ d.pending
        closed := if value.isClosed then (d.header ++ key) :: d.closed else d.closed }

end Draft

/-- Takes the statement of a line, and gives the text after it. -/
def statement? (d : Draft) (text : List Char) : Option (Draft × List Char) :=
  match text with
  | '[' :: '[' :: rest => do
    let (path, rest) ← key? (skipBlanks rest)
    match rest with
    | ']' :: ']' :: rest => return (← d.declareItem? path, rest)
    | _ => none
  | '[' :: rest => do
    let (path, rest) ← key? (skipBlanks rest)
    match rest with
    | ']' :: rest => return (← d.declare? path, rest)
    | _ => none
  | '#' :: _ => some (d, text)
  | '\n' :: _ => some (d, text)
  | [] => some (d, text)
  | _ => do
    let (key, rest) ← key? text
    match rest with
    | '=' :: rest =>
      let rest := skipBlanks rest
      let (value, rest) ← value? (2 * rest.length + 2) rest
      return (← d.enter? key value, rest)
    | _ => none

/-- Takes the lines of a text.  The count bounds the lines, and the text's length is
enough. -/
def lines? : (count : Nat) → Draft → List Char → Option Draft
  | 0, _, _ => none
  | count + 1, d, text => do
    let (d, rest) ← statement? d (skipBlanks text)
    let rest ← skipComment? (skipBlanks rest)
    match rest with
    | [] => return d
    | '\n' :: rest => lines? count d rest
    | _ => none

/-- Line ends of two characters become single ones. -/
def unifyLineEnds : List Char → List Char
  | '\r' :: '\n' :: rest => '\n' :: unifyLineEnds rest
  | c :: rest => c :: unifyLineEnds rest
  | [] => []

/-- Reads a document as a table; nothing when it is malformed. -/
def read? (text : String) : Option Table :=
  let chars := unifyLineEnds text.toList
  (lines? (chars.length + 1) .start chars).map Draft.root

end Calculator.Toml
