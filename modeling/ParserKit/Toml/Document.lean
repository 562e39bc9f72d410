import ParserKit.Toml.Number

/-!
# Configuration files

A file is a series of statements, one a line: a key with its value, or the
header of a table or of an array of tables.  A table may be declared once, and
what was written as an inline table or an array may not be extended.
-/

namespace ParserKit.Toml

abbrev KeyPath := List String

/-- What is known about the place behind a key. -/
inductive Mark
  /-- A table was declared here. -/
  | declared
  /-- Nothing at this place or below it may be changed. -/
  | frozen
  deriving DecidableEq, Repr

structure Marks where
  entries : List (KeyPath × Mark)
  deriving DecidableEq, Repr

namespace Marks

def none : Marks := ⟨[]⟩

def add (marks : Marks) (path : KeyPath) (mark : Mark) : Marks :=
  ⟨(path, mark) :: marks.entries⟩

def isDeclared (marks : Marks) (path : KeyPath) : Bool :=
  marks.entries.contains (path, .declared)

/-- A place is frozen with every place above it. -/
def isFrozen (marks : Marks) (path : KeyPath) : Bool :=
  marks.entries.any fun (other, mark) => mark == .frozen && other.isPrefixOf path

/-- Forget a place and all places below it. -/
def clear (marks : Marks) (path : KeyPath) : Marks :=
  ⟨marks.entries.filter fun (other, _) => !path.isPrefixOf other⟩

end Marks

namespace Table

/-- Change the table at a path, making the tables on the way.  With `last` an
array of tables stands for the last of its tables. -/
def modifyAt (last : Bool) (change : Table → Option Table) : KeyPath → Table → Option Table
  | [], t => change t
  | key :: path, t =>
      match t.get? key with
      | none => (modifyAt last change path []).map fun inner => t.set key (.table inner)
      | some (.table inner) =>
          (modifyAt last change path inner).map fun inner => t.set key (.table inner)
      | some (.array items) =>
          match last, items.reverse with
          | true, .table inner :: before =>
              (modifyAt last change path inner).map fun inner =>
                t.set key (.array (before.reverse ++ [.table inner]))
          | _, _ => none
      | some _ => none

/-- Add a key that is not there yet. -/
def insertNew (key : String) (v : Value) (t : Table) : Option Table :=
  match t.get? key with
  | none => some (t.set key v)
  | some _ => none

/-- Add an empty table to an array of tables, which may be new. -/
def appendTable (key : String) (t : Table) : Option Table :=
  match t.get? key with
  | none => some (t.set key (.array [.table []]))
  | some (.array items) => some (t.set key (.array (items ++ [.table []])))
  | some _ => none

end Table

/-- Split a path into the part above its last key and that key. -/
def splitLast (path : KeyPath) : KeyPath × String := (path.dropLast, path.getLastD "")

def isContainer : Value → Bool
  | .array _ => true
  | .table _ => true
  | _ => false

/-- How deep arrays and inline tables may nest. -/
def nestingLimit : Nat := 300

/-- Accept the entry of a key in an inline table. -/
def addInline (t : Table) (marks : Marks) (path : KeyPath) (v : Value) :
    Option (Table × Marks) :=
  let (above, key) := splitLast path
  if marks.isFrozen path then
    none
  else
    (t.modifyAt false (Table.insertNew key v) above).map fun t =>
      (t, if isContainer v then marks.add path .frozen else marks)

mutual

/-- A value.  `fuel` bounds the characters read and `depth` the nesting of
containers. -/
def readValue : Nat → Nat → List Char → Read Value
  | 0, _, _ => malformed
  | fuel + 1, depth, cs =>
      match cs with
      | '"' :: '"' :: '"' :: rest => string (basicString true rest)
      | '"' :: rest => string (basicString false rest)
      | '\'' :: '\'' :: '\'' :: rest => string (literalString true rest)
      | '\'' :: rest => string (literalString false rest)
      | 't' :: 'r' :: 'u' :: 'e' :: rest => .ok (.boolean true, rest)
      | 'f' :: 'a' :: 'l' :: 's' :: 'e' :: rest => .ok (.boolean false, rest)
      | '[' :: rest =>
          match depth with
          | 0 => .error .tooDeep
          | depth + 1 => readItems fuel depth [] rest
      | '\x7b' :: rest =>
          match depth with
          | 0 => .error .tooDeep
          | depth + 1 =>
              match skipBlanks rest with
              | '\x7d' :: rest => .ok (.table [], rest)
              | rest => readEntries fuel depth [] .none rest
      | _ => scalar cs
where
  /-- A string as a value. -/
  string : Read String → Read Value
    | .ok (s, rest) => .ok (.string s, rest)
    | .error e => .error e

/-- The items of an array up to its closing bracket; `found` holds those so far,
the last one first. -/
def readItems : Nat → Nat → List Value → List Char → Read Value
  | 0, _, _, _ => malformed
  | fuel + 1, depth, found, cs =>
      match skipFiller cs.length cs with
      | .error e => .error e
      | .ok (']' :: rest) => .ok (.array found.reverse, rest)
      | .ok cs =>
          match readValue fuel depth cs with
          | .error e => .error e
          | .ok (v, rest) =>
              match skipFiller rest.length rest with
              | .error e => .error e
              | .ok (']' :: rest) => .ok (.array (v :: found).reverse, rest)
              | .ok (',' :: rest) => readItems fuel depth (v :: found) rest
              | .ok _ => malformed

/-- The entries of an inline table up to its closing brace. -/
def readEntries : Nat → Nat → Table → Marks → List Char → Read Value
  | 0, _, _, _, _ => malformed
  | fuel + 1, depth, t, marks, cs =>
      match key cs with
      | .error e => .error e
      | .ok (path, '=' :: rest) =>
          match readValue fuel depth (skipBlanks rest) with
          | .error e => .error e
          | .ok (v, rest) =>
              match addInline t marks path v, skipBlanks rest with
              | some (t, _), '\x7d' :: rest => .ok (.table t, rest)
              | some (t, marks), ',' :: rest => readEntries fuel depth t marks (skipBlanks rest)
              | _, _ => malformed
      | .ok _ => malformed

end

/-- A file as far as it was read.  The tables on the way to dotted keys count as
declared from the next header on. -/
structure Document where
  table : Table
  marks : Marks
  header : KeyPath
  pending : List KeyPath

namespace Document

def empty : Document := ⟨[], .none, [], []⟩

/-- Let the pending tables count as declared. -/
def settle (d : Document) : Document :=
  { d with
    marks := d.pending.foldl (fun marks path => marks.add path .declared) d.marks
    pending := [] }

/-- Declare the table of a header and enter it. -/
def openTable (d : Document) (path : KeyPath) : Option Document :=
  let d := d.settle
  if d.marks.isDeclared path || d.marks.isFrozen path then
    none
  else
    (d.table.modifyAt true some path).map fun t =>
      { d with table := t, marks := d.marks.add path .declared, header := path }

/-- Add a table to the array of a header and enter it. -/
def openArrayTable (d : Document) (path : KeyPath) : Option Document :=
  let d := d.settle
  let (above, key) := splitLast path
  if d.marks.isFrozen path then
    none
  else
    (d.table.modifyAt true (Table.appendTable key) above).map fun t =>
      { d with table := t, marks := (d.marks.clear path).add path .declared, header := path }

/-- The tables on the way to a dotted key below the header. -/
def pathsBetween (header path : KeyPath) : List KeyPath :=
  (List.range (path.length - 1)).map fun i => header ++ path.take (i + 1)

/-- Add a key with its value below the header. -/
def insert (d : Document) (path : KeyPath) (v : Value) : Option Document :=
  let between := pathsBetween d.header path
  let full := d.header ++ path
  let (above, key) := splitLast full
  if between.any d.marks.isDeclared || d.marks.isFrozen above then
    none
  else
    (d.table.modifyAt true (Table.insertNew key v) above).map fun t =>
      { d with
        table := t
        marks := if isContainer v then d.marks.add full .frozen else d.marks
        pending := between ++ d.pending }

end Document

/-- What a statement comes to, unless it contradicts what was read before. -/
def accepted (changed : Option Document) (rest : List Char) : Read Document :=
  match changed with
  | some d => .ok (d, rest)
  | none => malformed

/-- The header of a table, behind its bracket. -/
def tableHeader (d : Document) (cs : List Char) : Read Document :=
  match key (skipBlanks cs) with
  | .error e => .error e
  | .ok (path, ']' :: rest) => accepted (d.openTable path) rest
  | .ok _ => malformed

/-- The header of an array of tables, behind its brackets. -/
def arrayHeader (d : Document) (cs : List Char) : Read Document :=
  match key (skipBlanks cs) with
  | .error e => .error e
  | .ok (path, ']' :: ']' :: rest) => accepted (d.openArrayTable path) rest
  | .ok _ => malformed

/-- A key with its value. -/
def keyValue (d : Document) (cs : List Char) : Read Document :=
  match key cs with
  | .error e => .error e
  | .ok (path, '=' :: rest) =>
      match readValue (2 * rest.length + 2) nestingLimit (skipBlanks rest) with
      | .error e => .error e
      | .ok (v, rest) => accepted (d.insert path v) rest
  | .ok _ => malformed

/-- One statement, which may be nothing at all. -/
def statement (d : Document) (cs : List Char) : Read Document :=
  match cs with
  | [] => .ok (d, [])
  | '\n' :: _ => .ok (d, cs)
  | '#' :: _ => .ok (d, cs)
  | '[' :: '[' :: rest => arrayHeader d rest
  | '[' :: rest => tableHeader d rest
  | _ => keyValue d cs

/-- The statements of a file, each to the end of its line. -/
def statements : Nat → Document → List Char → Except Problem Document
  | 0, _, _ => .error .malformed
  | fuel + 1, d, cs =>
      match statement d (skipBlanks cs) with
      | .error e => .error e
      | .ok (d, rest) =>
          match skipComment (skipBlanks rest) with
          | .error e => .error e
          | .ok [] => .ok d
          | .ok ('\n' :: rest) => statements fuel d rest
          | .ok _ => .error .malformed

/-- A carriage return before a line feed does not count. -/
def joinBreaks : List Char → List Char
  | '\r' :: '\n' :: cs => '\n' :: joinBreaks cs
  | c :: cs => c :: joinBreaks cs
  | [] => []

/-- The table of a file. -/
def read (source : String) : Except Problem Table :=
  let cs := joinBreaks source.toList
  (statements (cs.length + 1) .empty cs).map (·.table)

end ParserKit.Toml
