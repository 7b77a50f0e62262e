import Conform.Text.Quoted
import Conform.Decimal.Shortest
import Conform.Value.Data

/-!
# Rendering

The text by which messages show a value (`Data.render`), and the text that stands for it where it is
spliced into a sentence (`Data.display`). The two differ only on texts and enumeration members. A value
with an integer of too many digits has neither; `Data.isWritable` tells the others.
-/

namespace Conform

/-- The opening brace of mappings and sets. -/
def openBrace : String := "\x7b"

/-- The closing brace of mappings and sets. -/
def closeBrace : String := "\x7d"

/-- The name of a truth value. -/
def boolText (b : Bool) : String := if b then "True" else "False"

namespace Payload

/-- A payload as messages show it. -/
def render : Payload → String
  | .null => "None"
  | .text s => Text.quote s
  | .int n => toString n

end Payload

namespace Atom

/-- An atom as messages show it. -/
def render : Atom → String
  | .null => "None"
  | .bool b => boolText b
  | .int n => toString n
  | .float x => Decimal.text x
  | .nan _ => "nan"
  | .text s => Text.quote s
  | .bytes bs => Text.quoteBytes bs
  | .member cls i =>
    match cls.member? i with
    | some (name, payload) => "<" ++ cls.name ++ "." ++ name ++ ": " ++ payload.render ++ ">"
    | none => "<" ++ cls.name ++ ">"
  | .sealed o => o.shown
  | .enumeration cls => "<enum '" ++ cls.name ++ "'>"
  | .absent _ => "ABSENT"

/-- An atom spliced into a sentence. -/
def display (a : Atom) : String :=
  match a with
  | .text s => s
  | .member cls i =>
    match cls.member? i with
    | some (_, .int n) => if cls.integral then toString n else a.render
    | some (name, _) => cls.name ++ "." ++ name
    | none => cls.name
  | _ => a.render

end Atom

/-- Texts with a separator between each two. -/
def joinTexts (separator : String) : List String → String
  | [] => ""
  | [s] => s
  | s :: rest => s ++ separator ++ joinTexts separator rest

/-- The fields of a record with their names in front. -/
def nameParts (names parts : List String) : List String :=
  (names.zip parts).map fun p => p.1 ++ "=" ++ p.2

/-- A tuple of rendered items; a single one is followed by a comma. -/
def tupleText : List String → String
  | [x] => "(" ++ x ++ ",)"
  | xs => "(" ++ joinTexts ", " xs ++ ")"

/-- A list of rendered items. -/
def listText (xs : List String) : String := "[" ++ joinTexts ", " xs ++ "]"

/-- A set of rendered items. -/
def setText : List String → String
  | [] => "set()"
  | xs => openBrace ++ joinTexts ", " xs ++ closeBrace

/-- What is shown in place of a container inside itself. -/
def elidedText (className : String) : String :=
  if className == "list" then "[...]"
  else if className == "dict" then openBrace ++ "..." ++ closeBrace
  else "..."

/-- A record with its rendered fields, which a plain one shows without their names. -/
def recordText (cls : RecordClass) (parts : List String) : String :=
  let shown := if cls.keeping = .plain then parts else nameParts (cls.fields.map (·.name)) parts
  cls.name ++ "(" ++ joinTexts ", " shown ++ ")"

namespace Data

mutual

/-- A value as messages show it. -/
def render : Data → String
  | .atom a => a.render
  | .tuple none xs => tupleText (renderAll xs)
  | .tuple (some cls) xs => cls.name ++ "(" ++ joinTexts ", " (nameParts cls.fields (renderAll xs)) ++ ")"
  | .set xs => setText (renderAll xs)
  | .list xs => listText (renderAll xs)
  | .mapping es => openBrace ++ joinTexts ", " (renderEntries es) ++ closeBrace
  | .record cls xs => recordText cls (renderAll xs)
  | .elided name => elidedText name

/-- The rendered elements of a container. -/
def renderAll : List Data → List String
  | [] => []
  | x :: xs => render x :: renderAll xs

/-- The rendered entries of a mapping. -/
def renderEntries : List (Data × Data) → List String
  | [] => []
  | (k, v) :: es => (render k ++ ": " ++ render v) :: renderEntries es

end

mutual

/-- Whether no integer in a value has too many digits to be written. -/
def isWritable : Data → Bool
  | .atom (.int n) => Conform.isWritable n
  | .atom _ | .elided _ => true
  | .tuple _ xs | .set xs | .list xs | .record _ xs => isWritableAll xs
  | .mapping es => isWritableEntries es

/-- Whether none in several values has. -/
def isWritableAll : List Data → Bool
  | [] => true
  | x :: xs => isWritable x && isWritableAll xs

/-- Whether none in the entries of a mapping has. -/
def isWritableEntries : List (Data × Data) → Bool
  | [] => true
  | (k, v) :: es => isWritable k && isWritable v && isWritableEntries es

end

/-- A value as messages show it, if it can be written. -/
def text? (d : Data) : Option String := if d.isWritable then some d.render else none

/-- A value spliced into a sentence. -/
def display : Data → String
  | .atom a => a.display
  | d => d.render

/-- A value spliced into a sentence, if it can be written. -/
def spliced? (d : Data) : Option String := if d.isWritable then some d.display else none

end Data

end Conform
