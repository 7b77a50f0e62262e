import Conform.Document.Node
import Conform.Yaml.Value

/-!
# Fact documents

A document is a mapping with a `fact` node and, optionally, `like`, a template for new values, and
`description`, a text.
-/

namespace Conform

/-- A loaded document. -/
structure Document where
  fact : Fact
  like : Value
  description : String
deriving Inhabited

namespace Document

/-- The description that a document gives; a value that counts as false is none. -/
def descriptionOf (v : Value) : Act String := do
  let d ← Act.view v
  if !d.truthy then return ""
  match d with
  | .atom (.text s) => return s
  | _ => Node.malformed "description" "expected a string."

/-- The document of a value. -/
def ofValue (v : Value) : Act Document := do
  let entries ← Node.mapping v "document"
  Node.requireKeys entries ["description", "fact", "like"] "document"
  match ← Node.entry? entries "fact" with
  | none =>
    Node.malformed "document" "missing required 'fact' node. Fix: add a top-level 'fact:' key."
  | some node =>
    let description ← descriptionOf (← Node.entry entries "description")
    let fact ← Node.load node
    return ⟨fact, ← Node.entry entries "like", description⟩

/-- The document that a text describes, in the notation of the given reader. -/
def loadWith (read : String → Act Value) (text : String) : Act Document := do
  ofValue (← read text)

/-- The document that a text describes. -/
def load (text : String) : Act Document := loadWith Yaml.load text

/-- The document of a file with the given content, if the file exists. -/
def loadFileWith (read : String → Act Value) (path : String) (content : Option String) :
    Act Document :=
  match content with
  | some text => loadWith read text
  | none => Node.malformed path "fact document not found."

/-- The document of a file with the given content, if the file exists. -/
def loadFile (path : String) (content : Option String) : Act Document :=
  loadFileWith Yaml.load path content

end Document

end Conform
