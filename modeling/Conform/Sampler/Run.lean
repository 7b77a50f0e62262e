import Conform.Document.Document
import Conform.Json.Printer
import Conform.Json.Reader
import Conform.Sampler.Options
import Conform.Satisfy
import Conform.Text.Surrogate

/-!
# Runs of the sampler

A run loads a document and then either generates values that satisfy its fact and prints them, one a
line, or checks the values of the lines of its input and prints the violations. Nothing is printed
before all values are there: a run that ends with a fault prints nothing, unless the fault lies in
printing itself. Values that cannot be printed, and lines that the output does not take, are found
only when it is their turn.
-/

namespace Conform.Sampler

/-- How documents and lines of input are read. -/
structure Readers where
  document : String → Act Value
  line : String → Except Json.Flaw Data

/-- The readers of the notations that the library knows. -/
def Readers.standard : Readers := ⟨Yaml.load, Json.read⟩

/-- The last word of a run. -/
inductive Notice
  | checked (document : String) (violations : Nat)
  | generated (count : Nat) (document : String) (seed : Int)
  | failed (fault : Fault)
deriving DecidableEq, Repr

namespace Notice

/-- The status that tells the caller how the run ended. -/
def status : Notice → Nat
  | .checked _ n => if n = 0 then 0 else 1
  | .generated _ _ _ => 0
  | .failed _ => 2

/-- The importance of the notice. -/
def level : Notice → Level
  | .failed _ => .error
  | _ => .info

/-- The text of the notice. -/
def message : Notice → String
  | .checked document n => "Checked " ++ document ++ ": " ++ toString n ++ " violation(s)"
  | .generated n document seed =>
    "Generated " ++ toString n ++ " value(s) from " ++ document ++ " (seed=" ++ toString seed ++ ")"
  | .failed fault => fault.message

end Notice

/-- Whether a run is prepared for the fault and ends with a notice of it. It is not prepared for parts
that are missing, numbers out of range and values without a bottom. -/
def isAnticipated : Fault → Bool
  | .misuse .unsupported | .misuse .invalid => true
  | .misuse _ => false
  | _ => true

/-- What a run does: the lines that it prints, what it logs on the way, and its last word or the fault
that it was not prepared for. -/
structure Outcome where
  lines : List String
  log : Array LogEntry
  ending : Except Fault Notice

/-! ## Reading -/

/-- The parts of a text between line feeds; nothing follows the last one if the text ends with it. -/
def lineParts : List Char → List (List Char)
  | [] => []
  | c :: cs =>
    if c = '\n' then [] :: lineParts cs
    else
      match lineParts cs with
      | [] => [[c]]
      | part :: parts => (c :: part) :: parts

/-- The lines of a text. -/
def linesOf (text : String) : List String := (lineParts text.toList).map String.ofList

/-- The fault of a flaw in the line with a number. -/
def lineFault (number : Nat) : Json.Flaw → Fault
  | .malformed => .refused (.line number)
  | .tooLong => .misuse .invalid
  | .tooDeep => .misuse .bottomless

/-- The values of lines, given the number of the first. Blank lines have none. -/
def readLines (line : String → Except Json.Flaw Data) :
    (number : Nat) → List String → Except Fault (List Data)
  | _, [] => .ok []
  | number, l :: ls =>
    if Text.isAllBlank l then readLines line (number + 1) ls
    else
      match line l with
      | .error flaw => .error (lineFault number flaw)
      | .ok d => do return d :: (← readLines line (number + 1) ls)

/-- A path without empty parts and without single points, by which a file is known. -/
def normalPath (path : String) : String :=
  let slashes := (path.toList.takeWhile (· = '/')).length
  let root := if slashes = 2 then "//" else if 0 < slashes then "/" else ""
  let parts := (path.splitOn "/").filter fun part => part != "" && part != "."
  let whole := root ++ "/".intercalate parts
  if whole = "" then "." else whole

/-! ## Checking and generating -/

/-- The document of a run, given the content of its file if that exists. -/
def loadDocument (r : Readers) (o : Options) (content : Option String) : Act Document :=
  Document.loadFileWith r.document (normalPath o.document) content

/-- Checks the values of the lines of input. -/
def check (r : Readers) (o : Options) (content : Option String) (input : String) : Act Report := do
  let document ← loadDocument r o content
  let data ← Act.ofExcept (readLines r.line 1 (linesOf input))
  let values ← data.mapM Act.build
  checkSeq document.fact values

/-- Generates values. -/
def generate (r : Readers) (o : Options) (content : Option String) : Act (List Data) := do
  let document ← loadDocument r o content
  Act.viewAll (← buildSeq document.fact document.like o.count o.attempts)

/-- Whether an output in the usual encoding takes a line. Half of a surrogate pair has no code there. -/
def isEncodable (line : String) : Bool := line.toList.all fun c => !Text.isStandIn c.toNat

/-- The fault of an output that does not take a line. -/
def untakenFault : Fault := .misuse .invalid

/-- The lines for values, up to the first that cannot be printed, and the fault in that one. The output tells which
lines it takes. -/
def printLines (takes : String → Bool) : List Data → List String × Option Fault
  | [] => ([], none)
  | d :: ds =>
    match Json.print d with
    | .ok line =>
      if takes line then
        let (lines, fault) := printLines takes ds
        (line :: lines, fault)
      else ([], some untakenFault)
    | .error fault => ([], some fault)

/-- The end of a run by a fault. -/
def endOf (fault : Fault) : Except Fault Notice :=
  if isAnticipated fault then .ok (.failed fault) else .error fault

/-- What a run does that has found violations: it prints them, up to the first line that the output does not take. -/
def reported (takes : String → Bool) (path : String) (log : Array LogEntry) (report : Report) : Outcome :=
  if report.messages.all takes then ⟨report.messages, log, .ok (.checked path report.size)⟩
  else ⟨report.messages.takeWhile takes, log, endOf untakenFault⟩

/-- A run with the given options. Without a seed among them it takes the one at hand. -/
def run (r : Readers) (takes : String → Bool) (o : Options) (seedAtHand : Int) (content : Option String)
    (input : String) : Outcome :=
  let seed := o.seed.getD seedAtHand
  let start : World := ⟨Store.empty, .ofSeed seed, #[]⟩
  if o.check then
    match (check r o content input).run start with
    | (.ok report, w) => reported takes o.document w.log report
    | (.error fault, w) => ⟨[], w.log, endOf fault⟩
  else
    match (generate r o content).run start with
    | (.ok values, w) =>
      match printLines takes values with
      | (lines, none) => ⟨lines, w.log, .ok (.generated values.length o.document seed)⟩
      | (lines, some fault) => ⟨lines, w.log, .error fault⟩
    | (.error fault, w) => ⟨[], w.log, endOf fault⟩

end Conform.Sampler
