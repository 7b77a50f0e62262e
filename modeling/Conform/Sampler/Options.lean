import Conform.Decimal.Reading
import Conform.Fact.Make

/-!
# Options of the sampler

A command line names a document and may hold flags: `--count`, `--seed` and `--attempts` take a number,
`--check` and `--help` take none.

* A flag may be cut short as long as one flag alone begins so; its number follows as the next argument
  or after an equals sign. Of a repeated flag the last one counts.
* `--` ends the flags. Negative numbers and arguments with a blank are not flags, nor is `-`.
* A number that is not given comes from the environment, and else has a default.
* Help is given where it is asked for, unless something before it was wrong.
-/

namespace Conform.Sampler

/-- The numbers that an option sets. -/
inductive Setting
  | count
  | seed
  | attempts
deriving DecidableEq, Repr

/-- The flags. -/
inductive Flag
  | help
  | check
  | set (s : Setting)
deriving DecidableEq, Repr

/-- The long spellings of the flags. -/
def flags : List (String × Flag) :=
  [("--help", .help), ("--count", .set .count), ("--seed", .set .seed),
   ("--attempts", .set .attempts), ("--check", .check)]

/-- What an argument is by its form. -/
inductive Word
  /-- The end of the flags. -/
  | separator
  /-- Anything that is not a flag. -/
  | plain (text : String)
  /-- A flag, and what is attached to it. -/
  | flag (f : Flag) (attached : Option String)
  /-- The form of a flag without such a flag. -/
  | unknown
deriving DecidableEq, Repr

/-- Why a command line leads to no run. -/
inductive Exit
  /-- Help was asked for. -/
  | help
  /-- The command line, or a number from the environment, is wrong. -/
  | usage
deriving DecidableEq, Repr

/-- The status that tells the caller why there was no run. -/
def Exit.status : Exit → Nat
  | .help => 0
  | .usage => 2

/-! ## Arguments by form -/

/-- Whether an argument is a negative number: a minus, digits of any script, and a point before the
last of them at most. A line feed may follow. -/
def isNegativeNumber (cs : List Char) : Bool :=
  match cs with
  | '-' :: rest =>
    let number := if rest.getLast? = some '\n' then rest.dropLast else rest
    match Decimal.splitFirst (· = '.') number with
    | (whole, none) => !whole.isEmpty && whole.all Text.isDigit
    | (whole, some fraction) =>
      whole.all Text.isDigit && !fraction.isEmpty && fraction.all Text.isDigit
  | _ => false

/-- An argument in the form of a flag that no flag has. -/
def Word.ofUnmatched (cs : List Char) : Word :=
  if isNegativeNumber cs || cs.contains ' ' then .plain (String.ofList cs) else .unknown

/-- An argument that begins with two dashes; more than one flag may begin so, and then it is nothing. -/
def Word.ofLong? (cs : List Char) : Option Word :=
  let (name, attached) := Decimal.splitFirst (· = '=') cs
  match flags.filter fun f => name.isPrefixOf f.1.toList with
  | [] => some (.ofUnmatched cs)
  | [f] => some (.flag f.2 (attached.map String.ofList))
  | _ => none

/-- The short form of the flag for help with what follows its letter. The letter may be repeated, also
after an equals sign. Anything else is attached to the flag. -/
def Word.ofShort (tail : List Char) : Word :=
  let repeated :=
    match tail with
    | '=' :: rest => !rest.isEmpty && rest.all (· = 'h')
    | _ => tail.all (· = 'h')
  .flag .help (if repeated then none else some (String.ofList tail))

/-- An argument before the end of the flags. -/
def Word.ofArgument? (s : String) : Option Word :=
  match s.toList with
  | '-' :: '-' :: rest => Word.ofLong? ('-' :: '-' :: rest)
  | '-' :: 'h' :: tail => some (.ofShort tail)
  | '-' :: c :: rest => some (.ofUnmatched ('-' :: c :: rest))
  | _ => some (.plain s)

/-- The arguments by form, if no flag among them is ambiguous. -/
def words? : List String → Option (List Word)
  | [] => some []
  | a :: rest =>
    if a = "--" then some (.separator :: rest.map .plain)
    else do
      let w ← Word.ofArgument? a
      let ws ← words? rest
      return w :: ws

/-! ## Reading the words -/

/-- What a command line has given so far. -/
structure Draft where
  document : Option String
  count : Option Int
  seed : Option Int
  attempts : Option Int
  check : Bool
  /-- Whether there was an argument for which there is no use. -/
  stray : Bool
deriving DecidableEq, Repr

namespace Draft

/-- The draft of an empty command line. -/
def empty : Draft := ⟨none, none, none, none, false, false⟩

/-- The draft with a number set. -/
def set (d : Draft) (s : Setting) (n : Int) : Draft :=
  match s with
  | .count => { d with count := some n }
  | .seed => { d with seed := some n }
  | .attempts => { d with attempts := some n }

/-- The draft with a number set that is given as a text. -/
def setText (d : Draft) (s : Setting) (text : String) : Except Exit Draft :=
  match Decimal.readInt? text with
  | some n => .ok (d.set s n)
  | none => .error .usage

/-- Reads words in order. The first word that is not a flag names the document, with the separator
before or after it; further ones are stray. -/
def read (d : Draft) : List Word → Except Exit Draft
  | [] => .ok d
  | .flag .help none :: _ => .error .help
  | .flag .check none :: ws => read { d with check := true } ws
  | .flag (.set s) (some t) :: ws => do read (← d.setText s t) ws
  | .flag (.set s) none :: .plain t :: ws => do read (← d.setText s t) ws
  | .flag _ _ :: _ => .error .usage
  | .unknown :: ws => read { d with stray := true } ws
  | .plain t :: .separator :: ws =>
    if d.document.isNone then read { d with document := some t } ws
    else read { d with stray := true } ws
  | .separator :: .plain t :: ws =>
    if d.document.isNone then read { d with document := some t } ws
    else read { d with stray := true } ws
  | .plain t :: ws =>
    if d.document.isNone then read { d with document := some t } ws
    else read { d with stray := true } ws
  | .separator :: ws => read { d with stray := true } ws

end Draft

/-! ## Options -/

/-- The texts that the environment gives for the numbers. -/
structure Environment where
  count : Option String
  seed : Option String
  attempts : Option String
deriving DecidableEq, Repr

/-- What a run is asked for. -/
structure Options where
  document : String
  count : Int
  /-- The seed; without one the run chooses it. -/
  seed : Option Int
  attempts : Int
  check : Bool
deriving DecidableEq, Repr

namespace Options

/-- The number of values to generate where none is given. -/
def defaultCount : Int := 1

/-- A number that was given, or the one that the environment gives as a text, if it does. -/
def numberOr? (given : Option Int) (text : Option String) : Except Exit (Option Int) :=
  match given, text with
  | some n, _ => .ok (some n)
  | none, none => .ok none
  | none, some t =>
    match Decimal.readInt? t with
    | some n => .ok (some n)
    | none => .error .usage

/-- The options of a draft that names a document and has no stray arguments. -/
def ofDraft (env : Environment) (d : Draft) : Except Exit Options := do
  let count ← numberOr? d.count env.count
  let seed ← numberOr? d.seed env.seed
  let attempts ← numberOr? d.attempts env.attempts
  match d.document, d.stray with
  | some document, false =>
    return ⟨document, count.getD defaultCount, seed, attempts.getD Limit.default.attempts, d.check⟩
  | _, _ => throw .usage

/-- The options of a command line. -/
def ofArguments (env : Environment) (args : List String) : Except Exit Options :=
  match words? args with
  | none => .error .usage
  | some ws => do ofDraft env (← Draft.empty.read ws)

end Options

end Conform.Sampler
