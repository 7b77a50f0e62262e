import Conform.Sampler.Run

/-!
# The sampler as a command

Reads the environment, the document and the input, makes a run and prints what it says: the lines to
the standard output, log entries from `info` on and the last word to the standard error.
-/

namespace Conform.Sampler

/-- The words that say how to use the command. -/
def usageText : String :=
  "usage: sampler [-h] [--count N] [--seed S] [--attempts K] [--check] DOCUMENT"

/-- The name of a level in the log. -/
def levelName : Level → String
  | .debug => "DEBUG"
  | .info => "INFO"
  | .warning => "WARNING"
  | .error => "ERROR"

/-- The content of a file, if it exists. -/
def contentOf? (path : String) : IO (Option String) := do
  try
    return some (← IO.FS.readFile path)
  catch
    | .noFileOrDirectory _ _ _ => return none
    | e => throw e

/-- All that a stream has left. -/
def readAll (stream : IO.FS.Stream) : IO String := do
  let mut text := ""
  let mut line ← stream.getLine
  while !line.isEmpty do
    text := text ++ line
    line ← stream.getLine
  return text

/-- A seed of 32 bits. -/
def chosenSeed : IO Int := do
  let bytes ← IO.getRandomBytes 4
  return bytes.toList.foldl (fun n b => 256 * n + b.toNat) 0

/-- The texts of the environment. -/
def environment : IO Environment := do
  return ⟨← IO.getEnv "FACTUAL_COUNT", ← IO.getEnv "FACTUAL_SEED",
    ← IO.getEnv "FACTUAL_SATISFY_ATTEMPTS"⟩

/-- Makes a run with the given options and reports it. -/
def perform (o : Options) : IO UInt32 := do
  let content ← contentOf? (normalPath o.document)
  let input ← if o.check then readAll (← IO.getStdin) else pure ""
  let outcome := run .standard isEncodable o (← chosenSeed) content input
  for line in outcome.lines do
    IO.println line
  for entry in outcome.log do
    if entry.level != .debug then
      IO.eprintln (levelName entry.level ++ " " ++ entry.logger ++ " " ++ entry.message)
  match outcome.ending with
  | .ok notice =>
    IO.eprintln (levelName notice.level ++ " sampler " ++ notice.message)
    return notice.status.toUInt32
  | .error fault =>
    IO.eprintln ("ERROR sampler stopped by a fault: " ++ reprStr fault)
    return 1

end Conform.Sampler

/-- Runs the command. -/
def main (args : List String) : IO UInt32 := do
  match Conform.Sampler.Options.ofArguments (← Conform.Sampler.environment) args with
  | .ok o => Conform.Sampler.perform o
  | .error e =>
    let usage := Conform.Sampler.usageText
    if e = .help then IO.println usage else IO.eprintln usage
    return e.status.toUInt32
