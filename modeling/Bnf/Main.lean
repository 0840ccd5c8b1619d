import Bnf.CommandLine

/-!
# The program

Reads what the command line asks for, runs the command, and writes what it gives. Files are read
only if the arguments name them, and the standard input only if no file holds the grammar.

## Main definitions

- `main` — the program
-/

namespace Bnf.Program

def decode (bytes : ByteArray) : Except ReadFault String :=
  match String.fromUTF8? bytes with
  | some text => .ok text
  | none => .error .notText

/-- The number of a system error, which may come with its sign changed. -/
def errorNumber (code : UInt32) : UInt32 :=
  min code (-code)

def readFault (e : IO.Error) : ReadFault :=
  match e with
  | .noFileOrDirectory .. => .notFound
  | .permissionDenied .. => .notPermitted
  | .inappropriateType _ code _ => if errorNumber code = 20 then .notDirectory else .isDirectory
  | .invalidArgument _ code _ =>
    if errorNumber code = 36 then .nameTooLong else .other (toString e)
  | _ => .other (toString e)

def readFile (path : String) : IO (Except ReadFault String) := do
  try
    return decode (← IO.FS.readBinFile path)
  catch e =>
    return .error (readFault e)

partial def readStream (stream : IO.FS.Stream) (bytes : ByteArray) : IO ByteArray := do
  let more ← stream.read 65536
  if more.isEmpty then return bytes else readStream stream (bytes ++ more)

def readInput : IO (Except ReadFault String) := do
  try
    return decode (← readStream (← IO.getStdin) .empty)
  catch e =>
    return .error (readFault e)

/-- The files that the arguments name, with their texts. -/
def readFiles (arguments : Arguments) : IO (List (String × Except ReadFault String)) :=
  (arguments.config.toList ++ arguments.path.toList).mapM fun path =>
    return (path, ← readFile path)

/-- What the program says about a text that holds no options. -/
def refusal (_text : String) : String :=
  "the text does not hold options"

/-- The environment of a command. The standard input is read only where it is needed. -/
def environment (level : Option Level) (args : List String) : IO Environment := do
  match Arguments.read {} args with
  | .help | .refuse _ => return ⟨fun _ => .error .notFound, .ok "", refusal, level⟩
  | .write arguments =>
    let files ← readFiles arguments
    let env : Environment :=
      ⟨fun path => (files.lookup path).getD (.error .notFound), .ok "", refusal, level⟩
    match CommandLine.options env arguments, arguments.path with
    | .ok _, none => return { env with input := ← readInput }
    | _, _ => return env

end Bnf.Program

open Bnf Bnf.Program in
/-- Runs the command with the arguments of the program. The level of the reports is set by an
    environment variable. -/
def main (args : List String) : IO UInt32 := do
  let level := CommandLine.levelNamed ((← IO.getEnv "RUST_LOG").getD "WARN")
  let outcome := CommandLine.run (← environment level args) args
  (← IO.getStderr).putStr outcome.errors
  (← IO.getStdout).putStr outcome.output
  return outcome.code
