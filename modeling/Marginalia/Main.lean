import Marginalia.Command.Run

/-!
# The program

The command line, run over the files of the system: the files that are asked for
are read, the response is computed, and what it says is written and printed.
-/

namespace Marginalia

/-- The text of a file of the system, if it can be read as one. -/
def readSystemFile? (name : Text) : IO (Option Text) := do
  try
    return some (← IO.FS.readFile (String.ofList name)).toList
  catch _ =>
    return none

/-- Print a response and end with its code. -/
def printResponse (response : Response) : IO UInt32 := do
  IO.print (String.ofList response.stdout)
  IO.eprint (String.ofList response.stderr)
  return UInt32.ofNat response.code

/-- Run a command line over the files of the system. -/
def runSystem (arguments : List Text) : IO UInt32 := do
  match Invocation.ofArguments arguments with
  | .error e => printResponse (.failure e.message)
  | .ok invocation =>
    let texts ← invocation.reads.mapM fun name => do return (name, ← readSystemFile? name)
    let response := Response.ofInvocation Listing.json (fun name => (texts.lookup name).join) invocation
    match response.write? with
    | none => printResponse response
    | some (name, text) =>
      try
        IO.FS.writeFile (String.ofList name) (String.ofList text)
        printResponse response
      catch _ =>
        printResponse (.failure (FileError.unwritable name).message)

end Marginalia

def main (arguments : List String) : IO UInt32 :=
  Marginalia.runSystem (arguments.map String.toList)
