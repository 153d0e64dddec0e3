import Marginalia.Command.Help
import Marginalia.Document.Annotate
import Marginalia.Listing
import Marginalia.Store.Documents
import Marginalia.Store.System

/-!
# Running a command

What a command does follows from what is asked for and from the texts of the files
that it reads: what it prints and, for restoring in place, the text that it
writes into a file. A command that fails prints nothing on standard output; if it
is the writing that fails, nothing is printed either.

Reading a command line, the files, and JSON are left to the platform that the
program runs on.

* `Response.ofInvocation` : the response to what is asked for.
* `Platform.run`          : a command line run on a platform.
* `Store.platform`        : the platform of a store of files.
-/

namespace Marginalia

/-- What a command prints, the code it ends with, and the file that it writes
with its new text. -/
structure Response where
  code : Nat := 0
  stdout : Text := []
  stderr : Text := []
  write? : Option (Text × Text) := none
  deriving DecidableEq, Repr

namespace Response

/-- The response of a command that failed, with the reason in words. -/
def failure (reason : Text) : Response :=
  { code := 1, stderr := reason ++ ['\n'] }

/-- What came of annotating a document, in words: the lines of the comments that
were left out, counted from one, and how many comments were placed and left out. -/
def report (result : Annotated) : Text :=
  (result.orphans.flatMap fun number => "  dropped comment from line ".toList ++ decimal (number + 1) ++ ['\n'])
    ++ "Restored ".toList ++ decimal result.placed ++ " comments, dropped ".toList
    ++ decimal result.orphans.length ++ ['.', '\n']

/-- List the comments of a file, as a table or as `showJson` prints JSON. -/
def ofListRequest (showJson : List ListedComment → Text) (readText? : Text → Option Text)
    (request : ListRequest) : Response :=
  match Document.load readText? request.levelWidth request.file with
  | .error e => failure e.message
  | .ok d =>
    let comments := Listing.ofDocument d
    { stdout := if request.json then showJson comments ++ ['\n'] else Listing.table comments }

/-- Put the comments of one file into another: print the result, or write it. -/
def ofRestoreRequest (readText? : Text → Option Text) (request : RestoreRequest) : Response :=
  match Document.load readText? request.levelWidth request.source with
  | .error e => failure e.message
  | .ok source =>
    match Document.load readText? request.levelWidth request.target with
    | .error e => failure e.message
    | .ok target =>
      let result := target.annotate source.comments
      let text := result.document.toText
      { stdout := if request.write then [] else text
        stderr := if request.verbose then report result else []
        write? := if request.write then some (request.target, text) else none }

/-- The response to what is asked for. -/
def ofInvocation (showJson : List ListedComment → Text) (readText? : Text → Option Text) :
    Invocation → Response
  | .help topic => { stdout := topic.help }
  | .banner => { stdout := versionBanner }
  | .version => { stdout := versionLine }
  | .list request => ofListRequest showJson readText? request
  | .restore request => ofRestoreRequest readText? request

end Response

/-- What the program runs on: how a command line is read, the files of the system,
and how entries are printed as JSON. -/
structure Platform (State : Type) where
  parse : List Text → Except UsageError Invocation
  files : FileSystem State
  showJson : List ListedComment → Text

/-- What the program can rely on: files are read and written as it is said, and
nothing of a listing is lost in its JSON. -/
structure Platform.Lawful {State : Type} (platform : Platform State) (view : FileView State) : Prop where
  files : platform.files.Lawful view
  showJson : ∀ {as bs}, platform.showJson as = platform.showJson bs → as = bs

namespace Platform

variable {State : Type}

/-- Write a text that goes with a response into a file: the response, or a failure
if the text cannot be written, and the system afterwards. -/
def save (platform : Platform State) (state : State) (response : Response) (name text : Text) :
    Response × State :=
  match platform.files.write state name text with
  | .done after => (response, after)
  | .refused => (.failure (FileError.unwritable name).message, state)
  | .brokenOff after => (.failure (FileError.unwritable name).message, after)

/-- Do what is asked for: the response, and the system afterwards. -/
def perform (platform : Platform State) (state : State) (invocation : Invocation) : Response × State :=
  let response := Response.ofInvocation platform.showJson (platform.files.readText? state) invocation
  match response.write? with
  | none => (response, state)
  | some (name, text) => platform.save state response name text

/-- Run a command line. -/
def run (platform : Platform State) (state : State) (arguments : List Text) : Response × State :=
  match platform.parse arguments with
  | .error e => (.failure e.message, state)
  | .ok invocation => platform.perform state invocation

end Platform

namespace Store

/-- The platform of a store of files. -/
def platform : Platform Store where
  parse := Invocation.ofArguments
  files := fileSystem
  showJson := Listing.json

/-- Run a command line over a store: its response, and the store afterwards. -/
def run (store : Store) (arguments : List Text) : Response × Store :=
  platform.run store arguments

end Store

end Marginalia
