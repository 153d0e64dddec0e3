import Marginalia.Command.Arguments

/-!
# Help

The texts that help and version switches print, and the words for a command line
that is wrong.

* `Topic.help`         : the help for a topic.
* `UsageError.message` : what is wrong with a command line, in words.
-/

namespace Marginalia

def programName : Text := "yaml-comments".toList

def programVersion : Text := "0.1.0".toList

/-- Lines, each with a line ending. -/
def textOfLines (lines : List String) : Text :=
  lines.flatMap fun line => line.toList ++ ['\n']

/-- The help for a topic. An empty line follows it. -/
def Topic.help : Topic → Text
  | .overview => textOfLines
    [ "Preserve YAML comments across a parse/serialize round-trip",
      "",
      "Usage: yaml-comments COMMAND ...",
      "",
      "Available options:",
      "    -h, --help     Prints help information",
      "    -V, --version  Prints version information",
      "",
      "Available commands:",
      "    list           List the comments of a file with what each one is anchored to",
      "    restore        Restore the comments of one file into another version of it",
      "    version        Print version information",
      "" ]
  | .list => textOfLines
    [ "List the comments of a file with what each one is anchored to",
      "",
      "Usage: yaml-comments list [--json] [--indent=WIDTH] FILE",
      "",
      "Available positional items:",
      "    FILE                YAML file to read",
      "",
      "Available options:",
      "        --json          Print the comments as a JSON array",
      "        --indent=WIDTH  Columns per indentation level",
      "                        [default: 4]",
      "    -h, --help          Prints help information",
      "" ]
  | .restore => textOfLines
    [ "Restore the comments of one file into another version of it",
      "",
      "Usage: yaml-comments restore --from=SOURCE [-w] [-v] [--indent=WIDTH] TARGET",
      "",
      "Available positional items:",
      "    TARGET              File to restore the comments into",
      "",
      "Available options:",
      "        --from=SOURCE   File holding the comments to restore",
      "    -w, --write         Rewrite TARGET in place instead of printing to stdout",
      "    -v, --verbose       Report restored and dropped comments on stderr",
      "        --indent=WIDTH  Columns per indentation level",
      "                        [default: 4]",
      "    -h, --help          Prints help information",
      "" ]
  | .version => textOfLines
    [ "Print version information",
      "",
      "Usage: yaml-comments version ",
      "",
      "Available options:",
      "    -h, --help  Prints help information",
      "" ]

def versionBanner : Text :=
  "Version: ".toList ++ programVersion ++ ['\n', '\n']

def versionLine : Text :=
  programName ++ [' '] ++ programVersion ++ ['\n']

/-- A piece of an argument as it was given. -/
def Token.toText : Token → Text
  | word t => t
  | long name none => "--".toList ++ name
  | long name (some value) => "--".toList ++ name ++ ['='] ++ value
  | short letter none => ['-', letter]
  | short letter (some value) => ['-', letter, '='] ++ value
  | operand t => t

/-- What is wrong with a command line, in words. -/
def UsageError.message : UsageError → Text
  | unknownCommand => "expected a command: list, restore or version".toList
  | unknownOption token => token.toText ++ " is not expected here".toList
  | repeated name => "--".toList ++ name ++ " is given more than once".toList
  | missingValue name => "--".toList ++ name ++ " needs a value".toList
  | missingOption name => "--".toList ++ name ++ " is missing".toList
  | needlessValue value => value ++ " is not expected here".toList
  | badNumber value => value ++ " is not a number".toList
  | missingWord => "a file is missing".toList
  | extraWord t => t ++ " is not expected here".toList

end Marginalia
