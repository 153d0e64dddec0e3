import Marginalia.Text.Indent
import Marginalia.Text.Decimal

/-!
# Command lines

The first argument is the command, the others are its words, switches and
settings, in any order. A switch has a long name, and some have a letter;
letters may be joined behind one dash. A setting has a value, behind an equals
sign or as the next argument. Behind a bare double dash all arguments are words.

One dash does not always make switches of an argument. Joined letters are
switches only if all of them are letters of switches; with any other letter
among them the argument is a word. An equals sign gives all that stands behind
the first letter to that letter as its value, and an argument that has one is a
word if its first letter is not ASCII.

A command line asks for a command, or for help; help for a command is asked for
by a switch anywhere among its arguments, whatever else is wrong with them.
Without a command, help is asked for rather than the version.

* `Token.ofArguments` : the arguments, taken apart.
* `Given.read`        : the switches, settings and words of a command.
* `Invocation.ofArguments` : what a command line asks for, or what is wrong with it.
-/

namespace Marginalia

-- ---------------------------------------------------------------------------
-- Names
-- ---------------------------------------------------------------------------

/-- What can be switched on. -/
inductive Switch
  | json
  | write
  | verbose
  | help
  | version
  deriving DecidableEq, Repr

/-- What can be set to a value. -/
inductive Setting
  | indent
  | source
  deriving DecidableEq, Repr

def Switch.name : Switch → Text
  | json => "json".toList
  | write => "write".toList
  | verbose => "verbose".toList
  | help => "help".toList
  | version => "version".toList

def Switch.letter? : Switch → Option Char
  | json => none
  | write => some 'w'
  | verbose => some 'v'
  | help => some 'h'
  | version => some 'V'

def Setting.name : Setting → Text
  | indent => "indent".toList
  | source => "from".toList

def Switch.all : List Switch :=
  [.json, .write, .verbose, .help, .version]

/-- The letters that some switch has. -/
def Switch.letters : List Char :=
  Switch.all.filterMap Switch.letter?

-- ---------------------------------------------------------------------------
-- Taking arguments apart
-- ---------------------------------------------------------------------------

inductive Token
  | word (t : Text)
  /-- A long name with the value behind its equals sign. -/
  | long (name : Text) (value? : Option Text)
  /-- A letter with the value behind it. -/
  | short (letter : Char) (value? : Option Text)
  /-- An argument behind the double dash. -/
  | operand (t : Text)
  deriving DecidableEq, Repr

namespace Token

/-- The text before the first equals sign, and the text after it. -/
def splitAtEquals (t : Text) : Text × Option Text :=
  match t.dropWhile (· != '=') with
  | [] => (t, none)
  | _ :: value => (t.takeWhile (· != '='), some value)

/-- The pieces of an argument of letters behind one dash. A single letter stands
for a switch, whether there is one with that letter or not. -/
def ofLetters (letters : Text) : List Token :=
  if letters.length = 1 ∨ letters.all Switch.letters.contains then letters.map (short · none)
  else [word ('-' :: letters)]

/-- The piece of an argument with an equals sign somewhere behind its first
letter, where `before` and `after` are the texts on the two sides of the sign. -/
def ofValued (letter : Char) (before after : Text) : Token :=
  if 128 ≤ letter.toNat then word ('-' :: letter :: before ++ '=' :: after)
  else if before.isEmpty then short letter (some after)
  else short letter (some (before ++ '=' :: after))

/-- The pieces of an argument. A lone dash is a word. -/
def ofArgument : Text → List Token
  | '-' :: '-' :: rest =>
    let parts := splitAtEquals rest
    [long parts.1 parts.2]
  | '-' :: letter :: rest =>
    match splitAtEquals rest with
    | (_, none) => ofLetters (letter :: rest)
    | (before, some after) => [ofValued letter before after]
  | t => [word t]

def ofArguments : List Text → List Token
  | [] => []
  | argument :: rest =>
    if argument = ['-', '-'] then rest.map operand else ofArgument argument ++ ofArguments rest

end Token

-- ---------------------------------------------------------------------------
-- Grammars
-- ---------------------------------------------------------------------------

/-- The switches and settings of a command. -/
structure Grammar where
  switches : List Switch
  settings : List Setting

def Grammar.switch? (grammar : Grammar) : Token → Option Switch
  | .long name _ => grammar.switches.find? (·.name == name)
  | .short letter _ => grammar.switches.find? (·.letter? == some letter)
  | .word _ => none
  | .operand _ => none

def Grammar.setting? (grammar : Grammar) (name : Text) : Option Setting :=
  grammar.settings.find? (·.name == name)

-- ---------------------------------------------------------------------------
-- What was given
-- ---------------------------------------------------------------------------

inductive UsageError
  | unknownCommand
  | unknownOption (token : Token)
  | repeated (name : Text)
  | missingValue (name : Text)
  | missingOption (name : Text)
  | needlessValue (value : Text)
  | badNumber (value : Text)
  | missingWord
  | extraWord (t : Text)
  deriving DecidableEq, Repr

/-- The switches, settings and words that a command was given. -/
structure Given where
  switches : List Switch := []
  settings : List (Setting × Text) := []
  words : List Text := []
  deriving DecidableEq, Repr

namespace Given

/-- One more switch, which must not have been given before. -/
def addSwitch (given : Given) (s : Switch) : Except UsageError Given :=
  if s ∈ given.switches then .error (.repeated s.name)
  else .ok { given with switches := given.switches ++ [s] }

/-- One more setting, which must not have been given before. -/
def addSetting (given : Given) (s : Setting) (value : Text) : Except UsageError Given :=
  if s ∈ given.settings.map (·.1) then .error (.repeated s.name)
  else .ok { given with settings := given.settings ++ [(s, value)] }

def addWord (given : Given) (t : Text) : Given :=
  { given with words := given.words ++ [t] }

/-- One more piece that has to be a switch without a value. -/
def addOption (grammar : Grammar) (given : Given) (token : Token) : Except UsageError Given :=
  match grammar.switch? token, token with
  | none, _ => .error (.unknownOption token)
  | some _, .long _ (some value) => .error (.needlessValue value)
  | some _, .short _ (some value) => .error (.needlessValue value)
  | some s, _ => given.addSwitch s

/-- Read the pieces of the arguments of a command. A setting without an equals
sign takes the word right after it. -/
def read (grammar : Grammar) (given : Given) : List Token → Except UsageError Given
  | [] => .ok given
  | .word t :: rest => read grammar (given.addWord t) rest
  | .operand t :: rest => read grammar (given.addWord t) rest
  | .long name none :: .word value :: rest =>
    match grammar.setting? name with
    | some s =>
      match given.addSetting s value with
      | .ok more => read grammar more rest
      | .error e => .error e
    | none =>
      match given.addOption grammar (.long name none) with
      | .ok more => read grammar more (.word value :: rest)
      | .error e => .error e
  | .long name value? :: rest =>
    match grammar.setting? name, value? with
    | some s, some value =>
      match given.addSetting s value with
      | .ok more => read grammar more rest
      | .error e => .error e
    | some s, none => .error (.missingValue s.name)
    | none, _ =>
      match given.addOption grammar (.long name value?) with
      | .ok more => read grammar more rest
      | .error e => .error e
  | .short letter value? :: rest =>
    match given.addOption grammar (.short letter value?) with
    | .ok more => read grammar more rest
    | .error e => .error e

def setting? (given : Given) (s : Setting) : Option Text :=
  (given.settings.find? (·.1 == s)).map (·.2)

def onlyWord (given : Given) : Except UsageError Text :=
  match given.words with
  | [] => .error .missingWord
  | [t] => .ok t
  | _ :: t :: _ => .error (.extraWord t)

/-- The width of a level of indentation: a number, perhaps behind a plus sign. -/
def levelWidth (given : Given) : Except UsageError Nat :=
  match given.setting? .indent with
  | none => .ok defaultLevelWidth
  | some value =>
    let digits := if value.head? = some '+' then value.drop 1 else value
    match readDecimal? digits with
    | some width => .ok width
    | none => .error (.badNumber value)

end Given

-- ---------------------------------------------------------------------------
-- What is asked for
-- ---------------------------------------------------------------------------

/-- What there is help for. -/
inductive Topic
  | overview
  | list
  | restore
  | version
  deriving DecidableEq, Repr

structure ListRequest where
  json : Bool
  levelWidth : Nat
  file : Text
  deriving DecidableEq, Repr

/-- Put the comments of the file `source` into the file `target`. -/
structure RestoreRequest where
  source : Text
  target : Text
  write : Bool
  verbose : Bool
  levelWidth : Nat
  deriving DecidableEq, Repr

/-- What a command line asks for. -/
inductive Invocation
  | help (topic : Topic)
  | banner
  | version
  | list (request : ListRequest)
  | restore (request : RestoreRequest)
  deriving DecidableEq, Repr

namespace Invocation

/-- What can be said beside a command or instead of one. -/
def commonGrammar : Grammar := ⟨[.help, .version], []⟩

def listGrammar : Grammar := ⟨[.json], [.indent]⟩

def restoreGrammar : Grammar := ⟨[.write, .verbose], [.source, .indent]⟩

def versionGrammar : Grammar := ⟨[], []⟩

def asksForHelp (tokens : List Token) : Bool :=
  tokens.any fun token => commonGrammar.switch? token == some .help

/-- What a command line without a command asks for: help, or else the version. -/
def ofBareTokens (tokens : List Token) : Except UsageError Invocation :=
  if asksForHelp tokens then .ok (.help .overview)
  else if tokens.any fun token => commonGrammar.switch? token == some .version then .ok .banner
  else .error .unknownCommand

def ofListTokens (tokens : List Token) : Except UsageError Invocation := do
  let given ← Given.read listGrammar {} tokens
  let levelWidth ← given.levelWidth
  let file ← given.onlyWord
  return .list { json := decide (Switch.json ∈ given.switches), levelWidth, file }

def ofRestoreTokens (tokens : List Token) : Except UsageError Invocation := do
  let given ← Given.read restoreGrammar {} tokens
  let levelWidth ← given.levelWidth
  let target ← given.onlyWord
  match given.setting? .source with
  | none => throw (.missingOption Setting.source.name)
  | some source =>
    return .restore
      { source, target, levelWidth
        write := decide (Switch.write ∈ given.switches)
        verbose := decide (Switch.verbose ∈ given.switches) }

def ofVersionTokens (tokens : List Token) : Except UsageError Invocation := do
  let given ← Given.read versionGrammar {} tokens
  match given.words with
  | [] => return .version
  | t :: _ => throw (.extraWord t)

/-- The command with this name: what there is help for, and what its arguments
ask for. -/
def command? (name : Text) : Option (Topic × (List Token → Except UsageError Invocation)) :=
  if name = "list".toList then some (.list, ofListTokens)
  else if name = "restore".toList then some (.restore, ofRestoreTokens)
  else if name = "version".toList then some (.version, ofVersionTokens)
  else none

/-- What the pieces of a command line ask for. -/
def ofTokens (tokens : List Token) : Except UsageError Invocation :=
  match tokens with
  | [] => .ok (.help .overview)
  | .word name :: rest =>
    match command? name with
    | some (topic, ofRest) => if asksForHelp rest then .ok (.help topic) else ofRest rest
    | none => ofBareTokens tokens
  | _ => ofBareTokens tokens

/-- What a command line asks for. Without arguments that is help. -/
def ofArguments (arguments : List Text) : Except UsageError Invocation :=
  ofTokens (Token.ofArguments arguments)

/-- The names of the files that have to be read, in order. -/
def reads : Invocation → List Text
  | list request => [request.file]
  | restore request => [request.source, request.target]
  | help _ => []
  | banner => []
  | version => []

end Invocation

end Marginalia
