import Marginalia.Store.Basic
import Marginalia.Document.Basic

/-!
# Documents in files

A document is loaded from a file that holds a text, and saved as the text that
it is.

* `Document.load`, `Store.load`, `Store.save` : loading and saving.
* `FileError.message`, `FileError.code`       : what is told when either fails.
-/

namespace Marginalia

/-- Why a document could not be loaded or saved: the file with this name could
not be read as a text, or could not be written. -/
inductive FileError
  | unreadable (name : Text)
  | unwritable (name : Text)
  deriving DecidableEq, Repr

namespace FileError

def message : FileError → Text
  | unreadable name => "failed to read ".toList ++ name
  | unwritable name => "failed to write ".toList ++ name

def code : FileError → Text
  | unreadable _ => "yaml_comments::read".toList
  | unwritable _ => "yaml_comments::write".toList

end FileError

/-- The document in a file, whose text a reader of files gives. -/
def Document.load (readText? : Text → Option Text) (levelWidth : Nat) (name : Text) :
    Except FileError Document :=
  match readText? name with
  | some text => .ok (.ofText levelWidth text)
  | none => .error (.unreadable name)

namespace Store

def load (store : Store) (levelWidth : Nat) (name : Text) : Except FileError Document :=
  Document.load store.readText? levelWidth name

def save (store : Store) (d : Document) (name : Text) : Except FileError Store :=
  match store.write? name d.toText with
  | some changed => .ok changed
  | none => .error (.unwritable name)

end Store

end Marginalia
