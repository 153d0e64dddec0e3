import Marginalia.Store.Basic

/-!
# Systems of files

A program reads texts from files and writes texts into files, by their names.
Everything else is up to the system: where names lead, and who may read and write.
A file here keeps what is written into it; devices, which need not, are left out.

A file is written in two steps. It is opened, which makes it or empties it, and
then the text is written into it. If it cannot be opened, nothing is changed; if
writing breaks off, the file is left with something else than the text.

* `FileSystem`        : what a program can do with the files of a system.
* `FileView`          : what there is to be seen of the files, for telling what is done to them.
* `FileSystem.Lawful` : what a program can rely on.
* `Store.fileSystem`  : a store as a system of files.
-/

namespace Marginalia

/-- What came of writing a text into a file, with what the system is then. -/
inductive Written (State : Type)
  | done (after : State)
  | refused
  | brokenOff (after : State)

/-- The system after a text was written, to the end or not, if its file could be
opened. -/
def Written.after? {State : Type} : Written State → Option State
  | done after => some after
  | refused => none
  | brokenOff after => some after

/-- What a program can do with the files of a system. -/
structure FileSystem (State : Type) where
  /-- The text of the file with a name, if it can be read as one. -/
  readText? : State → Text → Option Text
  /-- Write a text into the file with a name. -/
  write : State → Text → Text → Written State

/-- The files of a system: where names lead, and what the files hold. Several
names may lead to one file. -/
structure FileView (State : Type) where
  File : Type
  file? : State → Text → Option File
  content? : State → File → Option FileContent

namespace FileView

variable {State : Type}

/-- All names lead where they led before, and all files but one hold what they
held before. -/
structure KeepsOthers (view : FileView State) (before after : State) (file : view.File) : Prop where
  names : ∀ name, view.file? after name = view.file? before name
  contents : ∀ other, other ≠ file → view.content? after other = view.content? before other

/-- The file with a name has another text, and nothing else is changed. -/
def Rewritten (view : FileView State) (before after : State) (name t : Text) : Prop :=
  ∃ file, view.file? before name = some file ∧ view.content? after file = some (.text t) ∧
    view.KeepsOthers before after file

/-- Nothing but the content of the file with a name is changed. -/
def Touched (view : FileView State) (before after : State) (name : Text) : Prop :=
  ∃ file, view.file? before name = some file ∧ view.KeepsOthers before after file

end FileView

/-- What a program can rely on. -/
structure FileSystem.Lawful {State : Type} (files : FileSystem State) (view : FileView State) : Prop where
  /-- A text that is read is what the file with that name holds. -/
  read : ∀ {state name t}, files.readText? state name = some t →
    ∃ file, view.file? state name = some file ∧ view.content? state file = some (.text t)
  /-- A text that was written is what the file with that name holds then. -/
  written : ∀ {state name t after}, files.write state name t = .done after →
    ∃ file, view.file? after name = some file ∧ view.content? after file = some (.text t)
  /-- Writing over a file leaves the names and the other files as they are. -/
  others : ∀ {state name t after file}, view.file? state name = some file →
    (files.write state name t).after? = some after → view.KeepsOthers state after file

-- ---------------------------------------------------------------------------
-- Stores
-- ---------------------------------------------------------------------------

namespace Store

/-- A store as a system of files. What is written into it is written to the end. -/
def fileSystem : FileSystem Store where
  readText? := readText?
  write store name t :=
    match store.write? name t with
    | some changed => .done changed
    | none => .refused

/-- What a file holds, if there is one at the place. -/
def content? (store : Store) (place : Location) : Option FileContent :=
  match store.node? place with
  | some (.file content) => some content
  | _ => none

/-- The files of a store: a name leads to the place of a file. -/
def view : FileView Store where
  File := Location
  file? store name := (store.locate? name).filter fun place => (store.content? place).isSome
  content? := content?

end Store

end Marginalia
