import Marginalia.Text.Basic

/-!
# Stores of files

A store is a tree of directories with files in it. A file is named by the names
of the directories on the way to it, with slashes between them, from the top of
the store if a slash comes first, and from the home of the store otherwise; empty
names and dots on the way stay where they are, two dots go one directory up. A
file holds a text if its bytes are one in UTF-8.

A file can be read if its name leads to it, and written if its name leads to a
file or to a free place in a directory, unless the place is locked.

* `Store.locate?`    : where a name leads to.
* `Store.readText?`  : the text of a file.
* `Store.write?`     : the store with a text in a file.
* `Store.node?_put`  : what is at a place after something was put at a place.
-/

namespace Marginalia

/-- What a file holds: a text in UTF-8, or bytes that are none. -/
inductive FileContent
  | text (t : Text)
  | binary (bytes : ByteArray)

def FileContent.ofBytes (bytes : ByteArray) : FileContent :=
  match String.fromUTF8? bytes with
  | some s => .text s.toList
  | none => .binary bytes

def FileContent.text? : FileContent → Option Text
  | text t => some t
  | binary _ => none

/-- What is at a place of a store. -/
inductive StoreNode
  | file (content : FileContent)
  | directory

def StoreNode.isDirectory : StoreNode → Bool
  | file _ => false
  | directory => true

/-- A place in a store: the names on the way from its top. -/
abbrev Location := List Text

/-- The places of a store that something is at, other than its top; its home; and
its locked places, whose files can be read but not written. -/
structure Store where
  nodes : List (Location × StoreNode)
  home : Location
  locked : List Location

/-- The greatest number of bytes in one name on the way. -/
def nameLimit : Nat := 255

/-- The greatest number of bytes in a whole name. -/
def pathLimit : Nat := 4095

/-- The number of bytes of a text in UTF-8. -/
def Text.utf8Length (t : Text) : Nat :=
  t.foldl (fun length c => length + c.utf8Size) 0

namespace Store

/-- The home of a new store. -/
def workplace : Location := ["work".toList]

def empty : Store where
  nodes := [(workplace, .directory)]
  home := workplace
  locked := []

-- ---------------------------------------------------------------------------
-- Places
-- ---------------------------------------------------------------------------

def node? (store : Store) (place : Location) : Option StoreNode :=
  if place = [] then some .directory else (store.nodes.find? (·.1 == place)).map (·.2)

def isDirectory (store : Store) (place : Location) : Bool :=
  (store.node? place).any StoreNode.isDirectory

/-- The place that the rest of a name leads to from `here`; each name on the way
needs a directory to start from. Nothing is above the top. -/
def follow? (store : Store) (here : Location) : List Text → Option Location
  | [] => some here
  | part :: rest =>
    if !store.isDirectory here then none
    else if part = [] ∨ part = ['.'] then follow? store here rest
    else if part = ['.', '.'] then follow? store here.dropLast rest
    else if nameLimit < Text.utf8Length part then none
    else follow? store (here ++ [part]) rest

/-- The place that a name leads to. Names that are empty or too long lead nowhere. -/
def locate? (store : Store) (name : Text) : Option Location :=
  if name.isEmpty || name.contains '\x00' || pathLimit < name.utf8Length then none
  else store.follow? (if name.head? = some '/' then [] else store.home) (name.splitOn '/')

-- ---------------------------------------------------------------------------
-- Reading and writing
-- ---------------------------------------------------------------------------

def put (store : Store) (place : Location) (node : StoreNode) : Store :=
  { store with nodes := (place, node) :: store.nodes.filter (·.1 != place) }

def readText? (store : Store) (name : Text) : Option Text :=
  match (store.locate? name).bind store.node? with
  | some (.file content) => content.text?
  | _ => none

/-- The store with a text in the file with this name. -/
def write? (store : Store) (name : Text) (t : Text) : Option Store :=
  match store.locate? name with
  | none => none
  | some place =>
    if store.isDirectory place || store.locked.contains place then none
    else some (store.put place (.file (.text t)))

/-- The files below the home of a store, with their names from there. -/
def files (store : Store) : List (Text × FileContent) :=
  store.nodes.filterMap fun entry =>
    match entry.2 with
    | .file content =>
      if store.home.isPrefixOf entry.1 then
        some (['/'].intercalate (entry.1.drop store.home.length), content)
      else none
    | .directory => none

-- ---------------------------------------------------------------------------
-- Filling
-- ---------------------------------------------------------------------------

/-- The store with the directories on the way to a place. -/
def putDirectories (store : Store) (here : Location) : List Text → Store
  | [] => store
  | part :: rest => (store.put (here ++ [part]) .directory).putDirectories (here ++ [part]) rest

/-- The store with one more file below its home, or with an empty directory, and
the directories on the way to it. -/
def fill (store : Store) (name : Text) (content? : Option FileContent) : Store :=
  let parts := (name.splitOn '/').filter fun part => !part.isEmpty && part != ['.']
  match content? with
  | some content =>
    (store.putDirectories store.home parts.dropLast).put (store.home ++ parts) (.file content)
  | none => store.putDirectories store.home parts

/-- The store with these files and empty directories below its home. -/
def ofFiles (files : List (Text × Option FileContent)) : Store :=
  files.foldl (fun store file => store.fill file.1 file.2) empty

/-- The store with the place that a name leads to locked. -/
def lock (store : Store) (name : Text) : Store :=
  { store with locked := (store.locate? name).toList ++ store.locked }

-- ---------------------------------------------------------------------------
-- What is found
-- ---------------------------------------------------------------------------

theorem node?_put (store : Store) {place : Location} (h : place ≠ []) (node : StoreNode) (other : Location) :
    (store.put place node).node? other = if other = place then some node else store.node? other := by
  by_cases hother : other = place
  · simp [node?, put, hother, h]
  · have hplace : ¬ place = other := fun he => hother he.symm
    simp only [node?, put, hother, if_false]
    by_cases hnil : other = []
    · simp [hnil]
    · have hfind : (store.nodes.filter (·.1 != place)).find? (·.1 == other)
          = store.nodes.find? (·.1 == other) := by
        induction store.nodes with
        | nil => rfl
        | cons entry rest ih =>
          by_cases he : entry.1 = place
          · simpa [he, hplace] using ih
          · by_cases ho : entry.1 = other
            · simp [ho, hother]
            · simpa [he, ho] using ih
      simp [hnil, hplace, hfind]

end Store

end Marginalia
