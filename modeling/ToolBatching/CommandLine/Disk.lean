import ToolBatching.Ascending

namespace ToolBatching

/-- Access to files in a monad. -/
structure Disk (m : Type → Type) where
  /-- The text of a file, or `none` if it cannot be read. -/
  read : String → m (Option String)
  /-- Replace or make a file with a text; whether that worked. A failure leaves the
  files as they were. -/
  write : String → String → m Bool

/-- The names on the way from the working folder to a file or folder. A place outside
starts with `".."`, once for each level. -/
abbrev Place := List String

namespace Place

/-- Whether a place is the working folder or one of those around it. -/
def isAround (place : Place) : Bool :=
  place.all (· == "..")

def parent (place : Place) : Place :=
  if place.isAround then ".." :: place else place.dropLast

/-- Whether a place lies inside a folder, at any depth. -/
def isInside (place folder : Place) : Bool :=
  folder.isPrefixOf place && folder.length < place.length

end Place

/-- Texts of files by their places. Folders are there for the files in them, and those
around the working folder are always there. -/
structure FileTable where
  files : List (Place × String) := []

namespace FileTable

/-- Components of a path that stay in the folder where they are met. -/
def staying : List String := ["", "."]

/-- Files of the working folder and of the folders in it, by their paths. -/
def ofFiles (files : List (String × String)) : FileTable :=
  ⟨files.map fun (path, text) => ((path.splitOn "/").filter (· ∉ staying), text)⟩

/-- Names in the working folder, ascending. -/
def names (t : FileTable) : List String :=
  ascending (t.files.filterMap fun (place, _) => place.head?.filter (· != ".."))

def isFolder (t : FileTable) (place : Place) : Bool :=
  place.isAround || t.files.any fun (file, _) => file.isInside place

/-- The folder that one component of a path leads to. -/
def enter? (t : FileTable) (folder : Place) (component : String) : Option Place :=
  if component ∈ staying then some folder
  else if component = ".." then some folder.parent
  else
    let inner := folder ++ [component]
    if t.isFolder inner then some inner else none

def maxPathBytes : Nat := 4095

def maxNameBytes : Nat := 255

/-- Whether a component can name a file in its folder. -/
def isName (component : String) : Bool :=
  component ∉ staying && component != ".." && component.utf8ByteSize ≤ maxNameBytes

/-- The place of a file, there already or to be made. A path from the root leads out of
the table. -/
def locate? (t : FileTable) (path : String) : Option Place :=
  if maxPathBytes < path.utf8ByteSize then none
  else
    match path.splitOn "/" with
    | "" :: _ => none
    | components =>
        match components.getLast? with
        | none => none
        | some name =>
            if isName name then
              (components.dropLast.foldlM t.enter? []).map (· ++ [name])
            else none

/-- The device that reads as an empty text. -/
def emptyDevice : String := "/dev/null"

def read? (t : FileTable) (path : String) : Option String :=
  if path = emptyDevice then some ""
  else (t.locate? path).bind fun place => t.files.lookup place

def set (place : Place) (text : String) : List (Place × String) → List (Place × String)
  | [] => [(place, text)]
  | (p, old) :: rest =>
      if p = place then (p, text) :: rest else (p, old) :: set place text rest

/-- The files after a text has been written to a path, or `none` if no file can be there. -/
def write? (t : FileTable) (path text : String) : Option FileTable :=
  (t.locate? path).bind fun place =>
    if t.isFolder place then none else some ⟨set place text t.files⟩

def disk : Disk (StateM FileTable) where
  read path := fun t => (t.read? path, t)
  write path text := fun t =>
    match t.write? path text with
    | some written => (true, written)
    | none => (false, t)

end FileTable

end ToolBatching
