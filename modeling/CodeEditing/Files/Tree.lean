import CodeEditing.Text.Lines

/-! Folders and text files.

A `Tree` holds files by the names on the way to them from the top. A folder is there when it is the
top, was made, holds something, or lies on the way to the folder where one is (`here`). A path that
begins with a slash is followed from the top, and any other from there, name by name, and every name
but the last must lead to a folder. `text?_put` says what is where after a file was put in its
place. -/
namespace CodeEditing.Files

/-- Why a file cannot be read or written. -/
inductive Fault where
  | notFound
  | isFolder
  | notFolder
  | tooLong
  | zeroInName
  | notText
  deriving Repr, DecidableEq

def Fault.message : Fault → String
  | notFound => "No such file or directory (os error 2)"
  | isFolder => "Is a directory (os error 21)"
  | notFolder => "Not a directory (os error 20)"
  | tooLong => "File name too long (os error 36)"
  | zeroInName => "file name contained an unexpected NUL byte"
  | notText => "stream did not contain valid UTF-8"

/-- The names on the way to a place, from the top. -/
abbrev Place := List String

/-- How many bytes a name may have. -/
def maxNameSize : Nat := 255

/-- How many bytes a path may have. -/
def maxPathSize : Nat := 4095

/-- The names of a path. -/
def names (path : String) : List String := (Text.cutAt '/' path.toList).map String.ofList

/-- What is wrong with a path wherever it leads. -/
def pathFault? (path : String) : Option Fault :=
  if path.toList.contains '\x00' then some .zeroInName
  else if path.isEmpty then some .notFound
  else if maxPathSize < path.utf8ByteSize then some .tooLong
  else none

/-- Where a name leads to from a folder. Above the top is the top. -/
def Place.enter (place : Place) (name : String) : Except Fault Place :=
  if name = "" || name = "." then .ok place
  else if name = ".." then .ok place.dropLast
  else if maxNameSize < name.utf8ByteSize then .error .tooLong
  else .ok (place ++ [name])

/-- Files with their texts, folders that were made, and the folder where one is. -/
structure Tree where
  files : List (Place × String)
  folders : List Place
  here : Place

namespace Tree

def text? (t : Tree) (place : Place) : Option String := t.files.lookup place

/-- Puts a file in a place. -/
def put (t : Tree) (place : Place) (text : String) : Tree :=
  {t with files := (place, text) :: t.files}

theorem text?_put (t : Tree) (place p : Place) (text : String) :
    (t.put place text).text? p = if p = place then some text else t.text? p := by
  simp only [text?, put, List.lookup_cons]
  by_cases h : p = place <;> simp [h, beq_false_of_ne]

/-- Whether a place is a folder. -/
def hasFolder (t : Tree) (place : Place) : Bool :=
  place.isPrefixOf t.here || t.folders.contains place ||
    t.files.any fun (p, _) => place.isPrefixOf p && decide (place.length < p.length)

/-! ### Following paths -/

/-- Where a path is followed from. -/
def origin (t : Tree) (path : String) : Place :=
  if path.toList.head? = some '/' then [] else t.here

/-- Follows names from a place on. -/
def follow (t : Tree) (place : Place) : List String → Except Fault Place
  | [] => .ok place
  | name :: more =>
    if !t.hasFolder place then
      .error (if (t.text? place).isSome then .notFolder else .notFound)
    else
      match place.enter name with
      | .error f => .error f
      | .ok next => follow t next more

/-- The place at a path. Nothing need be there. -/
def find (t : Tree) (path : String) : Except Fault Place :=
  match pathFault? path with
  | some f => .error f
  | none => t.follow (t.origin path) (names path)

/-- Follows names from a place on and makes the folders that are missing. -/
def followMaking (t : Tree) (place : Place) : List String → Except Fault (Tree × Place)
  | [] =>
    if (t.text? place).isSome then .error .notFolder
    else .ok ({t with folders := place :: t.folders}, place)
  | name :: more =>
    if (t.text? place).isSome then .error .notFolder
    else
      match place.enter name with
      | .error f => .error f
      | .ok next => followMaking {t with folders := place :: t.folders} next more

/-- The text of the file at a path. -/
def read (t : Tree) (path : String) : Except Fault String :=
  match t.find path with
  | .error f => .error f
  | .ok place =>
    match t.text? place with
    | some text => .ok text
    | none => .error (if t.hasFolder place then .isFolder else .notFound)

/-- Writes the file at a path, making the folders it lies in. -/
def write (t : Tree) (path text : String) : Except Fault Tree :=
  let way := names path
  match pathFault? path with
  | some f => .error f
  | none =>
    match t.followMaking (t.origin path) way.dropLast with
    | .error f => .error f
    | .ok (t, folder) =>
      match folder.enter (way.getLastD "") with
      | .error f => .error f
      | .ok place => if t.hasFolder place then .error .isFolder else .ok (t.put place text)

/-- The tree in which files have been written one after the other, where one is in the folder `here`.
A file that cannot be written is left out. -/
def ofFiles (here : Place) (files : List (String × String)) : Tree :=
  files.foldl (fun t (path, text) => (t.write path text).toOption.getD t) ⟨[], [], here⟩

end Tree

end CodeEditing.Files
