import TwigTemplate.Failure
import TwigTemplate.Options
import TwigTemplate.Splitting

/-!
# Files

Trees of files, the paths that lead through them, and the files among them that are templates.
-/

namespace TwigTemplate

/-- The names on a path; there is an empty one before a slash that begins it, between two slashes,
and after a slash that ends it. -/
def namesOn (path : String) : List String :=
  (groupsBetween (· == '/') path.toList).map String.ofList

namespace Options

/-- The last name on a path, unless it means a directory relative to others. -/
def fileName? (path : String) : Option String :=
  let names := (namesOn path).filter fun name => name != "" && name != "."
  names.getLast?.filter (· != "..")

/-- The file's name has one of the extensions, after something else and a point. -/
def covers (options : Options) (path : String) : Bool :=
  (fileName? path).any fun name =>
    options.extensions.any fun extension =>
      let ending := '.' :: extension.toList
      ending.length < name.length && ending.isSuffixOf name.toList

end Options

/-- A file, or a directory and what its names stand for. -/
inductive Entry
  | file (content : ByteArray)
  | directory (entries : List (String × Entry))

namespace Entry

/-- Follow names from an entry, where the directories `above` it come innermost first. -/
def follow? (above : List Entry) (entry : Entry) : (names : List String) → Option Entry
  | [] => some entry
  | name :: names =>
    match entry with
    | file _ => none
    | directory entries =>
      if name == "" || name == "." then follow? above entry names
      else if name == ".." then
        match above with
        | [] => none
        | parent :: above => follow? above parent names
      else
        match entries.lookup name with
        | none => none
        | some inner => follow? (entry :: above) inner names

/-- What is at a path below a directory. -/
def find? (root : Entry) (path : String) : Option Entry :=
  if path.startsWith "/" || path.isEmpty then none else follow? [] root (namesOn path)

/-- The path of a name in the directory at a path. -/
def join (path name : String) : String :=
  if path.toList.getLast? == some '/' then path ++ name else path ++ "/" ++ name

/-- Put something at the end of a list of names, in directories that are created as needed. -/
def insert (entry content : Entry) : (names : List String) → Entry
  | [] => content
  | name :: names =>
    let entries :=
      match entry with
      | file _ => []
      | directory entries => entries
    let inner := insert ((entries.lookup name).getD (directory [])) content names
    directory (entries.filter (·.1 != name) ++ [(name, inner)])

mutual

/-- All files at a path, and their paths, with the entries of each directory in the order of their
names. -/
def files (path : String) : Entry → List (String × ByteArray)
  | file content => [(path, content)]
  | directory entries =>
    ((filesOf path entries).mergeSort fun left right => left.1 ≤ right.1).flatMap (·.2)

/-- The files of each entry of the directory at a path. -/
def filesOf (path : String) : List (String × Entry) → List (String × List (String × ByteArray))
  | [] => []
  | (name, entry) :: rest => (name, files (join path name) entry) :: filesOf path rest

end

/-- The text in a file. -/
def text? (path : String) : Entry → Except Failure String
  | directory _ => .error (.unreadable path "Is a directory")
  | file content =>
    match String.fromUTF8? content with
    | some text => .ok text
    | none => .error (.unreadable path "stream did not contain valid UTF-8")

end Entry
end TwigTemplate
