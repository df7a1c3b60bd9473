/-!
# Files

A run sees its files through one question: what does a path open?  The answer is
the content of a file, or why there is none.  A file tree answers it for a given
set of files: it walks along the parts of the path, and the first part that does
not lead on decides.
-/

namespace LinkAnalysis.Command

inductive Opened where
  | file (content : ByteArray)
  | directory
  | missing
  | notDirectory
  /-- The path, or the name that it looks up in a directory, is longer than any
  can be. -/
  | nameTooLong
  /-- There is a file, but not for this user. -/
  | denied

/-- What an operating system says of a path that opens no file.  Its words for a
path that is missing are left out: the notice ends there with what was
attempted. -/
def Opened.trouble? : Opened → Option String
  | file _ | missing => none
  | directory => some "Is a directory (os error 21)"
  | notDirectory => some "Not a directory (os error 20)"
  | nameTooLong => some "File name too long (os error 36)"
  | denied => some "Permission denied (os error 13)"

def Opened.isPresent : Opened → Bool
  | file _ | directory | denied => true
  | missing | notDirectory | nameTooLong => false

def longestName : Nat := 255

def longestPath : Nat := 4095

def pathParts (path : String) : List String :=
  (path.toList.splitBy fun a b => a != '/' && b != '/').map String.ofList
    |>.filter (· != "/")

/-- Whether a path is another spelling of a single dash, which stands for the
standard input: with slashes, or dots between slashes, behind the dash. -/
def isStandardInput (path : String) : Bool :=
  path.startsWith "-" && (pathParts path).filter (· != ".") == ["-"]

abbrev Place := List String

namespace Place

/-- Where a path begins: at the root if it opens with a slash, else at the place
it is read at. -/
def origin (start : Place) (path : String) : Place :=
  if path.startsWith "/" then [] else start

/-- The place one part further: a dot stays, two dots go up, and the root is
above itself. -/
def step (place : Place) (part : String) : Place :=
  if part = "." then place
  else if part = ".." then place.dropLast else place ++ [part]

def ofPath (start : Place) (path : String) : Place :=
  (pathParts path).foldl step (origin start path)

end Place

structure FileTree where
  start : Place
  directories : List Place
  files : List (Place × ByteArray)

namespace FileTree

/-- The tree of these directories and files, by paths read at the directory
where a run starts. -/
def ofPaths (start : String) (directories : List String)
    (files : List (String × ByteArray)) : FileTree :=
  let start := Place.ofPath [] start
  ⟨start, directories.map (Place.ofPath start),
    files.map fun (path, content) => (Place.ofPath start path, content)⟩

def file? (t : FileTree) (place : Place) : Option ByteArray :=
  t.files.lookup place

/-- Whether a place is a directory: one of the tree's, or on the way to one or
to a file. -/
def isDirectory (t : FileTree) (place : Place) : Bool :=
  (t.start :: t.directories).any place.isPrefixOf || t.files.any fun f =>
    place.isPrefixOf f.1 && decide (place.length < f.1.length)

def walk (t : FileTree) (place : Place) : List String → Opened
  | [] => .directory
  | part :: rest =>
    let next := place.step part
    if longestName < part.utf8ByteSize then .nameTooLong
    else
      match t.file? next with
      | some content => if rest.isEmpty then .file content else .notDirectory
      | none => if t.isDirectory next then t.walk next rest else .missing

def open? (t : FileTree) (path : String) : Opened :=
  if path.isEmpty then .missing
  else if longestPath < path.utf8ByteSize then .nameTooLong
  else
    t.walk (Place.origin t.start path)
      (pathParts path ++ if path.endsWith "/" then ["."] else [])

end FileTree

end LinkAnalysis.Command
