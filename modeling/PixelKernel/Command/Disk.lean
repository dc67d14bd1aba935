/-! # Disks

Requests read and write files through a `Disk`, in any monad. One kind of disk keeps its
files in memory.
-/

namespace PixelKernel.Command

/-- How to reach files. Failures are given by their reasons. -/
structure Disk (m : Type → Type) where
  read : (path : String) → m (Except String ByteArray)
  /-- Makes a directory with all those above it, unless it is there. -/
  makeDirectory : (path : String) → m (Except String Unit)
  write : (path : String) → ByteArray → m (Except String Unit)

/-- Why a path cannot be used. -/
inductive PathFault where
  | missing | occupied | notDirectory | isDirectory | tooLong
  deriving Repr, DecidableEq

def PathFault.text : PathFault → String
  | missing => "No such file or directory (os error 2)"
  | occupied => "File exists (os error 17)"
  | notDirectory => "Not a directory (os error 20)"
  | isDirectory => "Is a directory (os error 21)"
  | tooLong => "File name too long (os error 36)"

/-- Splits at slashes. -/
def splitSlashes (cs : List Char) : List (List Char) :=
  cs.foldr (fun c parts =>
    if c = '/' then [] :: parts
    else match parts with
      | [] => [[c]]
      | part :: rest => (c :: part) :: rest) [[]]

/-- A way to a file or a directory. -/
structure Path where
  /-- It starts at the root. -/
  rooted : Bool
  /-- What stands between slashes: names, a dot for the same directory, and two dots for the
      one above. -/
  parts : List String
  /-- It ends in a slash, as only directories may. -/
  slashed : Bool
  /-- Bytes of its text. -/
  size : Nat
  deriving Repr, DecidableEq

namespace Path

/-- Most bytes of a name. -/
def longestName : Nat := 255

/-- Most bytes of a path. -/
def longest : Nat := 4095

def ofString (text : String) : Path where
  rooted := text.toList.head? = some '/'
  parts := ((splitSlashes text.toList).map String.ofList).filter (!·.isEmpty)
  slashed := text.toList.getLast? = some '/'
  size := text.utf8ByteSize

def ofParts (rooted : Bool) (parts : List String) : Path :=
  .ofString ((if rooted then "/" else "") ++ "/".intercalate parts)

/-- Drops slashes and lone dots from a path that is written backwards. A dot that the path
    starts with stays. -/
def trimBackwards : List Char → List Char
  | '/' :: cs => trimBackwards cs
  | '.' :: '/' :: cs => trimBackwards cs
  | cs => cs

end Path

/-- The directory of a path, empty for a file without one; nothing is above the root. -/
def parent? (path : String) : Option String :=
  let name := Path.trimBackwards path.toList.reverse
  let above := Path.trimBackwards (name.dropWhile (· != '/'))
  if name.isEmpty then none
  else if above.isEmpty && path.toList.head? = some '/' then some "/"
  else some (String.ofList above.reverse)

/-- A place is where a path leads: names from the working directory on, with as many double
    dots before them as it takes to leave it, or names behind a slash that stands for the
    root. -/
abbrev Place := List String

namespace Place

/-- Where a path starts. -/
def start (rooted : Bool) : Place := if rooted then ["/"] else []

/-- Neither below the working directory nor behind the root. -/
def isAbove (place : Place) : Bool := place.all (· == "..")

/-- Where a part of a path leads. Nothing is above the root. -/
def step (place : Place) (part : String) : Place :=
  if part = "." then place
  else if part ≠ ".." then place ++ [part]
  else if place = ["/"] then place
  else if place.isAbove then place ++ [".."]
  else place.dropLast

def ofPath (path : Path) : Place := path.parts.foldl step (start path.rooted)

end Place

/-- Files and directories in memory. The newest entry of a file counts. -/
structure FileTree where
  files : List (Place × ByteArray)
  directories : List Place

namespace FileTree

def ofFiles (files : List (String × ByteArray)) : FileTree :=
  ⟨files.map fun (path, bytes) => (.ofPath (.ofString path), bytes), []⟩

def file? (t : FileTree) (place : Place) : Option ByteArray := t.files.lookup place

/-- What holds a file is a directory, as is the working directory with all above it. -/
def isDirectory (t : FileTree) (place : Place) : Bool :=
  place.isAbove || place = ["/"] || t.directories.contains place
    || t.files.any fun (file, _) => place.isPrefixOf file && place != file

/-- Follows parts of a path. All but the last have to lead to directories. -/
def follow (t : FileTree) (place : Place) : List String → Except PathFault Place
  | [] => .ok place
  | part :: rest =>
    if t.isDirectory place then
      if Path.longestName < part.utf8ByteSize then .error .tooLong
      else t.follow (place.step part) rest
    else if (t.file? place).isSome then .error .notDirectory
    else .error .missing

/-- Where a path leads, which need not be there itself. -/
def locate (t : FileTree) (path : Path) : Except PathFault Place :=
  if path.size = 0 then .error .missing
  else if Path.longest < path.size then .error .tooLong
  else t.follow (.start path.rooted) path.parts

def read (t : FileTree) (path : Path) : Except PathFault ByteArray := do
  let place ← t.locate path
  match t.file? place with
  | some bytes => if path.slashed then throw .notDirectory else return bytes
  | none => throw (if t.isDirectory place then .isDirectory else .missing)

def write (t : FileTree) (path : Path) (bytes : ByteArray) : Except PathFault FileTree := do
  let place ← t.locate path
  if path.slashed || t.isDirectory place then throw .isDirectory
  return { t with files := (place, bytes) :: t.files }

def addDirectory (t : FileTree) (path : Path) : Except PathFault FileTree := do
  let place ← t.locate path
  if t.isDirectory place || (t.file? place).isSome then throw .occupied
  return { t with directories := place :: t.directories }

/-- A change of the tree, which may fail halfway. -/
abbrev Change := StateM FileTree (Except PathFault Unit)

/-- A change that is made in full or not at all. -/
def whole (f : FileTree → Except PathFault FileTree) : Change := fun t =>
  match f t with
  | .ok t => (.ok (), t)
  | .error fault => (.error fault, t)

/-- Makes a directory, unless it is there. -/
def ensureDirectory (path : Path) : Change := do
  match ← whole (·.addDirectory path) with
  | .error .occupied =>
    let t ← get
    match t.locate path with
    | .ok place => if t.isDirectory place then return .ok () else return .error .occupied
    | .error _ => return .error .occupied
  | answer => return answer

/-- Makes the directory that some parts lead to, given backwards; if the way is missing,
    after what is above it. -/
def ensureAll (rooted : Bool) : List String → Change
  | [] => return .ok ()
  | part :: above => do
    let path := Path.ofParts rooted (part :: above).reverse
    match ← ensureDirectory path with
    | .error .missing =>
      match ← ensureAll rooted above with
      | .ok () => ensureDirectory path
      | answer => return answer
    | answer => return answer

def makeDirectories (path : Path) : Change :=
  if Path.longest < path.size then return .error .tooLong
  else ensureAll path.rooted (path.parts.filter (· != ".")).reverse

def disk : Disk (StateM FileTree) where
  read path := fun t => ((t.read (.ofString path)).mapError PathFault.text, t)
  makeDirectory path := do return (← makeDirectories (.ofString path)).mapError PathFault.text
  write path bytes := do
    return (← whole (·.write (.ofString path) bytes)).mapError PathFault.text

end FileTree
end PixelKernel.Command
