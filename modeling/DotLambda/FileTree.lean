import DotLambda.Text.Pieces

namespace DotLambda

/-!
# Files

Access to files as the commands need it, and a file tree in memory that offers it.

* `FileAccess` — reading a file, making folders, writing a file;
* `FileTree` — files and folders below a working folder;
* `FileTree.read`, `FileTree.makeFolders`, `FileTree.write` — access to it;
* `joinPath` — a path inside a folder in its shortest form.

Nothing is known about what lies outside the working folder: nothing can be read there, and what
is written there leaves no trace.
-/

/-! ### Faults -/

/-- Why access to a file is refused. -/
inductive FileFault where
  | missing
  | notFolder
  | isFolder
  | nameTooLong
  | invalid
deriving DecidableEq

/-- The wording of a fault. -/
def FileFault.message : FileFault → String
  | missing => "no such file or directory"
  | notFolder => "not a directory"
  | isFolder => "is a directory"
  | nameTooLong => "file name too long"
  | invalid => "invalid argument"

/-- What was being done to a file. -/
inductive FileAction where
  | openFile
  | readFile
  | makeFolder
deriving DecidableEq

/-- The word for an action. -/
def FileAction.name : FileAction → String
  | openFile => "open"
  | readFile => "read"
  | makeFolder => "mkdir"

/-- An action on a path that was refused. -/
structure FileError where
  action : FileAction
  path : String
  /-- The wording of the reason. -/
  reason : String

/-- The wording of a refusal. -/
def FileError.message (e : FileError) : String :=
  e.action.name ++ " " ++ e.path ++ ": " ++ e.reason

/-- Access to files in a monad. -/
structure FileAccess (m : Type → Type) where
  read : String → m (Except FileError String)
  /-- Makes a folder and those that it lies in, as far as they are not there. -/
  makeFolders : String → m (Except FileError Unit)
  write : (path content : String) → m (Except FileError Unit)

/-! ### Paths -/

/-- The components of a path, empty ones included. -/
def components (path : String) : List String :=
  (pieces '/' path.toList).map String.ofList

/-- One more component of a path in its shortest form, whose components so far are given from the
    last one to the first. -/
def shorten (done : List String) (component : String) : List String :=
  if component = "" ∨ component = "." then done
  else if component = ".." then
    match done with
    | [] => [".."]
    | ".." :: _ => ".." :: done
    | _ :: rest => rest
  else component :: done

/-- The path with the given components, or the working folder if there are none. -/
def pathOf (components : List String) : String :=
  if components.isEmpty then "." else "/".intercalate components

/-- The path `name` inside `folder`, without detours. -/
def joinPath (folder name : String) : String :=
  pathOf ((components folder ++ components name).foldl shorten []).reverse

/-- The greatest length of a component, in bytes. -/
def maxComponent : Nat := 255

/-- The greatest length of a path, in bytes. -/
def maxPath : Nat := 4095

/-! ### Trees -/

/-- What can stand at a path. -/
inductive FileNode where
  | file (content : String)
  | folder

/-- Files and folders below a working folder, each with the components of its path. -/
structure FileTree where
  nodes : List (List String × FileNode) := []

namespace FileTree

/-- What stands at a path inside the working folder. -/
def find? (tree : FileTree) (place : List String) : Option FileNode :=
  if place.isEmpty then some .folder else tree.nodes.lookup place

/-- Puts something at a path, in place of what stands there. -/
def put (tree : FileTree) (place : List String) (node : FileNode) : FileTree :=
  ⟨(place, node) :: tree.nodes.filter fun entry => entry.1 != place⟩

/-- Follows components from a place, `none` being a folder outside the tree: where they lead and
    what stands there. -/
def follow (tree : FileTree) : (place : Option (List String)) → List String →
    Except FileFault (Option (List String) × FileNode)
  | place, [] =>
    match place with
    | none => .ok (none, .folder)
    | some inside =>
      match tree.find? inside with
      | none => .error .missing
      | some node => .ok (place, node)
  | place, component :: rest =>
    let here : Except FileFault Unit :=
      match place with
      | none => .ok ()
      | some inside =>
        match tree.find? inside with
        | none => .error .missing
        | some (.file _) => .error .notFolder
        | some .folder => .ok ()
    match here with
    | .error fault => .error fault
    | .ok () =>
      if component = "" ∨ component = "." then tree.follow place rest
      else if component = ".." then
        match place with
        | none => tree.follow none rest
        | some [] => tree.follow none rest
        | some inside => tree.follow (some inside.dropLast) rest
      else if component.utf8ByteSize > maxComponent then .error .nameTooLong
      else
        match place with
        | none => .error .missing
        | some inside => tree.follow (some (inside ++ [component])) rest

/-- What is wrong with a path as such. -/
def pathFault? (path : String) : Option FileFault :=
  if path.toList.contains '\x00' then some .invalid
  else if path.isEmpty then some .missing
  else if path.utf8ByteSize > maxPath then some .nameTooLong
  else none

/-- Where a path leads and what stands there. -/
def resolve (tree : FileTree) (path : String) :
    Except FileFault (Option (List String) × FileNode) :=
  match pathFault? path with
  | some fault => .error fault
  | none => tree.follow (if path.startsWith "/" then none else some []) (components path)

/-- Reads a file. -/
def read (tree : FileTree) (path : String) : Except FileError String :=
  match tree.resolve path with
  | .error fault => .error ⟨.openFile, path, fault.message⟩
  | .ok (_, .folder) => .error ⟨.readFile, path, FileFault.isFolder.message⟩
  | .ok (_, .file content) => .ok content

/-- Makes the folders along `rest`, those along `done` being there. -/
def makeAlong (tree : FileTree) (done : List String) :
    List String → Except FileError Unit × FileTree
  | [] => (.ok (), tree)
  | component :: rest =>
    let place := done ++ [component]
    let refuse (fault : FileFault) : Except FileError Unit × FileTree :=
      (.error ⟨.makeFolder, pathOf place, fault.message⟩, tree)
    match tree.find? place with
    | some .folder => tree.makeAlong place rest
    | some (.file _) => refuse .notFolder
    | none =>
      match pathFault? (pathOf place) with
      | some fault => refuse fault
      | none =>
        if component.utf8ByteSize > maxComponent then refuse .nameTooLong
        else (tree.put place .folder).makeAlong place rest

/-- Makes a folder and those that it lies in.  The path is in its shortest form. -/
def makeFolders (tree : FileTree) (path : String) : Except FileError Unit × FileTree :=
  match (components path).filter (· != ".") with
  -- Outside the working folder everything can be made.
  | ".." :: _ => (.ok (), tree)
  | place => tree.makeAlong [] place

/-- Writes a file into a folder that is there.  The path is in its shortest form. -/
def write (tree : FileTree) (path content : String) : Except FileError Unit × FileTree :=
  let refuse (fault : FileFault) : Except FileError Unit × FileTree :=
    (.error ⟨.openFile, path, fault.message⟩, tree)
  match pathFault? path with
  | some fault => refuse fault
  | none =>
    match components path with
    | ".." :: _ => (.ok (), tree)
    | place =>
      match tree.find? place with
      | some .folder => refuse .isFolder
      | _ => (.ok (), tree.put place (.file content))

/-- A file together with the folders that it lies in, put there whatever stands in the way. -/
def plant (tree : FileTree) (path content : String) : FileTree :=
  let place := ((components path).foldl shorten []).reverse
  let folders := (List.range place.length).map place.take
  (folders.foldl (fun tree folder => tree.put folder .folder) tree).put place (.file content)

/-- The tree as files to be accessed. -/
def access : FileAccess (StateM FileTree) where
  read path := fun tree => (tree.read path, tree)
  makeFolders path := fun tree => tree.makeFolders path
  write path content := fun tree => tree.write path content

/-- The files below a folder in the order of their paths, each with its path inside the folder and
    its content; the folder itself, if it is a file, as `.`. -/
def below (tree : FileTree) (folder : String) : List (String × String) :=
  let lead := components folder
  let inside := tree.nodes.filterMap fun (place, node) =>
    match node with
    | .folder => none
    | .file content =>
      if lead.isPrefixOf place then some (pathOf (place.drop lead.length), content) else none
  inside.mergeSort fun a b => a.1 ≤ b.1

end FileTree

end DotLambda
