import EffectMachine.Resource.Directory

namespace EffectMachine

inductive FileTree where
  | file (data : List UInt8)
  /-- The entries, in the order of their names. -/
  | folder (entries : List (String × FileTree))

namespace FileTree

def empty : FileTree := folder []

/-- Puts an entry where its name belongs; one of the same name is replaced. -/
def putEntry (name : String) (tree : FileTree) :
    List (String × FileTree) → List (String × FileTree)
  | [] => [(name, tree)]
  | (other, t) :: rest =>
    if name = other then (name, tree) :: rest
    else if name < other then (name, tree) :: (other, t) :: rest
    else (other, t) :: putEntry name tree rest

def entries : FileTree → List (String × FileTree)
  | file _ => []
  | folder entries => entries

def content : FileTree → Except ReadFault (List UInt8)
  | file data => .ok data
  | folder _ => .error .isFolder

def listing : FileTree → Except ReadFault (List (String × FileTree))
  | file _ => .error .notFolder
  | folder entries => .ok entries

/-- Puts a file at the end of a path of folders, which come to be as needed. -/
def insert (data : List UInt8) : List String → FileTree → FileTree
  | [], _ => file data
  | name :: path, tree =>
    let inner := (tree.entries.lookup name).getD empty
    folder (putEntry name (insert data path inner) tree.entries)

def staysPut (step : String) : Bool := step = "" || step = "."

/-- The names of a path, without those that stay in place. -/
def steps (path : String) : List String := (path.splitOn "/").filter fun step => !staysPut step

def longestName : Nat := 255

def longestPath : Nat := 4095

/-- Takes a path step by step; the folders around the place come innermost first. Every step starts
in a folder, one that stays there too, so a path that ends in a slash names a folder. Of the folders
farther out nothing is known to be in them. -/
def walk : List String → FileTree → List FileTree → Except ReadFault FileTree
  | [], here, _ => .ok here
  | _ :: _, file _, _ => .error .notFolder
  | step :: path, folder entries, around =>
    if staysPut step then walk path (folder entries) around
    else if step = ".." then walk path (around.headD empty) around.tail
    else if longestName < step.utf8ByteSize then .error .tooLong
    else
      match entries.lookup step with
      | none => .error .absent
      | some tree => walk path tree (folder entries :: around)

/-- What stands at a path. One that begins with a slash starts farther out than any folder that is
known, and another one here. -/
def find (tree : FileTree) (path : String) : Except ReadFault FileTree :=
  if path = "" then .error .absent
  else if longestPath < path.utf8ByteSize then .error .tooLong
  else walk (path.splitOn "/") (if path.startsWith "/" then empty else tree) []

end FileTree

namespace FileName

/-- The last name of a path, if it is the name of an entry. -/
def ofPath? (path : String) : Option String :=
  match (FileTree.steps path).getLast? with
  | some name => if name = ".." then none else some name
  | none => none

/-- A name at its last point: stem and ending. A point in front belongs to the stem. -/
def split (name : String) : String × Option String :=
  let cs := name.toList.reverse
  let ending := cs.takeWhile (· ≠ '.')
  let stem := (cs.drop (ending.length + 1)).reverse
  if ending.length = cs.length || stem.isEmpty then (name, none)
  else (String.ofList stem, some (String.ofList ending.reverse))

def stem (name : String) : String := (split name).1

def ending? (name : String) : Option String := (split name).2

def join (folder name : String) : String :=
  if folder = "" || folder.endsWith "/" then folder ++ name else folder ++ "/" ++ name

end FileName

inductive Candidate where
  | resource (place : ResourcePath) (path : String) (id : ResourceId) (data : List UInt8)
  /-- An entry whose name is no resource name. -/
  | badlyNamed (path reason : String)

namespace FileTree

mutual

def candidates (place : ResourcePath) (path : String) (id : ResourceId) :
    FileTree → List Candidate
  | file data => [.resource place path id data]
  | folder entries => candidatesAmong (place.child id) path entries

/-- What stands in a folder, in the order of its entries, and in the folders among them. -/
def candidatesAmong (place : ResourcePath) (path : String) :
    List (String × FileTree) → List Candidate
  | [] => []
  | (name, tree) :: rest =>
    let here := match ResourceId.parse? (FileName.stem name) with
      | .error reason => [.badlyNamed (FileName.join path name) reason]
      | .ok id => candidates place (FileName.join path name) id tree
    here ++ candidatesAmong place path rest

end

end FileTree

namespace Directory

/-- Puts a candidate in its place. Files of no known kind are passed over; one that is badly named
or does not decode is noted and left out. -/
def load (config : Config) (candidate : Candidate) (d : Directory) : Directory × Log :=
  match candidate with
  | .badlyNamed path reason => (d, [.badlyNamed path reason])
  | .resource place path id data =>
    match (FileName.ending? ((FileName.ofPath? path).getD "")).bind ResourceKind.ofEnding? with
    | none => (d, [])
    | some kind =>
      match Resource.decode kind id place config data with
      | (.ok resource, log) => (d.insert place id resource, log)
      | (.error fault, log) => (d, .undecodable path fault :: log)

def loadAll (config : Config) (candidates : List Candidate) : Directory × Log :=
  candidates.foldl (fun (d, log) candidate =>
    let (d, new) := d.load config candidate
    (d, new ++ log)) ({}, [])

def ofFolder (config : Config) (path : String) (found : Except ReadFault FileTree) :
    Except Fault Directory × Log :=
  match found >>= FileTree.listing with
  | .error why => (.error (.unreadable why), [])
  | .ok entries =>
    let (d, log) := loadAll config (FileTree.candidatesAmong .root path entries)
    (.ok d, log)

end Directory
end EffectMachine
