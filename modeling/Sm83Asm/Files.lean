import Sm83Asm.Table
import Sm83Asm.Text.Basic

set_option autoImplicit false

/-!
# Files

Where included files come from. Files in memory are known by the names they were stored under.
Files of a directory tree are found as given, then beside the file that asks for them, then in each
search directory, and are known by their full path.

Paths are texts whose parts are divided by slashes. Empty parts and the part `.` behind the first
mean nothing.
-/

namespace Sm83Asm

/-! ## Paths -/

namespace Path

/-- Whether a part names a directory or a file. -/
def isNamed (part : List Char) : Bool := !part.isEmpty && part != ['.']

/-- A reversed path without the meaningless parts at its end. -/
def trimTail (rev : List Char) : List Char :=
  match rev with
  | [] => []
  | c :: cs =>
    if isNamed ((c :: cs).takeWhile (· != '/')) then c :: cs
    else if c == '/' then trimTail cs
    else trimTail (cs.drop 1)
termination_by rev.length
decreasing_by all_goals simp only [List.length_cons, List.length_drop]; omega

/-- What stands in front of the first part: a slash, or a lone point. -/
def splitHead (cs : List Char) : List Char × List Char :=
  match cs with
  | '/' :: rest => (['/'], rest)
  | ['.'] => (['.'], [])
  | '.' :: '/' :: rest => (['.'], '/' :: rest)
  | _ => ([], cs)

/-- The path without its last part; there is none when it has no part. -/
def parent? (path : String) : Option String :=
  let (head, body) := splitHead path.toList
  match trimTail body.reverse with
  | [] => if head == ['.'] then some "" else none
  | rev =>
    let rest := (rev.dropWhile (· != '/')).drop 1
    some (String.ofList (head ++ (trimTail rest).reverse))

/-- Whether a path starts at the root. -/
def isAbsolute (path : String) : Bool := path.toList.head? == some '/'

/-- A path looked up from a directory. -/
def join (dir path : String) : String :=
  if isAbsolute path || dir.isEmpty then path
  else if dir.toList.getLast? == some '/' then dir ++ path
  else dir ++ "/" ++ path

/-- The path of a file as seen from the directory of another file. -/
def beside (file path : String) : String :=
  join ((parent? file).getD file) path

/-- The parts between the slashes of a path. -/
def parts (path : String) : List String :=
  ((path.splitOn "/").filter fun part => !part.isEmpty)

end Path

/-- The contents of a file. -/
abbrev Bytes := Array UInt8

/-! ## Directory trees -/

/-- A snapshot of a directory tree. Places are lists of parts, seen from the root. -/
structure Tree where
  /-- The place that relative paths start from. -/
  base : List String
  /-- Places of directories; the directories on the way to a place need not be listed. -/
  dirs : List (List String)
  files : List (List String × Bytes)

namespace Tree

/-- The contents of the file at a place. -/
def file? (t : Tree) (place : List String) : Option Bytes := t.files.lookup place

/-- Whether a place is a directory: it is listed, or lies on the way to something listed. -/
def isDir (t : Tree) (place : List String) : Bool :=
  (t.base :: t.dirs).any place.isPrefixOf ||
    t.files.any fun (file, _) => place.isPrefixOf file.dropLast

/-- The place one part further. -/
def step (t : Tree) (place : List String) (part : String) : Option (List String) :=
  if !t.isDir place then none
  else if part == "." then some place
  else if part == ".." then some place.dropLast
  else
    let next := place ++ [part]
    if t.isDir next || (t.file? next).isSome then some next else none

/-- The place that a path leads to. A path that ends in a slash leads to a directory only. -/
def resolve? (t : Tree) (path : String) : Option (List String) :=
  if path.isEmpty then none
  else
    let start := if Path.isAbsolute path then [] else t.base
    match (Path.parts path).foldlM t.step start with
    | none => none
    | some place =>
      if path.toList.getLast? == some '/' && !t.isDir place then none else some place

/-- The full path of a place. -/
def fullPath (place : List String) : String := "/" ++ "/".intercalate place

end Tree

/-! ## Stores -/

/-- A source of files. -/
inductive FileStore where
  /-- Files under the names they were stored under. -/
  | memory (files : Table Bytes)
  /-- Files of a directory tree, with the full paths of those that were read. -/
  | disk (tree : Tree) (searchDirs : List String) (resolved : List String)

namespace FileStore

/-- The name and the contents of a file in memory: as given, or beside the file that asks. -/
def fromMemory? (files : Table Bytes) (path requester : String) : Option (String × Bytes) :=
  match files.get? path with
  | some contents => some (path, contents)
  | none =>
    match Path.parent? requester with
    | none => none
    | some dir =>
      let sibling := Path.join dir path
      (files.get? sibling).map fun contents => (sibling, contents)

/-- The place of a file in a tree: as given, beside the file that asks, or in the first search
directory that has it. -/
def search? (tree : Tree) (searchDirs : List String) (path requester : String) :
    Option (List String) :=
  (path :: Path.beside requester path :: searchDirs.map (Path.join · path)).findSome?
    tree.resolve?

/-- The name and the contents of a file that another file asks for. -/
def retrieve (store : FileStore) (path requester : String) :
    Option (String × Bytes) × FileStore :=
  match store with
  | .memory files => (fromMemory? files path requester, store)
  | .disk tree searchDirs resolved =>
    match search? tree searchDirs path requester with
    | none => (none, store)
    | some place =>
      match tree.file? place with
      | none => (none, store)
      | some contents =>
        let name := Tree.fullPath place
        let resolved := if resolved.contains name then resolved else resolved ++ [name]
        (some (name, contents), .disk tree searchDirs resolved)

/-- Stores a file in memory. -/
def add (store : FileStore) (name : String) (contents : Bytes) : FileStore :=
  match store with
  | .memory files => .memory (files.insert name contents)
  | .disk .. => store

end FileStore

end Sm83Asm
