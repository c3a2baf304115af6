import Sm83Asm.Assembler
import Sm83Asm.Config.Document
import Sm83Asm.Define

set_option autoImplicit false

/-!
# The program

Reads the configuration and a snapshot of the directories that can hold source files, assembles,
and writes the diagnostics and the object file.
-/

namespace Sm83Asm.Program

/-- Directories and files below a directory, by their full paths. -/
partial def collect (dir : String) : IO (List (List String) × List (List String × Bytes)) := do
  let full ← IO.FS.realPath dir
  let mut dirs := [Path.parts full.toString]
  let mut files := []
  for entry in ← full.readDir do
    let path := entry.path.toString
    if ← entry.path.isDir then
      let (innerDirs, innerFiles) ← collect path
      dirs := dirs ++ innerDirs
      files := files ++ innerFiles
    else
      let contents ← IO.FS.readBinFile path
      files := (Path.parts path, contents.data) :: files
  return (dirs, files)

/-- Reads the configuration that the command line names. -/
def readConfig (a : Arguments) : IO (Except String Config) := do
  match a.config with
  | none => return .ok {}
  | some path =>
    let text ← IO.FS.readFile path
    match Config.ofToml text with
    | .ok c => return .ok c
    | .error e => return .error ("cant load config: " ++ e.message?.getD "malformed document")

/-- A store of the files below the directories that sources can name. -/
def openStore (c : Config) (source : String) : IO FileStore := do
  let base ← IO.currentDir
  let mut tree : Tree := { base := Path.parts base.toString, dirs := [], files := [] }
  for dir in (Path.parent? source).getD "" :: c.searchDirs do
    let (dirs, files) ← collect (if dir.isEmpty then "." else dir)
    tree := { tree with dirs := tree.dirs ++ dirs, files := tree.files ++ files }
  return .disk tree c.searchDirs []

/-- Writes bytes to a file or to standard output. -/
def writeOutput (output : Option String) (bytes : ByteArray) : IO Unit := do
  match output with
  | some path => IO.FS.writeBinFile path bytes
  | none => (← IO.getStdout).write bytes

/-- Assembles one source file. -/
def run (a : Arguments) (source : String) : IO UInt32 := do
  match ← readConfig a with
  | .error message => IO.eprintln message; return 1
  | .ok config =>
    let config := a.configure config
    let store ← openStore config source
    match (Assembler.new config store).assembleFile? source with
    | none => IO.eprintln ("cant open file: " ++ source); return 1
    | some asm =>
      match asm.finish? with
      | none => IO.eprintln "arithmetic overflowed"; return 101
      | some object =>
        for d in object.diagnostics do
          IO.eprintln ((if d.isError then "ERROR " else "WARN ") ++ d.render)
        if object.hasErrors then return 1
        let bytes :=
          if a.dependencies then
            let name := ((asm.files.retrieve source "").1.map Prod.fst).getD source
            let resolved := match asm.files with
              | .disk _ _ resolved => resolved
              | .memory _ => []
            (dependencyLines source name resolved).toUTF8
          else ⟨object.write.toArray⟩
        writeOutput a.output bytes
        return 0

end Sm83Asm.Program

/-- Assembles the source file that the command line names. -/
def main (args : List String) : IO UInt32 := do
  match Sm83Asm.Arguments.words {} args with
  | .error message => IO.eprintln message; return 2
  | .ok a =>
    match a.source with
    | none => IO.eprintln "a source file is required"; return 2
    | some source => Sm83Asm.Program.run a source
