import EffectMachine.CommandLine

namespace EffectMachine

def readFault : IO.Error → ReadFault
  | .permissionDenied .. => .denied
  | .inappropriateType _ code _ => if code = 21 then .isFolder else .notFolder
  | .invalidArgument .. => .tooLong
  | _ => .absent

def readFile (path : String) : IO (Except ReadFault FileTree) := do
  try return .ok (.file (← IO.FS.readBinFile path).toList)
  catch e => return .error (readFault e)

partial def readLines (stream : IO.FS.Stream) (before : List String) : IO (List String) := do
  let line ← stream.getLine
  if line.isEmpty then return before.reverse
  else readLines stream (String.ofList (line.toList.filter (· ≠ '\n')) :: before)

def readFolder (folder : String) : IO FileTree := do
  let mut tree := FileTree.empty
  for name in ← readLines (← IO.getStdin) [] do
    if let .ok (.file data) ← readFile (FileName.join folder name) then
      tree := tree.insert data (FileTree.steps name)
  return tree

/-- What a command can see, each thing under the path that its arguments give. -/
def view (command : CommandLine.Command) : IO (List (String × Except ReadFault FileTree)) := do
  let files ← command.files.mapM fun path => return (path, ← readFile path)
  match command.folder? with
  | some folder => return (folder, .ok (← readFolder folder)) :: files
  | none => return files

end EffectMachine

open EffectMachine in
/-- A trial run reads the paths of its resource files, from their folder on, from standard input,
one on each line. -/
def main (args : List String) : IO UInt32 := do
  let seen ← match CommandLine.Command.ofArguments args with
    | .ok command => view command
    | .error _ => pure []
  let environment : CommandLine.Environment :=
    { find := fun path => (seen.lookup path).getD (.error .absent)
      seed := ← IO.getEnv "SIGIL_SEED"
      fuel := 0x1000000000000000 }
  let outcome := CommandLine.run environment args
  for notice in outcome.log.reverse do
    IO.eprintln notice.text
  IO.print outcome.output
  IO.eprint outcome.complaint
  return UInt32.ofNat outcome.exitCode
