import RosAudit.CommandLine.Session

/-!
# The command line

Runs one command on a tree of files. The tree comes in on standard input, as a JSON object of texts
by path; what the command prints goes to standard output, followed by the files that the home folder
then holds.
-/

open RosAudit

def commandHost : Host :=
  { home := "/ws/.haros", definitions := "/ws/definitions.yaml", scratch := "/ws/tmp"
    timestamp := "", surroundings := { process := .object [], standard := .object [] } }

def treeOf (text : String) : Result FileTree := do
  let t ← FileTree.ensureFolders {} "/ws/tmp"
  let files := ((Json.parse text).getD (.object [])).fields
  files.foldlM (fun t (path, x) => t.place path ((x.asText?).getD ""))
    { t with current := "/ws" }

partial def readAll (input : IO.FS.Stream) (seen : String) : IO String := do
  let line ← input.getLine
  if line.isEmpty then pure seen else readAll input (seen ++ line)

def main (words : List String) : IO UInt32 := do
  match treeOf (← readAll (← IO.getStdin) "") with
  | .error f =>
    IO.eprintln (f.message?.getD "the files cannot be laid out")
    pure 1
  | .ok files =>
    let start : Session := { files }
    let (ending, s) := (Session.launch commandHost words).exec start
    for line in s.output do IO.println line
    IO.println ((Json.render (Session.folderValue s.files commandHost.home)).getD "")
    match ending with
    | .ok (.misuse code) => pure code.toUInt32
    | .ok (.done code) => pure code.toUInt32
    | .error f =>
      IO.eprintln (f.message?.getD "the command failed")
      pure 1
