import RosAudit.FileTree

/-!
# Folders of the program

What the program does with folders: it lays out a folder with given contents, makes sure that a
folder exists, and clears the files of one. A layout is a record by name: a text is a file with that
content, a record is a folder, and anything else stands for nothing.
-/

namespace RosAudit

namespace FileTree

def layFile (path text : String) (overwrite : Bool) : Job FileTree Unit := do
  let t ← get
  let exists_ := t.present path
  if exists_ && !t.isFile path then throw (.stopped ("Could not create file: " ++ path))
  if overwrite || !exists_ then set (← Job.ofResult (t.write path text))

def layFolder (path : String) : Job FileTree Unit := do
  let t ← get
  let exists_ := t.present path
  if exists_ && !t.isFolder path then throw (.stopped ("Could not create dir: " ++ path))
  if !exists_ then set (← Job.ofResult (t.makeFolder path))

def layOut (overwrite : Bool) (path : String) : List (Value × Value) → Job FileTree Unit
  | [] => pure ()
  | (name, .text s) :: rest => do
    layFile (Path.join path name.display) s overwrite
    layOut overwrite path rest
  | (name, .record es) :: rest => do
    layFolder (Path.join path name.display)
    layOut overwrite (Path.join path name.display) es
    layOut overwrite path rest
  | (_, _) :: rest => layOut overwrite path rest

def clear (path : String) : Job FileTree Unit := do
  for name in ← Job.ofResult ((← get).list path) do
    let t ← get
    if t.isFile (Path.join path name) then
      set (← Job.ofResult (t.removeFile (Path.join path name)))

def ensure (path : String) (empty : Bool := false) : Job FileTree Unit := do
  let t ← get
  if !t.isFolder path then
    if t.isFile path then throw (.stopped ("Could not create dir: " ++ path))
    set (← Job.ofResult (t.makeFolders path))
  else if empty then clear path

def visits (t : FileTree) : List String → List String × Result Unit
  | [] => ([], pure ())
  | p :: ps =>
    match t.enter p with
    | .error f => ([], throw f)
    | .ok inside =>
      let (seen, r) := inside.visits ps
      (inside.current :: seen ++ [t.current], r)

def listing (t : FileTree) (top : String) (bare : Bool := false) : List (String × Option String) :=
  (t.walk top).flatMap fun v =>
    let path := Path.join v.path ""
    let files := v.files.map fun n => (path ++ n, (t.stored (path ++ n)).toOption)
    if bare && !(v.folders.isEmpty && v.files.isEmpty) then files else (path, none) :: files

end FileTree

end RosAudit
