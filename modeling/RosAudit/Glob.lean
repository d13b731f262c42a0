import RosAudit.FileTree

/-!
# File name patterns

A pattern stands for the files whose names it matches, path part by path part: `*` is any text,
`?` any character, and brackets one character of a class. Names that start with a dot are only
matched by patterns that do. `glob` lists the matches in ascending order.
-/

namespace RosAudit

/-- A piece of a pattern for one name. -/
inductive GlobPiece where
  | anyText
  | anyChar
  | char (c : Char)
  | oneOf (negated : Bool) (ranges : List (Char × Char))

namespace GlobPiece

def ranges : List Char → List (Char × Char)
  | a :: '-' :: b :: cs => if a ≤ b then (a, b) :: ranges cs else ranges cs
  | a :: cs => (a, a) :: ranges cs
  | [] => []

def classAt? (cs : List Char) : Option (Bool × List Char × List Char) :=
  let (negated, body) := match cs with
    | '!' :: rest => (true, rest)
    | rest => (false, rest)
  let (first, body) := match body with
    | ']' :: rest => ([']'], rest)
    | rest => ([], rest)
  match body.span (· != ']') with
  | (inner, _ :: rest) => some (negated, first ++ inner, rest)
  | (_, []) => none

def parse : Nat → List Char → List GlobPiece
  | 0, _ => []
  | _, [] => []
  | n + 1, '*' :: cs => .anyText :: parse n cs
  | n + 1, '?' :: cs => .anyChar :: parse n cs
  | n + 1, '[' :: cs =>
    match classAt? cs with
    | some (negated, inner, rest) => .oneOf negated (ranges inner) :: parse n rest
    | none => .char '[' :: parse n cs
  | n + 1, c :: cs => .char c :: parse n cs

def fits (c : Char) : GlobPiece → Bool
  | anyText => true
  | anyChar => true
  | char d => c == d
  | oneOf negated rs => (rs.any fun (a, b) => a ≤ c && c ≤ b) != negated

def matchesAll : List GlobPiece → List Char → Bool
  | [], cs => cs.isEmpty
  | .anyText :: ps, [] => matchesAll ps []
  | .anyText :: ps, c :: cs => matchesAll ps (c :: cs) || matchesAll (.anyText :: ps) cs
  | p :: ps, c :: cs => fits c p && matchesAll ps cs
  | _ :: _, [] => false
termination_by ps cs => ps.length + cs.length

end GlobPiece

def matchesName (pattern name : String) : Bool :=
  let cs := pattern.toList
  GlobPiece.matchesAll (GlobPiece.parse (cs.length + 1) cs) name.toList

namespace FileTree

def isPattern (s : String) : Bool := s.toList.any fun c => c == '*' || c == '?' || c == '['

def isHidden (s : String) : Bool := s.toList.head? == some '.'

def matching (t : FileTree) (folder pattern : String) (foldersOnly : Bool) : List String :=
  (t.names folder).filter fun n =>
    (!foldersOnly || t.isFolder (Path.join folder n)) && (isHidden pattern || !isHidden n) &&
      matchesName pattern n

def globWith (t : FileTree) : Nat → Bool → String → List String
  | 0, _, _ => []
  | fuel + 1, foldersOnly, pattern =>
    let folder := Path.parent pattern
    let name := Path.base pattern
    if !isPattern pattern then
      if name.isEmpty then (if t.isFolder folder then [pattern] else [])
      else if t.present pattern then [pattern] else []
    else
      let folders :=
        if folder != pattern && isPattern folder then t.globWith fuel true folder else [folder]
      folders.flatMap fun d =>
        let names :=
          if isPattern name then
            if t.isFolder d then t.matching d name foldersOnly else []
          else if name.isEmpty then (if t.isFolder d then [name] else [])
          else if t.present (Path.join d name) then [name] else []
        names.map fun n => Path.join d n

def glob (t : FileTree) (pattern : String) : List String :=
  t.globWith (pattern.length + 1) false pattern

end FileTree

end RosAudit
