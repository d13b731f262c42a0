import RosAudit.Text.Blank

/-!
# Paths

Slash-separated file paths as texts. `Path.join` starts over at an absolute second part,
`Path.parent` and `Path.base` are the two sides of the last slash, and `Path.absolute` resolves
`.`, `..` and repeated slashes against a current folder; above the root there is only the root.
-/

namespace RosAudit.Path

open RosAudit.Text

def isAbsolute (p : String) : Bool := p.toList.head? == some '/'

def join (a b : String) : String :=
  if isAbsolute b then b
  else if a.isEmpty || a.toList.getLast? == some '/' then a ++ b
  else a ++ "/" ++ b

def base (p : String) : String :=
  match cutAtLast '/' p.toList with
  | some (_, r) => String.ofList r
  | none => p

/-- The part of a path before its last slash, without the slashes at its end unless it is all
slashes. -/
def parent (p : String) : String :=
  match cutAtLast '/' p.toList with
  | none => ""
  | some (l, _) =>
    let trimmed := (l.reverse.dropWhile (· == '/')).reverse
    String.ofList (if trimmed.isEmpty then l ++ ['/'] else trimmed)

def resolveParts (done : List String) : List String → List String
  | [] => done.reverse
  | "" :: rest => resolveParts done rest
  | "." :: rest => resolveParts done rest
  | ".." :: rest => resolveParts done.tail rest
  | p :: rest => resolveParts (p :: done) rest

def parts (p : String) : List String := resolveParts [] (splitOnChar '/' p)

def ofParts (ps : List String) : String := "/" ++ "/".intercalate ps

def absolute (cwd p : String) : String := ofParts (parts (join cwd p))

end RosAudit.Path
