/-!
# Blanks and lines

White space is the Unicode notion: the six ASCII controls `\t \n \v \f \r` and space, the four
information separators, and the space separators of the other planes. Trimming, splitting into
words and the blank class of every scanner in this library use the one predicate `isBlank`.

`lines` cuts a text at every Unicode line boundary; `unixLines` only rewrites the three ways of
ending a line in a file to a single line feed, which is what reading a text file does.
-/

namespace RosAudit.Text

def isBlank (c : Char) : Bool :=
  let n := c.toNat
  (9 ≤ n && n ≤ 13) || (28 ≤ n && n ≤ 32) || n == 0x85 || n == 0xa0 || n == 0x1680 ||
    (0x2000 ≤ n && n ≤ 0x200a) || n == 0x2028 || n == 0x2029 || n == 0x202f || n == 0x205f ||
    n == 0x3000

def trimLeft (cs : List Char) : List Char := cs.dropWhile isBlank

def trimRight (cs : List Char) : List Char := (cs.reverse.dropWhile isBlank).reverse

def trimChars (cs : List Char) : List Char := trimRight (trimLeft cs)

def trim (s : String) : String := String.ofList (trimChars s.toList)

/-- Collects maximal runs of characters for which `cut` is false; `cur` is the run under way,
reversed. -/
def fieldsFrom (cut : Char → Bool) (cur : List Char) : List Char → List (List Char)
  | [] => if cur.isEmpty then [] else [cur.reverse]
  | c :: cs =>
    if cut c then
      if cur.isEmpty then fieldsFrom cut [] cs else cur.reverse :: fieldsFrom cut [] cs
    else fieldsFrom cut (c :: cur) cs

def words (s : String) : List String := (fieldsFrom isBlank [] s.toList).map String.ofList

/-- The pieces of a text between the separators for which `cut` holds, empty ones included. -/
def splitCharsFrom (cut : Char → Bool) (cur : List Char) : List Char → List (List Char)
  | [] => [cur.reverse]
  | c :: cs => if cut c then cur.reverse :: splitCharsFrom cut [] cs
    else splitCharsFrom cut (c :: cur) cs

def splitOnChar (sep : Char) (s : String) : List String :=
  (splitCharsFrom (· == sep) [] s.toList).map String.ofList

def cutAtFirst (sep : Char) (cs : List Char) : Option (List Char × List Char) :=
  match cs.span (· != sep) with
  | (_, []) => none
  | (l, _ :: r) => some (l, r)

def cutAtLast (sep : Char) (cs : List Char) : Option (List Char × List Char) :=
  (cutAtFirst sep cs.reverse).map fun (r, l) => (l.reverse, r.reverse)

def startsWith (lead : List Char) (cs : List Char) : Bool := lead.isPrefixOf cs

def occursIn (part : List Char) : List Char → Bool
  | [] => part.isEmpty
  | c :: cs => part.isPrefixOf (c :: cs) || occursIn part cs

def replaceCharsFrom (old new : List Char) : Nat → List Char → List Char
  | _, [] => []
  | skip + 1, _ :: cs => replaceCharsFrom old new skip cs
  | 0, c :: cs =>
    if !old.isEmpty && old.isPrefixOf (c :: cs) then
      new ++ replaceCharsFrom old new (old.length - 1) cs
    else c :: replaceCharsFrom old new 0 cs

def replaceAll (s old new : String) : String :=
  String.ofList (replaceCharsFrom old.toList new.toList 0 s.toList)

/-! ## Lines -/

def isLineBreak (c : Char) : Bool :=
  let n := c.toNat
  (10 ≤ n && n ≤ 13) || (28 ≤ n && n ≤ 30) || n == 0x85 || n == 0x2028 || n == 0x2029

def linesFrom (cur : List Char) : List Char → List (List Char)
  | [] => if cur.isEmpty then [] else [cur.reverse]
  | '\r' :: '\n' :: cs => cur.reverse :: linesFrom [] cs
  | c :: cs => if isLineBreak c then cur.reverse :: linesFrom [] cs else linesFrom (c :: cur) cs

/-- The lines of a text, without the characters that end them. A break at the very end starts no
further line. -/
def lines (s : String) : List String := (linesFrom [] s.toList).map String.ofList

def unixChars : List Char → List Char
  | [] => []
  | '\r' :: '\n' :: cs => '\n' :: unixChars cs
  | '\r' :: cs => '\n' :: unixChars cs
  | c :: cs => c :: unixChars cs

def unixLines (s : String) : String := String.ofList (unixChars s.toList)

def keptLinesFrom (cur : List Char) : List Char → List (List Char)
  | [] => if cur.isEmpty then [] else [cur.reverse]
  | '\n' :: cs => ('\n' :: cur).reverse :: keptLinesFrom [] cs
  | c :: cs => keptLinesFrom (c :: cur) cs

def keptLines (s : String) : List String := (keptLinesFrom [] s.toList).map String.ofList

end RosAudit.Text
