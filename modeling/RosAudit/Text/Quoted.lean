import RosAudit.Text.Letter

/-!
# Quoted text

Messages quote the texts they talk about: `quote s` is `s` between single quotes, or between
double quotes when it holds a single quote and no double one. Backslashes, the quote in use and
characters that cannot be shown are written as escapes.
-/

namespace RosAudit.Text

def isPrintable (c : Char) : Bool :=
  if c.toNat ≤ 127 then 32 ≤ c.toNat && c.toNat < 127 else kindIn kindRuns c.toNat != 2

def hexDigits (width n : Nat) : List Char :=
  let ds := Nat.toDigits 16 n
  List.replicate (width - ds.length) '0' ++ ds

/-- The escape of a character that cannot be shown: two, four or eight hexadecimal digits. -/
def escapeHidden (c : Char) : List Char :=
  let n := c.toNat
  if n ≤ 0xff then '\\' :: 'x' :: hexDigits 2 n
  else if n ≤ 0xffff then '\\' :: 'u' :: hexDigits 4 n
  else '\\' :: 'U' :: hexDigits 8 n

def escapeChar (q c : Char) : List Char :=
  if c == q || c == '\\' then ['\\', c]
  else if c == '\n' then ['\\', 'n']
  else if c == '\r' then ['\\', 'r']
  else if c == '\t' then ['\\', 't']
  else if isPrintable c then [c]
  else escapeHidden c

/-- The quote a text is put into: single, unless it would have to be escaped and the double
one would not. -/
def quoteFor (cs : List Char) : Char :=
  if cs.contains '\x27' && !cs.contains '"' then '"' else '\x27'

def quote (s : String) : String :=
  let q := quoteFor s.toList
  String.ofList (q :: s.toList.flatMap (escapeChar q) ++ [q])

end RosAudit.Text
