import RosAudit.Value

/-!
# Reading command lines

A grammar says which options a command line may have and what follows them. Options may be
shortened as long as they stay unambiguous, a value may be joined to its option, and options of one
letter may be put together. Everything after `--` is plain.

`Grammar.read` reads a command line. It stops with exit code 2 where the line is not well-formed
and with exit code 0 where help is asked for; what it does not understand is left over.
-/

namespace RosAudit.CommandLine

inductive Arity where
  | flag
  | one
  | many
  | help
  deriving DecidableEq

/-- An option: how it is written, where its value goes, and which other options it excludes. -/
structure Opt where
  flags : List String
  target : String
  arity : Arity
  initial : Value := .null
  rivals : List String := []

inductive Plain where
  | nothing
  | value (target : String)
  | command

/-- The options of a command line and what it expects beside them. -/
structure Grammar where
  options : List Opt
  plain : Plain := .nothing
  constants : List (String × Value) := []

abbrev Reading (α : Type) := Except Nat α

def misuse {α : Type} : Reading α := .error 2

def helpOption : Opt := { flags := ["-h", "--help"], target := "help", arity := .help }

structure Sense where
  option : Opt
  flag : String
  joined : Option (Bool × String) := none

inductive Token where
  | plain (word : String)
  | divider
  | option (word : String) (sense : Option Sense)

def Token.word : Token → String
  | .plain w => w
  | .divider => "--"
  | .option w _ => w

def Token.isOption : Token → Bool
  | .option _ _ => true
  | _ => false

def Token.isPlain : Token → Bool
  | .plain _ => true
  | _ => false

/-! ## Words -/

def cutAtEquals (word : String) : Option (String × String) :=
  match word.toList.span (· != '=') with
  | (_, []) => none
  | (a, _ :: b) => some (String.ofList a, String.ofList b)

def isNegativeNumber (word : String) : Bool :=
  let word := match word.toList.reverse with
    | '\n' :: cs => cs.reverse
    | _ => word.toList
  match word with
  | '-' :: cs =>
    let (whole, rest) := cs.span Text.isDecimal
    match rest with
    | [] => !whole.isEmpty
    | '.' :: part => !part.isEmpty && part.all Text.isDecimal
    | _ => false
  | _ => false

namespace Grammar

variable (g : Grammar)

def spellings : List (String × Opt) :=
  (helpOption :: g.options).flatMap fun o => o.flags.map fun f => (f, o)

def longSenses (word : String) : List Sense :=
  let (lead, joined) := match cutAtEquals word with
    | some (a, b) => (a, some (true, b))
    | none => (word, none)
  g.spellings.filterMap fun (f, o) =>
    if Text.startsWith lead.toList f.toList then some ⟨o, f, joined⟩ else none

/-- The senses of a word that starts with one dash: an option of one letter with a value joined to
it, or an option that the word shortens. -/
def shortSenses (word : String) : List Sense :=
  let letter := String.ofList (word.toList.take 2)
  let rest := String.ofList (word.toList.drop 2)
  g.spellings.filterMap fun (f, o) =>
    if f == letter then some ⟨o, f, some (false, rest)⟩
    else if Text.startsWith word.toList f.toList then some ⟨o, f, none⟩
    else none

def classify (word : String) : Reading Token :=
  match word.toList with
  | [] | ['-'] => pure (.plain word)
  | '-' :: c :: _ =>
    match g.spellings.lookup word with
    | some o => pure (.option word (some ⟨o, word, none⟩))
    | none =>
      let exact := (cutAtEquals word).bind fun (a, b) =>
        (g.spellings.lookup a).map fun o => (⟨o, a, some (true, b)⟩ : Sense)
      match exact with
      | some s => pure (.option word (some s))
      | none =>
        match if c == '-' then g.longSenses word else g.shortSenses word with
        | [s] => pure (.option word (some s))
        | _ :: _ :: _ => misuse
        | [] =>
          if isNegativeNumber word || word.toList.contains ' ' then pure (.plain word)
          else pure (.option word none)
  | _ => pure (.plain word)

def tokens : List String → Reading (List Token)
  | [] => pure []
  | "--" :: rest => pure (.divider :: rest.map .plain)
  | w :: rest => do
    let t ← g.classify w
    let ts ← tokens rest
    pure (t :: ts)

end Grammar

/-! ## Options -/

structure Progress where
  values : Table String Value
  given : List String := []
  leftover : List String := []
  plainDone : Bool := false

/-- An option with the values that follow it. -/
structure Use where
  option : Opt
  words : List String

def Progress.take (p : Progress) (u : Use) : Reading Progress :=
  let o := u.option
  if p.given.any o.rivals.contains then misuse
  else
    let p := { p with given := o.target :: p.given }
    match o.arity, u.words with
    | .help, _ => .error 0
    | .flag, _ => pure { p with values := p.values.put o.target (.bool true) }
    | .one, [w] => pure { p with values := p.values.put o.target (.text w) }
    | .one, _ => misuse
    | .many, ws => pure { p with values := p.values.put o.target (.texts ws) }

def Opt.isBare (o : Opt) : Bool := o.arity = .flag || o.arity = .help

def takeLetters (g : Grammar) (o : Opt) : Bool → List Char →
    Reading (List Use × List String × Option Opt)
  | _, [] => pure ([], [], some o)
  | equals, c :: cs =>
    if !o.isBare then pure ([⟨o, [String.ofList (c :: cs)]⟩], [], none)
    else if equals || c == '-' then misuse
    else
      match g.spellings.lookup (String.ofList ['-', c]) with
      | none => pure ([⟨o, []⟩], [String.ofList ('-' :: c :: cs)], none)
      | some next =>
        match cs with
        | '=' :: ds =>
          if next.isBare then misuse
          else pure ([⟨o, []⟩, ⟨next, [String.ofList ds]⟩], [], none)
        | _ => do
          let (us, left, open_) ← takeLetters g next false cs
          pure (⟨o, []⟩ :: us, left, open_)

def takeFollowing (o : Opt) (rest : List Token) : Reading (Use × List Token) :=
  match o.arity with
  | .flag | .help => pure (⟨o, []⟩, rest)
  | .one =>
    match rest with
    | .plain w :: rest => pure (⟨o, [w]⟩, rest)
    | _ => misuse
  | .many => pure (⟨o, (rest.takeWhile Token.isPlain).map Token.word⟩, rest.dropWhile Token.isPlain)

def takeOption (g : Grammar) (s : Sense) (rest : List Token) (p : Progress) :
    Reading (Progress × List Token) := do
  match s.joined with
  | none =>
    let (u, rest) ← takeFollowing s.option rest
    pure (← p.take u, rest)
  | some (equals, value) =>
    if !s.option.isBare then pure (← p.take ⟨s.option, [value]⟩, rest)
    else if value.isEmpty || (s.flag.toList.drop 1).head? == some '-' then misuse
    else
      let (us, left, open_) ← takeLetters g s.option equals value.toList
      let (us, rest) ← match open_ with
        | none => pure (us, rest)
        | some o => do
          let (u, rest) ← takeFollowing o rest
          pure (us ++ [u], rest)
      let p ← us.foldlM Progress.take { p with leftover := p.leftover ++ left }
      pure (p, rest)

/-! ## Whole lines -/

abbrev CommandReader := List String → Reading (Table String Value × List String)

def takePlain (g : Grammar) (command : CommandReader) (ts : List Token) (p : Progress) :
    Reading (Option (Progress × List Token)) :=
  if p.plainDone then pure none
  else
    let (lead, rest) := match ts with
      | .divider :: rest => ([Token.divider], rest)
      | ts => ([], ts)
    match g.plain, rest with
    | .value target, .plain w :: rest =>
      let rest := match rest with
        | .divider :: rest => rest
        | rest => rest
      pure (some ({ p with plainDone := true, values := p.values.put target (.text w) }, rest))
    | .command, .plain w :: rest => do
      let (values, left) ← command ((lead.map Token.word) ++ w :: rest.map Token.word)
      pure (some ({ p with plainDone := true, values := p.values.merge values
                           leftover := p.leftover ++ left }, []))
    | _, _ => pure none

def readTokens (g : Grammar) (command : CommandReader) : Nat → List Token → Progress →
    Reading Progress
  | 0, _, p => pure p
  | fuel + 1, ts, p => do
    match ts with
    | [] => pure p
    | .option w none :: rest =>
      readTokens g command fuel rest { p with leftover := p.leftover ++ [w] }
    | .option _ (some s) :: rest =>
      let (p, rest) ← takeOption g s rest p
      readTokens g command fuel rest p
    | ts =>
      match ← takePlain g command ts p with
      | some (p, rest) => readTokens g command fuel rest p
      | none =>
        let skipped := (ts.takeWhile fun t => !t.isOption).map Token.word
        readTokens g command fuel (ts.dropWhile fun t => !t.isOption)
          { p with leftover := p.leftover ++ skipped }

def Plain.isRequired : Plain → Bool
  | .value _ => true
  | _ => false

def Grammar.initial (g : Grammar) : Table String Value :=
  let plain := match g.plain with
    | .value target => [(target, Value.null)]
    | _ => []
  Table.ofList ((g.options.map fun o => (o.target, o.initial)) ++ plain ++ g.constants)

def Grammar.read (g : Grammar) (command : CommandReader) (words : List String) :
    Reading (Table String Value × List String) := do
  let ts ← g.tokens words
  let p ← readTokens g command (2 * ts.length + 1) ts { values := g.initial }
  if g.plain.isRequired && !p.plainDone then misuse
  else pure (p.values, p.leftover)

def readCommands (g : Grammar) (commands : List (String × Grammar)) (words : List String) :
    Reading (Table String Value) := do
  let command : CommandReader := fun
    | [] => misuse
    | name :: rest =>
      match commands.lookup name with
      | none => misuse
      | some sub => sub.read (fun _ => misuse) rest
  let (values, left) ← g.read command words
  if left.isEmpty then pure values else misuse

end RosAudit.CommandLine
