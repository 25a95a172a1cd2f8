import Abacus.Command.Path
import Abacus.Text.Digit
import Abacus.Text.Quoted

/-!
# Command-line arguments

A command names one source and may carry options, in any order. Arguments are first told apart,
each by itself; then they are taken from left to right.

The rules are those that the standard reader of options had up to the early releases of its version
3.11, which differ from the later ones in two details: an attached value that is only `--` is
dropped, and the letters behind a help option are read before the help is shown. Later releases keep
the value, and show the help at once.

## Main definitions

* `Setting`, `Opt`: the options and their spellings
* `Arg`, `Arg.ofText`: arguments told apart
* `SettingValue`: what an option is set to
* `UsageError`, `Halt`: why a command is not carried out
* `Request`: what a command asks for
* `Request.parse`: the request of a command line
-/

namespace Abacus

/-- The options that take a value. -/
inductive Setting where
  /-- Where the module is written. -/
  | out
  /-- The name of the module. -/
  | moduleId
  deriving DecidableEq, Repr

/-- The options. -/
inductive Opt where
  /-- Show the help. -/
  | help
  /-- Log every instruction. -/
  | debug
  | setting (s : Setting)
  deriving DecidableEq, Repr

namespace Opt

/-- The spellings of the options, in the order in which they are tried. -/
def spellings : List (String × Opt) :=
  [("-h", help), ("--help", help), ("-o", setting .out), ("--module-id", setting .moduleId),
    ("--debug", debug)]

/-- The option of a full spelling. -/
def ofSpelling? (text : String) : Option Opt :=
  spellings.lookup text

/-- How a usage error names an option. -/
def label : Opt → String
  | help => "-h/--help"
  | debug => "--debug"
  | setting .out => "-o"
  | setting .moduleId => "--module-id"

end Opt

/-- Why a command line is refused. -/
inductive UsageError where
  /-- No source is named. -/
  | sourceRequired
  /-- Some arguments are neither options nor wanted. -/
  | unrecognized (args : List String)
  /-- An option lacks its value. -/
  | valueExpected (setting : Setting)
  /-- A value is attached to an option that takes none. -/
  | valueIgnored (opt : Opt) (value : String)
  /-- An abbreviation stands for several options. -/
  | ambiguous (arg : String) (spellings : List String)
  deriving DecidableEq, Repr

/-- A usage error in words. -/
def UsageError.message : UsageError → String
  | sourceRequired => "the following arguments are required: SRC"
  | unrecognized args => "unrecognized arguments: " ++ " ".intercalate args
  | valueExpected setting =>
    "argument " ++ (Opt.setting setting).label ++ ": expected one argument"
  | valueIgnored opt value =>
    "argument " ++ opt.label ++ ": ignored explicit argument " ++ Text.quoted value
  | ambiguous arg spellings =>
    "ambiguous option: " ++ arg ++ " could match " ++ ", ".intercalate spellings

/-- Why a command is not carried out: it asks for help, or its usage is wrong. -/
inductive Halt where
  | help
  | usage (e : UsageError)
  deriving DecidableEq, Repr

/-- A value in the same argument as its option. -/
inductive Attached where
  /-- After the equals sign of a long option. -/
  | marked (value : String)
  /-- Right after a one-letter option; an equals sign in between is dropped. -/
  | adjoined (letters : List Char)
  deriving DecidableEq, Repr

/-- An attached value by itself. -/
def Attached.value : Attached → String
  | marked value => value
  | adjoined letters => String.ofList letters

/-- An argument told apart. -/
inductive Arg where
  /-- A source or an option's value. -/
  | plain (text : String)
  /-- The argument after which all others are plain. -/
  | separator
  /-- An option, perhaps with a value. -/
  | option (opt : Opt) (attached? : Option Attached)
  /-- An argument that looks like an option but is none. -/
  | unknown (text : String)
  deriving DecidableEq, Repr

namespace Arg

/-- A negative number: a minus sign and digits, with or without a point before the last ones. One
line feed may follow. -/
def isNegativeNumber : List Char → Bool
  | '-' :: cs =>
    let cs := if cs.getLast? = some '\n' then cs.dropLast else cs
    let fraction := cs.dropWhile Text.isDecimalDigit
    (!cs.isEmpty && fraction.isEmpty) ||
      (fraction.head? = some '.' && 1 < fraction.length && fraction.tail.all Text.isDecimalDigit)
  | _ => false

/-- The text before the first equals sign, and the text after it as a value: two dashes begin a long
option, one dash a one-letter option. -/
def cutAtEquals (text : List Char) : String × Option Attached :=
  let name := String.ofList (text.takeWhile (· ≠ '='))
  match text.dropWhile (· ≠ '=') with
  | [] => (name, none)
  | _ :: value =>
    match text with
    | '-' :: '-' :: _ => (name, some (.marked (String.ofList value)))
    | _ => (name, some (.adjoined value))

/-- The options that an argument may stand for when it is no full spelling: two dashes begin an
abbreviation, one dash and a letter an option with its value adjoined. -/
def candidates (text : List Char) : List (String × Opt × Option Attached) :=
  match text with
  | '-' :: '-' :: _ =>
    let (name, attached?) := cutAtEquals text
    Opt.spellings.filterMap fun (spelling, opt) =>
      if name.toList.isPrefixOf spelling.toList then some (spelling, opt, attached?) else none
  | _ =>
    Opt.spellings.filterMap fun (spelling, opt) =>
      if spelling.toList = text.take 2 then
        some (spelling, opt, some (.adjoined (text.drop 2)))
      else none

/-- **An argument before the separator.** It is an option when it spells one in full, with or
without a value after an equals sign, or when it stands for exactly one. Otherwise it is plain if it
does not begin with a dash, is a lone dash, is a negative number, or has a space in it. -/
def ofText (text : String) : Except UsageError Arg :=
  let cs := text.toList
  if cs.head? ≠ some '-' then .ok (.plain text)
  else
    match Opt.ofSpelling? text with
    | some opt => .ok (.option opt none)
    | none =>
      if cs.length = 1 then .ok (.plain text)
      else
        match cutAtEquals cs with
        | (name, some value) =>
          match Opt.ofSpelling? name with
          | some opt => .ok (.option opt (some value))
          | none => ofCandidates cs (candidates cs)
        | (_, none) => ofCandidates cs (candidates cs)
where
  /-- An argument that may stand for some options. -/
  ofCandidates (cs : List Char) : List (String × Opt × Option Attached) → Except UsageError Arg
    | [] =>
      if isNegativeNumber cs || cs.contains ' ' then .ok (.plain (String.ofList cs))
      else .ok (.unknown (String.ofList cs))
    | [(_, opt, attached?)] => .ok (.option opt attached?)
    | several => .error (.ambiguous (String.ofList cs) (several.map (·.1)))

/-- All arguments told apart; behind the separator all are plain. -/
def ofTexts : List String → Except UsageError (List Arg)
  | [] => .ok []
  | text :: rest =>
    if text = "--" then .ok (.separator :: rest.map .plain)
    else do
      let arg ← ofText text
      return arg :: (← ofTexts rest)

end Arg

/-- What an option is set to. -/
inductive SettingValue where
  | text (value : String)
  /-- An attached value that is only the separator is dropped, and nothing takes its place. The
  releases after the early ones of 3.11 keep it. -/
  | dropped
  deriving DecidableEq, Repr

namespace SettingValue

/-- The setting that an attached value makes. -/
def ofAttached (a : Attached) : SettingValue :=
  if a.value = "--" then dropped else text a.value

/-- A setting as it is written out: a dropped one is an empty list. -/
def written : SettingValue → String
  | text value => value
  | dropped => "[]"

end SettingValue

/-- What a command asks for. -/
structure Request where
  source : String
  out? : Option SettingValue := none
  moduleId? : Option SettingValue := none
  debug : Bool := false
  deriving DecidableEq, Repr

namespace Request

/-- The path that the module is written to; there is none when the value of the option was
dropped. -/
def output? (r : Request) : Option String :=
  match r.out? with
  | none => some (Path.defaultOutput r.source)
  | some (.text path) => some path
  | some .dropped => none

/-- The name of the module. -/
def moduleId (r : Request) : String :=
  (r.moduleId?.map SettingValue.written).getD (Path.defaultModuleId r.source)

/-- The part of a request that is known so far, and the arguments that nothing takes. -/
structure Draft where
  source? : Option String := none
  out? : Option SettingValue := none
  moduleId? : Option SettingValue := none
  debug : Bool := false
  extras : List String := []
  deriving DecidableEq, Repr

/-- One more argument that nothing takes. -/
def Draft.extra (d : Draft) (text : String) : Draft :=
  { d with extras := d.extras ++ [text] }

/-- Set the value of an option; the last one counts. -/
def Draft.set (d : Draft) (setting : Setting) (value : SettingValue) : Draft :=
  match setting with
  | .out => { d with out? := some value }
  | .moduleId => { d with moduleId? := some value }

/-- A plain argument that no option takes: the first is the source. -/
def Draft.plain (d : Draft) (text : String) : Draft :=
  if d.source?.isNone then { d with source? := some text } else d.extra text

/-- What letters behind a help option lead to. They are one-letter options in turn: help options,
and the output option with the rest as its value. `valueFollows` says whether the next argument can
be a value. The releases after the early ones of 3.11 show the help without a look at them. -/
def helpCluster (valueFollows : Bool) : List Char → Halt
  | [] => .help
  | 'h' :: rest => helpCluster valueFollows rest
  | ['o'] => if valueFollows then .help else .usage (.valueExpected .out)
  | 'o' :: _ => .help
  | letters => .usage (.valueIgnored .help (String.ofList letters))

/-- Whether the next argument can be a value. -/
def valueFollows : List Arg → Bool
  | .plain _ :: _ => true
  | _ => false

/-- **Take the arguments from left to right.** The first plain argument that no option takes is the
source; a separator right before or right after it is dropped. -/
def take : List Arg → Draft → Except Halt Draft
  | [], d => .ok d
  | .plain text :: .separator :: rest, d =>
    take rest (if d.source?.isNone then d.plain text else (d.plain text).extra "--")
  | .plain text :: rest, d => take rest (d.plain text)
  | .separator :: rest, d =>
    take rest (if d.source?.isNone && valueFollows rest then d else d.extra "--")
  | .unknown text :: rest, d => take rest (d.extra text)
  | .option .help none :: _, _ => .error .help
  | .option .help (some (.marked value)) :: _, _ => .error (.usage (.valueIgnored .help value))
  | .option .help (some (.adjoined [])) :: _, _ => .error (.usage (.valueIgnored .help ""))
  | .option .help (some (.adjoined letters)) :: rest, _ =>
    .error (helpCluster (valueFollows rest) letters)
  | .option .debug none :: rest, d => take rest { d with debug := true }
  | .option .debug (some attached) :: _, _ =>
    .error (.usage (.valueIgnored .debug attached.value))
  | .option (.setting setting) (some attached) :: rest, d =>
    take rest (d.set setting (.ofAttached attached))
  | .option (.setting setting) none :: .plain value :: rest, d =>
    take rest (d.set setting (.text value))
  | .option (.setting setting) none :: _, _ => .error (.usage (.valueExpected setting))

/-- **The request of a command line.** A missing source counts before arguments that nothing
takes. -/
def parse (args : List String) : Except Halt Request := do
  let args ← (Arg.ofTexts args).mapError .usage
  let d ← take args {}
  match d.source?, d.extras with
  | none, _ => throw (.usage .sourceRequired)
  | some _, extra :: extras => throw (.usage (.unrecognized (extra :: extras)))
  | some source, [] =>
    return { source, out? := d.out?, moduleId? := d.moduleId?, debug := d.debug }

end Request

end Abacus
