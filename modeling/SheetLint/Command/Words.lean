import SheetLint.Command.Basic

/-
  Commands as words. The words before the name of the command hold options that every command has,
  those after it also the options of the command. A word that starts with two dashes is one option,
  with a value after an equals sign or in the next word; one that starts with a single dash holds
  options of one letter, the last of which may be followed by its value. After two dashes alone no
  word is an option. Words are read one after the other up to the first that cannot be.
-/

namespace SheetLint

/-- An option. -/
inductive Opt
  | verbose
  | quiet
  | color
  | noConfig
  | version
  | config
  | fix
  | extensions
  | exclude
  | format
  | output
  | force
deriving DecidableEq, Repr

namespace Opt

/-- Whether an option has a value. -/
def hasValue : Opt → Bool
  | color | config | extensions | exclude | format | output => true
  | _ => false

/-- The long name of an option. -/
def long : Opt → String
  | verbose => "verbose"
  | quiet => "quiet"
  | color => "color"
  | noConfig => "no-config"
  | version => "version"
  | config => "config"
  | fix => "fix"
  | extensions => "ext"
  | exclude => "exclude"
  | format => "format"
  | output => "output"
  | force => "force"

/-- The letter of an option, if it has one. -/
def short? : Opt → Option Char
  | verbose => some 'v'
  | quiet => some 'q'
  | version => some 'V'
  | config => some 'c'
  | exclude => some 'x'
  | format => some 'f'
  | output => some 'o'
  | _ => none

/-- The options that every command has. -/
def general : List Opt := [verbose, quiet, color, noConfig]

/-- The options before the name of a command. -/
def ofProgram : List Opt := version :: general

/-- The options of a check. -/
def ofCheck : List Opt := general ++ [config, fix, extensions, exclude, format, output]

/-- The options of the start of a configuration file. -/
def ofInit : List Opt := general ++ [output, force]

end Opt

/-- What words have said so far. -/
structure Given where
  verbose : Nat := 0
  quiet : Bool := false
  color : Option ColorChoice := none
  noConfig : Bool := false
  config : Option Path := none
  fix : Bool := false
  extensions : Option (List String) := none
  exclude : List String := []
  format : Option Format := none
  output : Option Path := none
  force : Bool := false
  /-- The words that are no options. -/
  operands : List Text := []
deriving DecidableEq, Repr

namespace Given

/-- A path may not be empty. -/
def path? (s : Text) : Option Path := if s = [] then none else some s

/-- A value for an option that may have one only. -/
def once {α : Type} (old new : Option α) : Option α := if old.isSome then none else new

/-- Takes in an option. One that is there to be said once may not be said again. -/
def put (g : Given) (o : Opt) (value : Text) : Option Given :=
  match o with
  | .verbose => some { g with verbose := g.verbose + 1 }
  | .quiet => if g.quiet then none else some { g with quiet := true }
  | .color => (once g.color (ColorChoice.ofName? value)).map fun c => { g with color := some c }
  | .noConfig => if g.noConfig then none else some { g with noConfig := true }
  | .version => some g
  | .config => (once g.config (path? value)).map fun p => { g with config := some p }
  | .fix => if g.fix then none else some { g with fix := true }
  | .extensions =>
    some { g with
      extensions := some (g.extensions.getD [] ++ (Text.split ',' value).map String.ofList) }
  | .exclude => some { g with exclude := g.exclude ++ [String.ofList value] }
  | .format => (once g.format (Format.ofName? value)).map fun f => { g with format := some f }
  | .output => (once g.output (path? value)).map fun p => { g with output := some p }
  | .force => if g.force then none else some { g with force := true }

/-- What is said after the name of a command, and before it where it is not said after it. -/
def within (inner outer : Given) : Given :=
  { inner with
    verbose := if inner.verbose = 0 then outer.verbose else inner.verbose
    quiet := inner.quiet || outer.quiet
    color := inner.color.or outer.color
    noConfig := inner.noConfig || outer.noConfig }

end Given

namespace Words

/-- What reading the options of one letter in a word gives. -/
inductive Letters
  | finished (g : Given)
  /-- The value of the last option is the next word. -/
  | pending (g : Given) (o : Opt)
  | version

/-- Reads the options of one letter in a word. -/
def readLetters (options : List Opt) (g : Given) : Text → Option Letters
  | [] => some (.finished g)
  | c :: s => do
    let o ← options.find? (·.short? == some c)
    if o = .version then return .version
    else if o.hasValue then
      match s with
      | [] => return .pending g o
      | '=' :: value => return .finished (← g.put o value)
      | value => return .finished (← g.put o value)
    else readLetters options (← g.put o []) s

/-- Reads an option with a long name, without its dashes. -/
def readLong (options : List Opt) (g : Given) (s : Text) : Option Letters := do
  let name := s.takeWhile (· ≠ '=')
  let o ← options.find? (·.long.toList == name)
  match s.drop name.length with
  | _ :: value => if o.hasValue then return .finished (← g.put o value) else none
  | [] =>
    if o = .version then return .version
    else if o.hasValue then return .pending g o
    else return .finished (← g.put o [])

/-- Whether a word can be the value of the option before it. -/
def isValue : Text → Bool
  | ['-'] => true
  | '-' :: _ => false
  | _ => true

/-- What reading words gives. -/
inductive Reading
  | finished (g : Given)
  /-- A word that is no option, and the words after it. -/
  | stopped (g : Given) (word : Text) (rest : List Text)
  | version

/-- Reads words with the given options, all of them or up to the first that is no option. -/
def read (options : List Opt) (all : Bool) (g : Given) : List Text → Option Reading
  | [] => some (.finished g)
  | ['-', '-'] :: ws =>
    if all then some (.finished { g with operands := g.operands ++ ws }) else none
  | w :: ws =>
    let letters : Option Letters :=
      match w with
      | '-' :: '-' :: s => readLong options g s
      | '-' :: c :: s => readLetters options g (c :: s)
      | _ => none
    if isValue w then
      if all then read options all { g with operands := g.operands ++ [w] } ws
      else some (.stopped g w ws)
    else
      match letters, ws with
      | some (.finished g), ws => read options all g ws
      | some (.pending g o), value :: ws =>
        if isValue value then
          match g.put o value with
          | some g => read options all g ws
          | none => none
        else none
      | some .version, _ => some .version
      | _, _ => none

/-- The command to check, with its options. -/
def checkOf (g : Given) : Option Command := do
  let paths ← g.operands.mapM Given.path?
  let standard : CheckOptions := {}
  return .check
    { verbose := g.verbose, quiet := g.quiet, color := g.color.getD .auto, noConfig := g.noConfig }
    { paths := if paths.isEmpty then standard.paths else paths
      config := g.config
      mode := if g.fix then .fix else .report
      extensions := g.extensions
      exclude := g.exclude
      format := g.format.getD standard.format
      output := g.output }

/-- The command to start a configuration file, with its options. -/
def initOf (g : Given) : Option Command :=
  let standard : InitOptions := {}
  if g.operands = [] then some (.init { output := g.output.getD standard.output, force := g.force })
  else none

/-- The command that words say, if they say one. -/
def command? (ws : List Text) : Option Command := do
  match ← read Opt.ofProgram false {} ws with
  | .version => return .version
  | .finished _ => none
  | .stopped outer name rest =>
    let inner (options : List Opt) : Option Given :=
      match read options true {} rest with
      | some (.finished g) => some (g.within outer)
      | _ => none
    if name = "check".toList then checkOf (← inner Opt.ofCheck)
    else if name = "init".toList then initOf (← inner Opt.ofInit)
    else none

end Words

end SheetLint
