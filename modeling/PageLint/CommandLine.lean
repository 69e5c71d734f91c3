import PageLint.Check.Options
/-!
# The command line

Arguments are read from left to right, first those of the program and then those of
the command. Long options take their value after an equals sign or as the next
argument; short ones may be written together, the last of them with its value. Two
dashes end the options. An option may be given once before the command and once
after it; the latter counts.
-/

namespace PageLint

/-- What the program is asked to do. -/
inductive Command where
  | check (options : CheckOptions)
  | version
  | help
  /-- The arguments make no sense. -/
  | refused
deriving DecidableEq

namespace CommandLine

def version : String := "vellum 0.1.0\n"

def usage : String :=
  "Usage: vellum [OPTIONS] check [OPTIONS] [PATH]...\n\n" ++
  "Checks documents and prints their warnings.\n\n" ++
  "  -q, --quiet              say nothing but the warnings\n" ++
  "  -v, --verbose            list every document\n" ++
  "      --color <WHEN>       auto, always or never\n" ++
  "      --config <PATH>      the configuration or its directory\n" ++
  "      --verbosity <HOW>    full or one-line\n" ++
  "  -f, --format <FORMAT>    text or json\n" ++
  "      --parallel           resolve on all cores\n" ++
  "  -h, --help               say this\n" ++
  "  -V, --version            say the version\n"

inductive Switch where
  | quiet
  | verbose
  | color
  | config
  | verbosity
  | format
  | parallel
  | help
  | version
deriving DecidableEq

/-- Where in the arguments an option stands. -/
inductive Scope where
  | program
  | check
deriving DecidableEq

namespace Switch

def takesValue : Switch → Bool
  | .color => true
  | .config => true
  | .verbosity => true
  | .format => true
  | _ => false

/-- Whether a text can be the value of an option. -/
def accepts (value : String) : Switch → Bool
  | .color => (ColorChoice.ofName? value).isSome
  | .verbosity => (Verbosity.ofName? value).isSome
  | .format => (ReportFormat.ofName? value).isSome
  | _ => true

end Switch

namespace Scope

/-- The long names of the options, after two dashes. -/
def longNames : Scope → List (String × Switch)
  | .program => [("quiet", .quiet), ("verbose", .verbose), ("color", .color),
      ("config", .config), ("help", .help), ("version", .version)]
  | .check => [("quiet", .quiet), ("verbose", .verbose), ("color", .color),
      ("config", .config), ("help", .help), ("verbosity", .verbosity), ("format", .format),
      ("parallel", .parallel)]

/-- The short names of the options, after one dash. -/
def shortNames : Scope → List (Char × Switch)
  | .program => [('q', .quiet), ('v', .verbose), ('h', .help), ('V', .version)]
  | .check => [('q', .quiet), ('v', .verbose), ('h', .help), ('f', .format)]

end Scope

/-- What was given in the arguments up to some place. -/
structure Given where
  switched : List Switch
  values : List (Switch × String)
  paths : List String
  /-- The last option with a value of its own argument, and that argument once it has
  come. -/
  waiting : Option (Switch × Option String)

namespace Given

def nothing : Given := ⟨[], [], [], none⟩

/-- Takes in an option with its value, which must not come twice. -/
def take (given : Given) (switch : Switch) (value : String) : Except Command Given :=
  if (given.values.lookup switch).isSome || !switch.accepts value then .error .refused
  else .ok { given with values := (switch, value) :: given.values }

/-- Takes in the option that waits, if there is one. -/
def settle (given : Given) : Except Command Given :=
  match given.waiting with
  | none => .ok given
  | some (_, none) => .error .refused
  | some (switch, some value) => { given with waiting := none }.take switch value

/-- Takes in an option without value, which must not come twice. -/
def switchOn (given : Given) (switch : Switch) : Except Command Given := do
  let given ← given.settle
  if switch = .help then .error .help
  else if switch = .version then .error .version
  else if given.switched.contains switch then .error .refused
  else .ok { given with switched := switch :: given.switched }

/-- Takes in an option with its value, after those before it. -/
def setTo (given : Given) (switch : Switch) (value : List Char) : Except Command Given := do
  let given ← given.settle
  given.take switch (String.ofList value)

/-- Takes in an option whose value is the next argument. -/
def await (given : Given) (switch : Switch) : Except Command Given := do
  let given ← given.settle
  pure { given with waiting := some (switch, none) }

def addPath (given : Given) (path : String) : Except Command Given := do
  let given ← given.settle
  if path = "" then .error .refused else .ok { given with paths := given.paths ++ [path] }

end Given

/-- Reads a long option after its dashes. -/
def readLong (scope : Scope) (given : Given) (cs : List Char) : Except Command Given :=
  match scope.longNames.lookup (String.ofList (cs.takeWhile (· ≠ '='))),
    cs.dropWhile (· ≠ '=') with
  | none, _ => .error .refused
  | some switch, [] => if switch.takesValue then given.await switch else given.switchOn switch
  | some switch, _ :: value =>
    if switch.takesValue then given.setTo switch value else .error .refused

/-- Reads short options after their dash. -/
def readShort (scope : Scope) (given : Given) : List Char → Except Command Given
  | [] => .ok given
  | c :: rest =>
    match scope.shortNames.lookup c with
    | none => .error .refused
    | some switch =>
      if switch.takesValue then
        match rest with
        | [] => given.await switch
        | '=' :: value => given.setTo switch value
        | value => given.setTo switch value
      else do
        let given ← given.switchOn switch
        readShort scope given rest

/-- Reads an argument that is an option or the value of one; gives nothing for any
other. -/
def readOption? (scope : Scope) (given : Given) (argument : String) :
    Option (Except Command Given) :=
  match argument.toList, given.waiting with
  | '-' :: '-' :: name, _ => some (readLong scope given name)
  | '-' :: c :: rest, _ => some (readShort scope given (c :: rest))
  | _, some (switch, none) => some (.ok { given with waiting := some (switch, some argument) })
  | _, _ => none

def readCheck (given : Given) : List String → Except Command Given
  | [] => given.settle
  | "--" :: rest => do
    let given ← rest.foldlM Given.addPath given
    given.settle
  | argument :: rest => do
    let given ← (readOption? .check given argument).getD (given.addPath argument)
    readCheck given rest

/-- Reads the arguments of the program up to the command; gives the command with
what follows it. -/
def readProgram (given : Given) : List String → Except Command (Given × List String)
  | [] => .error .refused
  | "--" :: _ => .error .refused
  | argument :: rest =>
    match readOption? .program given argument with
    | some read => do
      let given ← read
      readProgram given rest
    | none => .ok (given, argument :: rest)

/-- The options of a check that were given before and after the command. -/
def checkOptions (outer inner : Given) : CheckOptions where
  quiet := (outer.switched ++ inner.switched).contains .quiet
  verbose := (outer.switched ++ inner.switched).contains .verbose
  color := (((inner.values ++ outer.values).lookup .color).bind ColorChoice.ofName?).getD .auto
  config := ((inner.values ++ outer.values).lookup .config).map Path.mk
  paths := if inner.paths = [] then [⟨"."⟩] else inner.paths.map Path.mk
  verbosity := (inner.values.lookup .verbosity).bind Verbosity.ofName?
  format := (inner.values.lookup .format).bind ReportFormat.ofName?
  parallel := inner.switched.contains .parallel

/-- Reads a command and its arguments. A value that comes right before the command
is looked at only after the command. -/
def readCommand (outer : Given) : List String → Except Command Command
  | "check" :: arguments => do
    let inner ← readCheck .nothing arguments
    let outer ← outer.settle
    pure (.check (checkOptions outer inner))
  | ["help"] => .ok .help
  | ["help", "check"] => .ok .help
  | ["help", "help"] => .ok .help
  | _ => .error .refused

/-- What the program is asked to do by its arguments. -/
def parse (arguments : List String) : Command :=
  let read := do
    let (outer, rest) ← readProgram .nothing arguments
    readCommand outer rest
  match read with
  | .ok command => command
  | .error command => command

end CommandLine

end PageLint
