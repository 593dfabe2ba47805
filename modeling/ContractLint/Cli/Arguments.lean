import ContractLint.Cli.Request

/-!
# Arguments

The arguments are read from left to right. Options that stand before the command belong to the top
level, those after it to the command, and each may be given once at its level. The value of an
option follows it as the next argument, or directly: `-p x`, `-px`, `-p=x`, `--path x`, `--path=x`.
Flags of one letter can be run together. An argument that starts with a dash is never the value of
the option before it, unless it is a dash alone; after `--` every argument is a plain word.

The first argument that is not understood, or that asks for help or the version, decides.
-/

namespace ContractLint.Cli

/-- What can be given at a level. -/
inductive Slot where
  /-- A flag for more log lines. It changes nothing else. -/
  | verbose
  /-- The settings file. -/
  | settings
  /-- The project directory. -/
  | project
  /-- The format of the listing. -/
  | format
  | assertsOnly
  | style
  | force
  /-- The word after a command. -/
  | mode
  | help
  | version
  deriving DecidableEq, Repr

namespace Slot

/-- The long name of an option. -/
def longName? : Slot → Option Text
  | verbose => some "verbose"
  | settings => some "config"
  | project => some "path"
  | format => some "format"
  | assertsOnly => some "asserts-only"
  | style => some "style"
  | force => some "force"
  | mode => none
  | help => some "help"
  | version => some "version"

/-- The letter of an option. -/
def letter? : Slot → Option Char
  | verbose => some 'v'
  | settings => some 'c'
  | project => some 'p'
  | format => some 'f'
  | help => some 'h'
  | version => some 'V'
  | _ => none

/-- Whether an option needs a value. The others are flags. -/
def takesValue : Slot → Bool
  | settings | project | format | style | mode => true
  | _ => false

/-- Whether a value is allowed. Flags have the empty value. -/
def accepts (t : Text) : Slot → Bool
  | settings | project => !t.isEmpty
  | format => (Format.ofName? t).isSome
  | style => (PreconditionStyle.ofName? t).isSome
  | mode => t == "fix".toList
  | _ => t.isEmpty

end Slot

/-- The commands. -/
inductive Command where
  | contracts
  | tests
  | coverage
  | listRules
  | init
  deriving DecidableEq, Repr

namespace Command

/-- The word for a command. -/
def name : Command → Text
  | contracts => "contracts"
  | tests => "tests"
  | coverage => "coverage"
  | listRules => "list-rules"
  | init => "init"

/-- Every command. -/
def all : List Command := [contracts, tests, coverage, listRules, init]

/-- The command that a word stands for. -/
def ofName? (t : Text) : Option Command := all.find? (·.name == t)

/-- What can be given to a command. -/
def slots : Command → List Slot
  | contracts => [.mode, .project, .format, .verbose, .settings, .help]
  | tests => [.project, .format, .verbose, .settings, .help]
  | coverage => [.project, .assertsOnly, .style, .verbose, .settings, .help]
  | listRules => [.verbose, .settings, .help]
  | init => [.force, .verbose, .settings, .help]

end Command

/-- What can be given before the command. -/
def topSlots : List Slot := [.verbose, .settings, .help, .version]

/-! ## One argument -/

/-- The look of an argument. -/
inductive Shape where
  /-- `--` alone. -/
  | escape
  /-- `--name` or `--name=value`. -/
  | long (name : Text) (value : Option Text)
  /-- `-` and at least one letter. -/
  | letters (letters : Text)
  /-- Anything else. -/
  | word
  deriving DecidableEq, Repr

/-- The look of an argument. -/
def Shape.ofText : Text → Shape
  | ['-', '-'] => .escape
  | '-' :: '-' :: rest =>
    match Text.cut ['='] rest with
    | some (name, value) => .long name (some value)
    | none => .long rest none
  | '-' :: c :: rest => .letters (c :: rest)
  | _ => .word

/-- The slots that have been filled at a level, with their values. -/
abbrev Given := List (Slot × Text)

namespace Given

/-- Fills a slot, which must be empty and must accept the value. -/
def fill (given : Given) (slot : Slot) (value : Text) : Except Stop Given :=
  match slot with
  | .help => .error .help
  | .version => .error .version
  | slot =>
    if (given.lookup slot).isSome || !slot.accepts value then .error .usage
    else .ok ((slot, value) :: given)

/-- Fills the slot of a word that is no option. -/
def fillWord (slots : List Slot) (given : Given) (word : Text) : Except Stop Given :=
  if slots.contains .mode then given.fill .mode word else .error .usage

/-- Reads an option by its long name. The slot in the result still waits for its value. -/
def readLong (slots : List Slot) (name : Text) (value : Option Text) (given : Given) :
    Except Stop (Given × Option Slot) :=
  match slots.find? (·.longName? == some name), value with
  | none, _ => .error .usage
  | some slot, none =>
    if slot.takesValue then .ok (given, some slot) else (given.fill slot []).map (·, none)
  | some slot, some value =>
    if slot.takesValue then (given.fill slot value).map (·, none) else .error .usage

/-- Reads letters that stand together. The first that takes a value takes the rest of them. -/
def readLetters (slots : List Slot) : Text → Given → Except Stop (Given × Option Slot)
  | [], given => .ok (given, none)
  | letter :: rest, given =>
    match slots.find? (·.letter? == some letter) with
    | none => .error .usage
    | some slot =>
      if slot.takesValue then
        match rest with
        | [] => .ok (given, some slot)
        | '=' :: value => (given.fill slot value).map (·, none)
        | value => (given.fill slot value).map (·, none)
      else
        match given.fill slot [] with
        | .ok given => readLetters slots rest given
        | .error stop => .error stop

end Given

/-! ## One level -/

/-- Gives the next argument to a slot that waits for its value. -/
def Given.answer (given : Given) : Option Slot → List Text → Except Stop (Given × List Text)
  | none, args => .ok (given, args)
  | some _, [] => .error .usage
  | some slot, value :: args =>
    match Shape.ofText value with
    | .word => (given.fill slot value).map (·, args)
    | _ => .error .usage

theorem Given.answer_length {given after : Given} {slot : Option Slot} {args rest : List Text}
    (h : given.answer slot args = .ok (after, rest)) : rest.length ≤ args.length := by
  match slot, args with
  | none, args =>
    simp only [answer, Except.ok.injEq, Prod.mk.injEq] at h
    simp [← h.2]
  | some _, [] => simp [answer] at h
  | some slot, value :: args =>
    simp only [answer] at h
    split at h
    · cases hfill : given.fill slot value with
      | error stop => simp [hfill, Except.map] at h
      | ok filled =>
        simp only [hfill, Except.map, Except.ok.injEq, Prod.mk.injEq] at h
        simp [← h.2]
    · simp at h

/-- Reads options up to the first argument that is none: what was given, and the arguments from
there on. -/
def readOptions (slots : List Slot) (given : Given) (args : List Text) :
    Except Stop (Given × List Text) :=
  match args with
  | [] => .ok (given, [])
  | arg :: rest =>
    let option := match Shape.ofText arg with
      | .long name value => some (given.readLong slots name value)
      | .letters letters => some (given.readLetters slots letters)
      | _ => none
    match option with
    | none => .ok (given, arg :: rest)
    | some (.error stop) => .error stop
    | some (.ok (given, slot)) =>
      match h : given.answer slot rest with
      | .error stop => .error stop
      | .ok (given, after) =>
        have := Given.answer_length h
        readOptions slots given after
termination_by args.length
decreasing_by simp; omega

theorem readOptions_length (slots : List Slot) (given : Given) (args : List Text)
    {after : Given} {rest : List Text} (h : readOptions slots given args = .ok (after, rest)) :
    rest.length ≤ args.length := by
  fun_induction readOptions slots given args with
  | case1 given => simp_all
  | case2 given arg rest option hoption =>
    simp only [Except.ok.injEq, Prod.mk.injEq] at h
    simp [← h.2]
  | case3 => simp at h
  | case4 => simp at h
  | case5 given arg rest option given' slot hoption given'' after' hanswer hlength ih =>
    have := ih h
    simp only [List.length_cons]
    omega

/-- Reads the arguments of a command: options, and words between them. -/
def readCommand (slots : List Slot) (given : Given) (args : List Text) : Except Stop Given :=
  match h : readOptions slots given args with
  | .error stop => .error stop
  | .ok (given, []) => .ok given
  | .ok (given, arg :: rest) =>
    if Shape.ofText arg = .escape then rest.foldlM (Given.fillWord slots) given
    else
      match given.fillWord slots arg with
      | .error stop => .error stop
      | .ok given =>
        have : rest.length < args.length := readOptions_length slots _ _ h
        readCommand slots given rest
termination_by args.length

/-! ## All arguments -/

/-- The request of a command with what was given to it. -/
def Command.request (given : Given) : Command → Request :=
  let project : Path := ((given.lookup .project).map Path.mk).getD "."
  let format := ((given.lookup .format).bind Format.ofName?).getD .text
  let has := fun (slot : Slot) => (given.lookup slot).isSome
  fun
  | contracts => .check .contracts project format (has .mode)
  | tests => .check .tests project format false
  | coverage =>
    .coverage project (has .assertsOnly) ((given.lookup .style).bind PreconditionStyle.ofName?)
  | listRules => .listRules
  | init => .init (has .force)

/-- The settings file: the one given to the command, else the one given at the top level, else the
one that an environment variable names. An empty variable is not understood where it would have
to be looked at, which is at each level without the option. -/
def chooseSettingsFile (fromEnv : Option Text) (top command : Given) : Except Stop (Option Path) :=
  match command.lookup .settings, top.lookup .settings with
  | some file, some _ => .ok (some ⟨file⟩)
  | ofCommand, ofTop =>
    if fromEnv = some [] then .error .usage
    else .ok (((ofCommand.or ofTop).or fromEnv).map Path.mk)

/-- What the words after `help` ask for: nothing, or the name of one command. -/
def helpStop : List Text → Stop
  | [] => .help
  | [word] => if (Command.ofName? word).isSome || word = "help".toList then .help else .usage
  | _ => .usage

/-- Reads all arguments, with the environment variable that can name a settings file. -/
def Invocation.ofArguments (fromEnv : Option Text) (args : List Text) : Except Stop Invocation := do
  let (top, rest) ← readOptions topSlots [] args
  match rest with
  | [] => .error .usage
  | word :: rest =>
    match Command.ofName? word with
    | none => .error (if word = "help".toList then helpStop rest else .usage)
    | some command => do
      let given ← readCommand command.slots [] rest
      let settingsFile ← chooseSettingsFile fromEnv top given
      .ok { request := command.request given, settingsFile }

end ContractLint.Cli
