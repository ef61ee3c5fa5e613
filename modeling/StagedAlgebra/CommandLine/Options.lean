import StagedAlgebra.Text.Split

/-!
# Options of a command line

An option is given by its long name after two hyphens or by its letter after one. Its value
follows as the next argument, after an equals sign, or right after the letter. No option may be
given twice at one place, and a value that starts with a hyphen must be joined to its option.
-/

namespace StagedAlgebra

/-- Why arguments cannot be understood. -/
inductive UsageFault where
  /-- There is no command. -/
  | noCommand
  /-- There is no command with this name. -/
  | unknownCommand (name : String)
  /-- There is no such option, or no place for an argument. -/
  | unexpected (argument : String)
  /-- An option is given twice. -/
  | repeated (option : String)
  /-- The value of an option is missing. -/
  | noValue (option : String)
  /-- An option has a value but does not take one. -/
  | extraValue (option : String)
  /-- The value of an option cannot be used. -/
  | badValue (option value : String)
  /-- An option that is needed is missing. -/
  | required (option : String)
deriving DecidableEq

/-- The message about arguments that cannot be understood. -/
def UsageFault.message : UsageFault → String
  | .noCommand => "error: a command is required"
  | .unknownCommand name => "error: unrecognized command '" ++ name ++ "'"
  | .unexpected argument => "error: unexpected argument '" ++ argument ++ "' found"
  | .repeated option => "error: the option '--" ++ option ++ "' cannot be used multiple times"
  | .noValue option => "error: a value is required for '--" ++ option ++ "' but none was supplied"
  | .extraValue option => "error: unexpected value for '--" ++ option ++ "' found"
  | .badValue option value => "error: invalid value '" ++ value ++ "' for '--" ++ option ++ "'"
  | .required option => "error: the option '--" ++ option ++ "' is required"

/-- What an option looks like. -/
structure OptionForm where
  /-- The long name. -/
  name : String
  /-- The letter. -/
  letter : Option Char := none
  /-- Whether it takes a value. -/
  takesValue : Bool := true
  /-- The values that can be used. -/
  accepts : String → Bool := fun _ => true

/-- The options given, by their long names, with their values. -/
abbrev GivenOptions := List (String × String)

/-- What is left after the options at the front of the arguments. -/
inductive AfterOptions where
  /-- Help was asked for. -/
  | help
  /-- The arguments from the first one on that is no option. -/
  | arguments (given : GivenOptions) (rest : List String)
  /-- The arguments after a separator. -/
  | separated (given : GivenOptions) (rest : List String)

/-- Whether an argument is an option rather than a value. -/
def looksLikeOption (argument : String) : Bool :=
  match argument.toList with
  | '-' :: _ :: _ => true
  | _ => false

/-- Adds an option with its value, once and with a value that can be used. -/
def giveOption (given : GivenOptions) (form : OptionForm) (value : String) :
    Except UsageFault GivenOptions :=
  if given.any (·.1 == form.name) then .error (.repeated form.name)
  else if !form.accepts value then .error (.badValue form.name value)
  else .ok (given ++ [(form.name, value)])

/-- The form, the joined value and the text of an option as an argument writes it. -/
def optionOf? (forms : List OptionForm) (argument : String) : Option (OptionForm × Option String) :=
  match argument.toList with
  | '-' :: '-' :: long =>
    let (name, joined) := match Text.splitOnce '=' long with
      | some (name, value) => (name, some (String.ofList value))
      | none => (long, none)
    (forms.find? (·.name == String.ofList name)).map (·, joined)
  | '-' :: letter :: joined =>
    let joined := match joined with
      | [] => none
      | '=' :: value => some (String.ofList value)
      | value => some (String.ofList value)
    (forms.find? (·.letter == some letter)).map (·, joined)
  | _ => none

/-- The option of an argument that asks for help. -/
def helpForm : OptionForm := { name := "help", letter := some 'h', takesValue := false }

/-- Reads the options at the front of the arguments. -/
def readOptions (forms : List OptionForm) (given : GivenOptions) :
    List String → Except UsageFault AfterOptions
  | [] => .ok (.arguments given [])
  | argument :: rest =>
    if argument = "--" then .ok (.separated given rest)
    else if !looksLikeOption argument then .ok (.arguments given (argument :: rest))
    else
      match optionOf? (helpForm :: forms) argument with
      | none => .error (.unexpected argument)
      | some (form, joined) =>
        if form.name = helpForm.name then
          if argument.startsWith "--" && joined.isSome then .error (.extraValue form.name)
          else .ok .help
        else if !form.takesValue then
          match joined with
          | some _ => .error (.extraValue form.name)
          | none =>
            match giveOption given form "" with
            | .error fault => .error fault
            | .ok given => readOptions forms given rest
        else
          match joined, rest with
          | some value, rest =>
            match giveOption given form value with
            | .error fault => .error fault
            | .ok given => readOptions forms given rest
          | none, [] => .error (.noValue form.name)
          | none, value :: rest =>
            if looksLikeOption value then .error (.noValue form.name)
            else
              match giveOption given form value with
              | .error fault => .error fault
              | .ok given => readOptions forms given rest

end StagedAlgebra
