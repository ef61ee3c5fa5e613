import StagedAlgebra.CommandLine.Options
import StagedAlgebra.Engine
import StagedAlgebra.Pipeline

/-!
# The command line

Three commands work on plan files. `run` runs the plan and writes the records of the result,
`validate` compiles it, and `explain` shows it after every step of the optimization, with its
stages and waves.

A command is a function of its arguments, the environment variables and the file tree. Settings
come from the variables; the plan file overrides them, and options override both.
-/

namespace StagedAlgebra

/-- The commands that work on a plan file. -/
inductive Action where
  /-- Runs the plan. -/
  | run
  /-- Compiles the plan. -/
  | validate
  /-- Shows the plan. -/
  | explain
deriving DecidableEq

namespace Action

/-- The command with a name. -/
def ofName? : String → Option Action
  | "run" => some .run
  | "validate" => some .validate
  | "explain" => some .explain
  | _ => none

/-- The options of every command. -/
def logForm : OptionForm := { name := "log" }

/-- The option of the plan file. -/
def planForm : OptionForm :=
  { name := "plan", letter := some 'p', accepts := fun value => !value.isEmpty }

/-- The options of a command. -/
def forms : Action → List OptionForm
  | .run => [planForm, { name := "data-dir" },
      { name := "env", accepts := fun value => (Environment.parse value).isOk },
      { name := "max-parallel", accepts := fun value => (Text.word64? value).isSome },
      { name := "keep-intermediates", takesValue := false }, logForm]
  | .validate | .explain => [planForm, logForm]

end Action

/-- What the arguments ask for. -/
inductive Command where
  /-- To explain all commands, or one. -/
  | help (topic : Option Action)
  /-- To do something with a plan file, under the settings that options give. -/
  | act (action : Action) (plan : String) (settings : SettingsOverlay)

namespace Command

/-- The settings that options give. -/
def settingsOf (given : GivenOptions) : SettingsOverlay where
  environment := (given.lookup "env").bind fun value => (Environment.parse value).toOption
  dataDirectory := given.lookup "data-dir"
  maxParallelTasks := (given.lookup "max-parallel").bind Text.word64?
  keepIntermediates := (given.lookup "keep-intermediates").map fun _ => true

/-- The command of an action with options. -/
def ofOptions (action : Action) (given : GivenOptions) : Except UsageFault Command :=
  match given.lookup "plan" with
  | some plan => .ok (.act action plan (settingsOf given))
  | none => .error (.required "plan")

/-- Reads the arguments after the name of an action. -/
def parseAction (action : Action) (args : List String) : Except UsageFault Command :=
  match readOptions action.forms [] args with
  | .error fault => .error fault
  | .ok .help => .ok (.help (some action))
  | .ok (.arguments given []) | .ok (.separated given []) => ofOptions action given
  | .ok (.arguments _ (argument :: _)) | .ok (.separated _ (argument :: _)) =>
    .error (.unexpected argument)

/-- Reads what help is asked for. -/
def parseHelp : List String → Except UsageFault Command
  | [] => .ok (.help none)
  | [name] =>
    match Action.ofName? name with
    | some action => .ok (.help (some action))
    | none => if name = "help" then .ok (.help none) else .error (.unknownCommand name)
  | _ :: name :: _ => .error (.unknownCommand name)

/-- Reads the arguments. -/
def parse (args : List String) : Except UsageFault Command :=
  match readOptions [Action.logForm] [] args with
  | .error fault => .error fault
  | .ok .help => .ok (.help none)
  | .ok (.arguments _ []) | .ok (.separated _ []) => .error .noCommand
  | .ok (.separated _ (argument :: _)) => .error (.unexpected argument)
  | .ok (.arguments _ (name :: rest)) =>
    match Action.ofName? name with
    | some action => parseAction action rest
    | none => if name = "help" then parseHelp rest else .error (.unknownCommand name)

end Command

/-- Why a command fails. -/
inductive CommandFault where
  /-- The plan file cannot be read. -/
  | noPlanFile
  /-- The plan file does not write a pipeline. -/
  | badPlanFile
  /-- The plan cannot be run. -/
  | run (fault : RunFault)
deriving DecidableEq

/-- The part of a message that stands for the place where a plan file cannot be understood. -/
def unreadableYaml : String := "<yaml error>"

/-- The message about a failed command. -/
def CommandFault.message : CommandFault → String
  | .noPlanFile => systemReason
  | .badPlanFile => unreadableYaml
  | .run fault => fault.message

/-- What a command writes, why it failed if it did, and the file tree after it. -/
structure CommandResult where
  /-- What is written. -/
  output : String := ""
  /-- Why it failed. -/
  fault : Option CommandFault := none
  /-- The file tree. -/
  tree : FileTree

/-- A text with the end of its line. -/
def asLine (s : String) : String := s ++ "\n"

/-- The pipeline of a plan file. -/
def loadPipeline (tree : FileTree) (path : String) : Except CommandFault Pipeline :=
  match (tree.content? path).bind fun content => String.fromUTF8? content with
  | none => .error .noPlanFile
  | some text =>
    match Pipeline.parse? text with
    | some pipeline => .ok pipeline
    | none => .error .badPlanFile

/-- The settings of a run: those of the variables, under those of the plan file, under those of
the options. -/
def runSettings (vars : Table String) (pipeline : Pipeline) (options : SettingsOverlay) :
    Settings :=
  options.apply (pipeline.settings.apply (Settings.ofVariables vars))

/-- The file tree that an engine leaves behind; `tree` is the one before. -/
def Engine.treeAfter (e : Engine) (tree : FileTree) : FileTree :=
  match e.storage with
  | .disk _ after => after
  | .memory _ => tree

/-- Runs the plan of a pipeline. -/
def runPipeline (settings : Settings) (pipeline : Pipeline) (tree : FileTree) : CommandResult :=
  match Engine.ofSettings settings tree with
  | .error fault => { fault := some (.run fault), tree }
  | .ok engine =>
    match engine.runPlan pipeline.plan pipeline.dictionary with
    | (.error fault, engine) => { fault := some (.run fault), tree := engine.treeAfter tree }
    | (.ok result, engine) =>
      { output := String.join (result.records.map fun r => asLine r.line)
        tree := engine.treeAfter tree }

/-- Compiles the plan of a pipeline. -/
def validatePipeline (pipeline : Pipeline) (tree : FileTree) : CommandResult :=
  match Engine.graphOf pipeline.plan pipeline.dictionary with
  | .error fault => { fault := some (.run fault), tree }
  | .ok g =>
    let count := String.ofList (Text.natChars g.size)
    { output := asLine ("✓ Plan is valid (" ++ count ++ " stages)"), tree }

/-- The text of a plan after every step of the optimization. -/
def explainPlan (p : Plan) (d : Dictionary) : String :=
  let split := p.splitSelections
  let sunk := split.sinkSelections d
  let merged := sunk.mergeSelections
  let shown := fun (step : String) (p : Plan) => asLine ("After " ++ step ++ ":") ++ asLine ("  " ++ p.text)
  asLine "Logical Plan" ++ asLine "============" ++ asLine p.text ++ asLine ""
    ++ shown "break_up_selections" split
    ++ shown "push_down_selections" sunk
    ++ shown "merge_selections" merged
    ++ shown "introduce_joins" merged.introduceJoins
    ++ asLine ""

/-- The line of a wave, with its place in the order. -/
def waveLine (wave : List StepId × Nat) : String :=
  asLine ("  " ++ String.ofList (Text.natChars (wave.2 + 1)) ++ ". ["
    ++ ", ".intercalate (wave.1.map StepId.digits) ++ "]")

/-- The text of the stages and waves of a graph. -/
def explainGraph (g : StageGraph) : String :=
  asLine "Stages" ++ asLine "======" ++ asLine g.text ++ asLine "" ++ asLine "Waves:"
    ++ String.join (g.waves.zipIdx.map waveLine)

/-- Shows the plan of a pipeline; what is shown before a failure is still written. -/
def explainPipeline (pipeline : Pipeline) (tree : FileTree) : CommandResult :=
  let plan := explainPlan pipeline.plan pipeline.dictionary
  match Engine.graphOf pipeline.plan pipeline.dictionary with
  | .error fault => { output := plan, fault := some (.run fault), tree }
  | .ok g => { output := plan ++ explainGraph g, tree }

/-- Does something with a plan file. -/
def Action.perform (action : Action) (plan : String) (options : SettingsOverlay)
    (vars : Table String) (tree : FileTree) : CommandResult :=
  match loadPipeline tree plan with
  | .error fault => { fault := some fault, tree }
  | .ok pipeline =>
    match action with
    | .run => runPipeline (runSettings vars pipeline options) pipeline tree
    | .validate => validatePipeline pipeline tree
    | .explain => explainPipeline pipeline tree

/-- The options of an action, for help. -/
def optionLines : Action → List String
  | .run => [
      "  -p, --plan <PLAN>                  Path to the plan YAML file",
      "      --data-dir <DATA_DIR>          Directory holding `<Relation>.json` inputs (overrides config)",
      "      --env <ENV>                    Execution environment: local, distributed or mock (overrides config)",
      "      --max-parallel <MAX_PARALLEL>  Maximum stages running at once (overrides config)",
      "      --keep-intermediates           Keep tmpN outputs after the run",
      "      --log <LOG>                    Log filter",
      "  -h, --help                         Print help"]
  | .validate | .explain => [
      "  -p, --plan <PLAN>  Path to the plan YAML file",
      "      --log <LOG>    Log filter",
      "  -h, --help         Print help"]

/-- What an action does, for help. -/
def Action.summary : Action → String
  | .run => "Optimize, compile and execute a plan file"
  | .validate => "Check that a plan file parses and compiles"
  | .explain => "Show the optimized plan and its stages (EXPLAIN)"

/-- The name of an action. -/
def Action.name : Action → String
  | .run => "run"
  | .validate => "validate"
  | .explain => "explain"

/-- The help on all commands, or on one. -/
def helpText : Option Action → String
  | some action =>
    String.join ([action.summary, "", "Usage: " ++ action.name ++ " [OPTIONS] --plan <PLAN>", "",
      "Options:"] ++ optionLines action |>.map asLine)
  | none => String.join ([
      "Relational algebra over map/reduce stages", "", "Usage: [OPTIONS] <COMMAND>", "",
      "Commands:",
      "  run       " ++ Action.run.summary,
      "  validate  " ++ Action.validate.summary,
      "  explain   " ++ Action.explain.summary,
      "  help      Print this message or the help of the given subcommand(s)", "", "Options:",
      "      --log <LOG>  Log filter", "  -h, --help       Print help"].map asLine)

/-- Does what a command asks for. -/
def Command.perform (c : Command) (vars : Table String) (tree : FileTree) : CommandResult :=
  match c with
  | .help topic => { output := helpText topic, tree }
  | .act action plan options => action.perform plan options vars tree

end StagedAlgebra
