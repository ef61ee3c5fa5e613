import StagedAlgebra.Json.Reader
import StagedAlgebra.Document
import StagedAlgebra.Table
import StagedAlgebra.Text.Blank

/-!
# Settings of an engine

The settings say where stages run, where the data is, how many stages may run at once, how often a
failed stage is tried again and whether intermediate outputs are kept. They are read from a
document, from environment variables, or laid over other settings.
-/

namespace StagedAlgebra

/-- Where stages run. -/
inductive Environment where
  /-- On this machine, one file an output. -/
  | standalone
  /-- On shared storage, one folder an output. -/
  | distributed
  /-- In memory. -/
  | mock
deriving DecidableEq

/-- Why settings cannot be used. -/
inductive SettingsFault where
  /-- No environment has this name. -/
  | unknownEnvironment (name : String)
  /-- No stage may run at all. -/
  | noParallelTasks
  /-- An environment that needs a data directory has none. -/
  | noDataDirectory (environment : Environment)
deriving DecidableEq

namespace Environment

/-- The name of an environment in messages. -/
def text : Environment → String
  | .standalone => "LOCAL"
  | .distributed => "DISTRIBUTED"
  | .mock => "MOCK"

/-- The name of an environment in documents. -/
def name : Environment → String
  | .standalone => "local"
  | .distributed => "distributed"
  | .mock => "mock"

/-- The environment with a name in documents; `hdfs` is another name of the distributed one. -/
def ofName? : String → Option Environment
  | "local" => some .standalone
  | "distributed" => some .distributed
  | "hdfs" => some .distributed
  | "mock" => some .mock
  | _ => none

/-- Reads the name of an environment, in any case of letters and with blanks around it. -/
def parse (s : String) : Except SettingsFault Environment :=
  let name := String.ofList ((Text.trimChars s.toList).map Char.toLower)
  match ofName? name with
  | some environment => .ok environment
  | none => .error (.unknownEnvironment name)

/-- The environment that a document names. -/
def ofDocument? (doc : Document) : Option Environment :=
  (doc.unit? .strict ["local", "distributed", "hdfs", "mock"]).bind ofName?

end Environment

/-- What a message says about an environment without data directory. -/
def needsDataDirectory (environment : Environment) : String :=
  environment.text ++ " execution needs a data directory"

/-- The message about settings that cannot be used. -/
def SettingsFault.message : SettingsFault → String
  | .unknownEnvironment name =>
    "Invalid configuration: unknown execution environment '" ++ name ++ "'"
  | .noParallelTasks => "Invalid configuration: max_parallel_tasks must be at least 1"
  | .noDataDirectory environment => "Invalid configuration: " ++ needsDataDirectory environment

/-- The settings of an engine. -/
structure Settings where
  /-- Where stages run. -/
  environment : Environment := .standalone
  /-- The directory of the data. -/
  dataDirectory : String := "data"
  /-- How many stages may run at once. -/
  maxParallelTasks : Nat := 4
  /-- How often a failed stage is tried again. -/
  stageRetries : Nat := 1
  /-- Whether intermediate outputs are kept. -/
  keepIntermediates : Bool := false
deriving DecidableEq

/-- Settings to be laid over others; what is absent is left as it is. -/
structure SettingsOverlay where
  /-- Where stages run. -/
  environment : Option Environment := none
  /-- The directory of the data. -/
  dataDirectory : Option String := none
  /-- How many stages may run at once. -/
  maxParallelTasks : Option Nat := none
  /-- How often a failed stage is tried again. -/
  stageRetries : Option Nat := none
  /-- Whether intermediate outputs are kept. -/
  keepIntermediates : Option Bool := none
deriving DecidableEq

/-- The names of the settings in documents. -/
def Settings.names : List String :=
  ["exec_env", "data_dir", "max_parallel_tasks", "stage_retries", "keep_intermediates"]

/-- A field read by `read`, or a default where it is not given. -/
def fieldOr (read : Document → Option α) (default : α) : Option Document → Option α
  | none => some default
  | some doc => read doc

/-- A field read by `read`, absent where it is not given or stands for an absent value. -/
def optionalField (read : Document → Option α) : Option Document → Option (Option α)
  | none => some none
  | some doc => doc.optional? read

namespace SettingsOverlay

/-- Settings with an overlay. -/
def apply (o : SettingsOverlay) (s : Settings) : Settings where
  environment := o.environment.getD s.environment
  dataDirectory := o.dataDirectory.getD s.dataDirectory
  maxParallelTasks := o.maxParallelTasks.getD s.maxParallelTasks
  stageRetries := o.stageRetries.getD s.stageRetries
  keepIntermediates := o.keepIntermediates.getD s.keepIntermediates

/-- The JSON form of an overlay. -/
def toJson (o : SettingsOverlay) : Json :=
  let value : Option Json → Json := fun v => v.getD .null
  .object [
    ("exec_env", value (o.environment.map fun e => .string e.name)),
    ("data_dir", value (o.dataDirectory.map .string)),
    ("max_parallel_tasks", value (o.maxParallelTasks.map fun n => .int n)),
    ("stage_retries", value (o.stageRetries.map fun n => .int n)),
    ("keep_intermediates", value (o.keepIntermediates.map .bool))]

/-- The overlay that a document writes. -/
def ofDocument? (doc : Document) : Option SettingsOverlay :=
  match doc.structure? true Settings.names with
  | some [environment, dataDirectory, maxParallelTasks, stageRetries, keepIntermediates] =>
    match optionalField Environment.ofDocument? environment,
        optionalField Document.text? dataDirectory,
        optionalField Document.word64? maxParallelTasks,
        optionalField Document.word64? stageRetries,
        optionalField Document.bool? keepIntermediates with
    | some environment, some dataDirectory, some maxParallelTasks, some stageRetries,
        some keepIntermediates =>
      some ⟨environment, dataDirectory, maxParallelTasks, stageRetries, keepIntermediates⟩
    | _, _, _, _, _ => none
  | _ => none

/-- The truth value that a text is. -/
def boolOfText? : String → Option Bool
  | "true" => some true
  | "false" => some false
  | _ => none

/-- The environment variables that settings are read from. -/
def variableNames : List String :=
  ["RAMR_EXEC_ENV", "RAMR_DATA_DIR", "RAMR_MAX_PARALLEL_TASKS", "RAMR_STAGE_RETRIES",
    "RAMR_KEEP_INTERMEDIATES"]

/-- The overlay that environment variables give; a value that cannot be read is skipped. -/
def ofVariables (vars : Table String) : SettingsOverlay where
  environment := (vars.get? "RAMR_EXEC_ENV").bind fun s => (Environment.parse s).toOption
  dataDirectory := vars.get? "RAMR_DATA_DIR"
  maxParallelTasks := (vars.get? "RAMR_MAX_PARALLEL_TASKS").bind Text.word64?
  stageRetries := (vars.get? "RAMR_STAGE_RETRIES").bind Text.word64?
  keepIntermediates := (vars.get? "RAMR_KEEP_INTERMEDIATES").bind boolOfText?

end SettingsOverlay

namespace Settings

/-- The settings that environment variables give over the usual ones. -/
def ofVariables (vars : Table String) : Settings :=
  (SettingsOverlay.ofVariables vars).apply {}

/-- The JSON form of settings. -/
def toJson (s : Settings) : Json :=
  .object [
    ("exec_env", .string s.environment.name),
    ("data_dir", .string s.dataDirectory),
    ("max_parallel_tasks", .int s.maxParallelTasks),
    ("stage_retries", .int s.stageRetries),
    ("keep_intermediates", .bool s.keepIntermediates)]

/-- The settings that a document writes; what it does not give is as usual. -/
def ofDocument? (doc : Document) : Option Settings :=
  let usual : Settings := {}
  match doc.structure? true names with
  | some [environment, dataDirectory, maxParallelTasks, stageRetries, keepIntermediates] =>
    match fieldOr Environment.ofDocument? usual.environment environment,
        fieldOr Document.text? usual.dataDirectory dataDirectory,
        fieldOr Document.word64? usual.maxParallelTasks maxParallelTasks,
        fieldOr Document.word64? usual.stageRetries stageRetries,
        fieldOr Document.bool? usual.keepIntermediates keepIntermediates with
    | some environment, some dataDirectory, some maxParallelTasks, some stageRetries,
        some keepIntermediates =>
      some ⟨environment, dataDirectory, maxParallelTasks, stageRetries, keepIntermediates⟩
    | _, _, _, _, _ => none
  | _ => none

/-- The settings that a JSON text writes. -/
def parse? (s : String) : Option Settings :=
  (Document.parseJson s).bind ofDocument?

/-- The first reason why settings cannot be used. -/
def fault? (s : Settings) : Option SettingsFault :=
  if s.maxParallelTasks = 0 then some .noParallelTasks
  else if s.environment ≠ .mock ∧ Text.isBlankText s.dataDirectory then
    some (.noDataDirectory s.environment)
  else none

end Settings

end StagedAlgebra
