import StagedAlgebra.Attribute
import StagedAlgebra.Binary64
import StagedAlgebra.Binary64.Layout
import StagedAlgebra.Binary64.Scaled
import StagedAlgebra.Binary64.Shortest
import StagedAlgebra.CommandLine
import StagedAlgebra.CommandLine.Options
import StagedAlgebra.Condition
import StagedAlgebra.Condition.Document
import StagedAlgebra.Condition.Evaluation
import StagedAlgebra.Dictionary
import StagedAlgebra.Digest
import StagedAlgebra.Digest.Blake3
import StagedAlgebra.Document
import StagedAlgebra.Document.References
import StagedAlgebra.Engine
import StagedAlgebra.Engine.FailPoints
import StagedAlgebra.Engine.Scheduler
import StagedAlgebra.Json
import StagedAlgebra.Json.Reader
import StagedAlgebra.Json.Written
import StagedAlgebra.Main
import StagedAlgebra.Manifest
import StagedAlgebra.Operator
import StagedAlgebra.Operator.Join
import StagedAlgebra.Pipeline
import StagedAlgebra.Pipeline.Part
import StagedAlgebra.Plan
import StagedAlgebra.Plan.Document
import StagedAlgebra.Plan.Optimization
import StagedAlgebra.Plan.Selections
import StagedAlgebra.Record
import StagedAlgebra.Record.File
import StagedAlgebra.Record.Lookup
import StagedAlgebra.Resolution
import StagedAlgebra.Scalar
import StagedAlgebra.Settings
import StagedAlgebra.Stage
import StagedAlgebra.StageGraph
import StagedAlgebra.StageGraph.Compilation
import StagedAlgebra.Storage
import StagedAlgebra.Storage.FileTree
import StagedAlgebra.Storage.RecordStore
import StagedAlgebra.Table
import StagedAlgebra.Text.Blank
import StagedAlgebra.Text.Decimal
import StagedAlgebra.Text.Split
import StagedAlgebra.Yaml.Cursor
import StagedAlgebra.Yaml.Node
import StagedAlgebra.Yaml.Node.Document
import StagedAlgebra.Yaml.Node.Grammar
import StagedAlgebra.Yaml.Token
import StagedAlgebra.Yaml.Token.Block
import StagedAlgebra.Yaml.Token.Layout
import StagedAlgebra.Yaml.Token.Plain
import StagedAlgebra.Yaml.Token.Property
import StagedAlgebra.Yaml.Token.Quoted
import StagedAlgebra.Proofs.Names
import StagedAlgebra.Proofs.Tables
import StagedAlgebra.Proofs.Shapes
import StagedAlgebra.Proofs.Outcomes
import StagedAlgebra.Proofs.Reference
import StagedAlgebra.Proofs.Scope
import StagedAlgebra.Proofs.Origins
import StagedAlgebra.Proofs.Sides
import StagedAlgebra.Proofs.ConditionMoves
import StagedAlgebra.Proofs.Rewriting
import StagedAlgebra.Proofs.OptimizedMeaning
import StagedAlgebra.Proofs.Rounding
import StagedAlgebra.Proofs.KeyForms
import StagedAlgebra.Proofs.Digits
import StagedAlgebra.Proofs.NumberTexts
import StagedAlgebra.Proofs.JsonReading
import StagedAlgebra.Proofs.RecordCodec
import StagedAlgebra.Proofs.StoredOutputs
import StagedAlgebra.Proofs.OperatorRuns
import StagedAlgebra.Proofs.GraphMaking
import StagedAlgebra.Proofs.Waves
import StagedAlgebra.Proofs.DirectExecution
import StagedAlgebra.Proofs.CompiledPlans
import StagedAlgebra.Proofs.EngineRuns
import StagedAlgebra.Proofs.FloatTexts
import StagedAlgebra.Proofs.TextKeys
import StagedAlgebra.Proofs.KeyedPairs
import StagedAlgebra.Proofs.RelationalMeaning
import StagedAlgebra.Proofs.Rearrangement
import StagedAlgebra.Proofs.JoinConversion
import StagedAlgebra.Proofs.ResolvedNames
import StagedAlgebra.Proofs.Retries
import StagedAlgebra.Proofs.RunStorage
import StagedAlgebra.Proofs.RecordFlow
import StagedAlgebra.Proofs.Provenance
import StagedAlgebra.Proofs.FileShapes
import StagedAlgebra.Proofs.RowOrder
import StagedAlgebra.Proofs.OrderIndependence
import StagedAlgebra.Proofs.OutputRoom
import StagedAlgebra.Proofs.RecordFiles
import StagedAlgebra.Proofs.StablePlans
import StagedAlgebra.Proofs.AttributeTexts
import StagedAlgebra.Proofs.ShippedGraphs
import StagedAlgebra.Proofs.StorageBackends
import StagedAlgebra.Proofs.SelectionChains
import StagedAlgebra.Proofs.SunkSelections
import StagedAlgebra.Proofs.RunFaults
import StagedAlgebra.Proofs.MinimalWaves
import StagedAlgebra.Proofs.JoinedPairs
import StagedAlgebra.Proofs.RepeatedProjections
import StagedAlgebra.Proofs.ConditionOutcomes
import StagedAlgebra.Proofs.DigestTexts
import StagedAlgebra.Proofs.SwappedOperands
