import StagedAlgebra.Digest

/-!
# Manifests

A manifest says what a run did: which graph it ran, how many stages and records there were, what
the records were, and when it started and ended.
-/

namespace StagedAlgebra

/-- The version of the engine. -/
def engineVersion : String := "0.1.0"

/-- What a run did. -/
structure Manifest where
  /-- The digest of the graph that was run. -/
  planDigest : Digest
  /-- The version of the engine that ran it. -/
  version : String := engineVersion
  /-- The number of stages run. -/
  stagesRun : Nat := 0
  /-- The number of records of the result. -/
  outputRecords : Nat := 0
  /-- The digest of the records of the result, once there are any. -/
  outputDigest : Option Digest := none
  /-- When the run started, in milliseconds. -/
  started : Nat
  /-- When the run ended, in milliseconds; until then, when it started. -/
  finished : Nat := started

namespace Manifest

/-- The manifest of a run that has just started. -/
def start (planDigest : Digest) (started : Nat) : Manifest :=
  { planDigest, started }

/-- The manifest of a run that has ended. -/
def finish (m : Manifest) (finished stagesRun outputRecords : Nat) (outputDigest : Option Digest) :
    Manifest :=
  { m with finished, stagesRun, outputRecords, outputDigest }

/-- How long a run took; a clock that was set back counts as no time. -/
def duration (m : Manifest) : Nat :=
  m.finished - m.started

end Manifest

end StagedAlgebra
