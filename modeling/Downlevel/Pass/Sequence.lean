import Downlevel.Pass.Walk

/-!
# Running passes in sequence

Passes run one after another on the same module, each on what the one before has left.
-/

namespace Downlevel

/-- A plugin ready to run, whatever context it keeps. -/
structure Pass where
  name : String
  description : String
  run : Module → Except Failure Walked × Module

/-- The pass of a plugin, with a limit to how deep it may go in a tree. -/
def Plugin.toPassWithin (p : Plugin) (limit : Store → Nat) : Pass where
  name := p.name
  description := p.description
  run := p.runWithin limit

def Plugin.toPass (p : Plugin) : Pass :=
  p.toPassWithin depthLimit

namespace Pass

/-- Marks a log entry as written during this pass. -/
def sign (p : Pass) (entry : Log.Entry) : Log.Entry :=
  { entry with plugin := some p.name }

/-- Runs a pass as one of several: what it logs carries its name, and its end is logged. -/
def runLogged (p : Pass) (m : Module) : Except Failure Unit × Module :=
  match p.run { m with log := [] } with
  | (.error e, m') => (.error e, { m' with log := m.log ++ m'.log.map p.sign })
  | (.ok walked, m') =>
    let finished := { event := .passFinished walked.entered walked.stopped }
    (.ok (), { m' with log := m.log ++ (m'.log ++ [finished]).map p.sign })

end Pass

/-- Runs passes one after another. The first failure ends the run; what was changed by then stays,
and so does the parent index. -/
def Module.runAll (m : Module) : List Pass → Except Failure Unit × Module
  | [] => (.ok (), { m with parents := {} })
  | p :: ps =>
    match p.runLogged m with
    | (.error e, m) => (.error e, m)
    | (.ok (), m) => m.runAll ps

end Downlevel
