import EpsilonAutomata.Fault

/-!
# The log

Some operations report what they did. The log is on or off; a report is made up only when the log is
on, and making it up may itself fail. What was reported before a failure stays.
-/

namespace EpsilonAutomata

/-- The log and its messages, the latest last. -/
structure Log where
  enabled : Bool
  messages : List String := []
  deriving Inhabited

def Log.off : Log := ⟨false, []⟩

/-- The log that is switched on and has no messages yet. -/
def Log.on : Log := ⟨true, []⟩

/-- Work that may fail and may report. -/
abbrev Logged := ExceptT Fault (StateM Log)

namespace Logged

def quiet {α : Type} (result : Except Fault α) : Logged α :=
  ExceptT.mk (pure result)

/-- Adds a message to the log, if the log is on. -/
def report (message : Unit → Except Fault String) : Logged Unit := do
  let log ← get
  if log.enabled then
    let text ← quiet (message ())
    set { log with messages := log.messages ++ [text] }

/-- The outcome of the work with a given log, and the log after it. -/
def runWith {α : Type} (work : Logged α) (log : Log) : Except Fault α × Log :=
  StateT.run (ExceptT.run work) log

/-- The outcome of the work with the log switched off. -/
def outcome {α : Type} (work : Logged α) : Except Fault α :=
  (work.runWith .off).1

end Logged

end EpsilonAutomata
