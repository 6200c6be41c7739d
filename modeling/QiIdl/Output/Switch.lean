/-!
# Switches

A switch is on while it has been activated more often than deactivated and is not blocked. Inside a scope it is
activated or blocked once more; the end of the scope puts it back where it was.

Both are counted in words of 32 bits. A counter that is full starts over from zero when it is raised, so a switch that
has been blocked too often is not blocked any more.
-/

namespace QiIdl

/-- How often a switch is active, and how often it is blocked. -/
structure Switch where
  active : UInt32
  blocked : UInt32
deriving DecidableEq, Repr

/-- Something done to a switch. -/
inductive SwitchStep where
  | activate
  | deactivate
  | block
  | unblock
  | activated (steps : List SwitchStep)
  | blocked (steps : List SwitchStep)

namespace Switch

/-- A switch that was never touched. -/
def fresh : Switch := ⟨0, 0⟩

def isOn (s : Switch) : Bool := 0 < s.active && s.blocked == 0

/-- Activates once more. -/
def activate (s : Switch) : Switch := { s with active := s.active + 1 }

/-- Takes back one activation, if there is one. -/
def deactivate (s : Switch) : Switch := { s with active := if s.active = 0 then 0 else s.active - 1 }

def block (s : Switch) : Switch := { s with blocked := s.blocked + 1 }

/-- Takes back one block, if there is one. -/
def unblock (s : Switch) : Switch := { s with blocked := if s.blocked = 0 then 0 else s.blocked - 1 }

/-- Takes a step. A scope leaves no trace. -/
def run (s : Switch) : SwitchStep → Switch
  | .activate => s.activate
  | .deactivate => s.deactivate
  | .block => s.block
  | .unblock => s.unblock
  | .activated _ | .blocked _ => s

mutual

/-- Whether the switch is on after each moment of a step: a scope shows its start, its steps and its end. -/
def states (s : Switch) : SwitchStep → List Bool
  | .activated steps => s.activate.isOn :: (s.activate.statesAll steps ++ [s.isOn])
  | .blocked steps => s.block.isOn :: (s.block.statesAll steps ++ [s.isOn])
  | .activate => [s.activate.isOn]
  | .deactivate => [s.deactivate.isOn]
  | .block => [s.block.isOn]
  | .unblock => [s.unblock.isOn]

/-- Whether the switch is on after each moment of some steps. -/
def statesAll (s : Switch) : List SwitchStep → List Bool
  | [] => []
  | step :: steps => s.states step ++ (s.run step).statesAll steps

end

end Switch
end QiIdl
