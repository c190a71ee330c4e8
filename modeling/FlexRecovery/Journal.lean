import FlexRecovery.DesignId

/-!
The record of one recovery: how many nodes have been created, and what was found on the way. Findings
never stop a recovery.
-/

namespace FlexRecovery

inductive Severity where
  /-- The result differs from the design. -/
  | warning
  /-- The result is faithful. -/
  | info
  deriving DecidableEq, Repr

def Severity.name : Severity → String
  | warning => "warning"
  | info => "info"

structure Finding where
  node : Option DesignId
  severity : Severity
  rule : String
  message : String
  deriving DecidableEq, Repr

structure Journal where
  created : Nat := 0
  findings : List Finding := []
  deriving Repr

/-- A step of a recovery, which may create nodes and report findings. -/
abbrev Journaled := StateM Journal

namespace Journal

/-- The creation index of the next node. -/
def nextIndex : Journaled Nat := fun j => (j.created, { j with created := j.created + 1 })

def report (finding : Finding) : Journaled Unit :=
  fun j => ((), { j with findings := j.findings ++ [finding] })

def warn (node : Option DesignId) (rule message : String) : Journaled Unit :=
  report ⟨node, .warning, rule, message⟩

def inform (node : Option DesignId) (rule message : String) : Journaled Unit :=
  report ⟨node, .info, rule, message⟩

end Journal

end FlexRecovery
