import FlexRecovery.Number.Shortest

/-! What stops a recovery. -/

namespace FlexRecovery

inductive Failure where
  /-- The document is no JSON text or has another shape. -/
  | unreadable
  /-- The page is of another kind. -/
  | invalidRoot (found : String)
  | unsupportedCanvas (width height : Float32)
  /-- The node with this label breaks a rule that the later steps rest on. -/
  | inconsistent (label reason : String)

namespace Failure

def message : Failure → String
  | unreadable => "Parse error"
  | invalidRoot found => "Invalid root: expected an artboard, found \x60" ++ found ++ "\x60"
  | unsupportedCanvas width height =>
    "Unsupported canvas size " ++ Single.shortest width ++ "x" ++ Single.shortest height
  | inconsistent label reason => "Invariant violated at " ++ label ++ ": " ++ reason

end Failure

end FlexRecovery
