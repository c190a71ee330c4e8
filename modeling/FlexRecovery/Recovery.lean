import FlexRecovery.Consistency
import FlexRecovery.Document.Reading
import FlexRecovery.Draft
import FlexRecovery.Ghosts
import FlexRecovery.Json.Reader
import FlexRecovery.Regroup
import FlexRecovery.Resolve
import FlexRecovery.Stacking

/-!
The recovery of a flex layout from a design document: a draft, regrouped, and resolved, as far as the
options ask. After each step the tree has to be consistent.
-/

namespace FlexRecovery

/-- The layout and what was found on the way, in order. -/
structure Recovery where
  tree : Tree
  findings : List Finding

namespace Recovery

def warnings (r : Recovery) : List Finding := r.findings.filter (·.severity == .warning)

/-- The optional steps between drafting and regrouping. -/
def cleaned (o : Options) (t : Tree) : Tree :=
  let t := if o.unwrapGhosts then (Ghosts.remove o t).1 else t
  if o.stacking then Stacking.number t else t

def failing : Option Failure → Except Failure Unit
  | some f => throw f
  | none => pure ()

/-- Regroups and resolves a draft with the journal that it left. -/
def complete (o : Options) (draft : Tree) (j : Journal) : Except Failure Recovery := do
  let (t, j) := (cleaned o draft, j)
  let (t, j) := if o.reaches .regrouped then Regroup.tree t j else (t, j)
  if o.reaches .regrouped then failing (Consistency.structureFault? t)
  let (t, j) := if o.reaches .resolved then Resolve.tree o t j else (t, j)
  if o.reaches .resolved then
    failing (Consistency.structureFault? t)
    failing (Consistency.sizingFault? t)
  return { tree := t, findings := j.findings }

def ofDocument (o : Options) (d : Document) : Except Failure Recovery := do
  failing (Draft.failure? d)
  let (draft, j) := Draft.ofPage o d {}
  complete o draft j

/-- Of a document given as a JSON value. -/
def ofJson (o : Options) (j : Json) : Except Failure Recovery :=
  match Document.read? j with
  | some d => ofDocument o d
  | none => throw .unreadable

def ofText (o : Options) (s : String) : Except Failure Recovery :=
  match Json.parse? s with
  | some j => ofJson o j
  | none => throw .unreadable

end Recovery

end FlexRecovery
