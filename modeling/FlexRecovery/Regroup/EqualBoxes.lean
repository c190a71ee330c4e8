import FlexRecovery.Regroup.Redundant

/-!
Siblings with one box collapse into one node: containers fold into each other, content goes into the
container, and of two contents an image becomes the container of the other.
-/

namespace FlexRecovery.Regroup

/-- Two elements of a list with all that is around them; the upper one stands later. -/
structure Pair (α : Type) where
  before : List α
  lower : α
  between : List α
  upper : α
  after : List α

/-- The first pair that is related: its lower element comes first, then its upper one. -/
def splitPair (r : α → α → Bool) : List α → Option (Pair α)
  | [] => none
  | a :: as =>
    match splitFirst (r a) as with
    | some (between, b, after) => some ⟨[], a, between, b, after⟩
    | none => (splitPair r as).map fun p => { p with before := a :: p.before }

theorem eq_of_splitPair {r : α → α → Bool} {as : List α} {p : Pair α} (h : splitPair r as = some p) :
    as = p.before ++ p.lower :: (p.between ++ p.upper :: p.after) ∧ r p.lower p.upper = true := by
  induction as generalizing p with
  | nil => simp [splitPair] at h
  | cons a as ih =>
    unfold splitPair at h
    split at h
    · next hs =>
      obtain ⟨rfl, hr⟩ := eq_of_splitFirst hs
      obtain rfl := Option.some.inj h
      exact ⟨rfl, hr⟩
    · obtain ⟨q, hq, rfl⟩ := Option.map_eq_some_iff.1 h
      obtain ⟨rfl, hr⟩ := ih hq
      exact ⟨rfl, hr⟩

/-- Both become one container. -/
def fused (lower upper : Tree) : Tree :=
  ⟨lower.node.absorb upper.node, lower.flow ++ upper.flow, lower.attached ++ upper.attached⟩

/-- The siblings after a pair is settled, and the tree that has left them, if one has. -/
structure Settled where
  flow : List Tree
  out : Option Tree := none

def settle (p : Pair Tree) : Settled :=
  let atLower (t : Tree) : Settled := { flow := p.before ++ t :: (p.between ++ p.after) }
  let atUpper (t : Tree) : Settled := { flow := p.before ++ (p.between ++ t :: p.after) }
  match p.lower.node.isContent, p.upper.node.isContent with
  | false, false => atLower (fused p.lower p.upper)
  | false, true => atLower (p.lower.addFlow [p.upper])
  | true, false => atUpper (p.upper.addFlow [p.lower])
  | true, true =>
    if p.lower.node.isImage then atLower ((p.lower.mapNode Node.promoted).addFlow [p.upper])
    else if p.upper.node.isImage then atUpper ((p.upper.mapNode Node.promoted).addFlow [p.lower])
    else { atLower p.lower with out := some p.upper }

theorem length_settle (p : Pair Tree) :
    (settle p).flow.length + 1 = (p.before ++ p.lower :: (p.between ++ p.upper :: p.after)).length := by
  unfold settle
  split
  · simp; omega
  · simp; omega
  · simp; omega
  · split
    · simp; omega
    · split <;> (simp; omega)

/-- Settles the first pair with one box until there is none. -/
def collapseEqual (t : Tree) : Journaled Tree :=
  match _h : splitPair (fun a b : Tree => a.box.same b.box) t.flow with
  | none => pure t
  | some p => do
    let s := settle p
    if s.out.isSome then
      Journal.inform p.upper.node.id "stacked-content"
        ("stacked on " ++ p.lower.node.label ++ ", positioned absolutely")
    collapseEqual { t with flow := s.flow, attached := t.attached ++ s.out.toList }
termination_by t.flow.length
decreasing_by
  have := length_settle p
  rw [← (eq_of_splitPair _h).1] at this
  omega

end FlexRecovery.Regroup
