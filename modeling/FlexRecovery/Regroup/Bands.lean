import FlexRecovery.Regroup.Siblings
import FlexRecovery.StableSort

/-!
The flex axis of an owner. Along a candidate axis the flow children fall into bands: the longest child and
everything that its span covers form one. Bands that stack cleanly give the axis, and a band of several
becomes a container across it. If neither axis works, the smallest offender leaves flow.
-/

namespace FlexRecovery.Regroup

/-- The longest along the axis, the earliest on ties. -/
def pivot (axis : Axis) (t : Tree) (ts : List Tree) : Tree :=
  ts.foldl (fun best n => if best.box.extent axis < n.box.extent axis then n else best) t

/-- Covered by the pivot's span, or more than half of it. -/
def inBand (axis : Axis) (pivot t : Tree) : Bool :=
  t.box.within pivot.box axis || decide ((t.box.extent axis : Int) < t.box.overlap pivot.box axis * 2)

theorem inBand_self (axis : Axis) (t : Tree) : inBand axis t t = true := by
  have h : t.box.within t.box axis = true := by
    unfold Box.within Tuning.tolerance
    rw [decide_eq_true_iff]
    omega
  simp [inBand, h]

theorem pivot_mem (axis : Axis) (t : Tree) (ts : List Tree) : pivot axis t ts ∈ t :: ts := by
  unfold pivot
  induction ts generalizing t with
  | nil => simp
  | cons n ns ih =>
    rw [List.foldl_cons]
    split
    · exact List.mem_cons_of_mem _ (ih n)
    · rcases List.mem_cons.1 (ih t) with h | h
      · rw [h]; exact List.mem_cons_self ..
      · exact List.mem_cons_of_mem _ (List.mem_cons_of_mem _ h)

/-- Bands in the order of their pivots. -/
def pivotBands (axis : Axis) : List Tree → List (List Tree)
  | [] => []
  | t :: ts =>
    let inside := inBand axis (pivot axis t ts)
    (t :: ts).filter inside :: pivotBands axis ((t :: ts).filter fun n => !inside n)
termination_by ts => ts.length
decreasing_by
  have h := pivot_mem axis t ts
  have hself := inBand_self axis (pivot axis t ts)
  refine List.length_filter_lt_length_iff_exists.2 ⟨_, h, ?_⟩
  simp [hself]

/-- Bands by their leading edge. -/
def bands (axis : Axis) (ts : List Tree) : List (List Tree) :=
  sortByKey (fun b => (Tree.hull b).start axis) (pivotBands axis ts)

/-- Neighbouring bands do not overlap. -/
def areDisjoint (axis : Axis) : List (List Tree) → Bool
  | a :: b :: rest =>
    decide ((Tree.hull a).overlap (Tree.hull b) axis ≤ Tuning.tolerance) && areDisjoint axis (b :: rest)
  | _ => true

/-- The members of a band can be laid out across the axis. -/
def isSeparable (axis : Axis) (band : List Tree) : Bool :=
  band.length ≤ 1 ||
    (let inner := bands axis.cross band
     decide (1 < inner.length) && areDisjoint axis.cross inner)

/-- Bands that stack cleanly. -/
def partition? (axis : Axis) (ts : List Tree) : Option (List (List Tree)) :=
  let bs := bands axis ts
  if areDisjoint axis bs && bs.all (isSeparable axis) then some bs else none

/-- The axis with more than one band, the preferred one first. -/
def chooseAxis (preferred : Axis) (ts : List Tree) : Option (Axis × List (List Tree)) :=
  [preferred, preferred.cross].findSome? fun axis =>
    match partition? axis ts with
    | some bs => if 1 < bs.length then some (axis, bs) else none
    | none => none

/-- A band of several members becomes a container across the axis. -/
def bandTree (axis : Axis) (band : List Tree) : Journaled Tree :=
  match band with
  | [t] => pure t
  | band => wrapped (Tree.hull band) axis.cross [] (sortByKey (fun t => t.box.start axis.cross) band)

/-- A lone generated container adds nothing: its members move up. -/
def collapseWrapper (t : Tree) : Tree :=
  match t.flow with
  | [only] =>
    let n := only.node
    let isFixed := n.width == some .fixed || n.height == some .fixed
    if n.isGenerated && n.direction.isSome && !n.isContent && n.roles.isEmpty && !isFixed then
      ⟨{ t.node with direction := n.direction }, only.flow, t.attached ++ only.attached⟩
    else t
  | _ => t

/-- The position of the smallest tree that overlaps another, of any smallest one if none does; the last
of equal areas. -/
def offender? (ts : List Tree) : Option (Nat × Tree) :=
  let all := ts.zipIdx
  let overlapping := all.filter fun (a, i) => all.any fun (b, j) => i != j && a.box.overlaps b.box
  let pool := if overlapping.isEmpty then all else overlapping
  match pool with
  | [] => none
  | p :: rest =>
    let least := rest.foldl (fun best q => if q.1.box.area ≤ best.1.box.area then q else best) p
    some (least.2, least.1)

/-- Takes offenders out of the flow until an axis works or one child is left. -/
def layOut (preferred : Axis) : (budget : Nat) → Tree → Journaled Tree
  | 0, t => pure (collapseWrapper { t with node := { t.node with direction := some preferred } })
  | budget + 1, t =>
    if t.flow.length ≤ 1 then pure (collapseWrapper { t with node := { t.node with direction := some preferred } })
    else
      match chooseAxis preferred t.flow with
      | some (axis, bs) => do
        let flow ← bs.mapM (bandTree axis)
        return collapseWrapper { t with node := { t.node with direction := some axis }, flow }
      | none =>
        match offender? t.flow with
        | none => pure t
        | some (i, o) => do
          Journal.warn o.node.id "flex-demote"
            ("no flex axis separates " ++ o.node.label ++ ", positioned absolutely")
          layOut preferred budget { t with flow := t.flow.eraseIdx i, attached := t.attached ++ [o] }

def makeFlex (t : Tree) : Journaled Tree :=
  if t.flow.isEmpty then pure { t with node := { t.node with direction := none } }
  else layOut (t.node.direction.getD .column) t.flow.length t

end FlexRecovery.Regroup
