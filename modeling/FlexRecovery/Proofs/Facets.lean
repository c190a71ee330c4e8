import FlexRecovery.Proofs.Nodes
import FlexRecovery.Proofs.Spans
import FlexRecovery.Proofs.Words
import Mathlib.Algebra.Order.Group.Multiset
import Mathlib.Data.List.Pairwise

/-!
What the tokens of a node say of its layout. Two tokens of one facet would state two values for it.
-/

namespace FlexRecovery

/-- One thing that is stated at most once. -/
inductive Facet where
  | direction
  | items
  | justify
  | self
  | margin (s : Side)
  | padding (s : Side)
  | gap (axis : Axis)
  | extent (axis : Axis)
  | maxWidth
  deriving DecidableEq

namespace Facet

def letter : Side → String
  | .left => "l"
  | .top => "t"
  | .right => "r"
  | .bottom => "b"

/-- How the tokens begin that state it. -/
def starts : Facet → List String
  | direction => ["flex-row", "flex-col"]
  | items => ["items-"]
  | justify => ["justify-"]
  | self => ["self-"]
  | margin s => ["m" ++ letter s ++ "-"]
  | padding s => ["p" ++ letter s ++ "-"]
  | gap .row => ["gap-x-"]
  | gap .column => ["gap-y-"]
  | extent axis => [Resolve.sizeLetter axis ++ "-["]
  | maxWidth => ["max-w-"]

def covers (f : Facet) (t : String) : Bool := f.starts.any (beginsWith · t)

def all : List Facet :=
  [direction, items, justify, self, margin .left, margin .top, margin .right, margin .bottom, padding .left,
    padding .top, padding .right, padding .bottom, gap .row, gap .column, extent .row, extent .column, maxWidth]

/-- What the token states. -/
def read (t : String) : Option Facet := all.find? (·.covers t)

/-- What the tokens state, one after the other. -/
def readAll (ts : List String) : Multiset Facet := (ts.filterMap read : List Facet)

variable {f g : Facet} {t : String} {ts us : List String}

theorem covers_iff : f.covers t = true ↔ Opens f.starts t := by
  rw [covers, List.any_eq_true]
  rfl

theorem mem_all (f : Facet) : f ∈ all := by
  cases f with
  | margin s => cases s <;> decide
  | padding s => cases s <;> decide
  | gap axis => cases axis <;> decide
  | extent axis => cases axis <;> decide
  | _ => decide

/-- No token states two facets. -/
theorem apart_starts (h : f ≠ g) : Apart f.starts g.starts := by
  have hall : all.Pairwise fun f g => Apart f.starts g.starts := by decide +kernel
  have : Std.Symm fun f g : Facet => Apart f.starts g.starts :=
    ⟨fun f g h s hs s' hs' hb => h s' hs' s hs hb.symm⟩
  exact hall.forall (mem_all f) (mem_all g) h

theorem read_eq_some : read t = some f ↔ f.covers t = true := by
  constructor
  · intro h
    simpa using List.find?_some h
  · intro h
    obtain ⟨g, hg⟩ := Option.isSome_iff_exists.1 (List.find?_isSome (p := (·.covers t)).2 ⟨f, mem_all f, h⟩)
    have hgt : g.covers t = true := by simpa using List.find?_some hg
    obtain rfl : f = g := by
      by_contra hne
      exact (apart_starts hne).not_opens (covers_iff.1 h) (covers_iff.1 hgt)
    exact hg

theorem read_of_opens (h : Opens f.starts t) : read t = some f := read_eq_some.2 (covers_iff.2 h)

/-- A token of another kind states nothing. -/
theorem read_eq_none {starts : List String} (h : Opens starts t) (ha : ∀ f ∈ all, Apart starts f.starts) :
    read t = none := by
  rw [read, List.find?_eq_none]
  exact fun f hf hc => (ha f hf).not_opens h (covers_iff.1 hc)

theorem countP_covers (f : Facet) (ts : List String) : ts.countP f.covers = (readAll ts).count f := by
  rw [readAll, Multiset.coe_count, List.count_filterMap]
  refine List.countP_congr fun t _ => ?_
  rw [beq_iff_eq, read_eq_some]

@[simp] theorem readAll_nil : readAll [] = 0 := rfl

theorem readAll_append (ts us : List String) : readAll (ts ++ us) = readAll ts + readAll us := by
  rw [readAll, List.filterMap_append]
  rfl

theorem readAll_cons_some (h : read t = some f) (ts : List String) : readAll (t :: ts) = f ::ₘ readAll ts := by
  rw [readAll, List.filterMap_cons_some h]
  rfl

theorem readAll_cons_none (h : read t = none) (ts : List String) : readAll (t :: ts) = readAll ts := by
  rw [readAll, List.filterMap_cons_none h]
  rfl

theorem readAll_eq_zero (h : ∀ t ∈ ts, read t = none) : readAll ts = 0 := by
  rw [readAll, List.filterMap_eq_nil_iff.2 h]
  rfl

theorem readAll_le_of_sublist (h : ts.Sublist us) : readAll ts ≤ readAll us := Multiset.coe_le.2 (h.filterMap read).subperm

end Facet

namespace Classes

open Facet

theorem readAll_push_le (cs : Classes) (t : String) : readAll (cs.push t).toList ≤ readAll cs.toList + readAll [t] := by
  unfold push
  split
  · exact Multiset.le_add_right _ _
  · rw [Distinct.toList_insert]
    split
    · exact Multiset.le_add_right _ _
    · rw [readAll_append]

theorem readAll_pushAll_le (cs : Classes) (ts : List String) :
    readAll (cs.pushAll ts).toList ≤ readAll cs.toList + readAll ts := by
  induction ts generalizing cs with
  | nil => exact Multiset.le_add_right _ _
  | cons t ts ih =>
    calc readAll ((cs.push t).pushAll ts).toList
      _ ≤ readAll (cs.push t).toList + readAll ts := ih _
      _ ≤ readAll cs.toList + readAll [t] + readAll ts := Multiset.add_le_add_right (readAll_push_le cs t)
      _ = readAll cs.toList + readAll (t :: ts) := by rw [add_assoc, ← readAll_append, List.singleton_append]

end Classes

namespace Node

open Facet

/-- What the tokens of the node state. -/
def facets (n : Node) : Multiset Facet := readAll n.classes.toList

theorem facets_of_classes {n n' : Node} (h : n'.classes = n.classes) : n'.facets = n.facets := by
  rw [facets, h]
  rfl

theorem facets_pushAll_le (n : Node) (ts : List String) : (n.pushAll ts).facets ≤ n.facets + readAll ts :=
  n.classes.readAll_pushAll_le ts

theorem facets_push_le (n : Node) (t : String) : (n.push t).facets ≤ n.facets + readAll [t] :=
  n.classes.readAll_push_le t

theorem facets_absorb_le (lower upper : Node) : (lower.absorb upper).facets ≤ lower.facets + upper.facets := by
  have kept (ps : List String) (cs : Classes) : readAll (ps.foldl Classes.erasePrefix cs).toList ≤ readAll cs.toList := by
    induction ps generalizing cs with
    | nil => exact le_rfl
    | cons p ps ih => exact (ih _).trans (readAll_le_of_sublist List.filter_sublist)
  refine (Classes.readAll_pushAll_le _ _).trans (Multiset.add_le_add_right ?_)
  split
  · exact kept _ _
  · exact le_rfl

theorem facets_promoted_le (n : Node) : n.promoted.facets ≤ n.facets := by
  unfold promoted
  split
  · exact le_rfl
  · refine (Classes.readAll_pushAll_le _ _).trans_eq ?_
    have hbg : ∀ t ∈ ["bg-cover", "bg-no-repeat"], Opens ["bg-"] t := by decide
    rw [readAll_eq_zero fun t ht => read_eq_none (hbg t ht) (by decide +kernel), add_zero]
    rfl

end Node

end FlexRecovery
