import FlexRecovery.Proofs.Reach
import FlexRecovery.Proofs.Ledger

/-!
Everything that regrouping does to the members of one owner before its axis is chosen, as single shifts. The
passes differ in which members they shift and in what order; what a shift keeps, all of them keep.
-/

namespace FlexRecovery.Regroup

open Tree

/-- The roles of a new container: a list, or a part of one. -/
def isGrouping (r : Role) : Bool := r.isList || r == .listItem || r == .tableRow

/-- The tokens of a wrapping list with these spaces between its items and between its lines. -/
def spacing (across along : Int) : Classes :=
  Classes.pushAll {} ["flex-wrap", "gap-x-" ++ px across, "gap-y-" ++ px along]

/-- A new container with a direction and these roles. Only a wrapping list has tokens. -/
structure Container (roles : List Role) (n : Node) (created : Nat) : Prop where
  made : n.Made created
  directed : n.direction.isSome
  roles : n.roles.toList = roles
  grouping : ∀ r ∈ n.roles.toList, isGrouping r = true
  tokens : n.classes = {} ∨ n.roles.toList = [.listWrap] ∧ ∃ across along, n.classes = spacing across along

/-- Each tree is one of the given ones, marked, or a new container around at least two of them. -/
inductive Grouped (roles : List Role) : List Tree → Nat → List Tree → Nat → Prop where
  | nil (k) : Grouped roles [] k [] k
  | own {t : Tree} {n : Node} (hn : t.node.Marked n) {ts us k k'} (h : Grouped roles ts k us k') :
      Grouped roles (t :: ts) k (⟨n, t.flow, t.attached⟩ :: us) k'
  | wrapped {g : List Tree} (hg : 2 ≤ g.length) {n : Node} {k} (hn : Container roles n k)
      (hb : n.box.Around (g.map box)) {ts us k'} (h : Grouped roles ts (k + 1) us k') :
      Grouped roles (g ++ ts) k (⟨n, g, []⟩ :: us) k'

/-- From a tree and the number of created nodes to the next ones. -/
inductive Shift : Tree × Nat → Tree × Nat → Prop where
  | reorder {f f' : List Tree} (h : f.Perm f') (n a k) : Shift (⟨n, f, a⟩, k) (⟨n, f', a⟩, k)
  /-- A child in the box of its owner folds into it. -/
  | foldUp {n : Node} {c : Tree} (h : isRedundant n.box c = true) (f a k) :
      Shift (⟨n, c :: f, a⟩, k) (⟨n.absorb c.node, c.flow ++ f, a ++ c.attached⟩, k)
  | fuse {x y : Tree} (hx : x.node.isContent = false) (hy : y.node.isContent = false)
      (h : x.box.same y.box = true) (n f a k) :
      Shift (⟨n, x :: y :: f, a⟩, k) (⟨n, fused x y :: f, a⟩, k)
  | host {x : Tree} (h : x.node.isText = false) {ys : List Tree} (hb : ∀ y ∈ ys, x.box.contains y.box = true)
      (n f a k) : Shift (⟨n, x :: (ys ++ f), a⟩, k) (⟨n, (hosting x).addFlow ys :: f, a⟩, k)
  | attach {x : Tree} (h : canHost x.node = true) (y n f a k) :
      Shift (⟨n, x :: y :: f, a⟩, k) (⟨n, (hosting x).addAttached [y] :: f, a⟩, k)
  | border {x : Tree} (h : canHost x.node = true) (y n f a k) :
      Shift (⟨n, x :: y :: f, a⟩, k) (⟨n, x.addAttached [y.mapNode (·.addRole .border)] :: f, a⟩, k)
  | detach (y n f a k) : Shift (⟨n, y :: f, a⟩, k) (⟨n, f, a ++ [y]⟩, k)
  /-- Some members become the items of a list or the rows of a table. -/
  | enlist {item list : Role} (hi : item.isList = false) (hl : list.isList = true) {xs items k k'}
      (h : Grouped [item] xs k items k') (hlen : 2 ≤ items.length) {m : Node} (hm : Container [list] m k')
      (hb : m.box.Around (xs.map box)) (n f a) : Shift (⟨n, xs ++ f, a⟩, k) (⟨n, ⟨m, items, []⟩ :: f, a⟩, k' + 1)

abbrev Shifts : Tree × Nat → Tree × Nat → Prop := Relation.ReflTransGen Shift

theorem Container.content {roles : List Role} {n : Node} {k : Nat} (h : Container roles n k) :
    n.isContent = false := by
  simp [Node.isContent, h.made.tag]

theorem Container.hasRole_eq_false {roles : List Role} {n : Node} {k : Nat} (h : Container roles n k) {r : Role}
    (hr : isGrouping r = false) : n.hasRole r = false := by
  rw [← Bool.not_eq_true, Node.hasRole_iff]
  intro hmem
  rw [h.grouping r hmem] at hr
  cases hr

theorem Container.chrome {roles : List Role} {n : Node} {k : Nat} (h : Container roles n k) :
    n.roles.isChrome = false := by
  rw [Node.isChrome_eq, h.hasRole_eq_false rfl, h.hasRole_eq_false rfl, Bool.or_false]

theorem Container.pending {roles : List Role} {n : Node} {k : Nat} (h : Container roles n k) : n.Pending where
  spacer := h.hasRole_eq_false rfl
  overflow := h.hasRole_eq_false rfl
  chrome := fun hc => by
    rw [h.chrome] at hc
    cases hc

theorem Grouped.created_le {roles : List Role} {ts us : List Tree} {k k' : Nat} (h : Grouped roles ts k us k') :
    k ≤ k' := by
  induction h with
  | nil => exact le_rfl
  | own _ _ ih => exact ih
  | wrapped _ _ _ _ ih => omega

theorem Shift.created_le {s s' : Tree × Nat} (h : Shift s s') : s.2 ≤ s'.2 := by
  cases h with
  | enlist _ _ h => exact h.created_le.trans (Nat.le_succ _)
  | _ => exact le_rfl

theorem Shifts.created_le {s s' : Tree × Nat} (h : Shifts s s') : s.2 ≤ s'.2 := by
  induction h with
  | refl => exact le_rfl
  | tail _ hs ih => exact ih.trans hs.created_le

section nodes

theorem kept_hosting (x : Tree) : Node.Kept x.node (hosting x).node := by
  unfold hosting
  split
  · next h => exact Node.kept_promoted h
  · exact .refl _

theorem sheds_node {t : Tree} {n : Node} (h : t.node.Kept n) (l : Multiset Node) (k : Nat) :
    Sheds Node.Kept (t.census + l) k 0 (census ⟨n, t.flow, t.attached⟩ + l) k := by
  rw [census_eq, census_mk, Multiset.cons_add, Multiset.cons_add]
  exact .change h _ _

theorem hosting_eq (x : Tree) : hosting x = ⟨(hosting x).node, x.flow, x.attached⟩ := by
  unfold hosting
  split
  · rfl
  · cases x
    rfl

theorem hosting_of_image {x : Tree} (h : x.node.isImage = true) : hosting x = x.mapNode Node.promoted := if_pos h

theorem hosting_of_view {x : Tree} (h : x.node.isContent = false) : hosting x = x := by
  unfold hosting
  rw [if_neg]
  intro hi
  simp only [Node.isImage, beq_iff_eq] at hi
  simp [Node.isContent, hi] at h

theorem Grouped.sheds {roles : List Role} {ts us : List Tree} {k k' : Nat} (h : Grouped roles ts k us k') :
    Sheds Node.Kept (censusAll ts) k 0 (censusAll us) k' := by
  induction h with
  | nil => exact .refl _ _
  | @own t n hn ts us k k' h ih =>
    rw [censusAll_cons, censusAll_cons]
    exact (sheds_node hn.kept _ k).head ((Sheds.refl _ k).add ih)
  | @wrapped g hg n k hn hb ts us k' h ih =>
    rw [censusAll_append, censusAll_cons, census_mk, censusAll_nil, add_zero, Multiset.cons_add]
    refine (Sheds.make hn.made _).head ?_
    rw [← Multiset.cons_add, ← Multiset.cons_add]
    exact (Sheds.refl _ _).add ih

end nodes

end FlexRecovery.Regroup
