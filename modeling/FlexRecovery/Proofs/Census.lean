import FlexRecovery.Tree
import Mathlib.Algebra.BigOperators.Group.Multiset.Basic
import Mathlib.Data.Multiset.Bind
import Mathlib.Tactic.Abel

/-!
The nodes of a tree counted with repetitions, whatever their order and their owners, and the conditions
that hold at every subtree.
-/

namespace FlexRecovery

namespace Node

mutual

/-- The creation indices of a node and of the spans in its text. -/
def indices : Node → List Nat
  | ⟨_, index, _, _, _, _, _, _, _, _, _, none, _, _, _⟩ => [index]
  | ⟨_, index, _, _, _, _, _, _, _, _, _, some (.literal _), _, _, _⟩ => [index]
  | ⟨_, index, _, _, _, _, _, _, _, _, _, some (.spans ns), _, _, _⟩ => index :: indicesAll ns

def indicesAll : List Node → List Nat
  | [] => []
  | n :: ns => indices n ++ indicesAll ns

end

theorem indices_congr {m n : Node} (hi : m.index = n.index) (ht : m.text = n.text) : m.indices = n.indices := by
  cases m with
  | mk _ _ _ _ _ _ _ _ _ _ _ t _ _ _ =>
    cases n
    cases hi
    cases ht
    rcases t with _ | _ | _ <;> rfl

theorem indices_of_no_text {n : Node} (h : n.text = none) : n.indices = [n.index] := by
  cases n
  cases h
  rfl

theorem index_mem_indices (n : Node) : n.index ∈ n.indices := by
  cases n with
  | mk _ _ _ _ _ _ _ _ _ _ _ t _ _ _ =>
    rcases t with _ | _ | _ <;> simp [indices]

end Node

namespace Tree

/-- The nodes of a tree, whatever their order. -/
def census (t : Tree) : Multiset Node := t.nodes

def censusAll (ts : List Tree) : Multiset Node := (ts.map census).sum

@[simp] theorem censusAll_nil : censusAll [] = 0 := rfl

@[simp] theorem censusAll_cons (t : Tree) (ts : List Tree) : censusAll (t :: ts) = t.census + censusAll ts := by
  simp [censusAll]

@[simp] theorem censusAll_append (ts us : List Tree) : censusAll (ts ++ us) = censusAll ts + censusAll us := by
  simp [censusAll]

theorem censusAll_perm {ts us : List Tree} (h : ts.Perm us) : censusAll ts = censusAll us :=
  (h.map census).sum_eq

theorem coe_subtreesAll (ts : List Tree) : ((subtreesAll ts).map node : Multiset Node) = censusAll ts := by
  induction ts with
  | nil => rfl
  | cons t ts ih =>
    rw [censusAll_cons, ← ih, subtreesAll, List.map_append, ← Multiset.coe_add]
    rfl

@[simp] theorem census_mk (n : Node) (flow attached : List Tree) :
    census ⟨n, flow, attached⟩ = n ::ₘ (censusAll flow + censusAll attached) := by
  rw [← coe_subtreesAll, ← coe_subtreesAll, Multiset.coe_add, Multiset.cons_coe, ← List.map_append]
  rfl

theorem census_eq (t : Tree) : t.census = t.node ::ₘ (censusAll t.flow + censusAll t.attached) := by
  cases t
  exact census_mk _ _ _

theorem census_addFlow (t : Tree) (ts : List Tree) : (t.addFlow ts).census = t.census + censusAll ts := by
  rw [census_eq, census_eq t]
  simp only [addFlow, censusAll_append, ← Multiset.singleton_add]
  abel

theorem census_addAttached (t : Tree) (ts : List Tree) :
    (t.addAttached ts).census = t.census + censusAll ts := by
  rw [census_eq, census_eq t]
  simp only [addAttached, censusAll_append, Multiset.cons_add, add_assoc]

theorem mem_census {t : Tree} {n : Node} : n ∈ t.census ↔ ∃ s ∈ t.subtrees, s.node = n := by
  simp [census, nodes]

theorem node_mem_census (t : Tree) : t.node ∈ t.census := by
  rw [census_eq]
  exact Multiset.mem_cons_self _ _

theorem mem_censusAll {ts : List Tree} {n : Node} : n ∈ censusAll ts ↔ ∃ t ∈ ts, n ∈ t.census := by
  induction ts with
  | nil => simp
  | cons t ts ih => simp [ih]

theorem subtreesAll_eq (ts : List Tree) : subtreesAll ts = ts.flatMap subtrees := by
  induction ts with
  | nil => rfl
  | cons t ts ih => rw [subtreesAll, ih, List.flatMap_cons]

theorem subtrees_eq (t : Tree) :
    t.subtrees = t :: (t.flow.flatMap subtrees ++ t.attached.flatMap subtrees) := by
  cases t
  rw [subtrees, subtreesAll_eq, subtreesAll_eq]

/-- Flow children and attached trees alike. -/
def members (t : Tree) : List Tree := t.flow ++ t.attached

theorem mem_subtrees {s t : Tree} : s ∈ t.subtrees ↔ s = t ∨ ∃ m ∈ t.members, s ∈ m.subtrees := by
  rw [subtrees_eq, List.mem_cons, ← List.flatMap_append, List.mem_flatMap]
  rfl

theorem self_mem_subtrees (t : Tree) : t ∈ t.subtrees := mem_subtrees.2 (.inl rfl)

theorem size_lt_of_mem_members {m t : Tree} (h : m ∈ t.members) : m.size < t.size := by
  have mem_sizeAll : ∀ ts : List Tree, m ∈ ts → m.size ≤ sizeAll ts := by
    intro ts
    induction ts with
    | nil => simp
    | cons u us ih =>
      intro hm
      rw [sizeAll]
      rcases List.mem_cons.1 hm with rfl | hm
      · omega
      · have := ih hm
        omega
  rw [size_eq t]
  rcases List.mem_append.1 h with h | h
  · have := mem_sizeAll _ h
    omega
  · have := mem_sizeAll _ h
    omega

/-- Induction on a tree by its members. -/
@[elab_as_elim]
theorem induction_members {motive : Tree → Prop} (t : Tree)
    (step : ∀ t, (∀ m ∈ t.members, motive m) → motive t) : motive t := by
  induction h : t.size using Nat.strong_induction_on generalizing t with
  | _ n ih => exact step t fun m hm => ih m.size (h ▸ size_lt_of_mem_members hm) m rfl

theorem card_census (t : Tree) : t.census.card = t.size := by
  induction t using induction_members with
  | _ t ih =>
    have card_censusAll (ts : List Tree) (h : ∀ m ∈ ts, m.census.card = m.size) :
        (censusAll ts).card = sizeAll ts := by
      induction ts with
      | nil => rfl
      | cons m ts ihs =>
        rw [censusAll_cons, Multiset.card_add, h m (by simp), ihs fun m hm => h m (List.mem_cons_of_mem _ hm)]
        rfl
    rw [census_eq, size_eq, Multiset.card_cons, Multiset.card_add,
      card_censusAll _ fun m hm => ih m (List.mem_append_left _ hm),
      card_censusAll _ fun m hm => ih m (List.mem_append_right _ hm)]
    omega

theorem mem_subtrees_trans {s t u : Tree} (hs : s ∈ t.subtrees) (ht : t ∈ u.subtrees) : s ∈ u.subtrees := by
  induction u using induction_members with
  | _ u ih =>
    rcases mem_subtrees.1 ht with rfl | ⟨m, hm, ht⟩
    · exact hs
    · exact mem_subtrees.2 (.inr ⟨m, hm, ih m hm ht⟩)

theorem mem_subtrees_of_mem_members {m s t : Tree} (hm : m ∈ s.members) (hs : s ∈ t.subtrees) :
    m ∈ t.subtrees :=
  mem_subtrees_trans (mem_subtrees.2 (.inr ⟨m, hm, self_mem_subtrees m⟩)) hs

/-- Whatever lies below the root is a member of some owner. -/
theorem exists_owner {s t : Tree} (hs : s ∈ t.subtrees) : s = t ∨ ∃ u ∈ t.subtrees, s ∈ u.members := by
  induction t using induction_members with
  | _ t ih =>
    rcases mem_subtrees.1 hs with rfl | ⟨m, hm, hs⟩
    · exact .inl rfl
    · right
      rcases ih m hm hs with rfl | ⟨u, hu, hmem⟩
      · exact ⟨t, self_mem_subtrees t, hm⟩
      · exact ⟨u, mem_subtrees.2 (.inr ⟨m, hm, hu⟩), hmem⟩

/-- The condition holds at the tree and at all trees below it. -/
def Every (P : Tree → Prop) (t : Tree) : Prop := ∀ s ∈ t.subtrees, P s

theorem every_iff {P : Tree → Prop} {t : Tree} : t.Every P ↔ P t ∧ ∀ m ∈ t.members, m.Every P := by
  constructor
  · intro h
    exact ⟨h t (self_mem_subtrees t), fun m hm s hs => h s (mem_subtrees.2 (.inr ⟨m, hm, hs⟩))⟩
  · rintro ⟨ht, hm⟩ s hs
    rcases mem_subtrees.1 hs with rfl | ⟨m, hmem, hs⟩
    · exact ht
    · exact hm m hmem s hs

theorem Every.mono {P Q : Tree → Prop} {t : Tree} (h : t.Every P) (hpq : ∀ s, P s → Q s) : t.Every Q :=
  fun s hs => hpq s (h s hs)

section boxes

variable {R : Box → Box → Prop} {b : Box} {n : Node} {flow attached : List Tree} {t : Tree}

/-- The flow children stand in that relation to the box of their owner. -/
def Flowing (R : Box → Box → Prop) (t : Tree) : Prop := ∀ m ∈ t.flow, R t.box m.box

/-- Stands in the relation to a box, and so does everything below it to its own owner. -/
structure Placed (R : Box → Box → Prop) (b : Box) (t : Tree) : Prop where
  self : R b t.box
  below : t.Every (Flowing R)

theorem every_flowing_mk : Every (Flowing R) ⟨n, flow, attached⟩ ↔
    (∀ m ∈ flow, Placed R n.box m) ∧ ∀ m ∈ attached, m.Every (Flowing R) := by
  rw [every_iff]
  constructor
  · rintro ⟨h, hm⟩
    exact ⟨fun m hf => ⟨h m hf, hm m (List.mem_append_left _ hf)⟩, fun m ha => hm m (List.mem_append_right _ ha)⟩
  · rintro ⟨hf, ha⟩
    exact ⟨fun m hm => (hf m hm).self, fun m hm => (List.mem_append.1 hm).elim (fun h => (hf m h).below) (ha m)⟩

/-- The root changes in its box. -/
theorem every_flowing_node (hn : n.box = t.box) :
    Every (Flowing R) ⟨n, t.flow, t.attached⟩ ↔ t.Every (Flowing R) := by
  obtain ⟨m, f, a⟩ := t
  rw [every_flowing_mk, every_flowing_mk, hn]
  rfl

theorem Placed.node (h : Placed R b t) (hn : n.box = t.box) : Placed R b ⟨n, t.flow, t.attached⟩ where
  self := by
    rw [Tree.box, hn]
    exact h.self
  below := (every_flowing_node hn).2 h.below

end boxes

end Tree

end FlexRecovery
