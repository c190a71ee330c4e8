import FlexRecovery.Proofs.Grounding
import Mathlib

/-!
What stacking numbers say. Every flow child of a tree that had none gets one; they grow from sibling to sibling, and
texts are above all others as long as the others are few.
-/

namespace FlexRecovery.Stacking

/-! ### The number of a node -/

/-- The tokens that stack a node. -/
def tokens (n : Node) : List String := n.classes.toList.filter (beginsWith "z-")

/-- The node has that number, and no other token stacks it. -/
def Carries (n : Node) (l : Nat) : Prop := tokens n = [level l]

theorem level_injective : Function.Injective level := fun _ _ h =>
  Nat.repr_inj.1 ((String.append_right_inj _).1 ((String.append_left_inj _).1 h))

theorem Carries.unique {n : Node} {l l' : Nat} (h : Carries n l) (h' : Carries n l') : l' = l :=
  level_injective (List.singleton_inj.1 (h'.symm.trans h))

theorem isNumbered_eq_false {n : Node} : isNumbered n = false ↔ tokens n = [] := by
  rw [isNumbered, Classes.hasPrefix, List.any_eq_false, tokens, List.filter_eq_nil_iff]

theorem Carries.isNumbered {n : Node} {l : Nat} (h : Carries n l) : isNumbered n = true := by
  rw [← Bool.not_eq_false, isNumbered_eq_false, h]
  exact List.cons_ne_nil _ _

theorem beginsWith_level (l : Nat) : beginsWith "z-" (level l) = true := by
  rw [beginsWith_iff, level, String.append_assoc, String.toList_append]
  exact List.IsPrefix.trans (by decide) (List.prefix_append _ _)

/-- A token of another kind. -/
theorem tokens_push (n : Node) {t : String} (ht : beginsWith "z-" t = false) : tokens (n.push t) = tokens n := by
  unfold tokens Node.push Classes.push
  split
  · rfl
  · rw [Distinct.toList_insert]
    split
    · rfl
    · rw [List.filter_append, List.filter_singleton, ht, Bool.cond_false, List.append_nil]

theorem carries_push {n : Node} (h : isNumbered n = false) (l : Nat) : Carries (n.push (level l)) l := by
  have new : level l ∉ n.classes.toList := fun hm => by
    have listed : level l ∈ tokens n := List.mem_filter.2 ⟨hm, beginsWith_level l⟩
    simp [isNumbered_eq_false.1 h] at listed
  unfold Carries tokens Node.push Classes.push
  rw [if_neg (level_ne_empty l), Distinct.toList_insert, if_neg new, List.filter_append, List.filter_singleton,
    beginsWith_level, show n.classes.toList.filter _ = _ from isNumbered_eq_false.1 h]
  rfl

theorem carries_numbered {n : Node} (h : isNumbered n = false) (l : Nat) : Carries (numbered n l) l := by
  rw [numbered, h]
  exact (tokens_push _ (by decide)).trans (carries_push h l)

/-- An owner that numbers a node settles it: the node keeps that number when it numbers its own members. -/
theorem carries_assign {t : Tree} (h : isNumbered t.node = false) (l : Nat) :
    Carries (assign (numbered t.node l) t).node l := by
  have carries := carries_numbered h l
  rw [node_assign, owning, carries.isNumbered, Bool.or_true]
  exact carries

theorem isText_assign (t : Tree) (l : Nat) : (assign (numbered t.node l) t).node.isText = t.node.isText := by
  rw [node_assign]
  rcases owning_or (numbered t.node l) t.flow with ho | ho <;> rcases numbered_or t.node l with hn | hn <;> rw [ho, hn]
    <;> rfl

/-! ### The siblings of one owner -/

/-- Every text is above every sibling that is not one. -/
def TextsAbove (ts : List Tree) : Prop :=
  ∀ t ∈ ts, t.node.isText = true → ∀ u ∈ ts, u.node.isText = false →
    ∀ l m, Carries t.node l → Carries u.node m → m < l

/-- Each has one number, and what is not text is above what comes before it. Texts are above all others if there are
no texts, or fewer others than the number of a text. -/
structure Layered (ts : List Tree) : Prop where
  single : ∀ t ∈ ts, ∃ l, Carries t.node l
  rising : (ts.filter fun t => !t.node.isText).Pairwise fun t u =>
    ∀ l m, Carries t.node l → Carries u.node m → l < m
  texts : TextsAbove ts ↔ ((∃ t ∈ ts, t.node.isText = true) → stacked ts < Tuning.textLevel)

variable {ts : List Tree}

theorem carries_text (h : ∀ t ∈ ts, isNumbered t.node = false) (below : Nat) :
    ∀ m ∈ assignFlow below ts, m.node.isText = true → Carries m.node Tuning.textLevel := by
  induction ts generalizing below with
  | nil => simp [assignFlow]
  | cons t ts ih =>
    obtain ⟨ht, hts⟩ := List.forall_mem_cons.1 h
    unfold assignFlow
    split
    · exact List.forall_mem_cons.2 ⟨fun _ => carries_assign ht _, ih hts _⟩
    · next other =>
      refine List.forall_mem_cons.2 ⟨fun htext => ?_, ih hts _⟩
      rw [isText_assign] at htext
      exact absurd htext other

/-- What is not text is counted on from the number below it. -/
theorem carries_others (h : ∀ t ∈ ts, isNumbered t.node = false) (below : Nat) :
    List.Forall₂ (fun m l => Carries m.node l) ((assignFlow below ts).filter fun t => !t.node.isText)
      (List.range' (below + 1) (stacked ts)) := by
  induction ts generalizing below with
  | nil => exact .nil
  | cons t ts ih =>
    obtain ⟨ht, hts⟩ := List.forall_mem_cons.1 h
    unfold assignFlow
    split
    · next htext =>
      rw [List.filter_cons_of_neg (by simp [isText_assign, htext]), stacked, List.filter_cons_of_neg (by simp [htext])]
      exact ih hts below
    · next other =>
      rw [List.filter_cons_of_pos (by simp [isText_assign, other]), stacked, List.filter_cons_of_pos (by simp [other]),
        List.length_cons, List.range'_succ]
      exact .cons (carries_assign ht _) (ih hts (below + 1))

theorem stacked_assignFlow (h : ∀ t ∈ ts, isNumbered t.node = false) (below : Nat) :
    stacked (assignFlow below ts) = stacked ts := by
  rw [stacked, (carries_others h below).length_eq, List.length_range']

/-- The others take the numbers from one to their count. -/
theorem exists_carries (h : ∀ t ∈ ts, isNumbered t.node = false) {l : Nat} (hl : 0 < l) (hle : l ≤ stacked ts) :
    ∃ u ∈ assignFlow 0 ts, u.node.isText = false ∧ Carries u.node l := by
  have listed : l ∈ List.range' (0 + 1) (stacked ts) := List.mem_range'_1.2 ⟨hl, by omega⟩
  obtain ⟨u, hu, carries⟩ := exists_of_forall₂ (carries_others h 0).flip l listed
  obtain ⟨hu, other⟩ := List.mem_filter.1 hu
  exact ⟨u, hu, by simpa using other, carries⟩

theorem carries_le (h : ∀ t ∈ ts, isNumbered t.node = false) {u : Tree} (hu : u ∈ assignFlow 0 ts)
    (other : u.node.isText = false) : ∃ l, Carries u.node l ∧ l ≤ stacked ts := by
  obtain ⟨l, hl, carries⟩ := exists_of_forall₂ (carries_others h 0) u (List.mem_filter.2 ⟨hu, by simp [other]⟩)
  exact ⟨l, carries, by have := List.mem_range'_1.1 hl; omega⟩

theorem textsAbove_assignFlow (h : ∀ t ∈ ts, isNumbered t.node = false) :
    TextsAbove (assignFlow 0 ts) ↔
      ((∃ t ∈ assignFlow 0 ts, t.node.isText = true) → stacked (assignFlow 0 ts) < Tuning.textLevel) := by
  rw [stacked_assignFlow h]
  constructor
  · rintro above ⟨t, ht, text⟩
    by_contra many
    -- the last of the others has their count for its number
    have hpos : 0 < stacked ts := lt_of_lt_of_le (by decide) (not_lt.1 many)
    obtain ⟨u, hu, other, carries⟩ := exists_carries h hpos le_rfl
    exact many (above t ht text u hu other _ _ (carries_text h 0 t ht text) carries)
  · intro few t ht text u hu other l m hl hm
    obtain ⟨m', carries, le⟩ := carries_le h hu other
    rw [(carries_text h 0 t ht text).unique hl, carries.unique hm]
    exact le.trans_lt (few ⟨t, ht, text⟩)

theorem pairwise_of_carries {ls : List Nat} (h : List.Forall₂ (fun t l => Carries t.node l) ts ls)
    (rising : ls.Pairwise (· < ·)) :
    ts.Pairwise fun t u => ∀ l m, Carries t.node l → Carries u.node m → l < m := by
  induction h with
  | nil => exact .nil
  | cons carries others ih =>
    obtain ⟨first, rising⟩ := List.pairwise_cons.1 rising
    refine .cons (fun u hu l m hl hm => ?_) (ih rising)
    obtain ⟨m', hm', carries'⟩ := exists_of_forall₂ others u hu
    rw [carries.unique hl, carries'.unique hm]
    exact first m' hm'

theorem layered_assignFlow (h : ∀ t ∈ ts, isNumbered t.node = false) : Layered (assignFlow 0 ts) where
  single := fun t ht => by
    cases text : t.node.isText with
    | true => exact ⟨_, carries_text h 0 t ht text⟩
    | false =>
      obtain ⟨l, carries, -⟩ := carries_le h ht text
      exact ⟨l, carries⟩
  rising := pairwise_of_carries (carries_others h 0) (List.pairwise_lt_range' 1)
  texts := textsAbove_assignFlow h

/-! ### The whole tree -/

theorem mem_assignFlow {below : Nat} {m : Tree} (hm : m ∈ assignFlow below ts) : ∃ t ∈ ts, ∃ n, m = assign n t := by
  induction ts generalizing below with
  | nil => simp [assignFlow] at hm
  | cons t ts ih =>
    unfold assignFlow at hm
    split at hm <;> rcases List.mem_cons.1 hm with rfl | hm
    · exact ⟨t, List.mem_cons_self .., _, rfl⟩
    · exact (ih hm).imp fun _ hu => hu.imp_left (List.mem_cons_of_mem _)
    · exact ⟨t, List.mem_cons_self .., _, rfl⟩
    · exact (ih hm).imp fun _ hu => hu.imp_left (List.mem_cons_of_mem _)

theorem assignAttached_eq (ts : List Tree) : assignAttached ts = ts.map fun t => assign t.node t := by
  induction ts with
  | nil => rfl
  | cons t ts ih => rw [assignAttached, ih, List.map_cons]

theorem layered_assign {t : Tree} (h : t.Every fun s => isNumbered s.node = false) (n : Node) :
    (assign n t).Every fun u => Layered u.flow := by
  induction t using Tree.induction_members generalizing n with
  | _ t ih =>
    obtain ⟨-, below⟩ := Tree.every_iff.1 h
    have fresh (u : Tree) (hu : u ∈ t.members) : isNumbered u.node = false := below u hu u u.self_mem_subtrees
    have member (u : Tree) (hu : u ∈ t.members) (n : Node) := ih u hu (below u hu) n
    cases t with
    | mk _ flow attached =>
      refine Tree.every_iff.2 ⟨layered_assignFlow fun u hu => fresh u (List.mem_append_left _ hu), fun m hm => ?_⟩
      rcases List.mem_append.1 hm with hm | hm
      · obtain ⟨u, hu, n, rfl⟩ := mem_assignFlow hm
        exact member u (List.mem_append_left _ hu) n
      · rw [assign, assignAttached_eq] at hm
        obtain ⟨u, hu, rfl⟩ := List.mem_map.1 hm
        exact member u (List.mem_append_right _ hu) u.node

/-- Where no node has a number yet, every flow child gets one, they rise from sibling to sibling, and the texts of an
owner are above its other children exactly if it has none or fewer others than the number of a text. -/
theorem number_layers (t : Tree) (h : ∀ n ∈ t.nodes, isNumbered n = false) :
    ∀ u ∈ (number t).subtrees, Layered u.flow :=
  layered_assign (fun _ hs => h _ (List.mem_map_of_mem hs)) t.node

/-- A view, a text with a view of its own, and a view behind them that has two. -/
def labeled : Tree :=
  let view (flow : List Tree) : Tree := ⟨default, flow, []⟩
  view [view [], ⟨{ (default : Node) with tag := .text }, [view []], []⟩, view [view [], view []]]

theorem number_layers_labeled : (∀ n ∈ labeled.nodes, isNumbered n = false) ∧
    ∀ u ∈ (number labeled).subtrees, Layered u.flow := by
  have fresh : ∀ n ∈ labeled.nodes, isNumbered n = false := by decide
  exact ⟨fresh, number_layers labeled fresh⟩

/-- As many views as the number of a text, and a text. -/
def crowded : Tree :=
  ⟨default, List.replicate Tuning.textLevel default ++ [⟨{ (default : Node) with tag := .text }, [], []⟩], []⟩

/-- The last view has the number of the text. -/
theorem hidden_caption : (∀ n ∈ crowded.nodes, isNumbered n = false) ∧ ¬TextsAbove (number crowded).flow := by
  have fresh : ∀ n ∈ crowded.nodes, isNumbered n = false := by decide +kernel
  have fresh' : ∀ t ∈ crowded.flow, isNumbered t.node = false := by decide +kernel
  refine ⟨fresh, fun above => ?_⟩
  have few := (textsAbove_assignFlow fresh').1 above
  rw [stacked_assignFlow fresh'] at few
  exact absurd (few (by decide +kernel)) (by decide +kernel)

end FlexRecovery.Stacking
