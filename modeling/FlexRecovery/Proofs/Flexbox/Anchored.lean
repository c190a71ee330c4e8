import FlexRecovery.Proofs.Flexbox.Insets

/-!
What is pinned to its owner is put back where it was: its tokens state the edges and the extent of its box in the
design, or its center.
-/

namespace FlexRecovery

/-- No token of the node says where it lies on its owner. -/
def Node.Loose (n : Node) : Prop := ∀ t ∈ n.classes.toList, ¬Opens Resolve.pinStems t

namespace Resolve

open Flexbox

variable {owner : Box} {n : Node} {axis : Axis}

/-! ### The tokens of a pinned node -/

def Pin.insets : Pin → List Inset
  | start v => [.start v]
  | stop v => [.stop v]
  | center => [.middle, .back]
  | extent v => [.extent v]

/-- All that is said of a node along an axis. -/
def insets (owner : Box) (n : Node) (axis : Axis) : List Inset := (pins owner n axis).flatMap Pin.insets

theorem offset_eq (edge : String) (v : Int) : offset edge v = edge ++ "-" ++ length v := by
  unfold offset length
  split
  · rw [String.append_assoc]
    rfl
  · rfl

theorem tokens_pin (axis : Axis) (p : Pin) : p.tokens axis = p.insets.map (Inset.token axis) := by
  cases axis <;> cases p <;> simp only [Pin.tokens, Pin.insets, offset_eq] <;> rfl

theorem positionTokens_eq (owner : Box) (n : Node) : positionTokens owner n = "absolute" ::
    ((insets owner n .row).map (Inset.token .row) ++ (insets owner n .column).map (Inset.token .column)) := by
  simp only [positionTokens, insets, List.map_flatMap, ← tokens_pin]

theorem opens_pinStems {t : String} (h : Opens (insetStems axis) t) : Opens pinStems t :=
  h.trans (by cases axis <;> decide)

/-- What a pinned node says along an axis is what its pins say. -/
theorem mem_pinned_of_opens (loose : n.Loose) {t : String} (ht : Opens (insetStems axis) t) :
    t ∈ (pinned owner n).classes.toList ↔ ∃ i ∈ insets owner n axis, i.token axis = t := by
  have none : t ∉ n.classes.toList := fun hm => loose t hm (opens_pinStems ht)
  have other {axis' : Axis} (h : Apart (insetStems axis') (insetStems axis)) {is : List Inset} :
      t ∉ is.map (Inset.token axis') := fun hm => by
    obtain ⟨i, -, rfl⟩ := List.mem_map.1 hm
    exact h.not_opens (i.opens_token axis') ht
  have absolute : t ≠ "absolute" := by
    rintro rfl
    cases axis <;> exact absurd ht (by decide)
  have some : t ≠ "" := by
    rintro rfl
    cases axis <;> exact absurd ht (by decide)
  rw [pinned, Node.pushAll, Classes.mem_pushAll, or_iff_right none, and_iff_left some, positionTokens_eq,
    List.mem_cons, or_iff_right absolute, List.mem_append, ← List.mem_map]
  cases axis with
  | row => exact or_iff_left (other (by decide))
  | column => exact or_iff_right (other (by decide))

theorem token_mem_pinned (loose : n.Loose) (i : Inset) :
    i.token axis ∈ (pinned owner n).classes.toList ↔ i ∈ insets owner n axis := by
  rw [mem_pinned_of_opens loose (i.opens_token axis)]
  constructor
  · rintro ⟨j, hj, h⟩
    rwa [← Inset.token_injective axis h]
  · exact fun hi => ⟨i, hi, rfl⟩

/-- A span is allowed if it does all that is said. -/
theorem allows_pinned (loose : n.Loose) {a b : ℚ} : Allows axis owner (pinned owner n).classes.toList a b ↔
    ∀ i ∈ insets owner n axis, i.Holds axis owner (if .back ∈ insets owner n axis then (b - a) / 2 else 0) a b := by
  have setback : setback axis (pinned owner n).classes.toList a b =
      if .back ∈ insets owner n axis then (b - a) / 2 else 0 :=
    if_congr (token_mem_pinned loose .back) rfl rfl
  rw [Allows, setback]
  constructor
  · intro h i hi
    obtain ⟨j, hj, holds⟩ := h _ ((token_mem_pinned loose i).2 hi) (i.opens_token axis)
    rwa [← Inset.token_injective axis hj]
  · intro h t ht opens
    obtain ⟨i, hi, rfl⟩ := (mem_pinned_of_opens loose opens).1 ht
    exact ⟨i, rfl, h i hi⟩

/-! ### What is said of it -/

theorem insets_constrained (h : n.sizing axis = some .constrained) : insets owner n axis =
    [.start (n.box.start axis - owner.start axis), .stop (owner.stop axis - n.box.stop axis)] := by
  simp [insets, pins, h, Pin.insets, Margins.between]

/-- A node that follows its content has the edge that is nearer to its owner's. -/
theorem insets_auto (owner : Box) (h : n.sizing axis = some .auto) :
    (n.box.start axis - owner.start axis ≤ owner.stop axis - n.box.stop axis ∧
      insets owner n axis = [.start (n.box.start axis - owner.start axis)]) ∨
    (owner.stop axis - n.box.stop axis ≤ n.box.start axis - owner.start axis ∧
      insets owner n axis = [.stop (owner.stop axis - n.box.stop axis)]) := by
  by_cases near : n.box.start axis - owner.start axis ≤ owner.stop axis - n.box.stop axis
  · exact .inl ⟨near, by simp [insets, pins, h, Pin.insets, Margins.between, near]⟩
  · exact .inr ⟨(not_le.1 near).le, by simp [insets, pins, h, Pin.insets, Margins.between, near]⟩

/-- A fixed node has one edge, or its center. -/
theorem insets_fixed (owner : Box) (h : n.sizing axis = some .fixed) :
    insets owner n axis = [.start (n.box.start axis - owner.start axis), .extent (n.box.extent axis)] ∨
    insets owner n axis = [.stop (owner.stop axis - n.box.stop axis), .extent (n.box.extent axis)] ∨
    (close (n.box.start axis - owner.start axis) (owner.stop axis - n.box.stop axis) = true ∧
      insets owner n axis = [.middle, .back, .extent (n.box.extent axis)]) := by
  by_cases centered : ((Margins.between n.box owner axis).isSymmetric &&
      (Margins.between n.box owner axis).start != 0) = true
  · exact .inr (.inr ⟨(Bool.and_eq_true_iff.1 centered).1, by simp only [insets, pins, h, centered]; rfl⟩)
  · by_cases near : n.box.start axis - owner.start axis ≤ owner.stop axis - n.box.stop axis
    · exact .inl (by simp only [insets, pins, h, centered]; simp [Pin.insets, Margins.between, near])
    · exact .inr (.inl (by simp only [insets, pins, h, centered]; simp [Pin.insets, Margins.between, near]))

/-! ### Where it is put -/

section spans

variable {box : Box} {a b : ℚ}

theorem holds_start :
    (Inset.start (box.start axis - owner.start axis)).Holds axis owner 0 a b ↔ a = box.start axis := by
  rw [Inset.Holds, Int.cast_sub]
  constructor <;> intro h <;> linarith

theorem holds_stop :
    (Inset.stop (owner.stop axis - box.stop axis)).Holds axis owner 0 a b ↔ b = box.stop axis := by
  rw [Inset.Holds, Int.cast_sub]
  constructor <;> intro h <;> linarith

theorem holds_extent {setback : ℚ} {e : Nat} : (Inset.extent e).Holds axis owner setback a b ↔ b = a + e := by
  rw [Inset.Holds]
  constructor <;> intro h <;> linarith

theorem holds_back {setback : ℚ} : Inset.back.Holds axis owner setback a b := trivial

/-- A span that is moved back by half of itself has its center on its owner's. -/
theorem holds_middle : Inset.middle.Holds axis owner ((b - a) / 2) a b ↔
    (a + b) / 2 = owner.start axis + owner.extent axis / 2 := by
  rw [Inset.Holds]
  constructor <;> intro h <;> linarith

theorem cast_stop (box : Box) (axis : Axis) : (box.stop axis : ℚ) = box.start axis + box.extent axis := by
  exact_mod_cast box.stop_eq axis

end spans

theorem restores_constrained (loose : n.Loose) (h : n.sizing axis = some .constrained) :
    Restores axis owner n.box (pinned owner n).classes.toList (some .constrained) := by
  intro a b
  rw [allows_pinned loose, insets_constrained h]
  simp [holds_start, holds_stop]

theorem restores_auto (loose : n.Loose) (h : n.sizing axis = some .auto) :
    Restores axis owner n.box (pinned owner n).classes.toList (some .auto) := by
  rcases insets_auto owner h with ⟨near, said⟩ | ⟨near, said⟩
  · refine .inl ⟨near, fun a b => ?_⟩
    rw [allows_pinned loose, said]
    simp [holds_start]
  · refine .inr ⟨near, fun a b => ?_⟩
    rw [allows_pinned loose, said]
    simp [holds_stop]

theorem restores_fixed (loose : n.Loose) (h : n.sizing axis = some .fixed) :
    Restores axis owner n.box (pinned owner n).classes.toList (some .fixed) := by
  have stop := cast_stop n.box axis
  have exact : |(n.box.start axis : ℚ) - n.box.start axis| ≤ Tuning.tolerance := by simp [Tuning.tolerance]
  rcases insets_fixed owner h with said | said | ⟨symmetric, said⟩
  · refine ⟨n.box.start axis, exact, fun a b => ?_⟩
    rw [allows_pinned loose, said]
    simp only [List.mem_cons, List.not_mem_nil, reduceCtorEq, or_false, if_false, forall_eq_or_imp, forall_eq,
      holds_start, holds_extent]
    constructor <;> rintro ⟨hs, he⟩ <;> exact ⟨hs, by linarith⟩
  · refine ⟨n.box.start axis, exact, fun a b => ?_⟩
    rw [allows_pinned loose, said]
    simp only [List.mem_cons, List.not_mem_nil, reduceCtorEq, or_false, if_false, forall_eq_or_imp, forall_eq,
      holds_stop, holds_extent]
    constructor <;> rintro ⟨hs, he⟩ <;> constructor <;> linarith
  · -- the centers agree, and half of the difference of the margins is within the tolerance
    have stop' := cast_stop owner axis
    refine ⟨owner.start axis + (owner.extent axis - n.box.extent axis) / 2, ?_, fun a b => ?_⟩
    · obtain ⟨hle, hge⟩ := close_iff.1 symmetric
      have hle : (n.box.start axis - owner.start axis - (owner.stop axis - n.box.stop axis) : ℚ) ≤ 1 := by
        exact_mod_cast hle
      have hge : (owner.stop axis - n.box.stop axis - (n.box.start axis - owner.start axis) : ℚ) ≤ 1 := by
        exact_mod_cast hge
      rw [show (Tuning.tolerance : ℚ) = 1 by simp [Tuning.tolerance], abs_le]
      constructor <;> linarith
    · rw [allows_pinned loose, said]
      simp only [List.mem_cons, List.not_mem_nil, reduceCtorEq, or_false, false_or, if_true, forall_eq_or_imp,
        forall_eq, holds_middle, holds_back, holds_extent, true_and]
      constructor <;> rintro ⟨hs, he⟩ <;> constructor <;> linarith

/-- The tokens of a node that had none of that kind put its box back on its owner. -/
theorem restores_pinned (axis : Axis) (loose : n.Loose) (sized : (n.sizing axis).isSome = true) :
    Restores axis owner n.box (pinned owner n).classes.toList (n.sizing axis) := by
  cases h : n.sizing axis with
  | none => simp [h] at sized
  | some s =>
    cases s with
    | constrained => exact restores_constrained loose h
    | auto => exact restores_auto loose h
    | fixed => exact restores_fixed loose h

end Resolve

end FlexRecovery
