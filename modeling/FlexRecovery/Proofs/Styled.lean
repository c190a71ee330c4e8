import FlexRecovery.Proofs.Descent
import FlexRecovery.Resolve

/-!
What resolving does to one node: it settles sizes and adds tokens, and never touches what the node is or what
it is laid along.
-/

namespace FlexRecovery

namespace Node

/-- What becomes of a node under an owner with that direction. A container that stands for no layer and lies
across the direction may get another span there; all other nodes keep their boxes. -/
structure Styled (owner : Option Axis) (n n' : Node) : Prop where
  same : n' = { n with
    box := n'.box, width := n'.width, height := n'.height, align := n'.align, classes := n'.classes, roles := n'.roles }
  width : n.width.isSome = true → n'.width.isSome = true
  height : n.height.isSome = true → n'.height.isSome = true
  classes : n.classes.toList <+: n'.classes.toList
  roles : n'.roles = n.roles ∨ n'.roles = n.roles.insert .button
  box : n'.box = n.box ∨ ∃ d, owner = some d ∧ n.id = none ∧ n.direction = some d.cross ∧
    n'.box.start d = n.box.start d ∧ n'.box.stop d = n.box.stop d

/-- A later node of the same kind, with the same direction. -/
structure Akin (n n' : Node) : Prop where
  later : Later n n'
  tag : n'.tag = n.tag
  direction : n'.direction = n.direction
  preset : Regroup.isPreset n' = Regroup.isPreset n

variable {d : Option Axis} {n n' : Node}

theorem Akin.refl (n : Node) : Akin n n := ⟨.refl n, rfl, rfl, rfl⟩

theorem Akin.trans {a b c : Node} (h : Akin a b) (h' : Akin b c) : Akin a c :=
  ⟨h.later.trans h'.later, h'.tag.trans h.tag, h'.direction.trans h.direction, h'.preset.trans h.preset⟩

theorem Akin.content (h : Akin n n') : n'.isContent = n.isContent := by rw [isContent, h.tag, ← isContent]

theorem Styled.refl (n : Node) : Styled d n n :=
  ⟨by cases n; rfl, fun h => h, fun h => h, List.prefix_refl _, .inl rfl, .inl rfl⟩

theorem Styled.id_eq (h : Styled d n n') : n'.id = n.id := by rw [h.same]

theorem Styled.index (h : Styled d n n') : n'.index = n.index := by rw [h.same]

theorem Styled.tag (h : Styled d n n') : n'.tag = n.tag := by rw [h.same]

theorem Styled.direction (h : Styled d n n') : n'.direction = n.direction := by rw [h.same]

theorem Styled.isText (h : Styled d n n') : n'.isText = n.isText := by rw [Node.isText, h.tag, ← Node.isText]

theorem Styled.isSized (h : Styled d n n') : n.IsSized → n'.IsSized := .imp h.width h.height

theorem Styled.hasRole (h : Styled d n n') {r : Role} (hr : r ≠ .button) : n'.hasRole r = n.hasRole r := by
  rcases h.roles with e | e
  · rw [Node.hasRole, e, ← Node.hasRole]
  · have hb := hasRole_addRole n .button r
    rw [beq_false_of_ne hr, Bool.or_false] at hb
    rw [Node.hasRole, e]
    exact hb

theorem Styled.preset (h : Styled d n n') : Regroup.isPreset n' = Regroup.isPreset n := by
  rcases h.roles with e | e
  · rw [Regroup.isPreset, Node.hasRole, e]
    rfl
  · have hb : Regroup.isPreset (n.addRole .button) = Regroup.isPreset n := Regroup.isPreset_addRole n rfl (by simp)
    rw [← hb, Regroup.isPreset, Node.hasRole, e]
    rfl

theorem Styled.later (h : Styled d n n') : Later n n' where
  id := h.id_eq
  index := h.index
  text := by rw [h.same]
  multiLine := by rw [h.same]
  lineHeight := by rw [h.same]
  classes := h.classes
  tag := .inl h.tag
  style := fun _ => by rw [h.same]
  box := fun hn => h.box.resolve_right fun ⟨_, _, hid, _⟩ => by simp [hid] at hn

theorem Styled.akin (h : Styled d n n') : Akin n n' := ⟨h.later, h.tag, h.direction, h.preset⟩

/-- Without an owner that has a direction the box stays. -/
theorem Styled.box_eq (h : Styled none n n') : n'.box = n.box := h.box.resolve_right fun ⟨_, ho, _⟩ => by cases ho

theorem Styled.under (h : Styled none n n') (d : Option Axis) : Styled d n n' := { h with box := .inl h.box_eq }

/-- A node without a direction keeps its box under every owner. -/
theorem Styled.undirected (h : Styled d n n') (hn : n.direction = none) : Styled none n n' :=
  { h with box := .inl (h.box.resolve_right fun ⟨_, _, _, hd, _⟩ => by simp [hn] at hd) }

theorem Styled.trans {a b c : Node} (h : Styled d a b) (h' : Styled d b c) : Styled d a c where
  same := h'.same.trans (by rw [h.same])
  width := h'.width ∘ h.width
  height := h'.height ∘ h.height
  classes := h.classes.trans h'.classes
  roles := by
    rcases h'.roles with e' | e' <;> rw [e']
    · exact h.roles
    · rcases h.roles with e | e <;> rw [e]
      · exact .inr rfl
      · exact .inr (Distinct.insert_insert _ _)
  box := by
    rcases h'.box with e' | ⟨x, hx, hi, hc, hs, hs'⟩
    · rw [e']
      exact h.box
    · refine .inr ⟨x, hx, h.id_eq ▸ hi, h.direction ▸ hc, ?_⟩
      rcases h.box with e | ⟨y, hy, -, -, hs2, hs2'⟩
      · rw [← e]
        exact ⟨hs, hs'⟩
      · obtain rfl : x = y := Option.some.inj (hx.symm.trans hy)
        exact ⟨hs.trans hs2, hs'.trans hs2'⟩

theorem styled_width (n : Node) (s : Sizing) : Styled d n { n with width := some s } :=
  ⟨rfl, fun _ => rfl, fun h => h, List.prefix_refl _, .inl rfl, .inl rfl⟩

theorem styled_height (n : Node) (s : Sizing) : Styled d n { n with height := some s } :=
  ⟨rfl, fun h => h, fun _ => rfl, List.prefix_refl _, .inl rfl, .inl rfl⟩

theorem styled_align (n : Node) (a : Option Align) : Styled d n { n with align := a } :=
  ⟨rfl, fun h => h, fun h => h, List.prefix_refl _, .inl rfl, .inl rfl⟩

theorem styled_setSizing (n : Node) (axis : Axis) (s : Sizing) : Styled d n (n.setSizing axis s) := by
  cases axis
  · exact styled_width n s
  · exact styled_height n s

theorem styled_pushAll (n : Node) (tokens : List String) : Styled d n (n.pushAll tokens) :=
  ⟨rfl, fun h => h, fun h => h, Classes.prefix_pushAll _ _, .inl rfl, .inl rfl⟩

theorem styled_push (n : Node) (token : String) : Styled d n (n.push token) := styled_pushAll n [token]

theorem styled_button (n : Node) : Styled d n (n.addRole .button) :=
  ⟨rfl, fun h => h, fun h => h, List.prefix_refl _, .inr rfl, .inl rfl⟩

@[simp] theorem sizing_setSizing (n : Node) (axis : Axis) (s : Sizing) : (n.setSizing axis s).sizing axis = some s := by
  cases axis <;> rfl

end Node

namespace Resolve

open Node

/-- Each element on the right has its partner on the left. -/
theorem exists_of_mem_right {α β : Type} {r : α → β → Prop} {as : List α} {bs : List β}
    (h : List.Forall₂ r as bs) {b : β} (hb : b ∈ bs) : ∃ a ∈ as, r a b := by
  induction h with
  | nil => cases hb
  | cons hr _ ih =>
    rcases List.mem_cons.1 hb with rfl | hb
    · exact ⟨_, List.mem_cons_self .., hr⟩
    · obtain ⟨a, ha, hr⟩ := ih hb
      exact ⟨a, List.mem_cons_of_mem _ ha, hr⟩

variable {d : Option Axis}

theorem styled_fillSizing (n : Node) (axis : Axis) : Styled d n (fillSizing n axis) := by
  unfold fillSizing
  split
  · exact .refl n
  · exact styled_setSizing n _ _

theorem isSome_fillSizing (n : Node) (axis : Axis) : ((fillSizing n axis).sizing axis).isSome = true := by
  unfold fillSizing
  split
  · next h => exact h
  · rw [sizing_setSizing, Option.isSome_some]

theorem styled_widened (owner : Box) (x : Axis) (n : Node) : Styled (some x) n (widened owner x.cross n) := by
  unfold widened
  split
  · next h =>
    simp only [isGenerated, Bool.and_eq_true, Option.isNone_iff_eq_none, beq_iff_eq] at h
    obtain ⟨⟨hid, hd⟩, -⟩ := h
    refine .trans ?_ (styled_setSizing _ _ _)
    exact ⟨rfl, fun h => h, fun h => h, List.prefix_refl _, .inl rfl,
      .inr ⟨x, rfl, hid, hd, Box.start_withSpan_cross _ _ _ _, Box.stop_withSpan_cross _ _ _ _⟩⟩
  · exact .refl n

theorem styled_definite (owner n : Node) : Styled d n (definite owner n) := by
  unfold definite
  split
  · exact styled_width n _
  · exact .refl n

theorem styled_stretched (owner : Node) (cross : Axis) (n : Node) : Styled d n (stretched owner cross n) := by
  unfold stretched
  split
  · exact styled_setSizing n _ _
  · exact .refl n

theorem styled_sized (o : Options) (owner : Node) (x : Axis) (n : Node) :
    Styled (some x) n (sized o owner x n) := by
  unfold sized
  split
  · exact (styled_width n _).trans (styled_height _ _)
  · refine .trans ?_ (styled_stretched _ _ _)
    refine .trans ?_ (styled_definite _ _)
    exact ((styled_widened _ _ n).trans (styled_fillSizing _ _)).trans (styled_fillSizing _ _)

theorem isSized_sized (o : Options) (owner : Node) (x : Axis) (n : Node) : (sized o owner x n).IsSized := by
  unfold sized
  split
  · exact ⟨rfl, rfl⟩
  · refine (styled_stretched (d := none) _ _ _).isSized ((styled_definite (d := none) _ _).isSized ?_)
    let filled := fillSizing (widened owner.box x.cross n) .row
    exact ⟨(styled_fillSizing (d := none) filled .column).width (isSome_fillSizing _ .row),
      isSome_fillSizing filled .column⟩

theorem styled_settleAxis (flow : List Tree) (n : Node) (axis : Axis) : Styled d n (settleAxis flow n axis) := by
  unfold settleAxis
  split
  · exact styled_setSizing n _ _
  · exact .refl n

theorem styled_settleAuto (n : Node) (flow : List Tree) : Styled d n (settleAuto n flow) := by
  unfold settleAuto
  split
  · exact .refl n
  · exact (styled_settleAxis _ n _).trans (styled_settleAxis _ _ _)

theorem styled_scrolling (o : Options) (n : Node) : Styled d n (scrolling o n) := by
  unfold scrolling
  split
  · exact .refl n
  · split
    · exact styled_push n _
    · split
      · exact styled_push n _
      · exact .refl n

theorem styled_clamped (o : Options) (n : Node) : Styled d n (clamped o n) := by
  unfold clamped
  split
  · split
    · exact styled_push n _
    · exact .refl n
  · exact .refl n

theorem styled_fillPinned (owner : Box) (n : Node) (axis : Axis) : Styled d n (fillPinned owner n axis) := by
  unfold fillPinned
  split
  · exact .refl n
  · exact styled_setSizing n _ _

theorem styled_pinPrepared (owner : Box) (n : Node) : Styled d n (pinPrepared owner n) :=
  (styled_fillPinned owner n .row).trans (styled_fillPinned owner _ .column)

theorem styled_pinned (owner : Box) (n : Node) : Styled d n (pinned owner n) := styled_pushAll n _

theorem styled_containing (n : Node) (attached : List Tree) : Styled d n (containing n attached) := by
  unfold containing
  split
  · exact styled_push n _
  · exact .refl n

theorem isSome_fillPinned (owner : Box) (n : Node) (axis : Axis) :
    ((fillPinned owner n axis).sizing axis).isSome = true := by
  unfold fillPinned
  split
  · next h => exact h
  · rw [sizing_setSizing, Option.isSome_some]

theorem isSized_pinPrepared (owner : Box) (n : Node) : (pinPrepared owner n).IsSized :=
  ⟨(styled_fillPinned (d := none) owner (fillPinned owner n .row) .column).width (isSome_fillPinned owner n .row),
    isSome_fillPinned owner _ .column⟩

/-- A wrapper for a text that overflows. -/
structure Wrapper (w : Node) (created : Nat) : Prop where
  made : w.Made created
  directed : w.direction = some .row
  overflow : w.hasRole .overflow = true
  sized : w.IsSized

theorem wrapper_overflowWrapper (owner : Node) (index : Nat) (box : Box) :
    Wrapper (overflowWrapper owner index box) index := by
  refine ⟨⟨rfl, rfl, rfl, rfl⟩, rfl, rfl, ?_, rfl⟩
  unfold overflowWrapper
  dsimp only
  split <;> rfl

/-- The children of one owner with their slots. Under a direction each is settled; each wrapper is a new node
around a text. -/
inductive Slotted (d : Option Axis) : List Node → Nat → List Slot → Nat → Prop where
  | nil (c) : Slotted d [] c [] c
  | bare {n n'} (hn : Styled d n n') (hs : d.isSome = true → n'.IsSized) {ns c ss c'} (h : Slotted d ns c ss c') :
      Slotted d (n :: ns) c (⟨n', none⟩ :: ss) c'
  | wrapped {n n'} (hn : Styled d n n') (ht : n.isText = true) {w c} (hw : Wrapper w c) {ns ss c'}
      (h : Slotted d ns (c + 1) ss c') : Slotted d (n :: ns) c (⟨n', some w⟩ :: ss) c'

variable {x : Axis}

theorem Slotted.append_one {n : Node} {c c' c'' : Nat} {s : Slot} (h : Slotted d [n] c [s] c') {ns : List Node}
    {ss : List Slot} (hs : Slotted d ns c' ss c'') : Slotted d (n :: ns) c (s :: ss) c'' := by
  cases h with
  | bare hn hz h =>
    cases h
    exact .bare hn hz hs
  | wrapped hn ht hw h =>
    cases h
    exact .wrapped hn ht hw hs

theorem Slotted.styled {n n' : Node} (h : Styled d n n') {ns : List Node} {c c' : Nat} {ss : List Slot}
    (hs : Slotted d (n' :: ns) c ss c') : Slotted d (n :: ns) c ss c' := by
  cases hs with
  | bare hn hz hs => exact .bare (h.trans hn) hz hs
  | wrapped hn ht hw hs => exact .wrapped (h.trans hn) (h.isText ▸ ht) hw hs

theorem Slotted.of_map {f : Node → Node} (hf : ∀ n, Styled d n (f n)) {ns : List Node} {c c' : Nat} {ss : List Slot}
    (h : Slotted d (ns.map f) c ss c') : Slotted d ns c ss c' := by
  induction ns generalizing c ss with
  | nil => exact h
  | cons n ns ih =>
    cases h with
    | bare hn hz h => exact .bare ((hf n).trans hn) hz (ih h)
    | wrapped hn ht hw h => exact .wrapped ((hf n).trans hn) ((hf n).isText ▸ ht) hw (ih h)

theorem slotted_one {n n' : Node} (hn : Styled d n n') (hz : n.IsSized) (c : Nat) :
    Slotted d [n] c [{ node := n' }] c := .bare hn (fun _ => hn.isSized hz) (.nil c)

theorem slotted_bounded (owner : Node) (direction : Axis) {n : Node} (ht : n.isText = true) (hz : n.IsSized)
    (next : Option Node) (j : Journal) :
    Slotted d [n] j.created [(bounded owner direction n next j).1] (bounded owner direction n next j).2.created := by
  unfold bounded
  split
  · exact slotted_one (.refl n) hz _
  · split
    · exact slotted_one (styled_push n _) hz _
    · split
      · exact slotted_one (styled_push n _) hz _
      · exact .wrapped (styled_push n _) ht (wrapper_overflowWrapper _ _ _) (.nil _)

theorem slotted_slot (o : Options) (owner : Node) (direction : Axis) {n : Node} (hz : n.IsSized) (next : Option Node)
    (j : Journal) :
    Slotted d [n] j.created [(slot o owner direction n next j).1] (slot o owner direction n next j).2.created := by
  have hn : Styled d n (scrolling o n) := styled_scrolling o n
  unfold slot
  split
  · exact slotted_one (hn.trans (styled_clamped _ _)) hz _
  · split
    · exact slotted_one hn hz _
    · next ht =>
      have ht : (scrolling o n).isText = true := by
        simp only [Bool.or_eq_true, Bool.not_eq_true', not_or, Bool.not_eq_false] at ht
        exact ht.1
      have hp := hn.trans (styled_push (scrolling o n) "truncate")
      split
      · exact slotted_one hp hz _
      · have hb := slotted_bounded (d := d) owner direction (n := (scrolling o n).push "truncate") ht (hp.isSized hz)
        exact (hb next j).styled hp

theorem slotted_slotsFrom (o : Options) (owner : Node) (direction : Axis) {ns : List Node}
    (hz : ∀ n ∈ ns, n.IsSized) (j : Journal) :
    Slotted d ns j.created (slotsFrom o owner direction ns j).1 (slotsFrom o owner direction ns j).2.created := by
  induction ns generalizing j with
  | nil => exact .nil _
  | cons n ns ih =>
    exact (slotted_slot o owner direction (hz n (by simp)) ns.head? j).append_one
      (ih (fun m hm => hz m (List.mem_cons_of_mem _ hm)) _)

theorem slotted_slots (o : Options) (owner : Node) (ns : List Node) (j : Journal) :
    Slotted owner.direction ns j.created (slots o owner ns j).1 (slots o owner ns j).2.created := by
  unfold slots
  cases owner.direction with
  | none =>
    induction ns with
    | nil => exact .nil _
    | cons n ns ih => exact .bare (.refl n) (fun h => by cases h) ih
  | some direction =>
    refine .of_map (styled_sized o owner direction) (slotted_slotsFrom _ _ _ (fun n hn => ?_) j)
    obtain ⟨m, -, rfl⟩ := List.mem_map.1 hn
    exact isSized_sized o owner direction m

/-- A wrapper puts no wrapper around the text in it. -/
theorem slots_wrapper (o : Options) {w : Node} {c : Nat} (hw : Wrapper w c) (n : Node) (j : Journal) :
    ∃ n', Styled w.direction n n' ∧ n'.IsSized ∧ slots o w [n] j = ([{ node := n' }], j) := by
  have hz := isSized_sized o w .row n
  have key : ∃ n', Styled (some .row) (sized o w .row n) n' ∧ slot o w .row (sized o w .row n) none j =
      ({ node := n' }, j) := by
    have hn : Styled (some .row) (sized o w .row n) (scrolling o (sized o w .row n)) := styled_scrolling o _
    unfold slot
    split
    · exact ⟨_, hn.trans (styled_clamped _ _), rfl⟩
    · split
      · exact ⟨_, hn, rfl⟩
      · rw [if_pos (by simp [hw.overflow])]
        exact ⟨_, hn.trans (styled_push _ _), rfl⟩
  obtain ⟨n', hn, hs⟩ := key
  have hr : slots o w [n] j = ([(slot o w .row (sized o w .row n) none j).1],
      (slot o w .row (sized o w .row n) none j).2) := by
    unfold slots
    rw [hw.directed]
    rfl
  rw [hw.directed, hr, hs]
  exact ⟨n', (styled_sized o w .row n).trans hn, hn.isSized hz, rfl⟩

end Resolve

end FlexRecovery
