import FlexRecovery.Proofs.Facets
import FlexRecovery.Proofs.Flexbox.Stated

/-!
What the tokens state that a node gets while it is resolved: as an owner, as a flow child of one, and as a node that is
placed on one.
-/

namespace FlexRecovery.Resolve

open Node FlexRecovery.Tree Facet

variable {axis : Axis} {ts : List String}

/-! ### One token -/

theorem read_direction (d : Axis) : read (directionToken d) = some .direction := by cases d <;> decide +kernel

theorem read_align (a : Align) : read a.token = some .items := by cases a <;> decide +kernel

theorem read_plan (p : Plan) : read p.token = some .justify := by
  cases p with
  | spacer k => exact (by decide +kernel : read "justify-start" = some .justify)
  | _ => decide +kernel

theorem read_gapToken (axis : Axis) (v : Int) : read (gapToken axis v) = some (.gap axis) := by
  cases axis <;> exact read_of_opens (Opens.append (by decide) _)

theorem read_margins (axis : Axis) (v : Int) :
    read ("m" ++ startLetter axis ++ "-" ++ px v) = some (.margin (.leading axis)) ∧
      read ("m" ++ stopLetter axis ++ "-" ++ px v) = some (.margin (.trailing axis)) := by
  cases axis <;> exact ⟨read_of_opens (Opens.append (by decide) _), read_of_opens (Opens.append (by decide) _)⟩

theorem read_paddings (axis : Axis) (v : Int) :
    read ("p" ++ startLetter axis ++ "-" ++ px v) = some (.padding (.leading axis)) ∧
      read ("p" ++ stopLetter axis ++ "-" ++ px v) = some (.padding (.trailing axis)) := by
  cases axis <;> exact ⟨read_of_opens (Opens.append (by decide) _), read_of_opens (Opens.append (by decide) _)⟩

theorem read_extent (axis : Axis) (v : Int) : read (sizeLetter axis ++ "-" ++ px v) = some (.extent axis) := by
  refine read_of_opens ?_
  rw [px, ← String.append_assoc, ← String.append_assoc]
  refine Opens.append (Opens.append ?_ _) _
  cases axis <;> decide

theorem read_maxWidth (v : Int) : read (maxWidth v) = some .maxWidth := read_of_opens (Opens.append (by decide) _)

/-! ### What an owner states -/

/-- What an owner states of itself for its flow children. -/
def owned : Multiset Facet :=
  {.direction, .items, .justify, .padding .left, .padding .top, .padding .right, .padding .bottom, .gap .row, .gap .column}

theorem readAll_padToken {letter : String} {f : Facet} (h : ∀ v, read ("p" ++ letter ++ "-" ++ px v) = some f) (v : Int) :
    readAll (padToken letter v) ≤ {f} := by
  unfold padToken
  split
  · rw [readAll_cons_some (h v)]
    rfl
  · exact Multiset.zero_le _

theorem readAll_paddings (axis : Axis) (s e : Int) :
    readAll (padToken (startLetter axis) s ++ padToken (stopLetter axis) e) ≤
      {.padding (.leading axis), .padding (.trailing axis)} := by
  rw [readAll_append]
  exact add_le_add (readAll_padToken (fun v => (read_paddings axis v).1) s)
    (readAll_padToken (fun v => (read_paddings axis v).2) e)

theorem readAll_crossPlan (p : CrossPlan) (cross : Axis) :
    readAll (p.ownTokens cross) ≤ {.items, .padding (.leading cross), .padding (.trailing cross)} := by
  rw [CrossPlan.ownTokens, readAll_cons_some (read_align _)]
  exact (Multiset.cons_le_cons_iff _).2 (readAll_paddings cross _ _)

theorem readAll_mainPlan (p : MainPlan) (axis : Axis) : readAll (p.ownTokens axis) ≤
    {.justify, .padding (.leading axis), .padding (.trailing axis), .gap axis} := by
  have hgap : readAll ((p.gap.map (gapToken axis)).toList) ≤ {.gap axis} := by
    cases p.gap with
    | none => exact Multiset.zero_le _
    | some g =>
      rw [Option.map_some, Option.toList_some, readAll_cons_some (read_gapToken axis g)]
      rfl
  rw [MainPlan.ownTokens, readAll_cons_some (read_plan _), readAll_append]
  exact (Multiset.cons_le_cons_iff _).2 (add_le_add (readAll_paddings axis _ _) hgap)

/-! ### What a flow child states -/

/-- What a flow child states of its place. -/
def placed : Multiset Facet :=
  {.self, .margin .left, .margin .top, .margin .right, .margin .bottom, .extent .row, .extent .column}

def CrossToken.facet (cross : Axis) : CrossToken → Facet
  | marginStart _ => .margin (.leading cross)
  | marginStop _ => .margin (.trailing cross)
  | selfStart | selfStop | selfCenter => .self

theorem read_crossToken (cross : Axis) (t : CrossToken) : read (t.text cross) = some (t.facet cross) := by
  cases t with
  | marginStart v => exact (read_margins cross v).1
  | marginStop v => exact (read_margins cross v).2
  | selfStart => exact (by decide +kernel : read "self-start" = some .self)
  | selfStop => exact (by decide +kernel : read "self-end" = some .self)
  | selfCenter => exact (by decide +kernel : read "self-center" = some .self)

def MainToken.facet (axis : Axis) : MainToken → Facet
  | marginStart _ => .margin (.leading axis)
  | marginStop _ => .margin (.trailing axis)

theorem read_mainToken (axis : Axis) (t : MainToken) : read (t.text axis) = some (t.facet axis) := by
  cases t with
  | marginStart v => exact (read_margins axis v).1
  | marginStop v => exact (read_margins axis v).2

theorem readAll_map {α : Type} {text : α → String} {facet : α → Facet} (h : ∀ a, read (text a) = some (facet a))
    (as : List α) : readAll (as.map text) = ((as.map facet : List Facet) : Multiset Facet) := by
  have hread : read ∘ text = some ∘ facet := funext h
  rw [readAll, List.filterMap_map, hread, List.filterMap_eq_map]

/-- Only a child that is not stretched across states where it is aligned. -/
def crossFacets (cross : Axis) (isConstrained : Bool) : Multiset Facet :=
  (if isConstrained = true then 0 else {.self}) + {.margin (.leading cross), .margin (.trailing cross)}

theorem readAll_pinnedTokens (cross : Axis) (align : Align) (rest : Margins) :
    readAll ((pinnedTokens align rest).map (CrossToken.text cross)) ≤ crossFacets cross false := by
  rw [readAll_map (read_crossToken cross)]
  unfold pinnedTokens
  split_ifs <;> cases cross <;> simp only [List.map_cons, List.map_nil, List.nil_append, List.cons_append,
    CrossToken.facet] <;> decide

theorem readAll_centerShift (cross : Axis) (skew : Int) :
    readAll ((centerShift skew).map (CrossToken.text cross)) ≤ crossFacets cross false := by
  rw [readAll_map (read_crossToken cross)]
  unfold centerShift
  split_ifs <;> simp only [List.map_cons, List.map_nil, CrossToken.facet] <;> cases cross <;> decide

theorem readAll_childTokens (cross : Axis) (align : Align) (skew : Int) (isConstrained : Bool) (rest : Margins) :
    readAll ((childTokens align skew isConstrained rest).map (CrossToken.text cross)) ≤
      crossFacets cross isConstrained := by
  have hstart : readAll (([.selfStart] : List CrossToken).map (CrossToken.text cross)) ≤ crossFacets cross false := by
    rw [readAll_map (read_crossToken cross)]
    cases cross <;> decide
  unfold childTokens
  cases isConstrained with
  | true =>
    rw [readAll_map (read_crossToken cross), if_pos rfl]
    split_ifs <;> cases cross <;> simp only [List.map_cons, List.map_nil, List.nil_append, List.cons_append,
      CrossToken.facet] <;> decide
  | false =>
    simp only [Bool.false_eq_true, if_false]
    cases align with
    | start =>
      dsimp only
      split
      · exact Multiset.zero_le _
      · exact readAll_pinnedTokens cross _ rest
    | stretch =>
      dsimp only
      split
      · exact hstart
      · exact readAll_pinnedTokens cross _ rest
    | stop =>
      dsimp only
      split
      · exact Multiset.zero_le _
      · exact readAll_pinnedTokens cross _ rest
    | center =>
      dsimp only
      split
      · exact readAll_centerShift cross skew
      · exact readAll_pinnedTokens cross _ rest

/-- Of elements with different keys at most one has that key. -/
theorem length_filterMap_le_one {α β : Type} (key : α → Nat) {f : α → Option β} {l : List α} (k : Nat)
    (hl : (l.map key).Nodup) (hf : ∀ a ∈ l, (f a).isSome = true → key a = k) : (l.filterMap f).length ≤ 1 := by
  induction l with
  | nil => exact Nat.zero_le 1
  | cons a l ih =>
    rw [List.map_cons, List.nodup_cons] at hl
    obtain ⟨ha, hf⟩ := List.forall_mem_cons.1 hf
    cases hfa : f a with
    | none =>
      rw [List.filterMap_cons_none hfa]
      exact ih hl.2 hf
    | some b =>
      have hnone : l.filterMap f = [] := by
        refine List.filterMap_eq_nil_iff.2 fun c hc => ?_
        by_contra hsome
        have hk := hf c hc (Option.isSome_iff_ne_none.2 hsome)
        rw [← ha (by rw [hfa]; rfl)] at hk
        exact hl.1 (hk ▸ List.mem_map_of_mem hc)
      rw [List.filterMap_cons_some hfa, hnone]
      rfl

theorem nodup_statedGaps (plan : Plan) (g : Gaps) : ((statedGaps plan g).map Prod.fst).Nodup := by
  have hall : ((statedGaps .start g).map Prod.fst).Nodup := by
    have h : (List.range' 0 g.interior.length).Nodup := List.nodup_range'
    rw [← List.zipIdx_map_snd] at h
    unfold statedGaps
    dsimp only
    rw [List.map_map]
    exact h
  unfold statedGaps
  split
  · exact hall.sublist (List.filter_sublist.map _)
  · exact hall

/-- Every child but the first has one gap before it, every child but the last has one after it. -/
theorem gapMargins_eq (plan : Plan) {ss : List (Nat × Int)} (h : (ss.map Prod.fst).Nodup) (position : Nat) :
    (∃ v, gapMargins plan ss position = [.marginStop v] ∧ plan = .stop) ∨
      (∃ v, gapMargins plan ss position = [.marginStart v] ∧ position ≠ 0) ∨ gapMargins plan ss position = [] := by
  have hlen : (gapMargins plan ss position).length ≤ 1 := by
    refine length_filterMap_le_one Prod.fst (if plan = .stop then position else position - 1) h fun a _ ha => ?_
    obtain ⟨i, g⟩ := a
    dsimp only at ha ⊢
    split_ifs at ha ⊢ <;> first | omega | cases ha
  match hm : gapMargins plan ss position, hlen with
  | [], _ => exact .inr (.inr rfl)
  | [t], _ =>
    obtain ⟨k, v, -, -, ht⟩ := mem_gapMargins.1 (hm ▸ List.mem_singleton_self t : t ∈ gapMargins plan ss position)
    rcases ht with ⟨hp, -, rfl⟩ | ⟨-, hk, rfl⟩
    · exact .inl ⟨v, rfl, hp⟩
    · exact .inr (.inl ⟨v, rfl, by omega⟩)

/-- What a child states along the direction of its owner. -/
def mainFacets (axis : Axis) : Multiset Facet := {.margin (.leading axis), .margin (.trailing axis)}

/-- Only the first child has a margin at the edge, and it has no gap before it. -/
theorem facets_gapMargins (axis : Axis) {plan : Plan} {ss : List (Nat × Int)} (h : (ss.map Prod.fst).Nodup)
    {position : Nat} {v : Int} {edge gaps : List MainToken}
    (he : edge = [] ∨ position = 0 ∧ plan ≠ .stop ∧ edge = [.marginStart v])
    (hg : gaps = [] ∨ gaps = gapMargins plan ss position) :
    (((edge ++ gaps).map (MainToken.facet axis) : List Facet) : Multiset Facet) ≤ mainFacets axis := by
  have hstart : {.margin (.leading axis)} ≤ mainFacets axis := by cases axis <;> decide
  have hstop : {.margin (.trailing axis)} ≤ mainFacets axis := by cases axis <;> decide
  have hedge : (((edge ++ []).map (MainToken.facet axis) : List Facet) : Multiset Facet) ≤ mainFacets axis := by
    obtain rfl | ⟨-, -, rfl⟩ := he
    · exact Multiset.zero_le _
    · exact hstart
  obtain rfl | rfl := hg
  · exact hedge
  · rcases gapMargins_eq plan h position with ⟨g, hm, hp⟩ | ⟨g, hm, hp⟩ | hm
    · obtain rfl | ⟨-, hne, -⟩ := he
      · rw [hm]
        exact hstop
      · exact absurd hp hne
    · obtain rfl | ⟨h0, -, -⟩ := he
      · rw [hm]
        exact hstart
      · exact absurd h0 hp
    · rw [hm]
      exact hedge

theorem readAll_mainTokens (owner : Node) (axis : Axis) (children : List Node) :
    ∀ ts ∈ (mainPlan owner axis children).childTokens axis, readAll ts ≤ mainFacets axis := by
  rw [MainPlan.childTokens]
  refine List.forall_mem_map.2 fun tokens htokens => ?_
  rw [readAll_map (read_mainToken axis)]
  simp only [mainPlan] at htokens
  obtain ⟨i, -, rfl⟩ := List.mem_map.1 htokens
  have hnodup (plan : Plan) (g : Gaps) :
      ((if plan.distributes = true then [] else statedGaps plan g).map Prod.fst).Nodup := by
    split
    · exact List.nodup_nil
    · exact nodup_statedGaps _ _
  have hedge (plan : Plan) (v : Int) (edge : List MainToken)
      (h : edge = if i = 0 && decide (v < 0) && plan != .stop then [.marginStart v] else []) :
      edge = [] ∨ i = 0 ∧ plan ≠ .stop ∧ edge = [.marginStart v] := by
    split at h
    · next hc =>
      simp only [Bool.and_eq_true, decide_eq_true_eq, bne_iff_ne] at hc
      exact .inr ⟨hc.1.1, hc.2, h⟩
    · exact .inl h
  exact facets_gapMargins axis (hnodup _ _) (hedge _ _ _ rfl) (ite_eq_or_eq ..)

/-- The extents of a child, and that it is stretched across. -/
def sizeFacets (isConstrained : Bool) : Multiset Facet :=
  (if isConstrained = true then {.self} else 0) + {.extent .row, .extent .column}

theorem readAll_sizeToken (direction : Axis) (isStretching : Bool) (n : Node) (axis : Axis) :
    readAll (sizeTokens direction isStretching n axis) ≤
      (if axis ≠ direction ∧ n.sizing axis = some .constrained then {.self} else 0) + {.extent axis} := by
  have hshrink : read "shrink-0" = none := by decide +kernel
  have hflex : read "flex-1" = none := by decide +kernel
  have hself : read "self-stretch" = some .self := by decide +kernel
  unfold sizeTokens
  split
  · rw [extentToken, readAll_cons_some (read_extent axis _)]
    refine le_add_of_nonneg_of_le (Multiset.zero_le _) ?_
    split
    · rw [readAll_cons_none hshrink]
      rfl
    · rfl
  · next h =>
    split
    · rw [readAll_cons_none hflex]
      exact Multiset.zero_le _
    · next hne =>
      split
      · exact Multiset.zero_le _
      · rw [readAll_cons_some hself, if_pos ⟨hne, h⟩]
        exact Multiset.le_add_right _ _
  · exact Multiset.zero_le _

theorem readAll_sizeTokens (direction : Axis) (isStretching : Bool) (n : Node) :
    readAll (sizeTokens direction isStretching n .row ++ sizeTokens direction isStretching n .column) ≤
      sizeFacets (n.sizing direction.cross == some .constrained) := by
  rw [readAll_append]
  refine (add_le_add (readAll_sizeToken direction isStretching n .row)
    (readAll_sizeToken direction isStretching n .column)).trans ?_
  cases direction <;> simp [sizeFacets, Axis.cross, add_assoc]

/-! ### What else a node states -/

theorem readAll_maxWidth (v : Int) : readAll [maxWidth v] = {.maxWidth} := readAll_cons_some (read_maxWidth v) []

theorem readAll_maxWidthFull : readAll ["max-w-full"] = {.maxWidth} := by decide +kernel

theorem readAll_pin (axis : Axis) {p : Pin} (h : ∀ v, p ≠ .extent v) : readAll (p.tokens axis) = 0 := by
  have hoffset {starts : List String} {edge : String} (ho : Opens starts edge) (ha : ∀ f ∈ all, Apart starts f.starts)
      (v : Int) : read (offset edge v) = none := by
    unfold offset
    split
    · exact read_eq_none (ho.append _) ha
    · exact read_eq_none ((ho.append _).append _) ha
  have hedges : ∀ f ∈ all, Apart ["left", "top", "right", "bottom"] f.starts := by decide +kernel
  cases p with
  | start v =>
    refine readAll_eq_zero (List.forall_mem_singleton.2 (hoffset ?_ hedges v))
    cases axis <;> decide
  | stop v =>
    refine readAll_eq_zero (List.forall_mem_singleton.2 (hoffset ?_ hedges v))
    cases axis <;> decide
  | center => cases axis <;> decide +kernel
  | extent v => exact absurd rfl (h v)

theorem readAll_pins (owner : Box) (n : Node) (axis : Axis) :
    readAll ((pins owner n axis).flatMap (Pin.tokens axis)) ≤ {.extent axis} := by
  have hstart (v : Int) : readAll ((Pin.start v).tokens axis) = 0 := readAll_pin axis nofun
  have hstop (v : Int) : readAll ((Pin.stop v).tokens axis) = 0 := readAll_pin axis nofun
  have hcenter : readAll (Pin.center.tokens axis) = 0 := readAll_pin axis nofun
  have hextent (v : Nat) : readAll ((Pin.extent v).tokens axis) = {.extent axis} :=
    readAll_cons_some (read_extent axis v) []
  have hnearer (m : Margins) :
      readAll ((if m.start ≤ m.stop then Pin.start m.start else .stop m.stop).tokens axis) = 0 := by
    split
    · exact hstart _
    · exact hstop _
  unfold pins
  dsimp only
  split
  · simp only [List.flatMap_cons, List.flatMap_nil, List.append_nil, readAll_append, hstart, hstop]
    exact Multiset.zero_le _
  · simp only [List.flatMap_cons, List.flatMap_nil, List.append_nil, readAll_append, hextent]
    split
    · rw [hcenter, zero_add]
    · rw [hnearer, zero_add]
  · simp only [List.flatMap_cons, List.flatMap_nil, List.append_nil, hnearer]
    exact Multiset.zero_le _

/-- What is placed on its owner states its extents. -/
theorem readAll_positionTokens (owner : Box) (n : Node) :
    readAll (positionTokens owner n) ≤ {.extent .row, .extent .column} := by
  rw [positionTokens, readAll_cons_none (by decide +kernel), readAll_append]
  exact add_le_add (readAll_pins owner n .row) (readAll_pins owner n .column)

end FlexRecovery.Resolve
