import FlexRecovery.Proofs.Wording
import FlexRecovery.Proofs.Flexbox.Declarations
import FlexRecovery.Proofs.Flexbox.Line

/-!
The line that an owner and its children state along the direction of the owner, and what the plan behind it says about
the gaps of the design.
-/

namespace FlexRecovery

theorem abs_le_of_close {a b : Int} (h : close a b = true) : |(a : ℚ) - b| ≤ 1 := by
  obtain ⟨hle, hge⟩ := close_iff.1 h
  exact_mod_cast abs_le.2 ⟨by omega, hle⟩

namespace Flexbox

theorem keyword_injective : Justify.keyword.Injective := by
  intro j k
  cases j <;> cases k <;> decide

theorem bare_keyword (j : Justify) : Bare j.keyword := by cases j <;> decide

/-- Names of the properties of an axis. -/
def marginStartName (axis : Axis) : String := "m" ++ Resolve.startLetter axis

def marginStopName (axis : Axis) : String := "m" ++ Resolve.stopLetter axis

def padStartName (axis : Axis) : String := "p" ++ Resolve.startLetter axis

def padStopName (axis : Axis) : String := "p" ++ Resolve.stopLetter axis

def gapName : Axis → String
  | .row => "gap-x"
  | .column => "gap-y"

theorem bare_names (axis : Axis) : Bare (marginStartName axis) ∧ Bare (marginStopName axis) ∧
    Bare (padStartName axis) ∧ Bare (padStopName axis) ∧ Bare (gapName axis) := by cases axis <;> decide

theorem states_padToken {letter : String} (h : Bare ("p" ++ letter)) (v : Int) :
    States ("p" ++ letter) (Resolve.padToken letter v) (max v 0) := by
  unfold Resolve.padToken
  split
  · next hv =>
    rw [max_eq_left hv.le]
    exact .declaration h hv.ne'
  · next hv =>
    rw [max_eq_right (not_lt.1 hv)]
    exact .nil _

theorem states_padToken_of_ne {name letter : String} (hn : Bare name) (h : Bare ("p" ++ letter))
    (hne : name ≠ "p" ++ letter) (v : Int) : States name (Resolve.padToken letter v) 0 := by
  unfold Resolve.padToken
  split
  · exact .other hn h hne v
  · exact .nil _

theorem not_bare_padToken {letter : String} (v : Int) : ∀ t ∈ Resolve.padToken letter v, ¬Bare t := by
  unfold Resolve.padToken
  split
  · exact List.forall_mem_singleton.2 (not_bare_declaration _ _)
  · simp

/-- Paddings at both ends of an axis. -/
theorem states_paddings (axis : Axis) (s e : Int) :
    let pads := Resolve.padToken (Resolve.startLetter axis) s ++ Resolve.padToken (Resolve.stopLetter axis) e
    States (padStartName axis) pads (max s 0) ∧ States (padStopName axis) pads (max e 0) := by
  obtain ⟨-, -, hs, he, -⟩ := bare_names axis
  have hne : padStartName axis ≠ padStopName axis := by cases axis <;> decide
  have hstart := (states_padToken hs s).append (states_padToken_of_ne hs he hne e) (.inr rfl)
  have hstop := (states_padToken_of_ne he hs hne.symm s).append (states_padToken he e) (.inl rfl)
  rw [add_zero] at hstart
  rw [zero_add] at hstop
  exact ⟨hstart, hstop⟩

/-- The margins that the tokens of a child state. -/
structure Item.Written (i : Item) (axis : Axis) (tokens : List String) : Prop where
  marginStart : States (marginStartName axis) tokens i.marginStart
  marginStop : States (marginStopName axis) tokens i.marginStop

/-- The line that tokens of an owner and of each of its children state for boxes of a design. -/
structure Line.Written (l : Line) (axis : Axis) (owner : Box) (boxes : List Box) (own : List String)
    (per : List (List String)) : Prop where
  start : l.start = owner.start axis
  stop : l.stop = owner.stop axis
  justify : Chooses Justify.keyword own (some l.justify)
  padStart : States (padStartName axis) own l.padStart
  padStop : States (padStopName axis) own l.padStop
  gap : States (gapName axis) own l.gap
  sized : Sized axis l.items boxes
  margins : List.Forall₂ (fun i tokens => i.Written axis tokens) l.items per

theorem items_unique {axis : Axis} {items items' : List Item} {boxes : List Box} {per : List (List String)}
    (hs : Sized axis items boxes) (hs' : Sized axis items' boxes)
    (hm : List.Forall₂ (fun i tokens => i.Written axis tokens) items per)
    (hm' : List.Forall₂ (fun i tokens => i.Written axis tokens) items' per) : items = items' := by
  induction hs generalizing items' per with
  | nil =>
    cases hs'
    rfl
  | cons h _ ih =>
    cases hs' with
    | cons h' hs' =>
      cases hm with
      | cons hi hm =>
        cases hm' with
        | cons hi' hm' =>
          rw [ih hs' hm hm']
          congr 1
          exact Item.ext (hi.marginStart.unique hi'.marginStart) (h.trans h'.symm) (hi.marginStop.unique hi'.marginStop)

/-- The tokens state one line. -/
theorem Line.Written.unique {l l' : Line} {axis : Axis} {owner : Box} {boxes : List Box} {own : List String}
    {per : List (List String)} (h : l.Written axis owner boxes own per) (h' : l'.Written axis owner boxes own per) :
    l = l' :=
  Line.ext (h.start.trans h'.start.symm) (h.stop.trans h'.stop.symm)
    (Option.some.inj (h.justify.unique h'.justify)) (h.padStart.unique h'.padStart)
    (h.padStop.unique h'.padStop) (h.gap.unique h'.gap) (items_unique h.sized h'.sized h.margins h'.margins)

end Flexbox

namespace Resolve

open Flexbox

/-- A common gap is wide and close to all gaps. -/
theorem commonGap_eq_some {stated : List (Nat × Int)} {v : Int} (h : commonGap stated = some v) :
    0 < v ∧ ∀ s ∈ stated, close v s.2 = true := by
  unfold commonGap at h
  split at h
  · cases h
  · next k first rest =>
    split at h
    · next hc =>
      obtain ⟨h0, hall⟩ := Bool.and_eq_true_iff.1 hc
      cases h
      exact ⟨by simpa using h0, List.forall_mem_cons.2 ⟨close_iff.2 (by omega), List.all_eq_true.1 hall⟩⟩
    · cases h

variable (owner : Node) (axis : Axis) (children : List Node)

/-- The gaps between the children of an owner and before and after them. -/
def gapsOf : Gaps := Gaps.along (children.map (·.box)) owner.box axis

theorem gapsOf_eq {b c : Box} (hb : (children.map (·.box)).head? = some b)
    (hc : (children.map (·.box)).getLast? = some c) :
    gapsOf owner axis children = ⟨b.start axis - owner.box.start axis, owner.box.stop axis - c.stop axis,
      Box.gaps axis (children.map (·.box))⟩ := by
  rw [gapsOf, Gaps.along, hb, hc]

theorem interior_gapsOf : (gapsOf owner axis children).interior = Box.gaps axis (children.map (·.box)) := by
  cases children with
  | nil => rfl
  | cons c children => rw [gapsOf_eq owner axis _ rfl (List.getLast?_eq_getLast_of_ne_nil (by simp))]

/-! ### The line of a plan -/

/-- What becomes of the free space in a plan. -/
def Plan.justify : Plan → Justify
  | start | spacer _ => .start
  | stop => .stop
  | center => .center
  | between => .between
  | around => .around
  | evenly => .evenly

theorem token_eq_keyword (p : Plan) : p.token = p.justify.keyword := by cases p <;> rfl

/-- The gap behind the child at a position, as far as it is stated. -/
def statedGap (plan : Plan) (g : Gaps) (k : Nat) : Int :=
  if plan.distributes = true ∨ plan = .spacer k then 0 else g.interior[k]?.getD 0

namespace MainPlan

variable (p : MainPlan) (g : Gaps)

/-- The margin before the child at a position. -/
def marginStart : Nat → Int
  | 0 => if p.plan = .stop then 0 else min p.padStart 0
  | k + 1 => if p.gap.isSome = true ∨ p.plan = .stop then 0 else statedGap p.plan g k

/-- The margin after it. -/
def marginStop (k : Nat) : Int := if p.gap.isSome = true ∨ p.plan ≠ .stop then 0 else statedGap p.plan g k

/-- The children with their margins. -/
def items (axis : Axis) (boxes : List Box) : List Item :=
  boxes.mapIdx fun i b => ⟨p.marginStart g i, b.extent axis, p.marginStop g i⟩

theorem sized_items (axis : Axis) (boxes : List Box) : Sized axis (p.items g axis boxes) boxes :=
  List.forall₂_iff_get.2 ⟨by simp [items], fun i _ _ => by simp [items]⟩

/-- A gap is stated once, on the near side of one of its neighbours, or for all. -/
theorem marginStop_add_marginStart (k : Nat) :
    p.marginStop g k + p.marginStart g (k + 1) = if p.gap.isSome = true then 0 else statedGap p.plan g k := by
  unfold marginStop marginStart
  split_ifs <;> simp_all

/-- The line that a plan for an owner states. -/
def line (owner : Box) (axis : Axis) (boxes : List Box) : Line where
  start := owner.start axis
  stop := owner.stop axis
  justify := p.plan.justify
  padStart := max p.padStart 0
  padStop := max p.padStop 0
  gap := p.gap.getD 0
  items := p.items g axis boxes

variable {p g}

theorem gapToken_eq (axis : Axis) (v : Int) : gapToken axis v = declaration (gapName axis) v := by
  unfold declaration
  cases axis <;> rfl

theorem states_gapTokens (h : ∀ v, p.gap = some v → 0 < v) (axis : Axis) :
    States (gapName axis) (p.gap.map (gapToken axis)).toList (p.gap.getD 0) := by
  obtain ⟨-, -, -, -, hb⟩ := bare_names axis
  cases hg : p.gap with
  | none => exact .nil _
  | some v =>
    rw [Option.map_some, Option.toList_some, gapToken_eq]
    exact .declaration hb (h v hg).ne'

theorem states_gapTokens_of_ne {axis : Axis} {name : String} (hn : Bare name) (hne : name ≠ gapName axis)
    (v : Option Int) : States name (v.map (gapToken axis)).toList 0 := by
  obtain ⟨-, -, -, -, hb⟩ := bare_names axis
  cases v with
  | none => exact .nil _
  | some v =>
    rw [Option.map_some, Option.toList_some, gapToken_eq]
    exact .other hn hb hne v

theorem not_bare_gapTokens (axis : Axis) (v : Option Int) : ∀ t ∈ (v.map (gapToken axis)).toList, ¬Bare t := by
  cases v with
  | none => simp
  | some v =>
    rw [Option.map_some, Option.toList_some, gapToken_eq]
    exact List.forall_mem_singleton.2 (not_bare_declaration _ _)

/-- What the owner states. -/
theorem states_ownTokens (h : ∀ v, p.gap = some v → 0 < v) (axis : Axis) :
    Chooses Justify.keyword (p.ownTokens axis) (some p.plan.justify) ∧
    States (padStartName axis) (p.ownTokens axis) (max p.padStart 0) ∧
    States (padStopName axis) (p.ownTokens axis) (max p.padStop 0) ∧
    States (gapName axis) (p.ownTokens axis) (p.gap.getD 0) := by
  obtain ⟨-, -, hs, he, hg⟩ := bare_names axis
  obtain ⟨hstart, hstop⟩ := states_paddings axis p.padStart p.padStop
  have hkey (name : String) : States name [p.plan.token] 0 := .keyword (token_eq_keyword _ ▸ bare_keyword _) name
  have hown {name : String} {v w : Int} (hpad : States name (padToken (startLetter axis) p.padStart ++
        padToken (stopLetter axis) p.padStop) v) (hgap : States name (p.gap.map (gapToken axis)).toList w)
      (h0 : v = 0 ∨ w = 0) : States name (p.ownTokens axis) (v + w) := by
    have happ := (hkey name).append (hpad.append hgap h0) (.inl rfl)
    rw [zero_add] at happ
    exact happ
  refine ⟨?_, ?_, ?_, ?_⟩
  · rw [ownTokens, token_eq_keyword]
    exact .cons keyword_injective bare_keyword _ (List.forall_mem_append.2
      ⟨List.forall_mem_append.2 ⟨not_bare_padToken _, not_bare_padToken _⟩, not_bare_gapTokens axis _⟩)
  · have := hown hstart (states_gapTokens_of_ne hs (by cases axis <;> decide) _) (.inr rfl)
    rwa [add_zero] at this
  · have := hown hstop (states_gapTokens_of_ne he (by cases axis <;> decide) _) (.inr rfl)
    rwa [add_zero] at this
  · have hpads := (states_padToken_of_ne hg hs (by cases axis <;> decide) p.padStart).append
      (states_padToken_of_ne hg he (by cases axis <;> decide) p.padStop) (.inl rfl)
    have := hown hpads (states_gapTokens h axis) (.inl rfl)
    rwa [zero_add, zero_add] at this

/-- What a child states, by the margins among its tokens. -/
theorem states_mainTokens (axis : Axis) (ts : List MainToken) (v : Int) :
    (States (marginStartName axis) (ts.map (MainToken.text axis)) v ↔ ∀ w, .marginStart w ∈ ts ↔ v ≠ 0 ∧ w = v) ∧
    (States (marginStopName axis) (ts.map (MainToken.text axis)) v ↔ ∀ w, .marginStop w ∈ ts ↔ v ≠ 0 ∧ w = v) := by
  obtain ⟨hs, he, -, -, -⟩ := bare_names axis
  have hne : marginStartName axis ≠ marginStopName axis := by cases axis <;> decide
  have hstart (w : Int) :
      declaration (marginStartName axis) w ∈ ts.map (MainToken.text axis) ↔ .marginStart w ∈ ts := by
    rw [List.mem_map]
    refine ⟨?_, fun h => ⟨_, h, rfl⟩⟩
    rintro ⟨_ | v, ht, h⟩
    · rwa [← ((declaration_inj hs hs).1 h).2]
    · exact absurd ((declaration_inj he hs).1 h).1.symm hne
  have hstop (w : Int) : declaration (marginStopName axis) w ∈ ts.map (MainToken.text axis) ↔ .marginStop w ∈ ts := by
    rw [List.mem_map]
    refine ⟨?_, fun h => ⟨_, h, rfl⟩⟩
    rintro ⟨_ | v, ht, h⟩
    · exact absurd ((declaration_inj hs he).1 h).1 hne
    · rwa [← ((declaration_inj he he).1 h).2]
  exact ⟨forall_congr' fun w => by rw [hstart], forall_congr' fun w => by rw [hstop]⟩

end MainPlan

/-! ### The plan of an owner states its line -/

theorem mem_statedGaps {plan : Plan} {g : Gaps} {k : Nat} {v : Int} :
    (k, v) ∈ statedGaps plan g ↔ plan ≠ .spacer k ∧ g.interior[k]? = some v := by
  -- a plan without a spacer states all gaps
  have hall : (k, v) ∈ statedGaps .start g ↔ g.interior[k]? = some v := by
    simp only [statedGaps, List.mem_map, Prod.exists, Prod.mk.injEq]
    constructor
    · rintro ⟨w, i, h, rfl, rfl⟩
      exact List.mem_zipIdx_iff_getElem?.1 h
    · exact fun h => ⟨v, k, List.mem_zipIdx_iff_getElem?.2 h, rfl, rfl⟩
  cases plan with
  | spacer i =>
    have hfilter : statedGaps (.spacer i) g = (statedGaps .start g).filter fun p => p.1 != i := rfl
    rw [hfilter, List.mem_filter, hall, and_comm, ne_eq, Plan.spacer.injEq]
    exact and_congr_left' (bne_iff_ne.trans ne_comm)
  | _ => exact hall.trans (by simp)

/-- The gaps that an owner states. -/
def stated (plan : Plan) (g : Gaps) : List (Nat × Int) := if plan.distributes then [] else statedGaps plan g

theorem gap_mainPlan : (mainPlan owner axis children).gap =
    commonGap (stated (mainPlan owner axis children).plan (gapsOf owner axis children)) := rfl

theorem mem_stated {plan : Plan} {g : Gaps} {k : Nat} {v : Int} (hv : v ≠ 0) :
    (k, v) ∈ stated plan g ↔ statedGap plan g k = v := by
  unfold stated statedGap
  cases hd : plan.distributes with
  | true => simpa using hv.symm
  | false =>
    simp only [Bool.false_eq_true, if_false, false_or, mem_statedGaps]
    by_cases hk : plan = .spacer k
    · rw [if_pos hk]
      exact ⟨fun h => absurd hk h.1, fun h => absurd h.symm hv⟩
    · rw [if_neg hk]
      cases g.interior[k]? with
      | none => exact ⟨fun h => absurd h.2 (by simp), fun h => absurd h.symm hv⟩
      | some w => simp [hk]

theorem mem_gapMargins {plan : Plan} {ss : List (Nat × Int)} {position : Nat} {t : MainToken} :
    t ∈ gapMargins plan ss position ↔ ∃ k v, (k, v) ∈ ss ∧ v ≠ 0 ∧
      ((plan = .stop ∧ k = position ∧ t = .marginStop v) ∨ (plan ≠ .stop ∧ k + 1 = position ∧ t = .marginStart v)) := by
  unfold gapMargins
  rw [List.mem_filterMap]
  simp only [Prod.exists]
  refine exists₂_congr fun k v => and_congr_right fun _ => ?_
  by_cases hv : v = 0
  · simp [hv]
  · by_cases hp : plan = .stop
    · by_cases hk : k = position <;> simp [hv, hp, hk, eq_comm]
    · by_cases hk : k + 1 = position <;> simp [hv, hp, hk, eq_comm]

theorem marginStart_mem_gapMargins {plan : Plan} {g : Gaps} {position : Nat} {w : Int} :
    .marginStart w ∈ gapMargins plan (stated plan g) position ↔
      plan ≠ .stop ∧ w ≠ 0 ∧ ∃ k, k + 1 = position ∧ statedGap plan g k = w := by
  rw [mem_gapMargins]
  constructor
  · rintro ⟨k, v, hs, hv, ⟨-, -, h⟩ | ⟨hp, hk, h⟩⟩
    · cases h
    · cases h
      exact ⟨hp, hv, k, hk, (mem_stated hv).1 hs⟩
  · rintro ⟨hp, hw, k, hk, hs⟩
    exact ⟨k, w, (mem_stated hw).2 hs, hw, .inr ⟨hp, hk, rfl⟩⟩

theorem marginStop_mem_gapMargins {plan : Plan} {g : Gaps} {position : Nat} {w : Int} :
    .marginStop w ∈ gapMargins plan (stated plan g) position ↔
      plan = .stop ∧ w ≠ 0 ∧ statedGap plan g position = w := by
  rw [mem_gapMargins]
  constructor
  · rintro ⟨k, v, hs, hv, ⟨hp, hk, h⟩ | ⟨-, -, h⟩⟩
    · cases h
      exact ⟨hp, hv, hk ▸ (mem_stated hv).1 hs⟩
    · cases h
  · rintro ⟨hp, hw, hs⟩
    exact ⟨position, w, (mem_stated hw).2 hs, hw, .inl ⟨hp, rfl, rfl⟩⟩

/-- What a plan states for the child at a position. -/
def MainPlan.Places (p : MainPlan) (g : Gaps) (i : Nat) (ts : List MainToken) : Prop :=
  ∀ t, t ∈ ts ↔ (i = 0 ∧ p.padStart < 0 ∧ p.plan ≠ .stop ∧ t = .marginStart p.padStart) ∨
    (p.gap = none ∧ t ∈ gapMargins p.plan (stated p.plan g) i)

theorem MainPlan.Places.marginStart {p : MainPlan} {g : Gaps} {i : Nat} {ts : List MainToken} (h : p.Places g i ts)
    (w : Int) : .marginStart w ∈ ts ↔ p.marginStart g i ≠ 0 ∧ w = p.marginStart g i := by
  rw [h, marginStart_mem_gapMargins]
  cases i with
  | zero =>
    rw [MainPlan.marginStart, MainToken.marginStart.injEq, min_def]
    split_ifs with hp hs
    · simp [hp]
    · simp [hp]
      omega
    · simp [hp]
      omega
  | succ k =>
    rw [MainPlan.marginStart]
    by_cases hp : p.gap.isSome = true ∨ p.plan = .stop
    · rw [if_pos hp]
      simp only [← Option.not_isSome_iff_eq_none]
      tauto
    · obtain ⟨hg, hp'⟩ := not_or.1 hp
      rw [if_neg hp]
      constructor
      · rintro (⟨h0, -⟩ | ⟨-, -, hw, k', hk, rfl⟩)
        · cases h0
        · obtain rfl := Nat.succ.inj hk
          exact ⟨hw, rfl⟩
      · rintro ⟨hw, rfl⟩
        exact .inr ⟨Option.not_isSome_iff_eq_none.1 hg, hp', hw, k, rfl, rfl⟩

theorem MainPlan.Places.marginStop {p : MainPlan} {g : Gaps} {i : Nat} {ts : List MainToken} (h : p.Places g i ts)
    (w : Int) : .marginStop w ∈ ts ↔ p.marginStop g i ≠ 0 ∧ w = p.marginStop g i := by
  rw [h, marginStop_mem_gapMargins, MainPlan.marginStop]
  by_cases hp : p.gap.isSome = true ∨ p.plan ≠ .stop
  · rw [if_pos hp]
    simp only [← Option.not_isSome_iff_eq_none]
    tauto
  · obtain ⟨hg, hp'⟩ := not_or.1 hp
    rw [if_neg hp]
    constructor
    · rintro (⟨-, -, -, h0⟩ | ⟨-, -, hw, rfl⟩)
      · cases h0
      · exact ⟨hw, rfl⟩
    · rintro ⟨hw, rfl⟩
      exact .inr ⟨Option.not_isSome_iff_eq_none.1 hg, not_not.1 hp', hw, rfl⟩

theorem places_mainPlan {i : Nat} (h : i < (mainPlan owner axis children).children.length) :
    (mainPlan owner axis children).Places (gapsOf owner axis children) i
      (mainPlan owner axis children).children[i] := by
  intro t
  generalize hp : mainPlan owner axis children = p at h ⊢
  have heq : p.children[i] =
      (if i = 0 && decide (p.padStart < 0) && p.plan != .stop then [.marginStart p.padStart] else []) ++
      if p.gap.isSome then [] else gapMargins p.plan (stated p.plan (gapsOf owner axis children)) i := by
    subst hp
    simp only [mainPlan, List.getElem_map, List.getElem_range]
    rfl
  rw [heq, List.mem_append]
  refine or_congr ?_ ?_
  · split
    · next hc =>
      simp only [Bool.and_eq_true, decide_eq_true_eq, bne_iff_ne] at hc
      simp [hc]
    · next hc =>
      simp only [Bool.and_eq_true, decide_eq_true_eq, bne_iff_ne, not_and, not_not] at hc
      refine ⟨fun h => by simp at h, ?_⟩
      rintro ⟨h0, hn, hp, -⟩
      exact absurd (hc ⟨h0, hn⟩) hp
  · cases p.gap <;> simp

/-- The line that an owner and its children state. -/
def lineOf : Line :=
  (mainPlan owner axis children).line (gapsOf owner axis children) owner.box axis (children.map (·.box))

theorem written_line : (lineOf owner axis children).Written axis owner.box (children.map (·.box))
    ((mainPlan owner axis children).ownTokens axis) ((mainPlan owner axis children).childTokens axis) := by
  obtain ⟨hjustify, hstart, hstop, hgap⟩ := MainPlan.states_ownTokens (p := mainPlan owner axis children)
    (fun v hv => (commonGap_eq_some hv).1) axis
  refine ⟨rfl, rfl, hjustify, hstart, hstop, hgap, MainPlan.sized_items _ _ _ _, List.forall₂_iff_get.2 ⟨?_, ?_⟩⟩
  · simp [lineOf, MainPlan.line, MainPlan.items, length_childTokens_mainPlan]
  · intro i hi hi'
    have hp := places_mainPlan owner axis children (i := i) (by simpa [MainPlan.childTokens] using hi')
    simp only [List.get_eq_getElem, lineOf, MainPlan.line, MainPlan.items, MainPlan.childTokens, List.getElem_mapIdx,
      List.getElem_map]
    exact ⟨(MainPlan.states_mainTokens axis _ _).1.2 hp.marginStart,
      (MainPlan.states_mainTokens axis _ _).2.2 hp.marginStop⟩

end Resolve

end FlexRecovery
