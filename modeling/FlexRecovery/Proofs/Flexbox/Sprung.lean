import FlexRecovery.Proofs.Touches
import FlexRecovery.Proofs.Flexbox.Planned

/-!
A line with a flexible item among the others, which takes the length that they leave. A spacer is one: it stands for
the widest gap, but the gap token of its owner applies on both of its sides as well.
-/

namespace FlexRecovery

namespace Flexbox

/-! ### Parts of a line -/

theorem place_append (space x : ℚ) (us vs : List Item) : place space x (us ++ vs) =
    place space x us ++ place space (x + (us.map Item.length).sum + space * us.length) vs := by
  induction us generalizing x with
  | nil => simp [place]
  | cons u us ih =>
    rw [List.cons_append, place, place, ih, List.cons_append]
    congr 3
    simp only [List.map_cons, List.sum_cons, List.length_cons]
    push_cast
    ring

theorem length_place (space x : ℚ) (items : List Item) : (place space x items).length = items.length := by
  induction items generalizing x with
  | nil => rfl
  | cons i items ih => rw [place, List.length_cons, List.length_cons, ih]

variable {axis : Axis} {i : Item} {b : Box} {items : List Item} {boxes : List Box} {δ ε space x : ℚ}

/-- Seen from its end, a line is off by what it ends off and by what each gap up to there is off. -/
theorem near_place_of_stop (hδ : 0 ≤ δ) (hs : Sized axis items boxes) (hg : Spread δ space axis items boxes)
    (hx : ∀ i ∈ items.getLast?, ∀ b ∈ boxes.getLast?,
      |x + (items.map Item.length).sum + space * (items.length - 1) - (b.stop axis + i.marginStop)| ≤ ε) :
    Near (ε + δ * (items.length - 1)) axis (place space x items) boxes := by
  induction hs generalizing x with
  | nil => exact .nil
  | @cons i b items boxes hi hs ih =>
    have hall : Sized axis (i :: items) (b :: boxes) := .cons hi hs
    have hsum := abs_sum_le hg
    rw [length_joints, List.length_cons, Nat.add_sub_cancel] at hsum
    have hlengths : (((i :: items).map Item.length).sum : ℚ) = _ := congrArg Int.cast hall.sum_length
    have hstop := hx _ (List.getLast?_eq_getLast_of_ne_nil (List.cons_ne_nil i items)) _
      (List.getLast?_eq_getLast_of_ne_nil (List.cons_ne_nil b boxes))
    rw [hlengths, List.length_cons, Nat.cast_succ] at hstop
    simp only [Int.cast_add, Int.cast_sub] at hstop
    rw [List.length_cons, Nat.cast_succ, add_sub_cancel_right]
    refine .cons ?_ ?_
    · rw [abs_le] at hsum hstop ⊢
      constructor <;> linarith
    · cases hs with
      | nil => exact .nil
      | @cons k c items boxes hk hs =>
        have hnext := ih (List.forall₂_cons.1 hg).2 (x := x + i.length + space) fun j hj d hd => by
          have hlast := hx j (by simpa using hj) d (by simpa using hd)
          rw [List.map_cons, List.sum_cons, List.length_cons] at hlast
          convert hlast using 2
          push_cast
          ring
        refine hnext.imp fun _ _ h => h.trans ?_
        rw [List.length_cons, Nat.cast_succ, add_sub_cancel_right]
        linarith

/-- Two parts of a line, each with its own gaps. -/
theorem spread_split {n : Nat} (hs : Sized axis items boxes)
    (hg : ∀ k (hk : k < (joints items).length) (hk' : k < (Box.gaps axis boxes).length), k ≠ n →
      |((joints items)[k] : ℚ) + space - (Box.gaps axis boxes)[k]| ≤ δ) :
    Spread δ space axis (items.take (n + 1)) (boxes.take (n + 1)) ∧
      Spread δ space axis (items.drop (n + 1)) (boxes.drop (n + 1)) := by
  have hlen : (joints items).length = (Box.gaps axis boxes).length := by
    rw [length_joints, length_gaps, hs.length_eq]
  constructor
  · rw [Spread, joints_eq, gaps_eq, neighbours_take, neighbours_take, ← joints_eq, ← gaps_eq]
    refine List.forall₂_iff_get.2 ⟨by simp [hlen], fun k hk hk' => ?_⟩
    simp only [List.length_take, lt_min_iff] at hk hk'
    simpa using hg k hk.2 hk'.2 (by omega)
  · rw [Spread, joints_eq, gaps_eq, neighbours_drop, neighbours_drop, ← joints_eq, ← gaps_eq]
    refine List.forall₂_iff_get.2 ⟨by simp [hlen], fun k hk hk' => ?_⟩
    simp only [List.length_drop] at hk hk'
    simpa using hg (n + 1 + k) (by omega) (by omega) (by omega)

namespace Line

variable (l : Line)

/-- With a further item of that length behind the first items. -/
def insert (n : Nat) (extent : Int) : Line := { l with items := l.items.take n ++ ⟨0, extent, 0⟩ :: l.items.drop n }

/-- What the others leave for a flexible item behind the first items, negative if they overflow. -/
def room (n : Nat) : Int := (l.insert n 0).free

/-- With a flexible item, which takes its room. -/
def sprung (n : Nat) : Line := l.insert n (max (l.room n) 0)

/-- A further item is one more neighbour for a gap. -/
theorem room_eq (n : Nat) : l.room n = l.free - l.gap := by
  have hsum : ((l.insert n 0).items.map Item.length).sum = (l.items.map Item.length).sum := by
    conv_rhs => rw [← List.take_append_drop n l.items]
    simp [insert, Item.length]
  have hlen : ((l.insert n 0).items.length : Int) = l.items.length + 1 := by
    have := congrArg List.length (List.take_append_drop n l.items)
    simp only [List.length_append] at this
    simp only [insert, List.length_append, List.length_cons]
    omega
  rw [room, free, hsum, hlen, free]
  dsimp only [insert]
  ring

/-- The other items start where they would without the flexible one, those behind it later by its length and a gap. -/
theorem starts_sprung (hj : l.justify = .start) {n : Nat} (hn : n ≤ l.items.length) :
    (l.sprung n).starts.eraseIdx n = place l.gap (l.start + l.padStart) (l.items.take n) ++
      place l.gap (l.start + l.padStart + ((l.items.take n).map Item.length).sum + l.gap * n +
        (max (l.room n) 0 : Int) + l.gap) (l.items.drop n) := by
  have hlen : (l.items.take n).length = n := List.length_take_of_le hn
  have hlead : (l.sprung n).lead = 0 := by simp [lead, sprung, insert, hj]
  have hshare : (l.sprung n).share = 0 := by simp [share, sprung, insert, hj]
  rw [starts, hlead, hshare, add_zero, add_zero]
  change (place l.gap (l.start + l.padStart)
    (l.items.take n ++ ⟨0, max (l.room n) 0, 0⟩ :: l.items.drop n)).eraseIdx n = _
  rw [place_append, List.eraseIdx_append_of_length_le (by rw [length_place, hlen]), length_place, hlen, Nat.sub_self,
    place, List.eraseIdx_cons_zero, Item.length, zero_add, add_zero]

/-- Before a flexible item the line is close to its design from the start, and behind it from the end. -/
theorem Fit.near_sprung {l : Line} {after : Int} (h : l.Fit axis boxes 0 after) (hj : l.justify = .start) {n : Nat}
    (hn : n + 1 < boxes.length)
    (hg : ∀ k (hk : k < (joints l.items).length) (hk' : k < (Box.gaps axis boxes).length), k ≠ n →
      |((joints l.items)[k] : ℚ) + l.gap - (Box.gaps axis boxes)[k]| ≤ 1) :
    Near (|((after + max (-l.room (n + 1)) 0 : Int) : ℚ)| + (boxes.length - 1)) axis
      ((l.sprung (n + 1)).starts.eraseIdx (n + 1)) boxes := by
  obtain ⟨htake, hdrop⟩ := spread_split h.sized hg
  obtain ⟨hs, hb, ha⟩ := h
  have hlen := hs.length_eq
  have htakelen : (l.items.take (n + 1)).length = n + 1 := List.length_take_of_le (by omega)
  have hdroplen : ((l.items.drop (n + 1)).length : ℚ) = boxes.length - (n + 1) := by
    rw [List.length_drop, hlen, Nat.cast_sub hn.le, Nat.cast_succ]
  have hn' : (n : ℚ) + 1 < boxes.length := by exact_mod_cast hn
  have hbefore : Near n axis (place l.gap (l.start + l.padStart) (l.items.take (n + 1))) (boxes.take (n + 1)) := by
    have hnear := near_place (x := l.start + l.padStart) (ε := 0) zero_le_one (List.forall₂_take (n + 1) hs) htake
      fun i hi b hb' => ?_
    · rwa [htakelen, Nat.cast_succ, add_sub_cancel_right, zero_add, one_mul] at hnear
    · rw [List.head?_take, if_neg n.succ_ne_zero] at hi hb'
      rw [hb i hi b hb']
      simp
  have hbehind := near_place_of_stop (ε := |((after + max (-l.room (n + 1)) 0 : Int) : ℚ)|)
    (x := l.start + l.padStart + ((l.items.take (n + 1)).map Item.length).sum + l.gap * (n + 1 : Nat) +
      (max (l.room (n + 1)) 0 : Int) + l.gap) zero_le_one (List.forall₂_drop (n + 1) hs) hdrop fun i hi b hb' => ?_
  · rw [starts_sprung l hj (by omega)]
    conv => arg 4; rw [← List.take_append_drop (n + 1) boxes]
    refine List.rel_append (hbefore.imp fun _ _ h => h.trans ?_) (hbehind.imp fun _ _ h => h.trans ?_)
    · have hnonneg := abs_nonneg ((after + max (-l.room (n + 1)) 0 : Int) : ℚ)
      linarith
    · rw [hdroplen]
      linarith [n.cast_nonneg (α := ℚ)]
  · rw [List.getLast?_drop, if_neg (by omega)] at hi hb'
    have hstop : (b.stop axis + i.marginStop + after : ℚ) = l.stop - l.padStop := by exact_mod_cast ha i hi b hb'
    have hsum : (((l.items.take (n + 1)).map Item.length).sum : ℚ) + ((l.items.drop (n + 1)).map Item.length).sum =
        (l.items.map Item.length).sum := by
      rw [← Int.cast_add, ← List.sum_append, ← List.map_append, List.take_append_drop]
    have hroom : (l.room (n + 1) : ℚ) = l.stop - l.padStop - (l.start + l.padStart) - (l.items.map Item.length).sum -
        l.gap * (boxes.length - 1) - l.gap := by
      rw [room_eq, free, hlen]
      push_cast
      rfl
    have hgrown : max (-l.room (n + 1)) 0 = max (l.room (n + 1)) 0 - l.room (n + 1) := by omega
    rw [hgrown, hdroplen, Int.cast_add, Int.cast_sub, hroom, ← hsum]
    refine le_of_eq (congrArg _ ?_)
    push_cast
    linarith

end Line

end Flexbox

namespace Resolve

open Flexbox

variable (owner : Node) (axis : Axis) (children : List Node)

theorem widest_of_spacer {k : Nat} (h : (mainPlan owner axis children).plan = .spacer k) :
    ∃ w, (gapsOf owner axis children).widest? = some (k, w) ∧ 0 < w := by
  have hplanned := planned_mainPlan owner axis children
  rw [h] at hplanned
  cases hplanned with
  | spacer hk h0 => exact ⟨_, hk, h0⟩

/-- Around a spacer the line of an owner leaves nothing before its design and its overhang after it. -/
theorem fit_spacer {k : Nat} (h : (mainPlan owner axis children).plan = .spacer k) :
    (lineOf owner axis children).Fit axis (children.map (·.box)) 0 (min (gapsOf owner axis children).stop 0) := by
  have hfit := fit_lineOf owner axis children
  have hpads : ((mainPlan owner axis children).padStart, (mainPlan owner axis children).padStop) =
      mainPadding (mainPlan owner axis children).plan (gapsOf owner axis children)
        (owner.sizing axis == some .auto && !isOpen owner axis) := rfl
  rw [h] at hpads
  obtain ⟨hstart, hstop⟩ := Prod.mk.inj hpads
  have hbefore : (gapsOf owner axis children).start - max (mainPlan owner axis children).padStart 0 -
      (mainPlan owner axis children).marginStart (gapsOf owner axis children) 0 = 0 := by
    rw [MainPlan.marginStart, if_neg (by simp [h]), hstart]
    omega
  have hafter : (gapsOf owner axis children).stop - max (mainPlan owner axis children).padStop 0 =
      min (gapsOf owner axis children).stop 0 := by
    rw [hstop]
    omega
  rw [hbefore, hafter] at hfit
  exact hfit

/-- What the others leave for a spacer: the widest gap, or all gaps less one gap token for each of them. -/
theorem room_spacer {k : Nat} {w : Int} (h : (mainPlan owner axis children).plan = .spacer k)
    (hw : (gapsOf owner axis children).widest? = some (k, w)) :
    (lineOf owner axis children).room (k + 1) = min (gapsOf owner axis children).stop 0 +
      (mainPlan owner axis children).gap.elim w
        fun v => (Box.gaps axis (children.map (·.box))).sum - v * children.length := by
  have hk := widest?_eq_some hw
  rw [interior_gapsOf] at hk
  obtain ⟨hlt, hkw⟩ := List.getElem?_eq_some_iff.1 hk
  have hne : children.map (·.box) ≠ [] := by
    intro hnil
    rw [hnil] at hlt
    cases hlt
  have hfree := (fit_spacer owner axis children h).free_eq hne
  rw [List.length_map] at hfree
  have hsized := (fit_spacer owner axis children h).sized
  have hlen : (joints (lineOf owner axis children).items).length = (Box.gaps axis (children.map (·.box))).length := by
    rw [length_joints, length_gaps, hsized.length_eq]
  have hjoints (i : Nat) (hi : i < (joints (lineOf owner axis children).items).length) :
      (joints (lineOf owner axis children).items)[i] = if (mainPlan owner axis children).gap.isSome = true then 0 else
        statedGap (mainPlan owner axis children).plan (gapsOf owner axis children) i :=
    getElem_joints_items axis (mainPlan owner axis children) _ _ hi
  have hgapl : (lineOf owner axis children).gap = (mainPlan owner axis children).gap.getD 0 := rfl
  rw [Line.room_eq, hfree, hgapl]
  cases hgap : (mainPlan owner axis children).gap with
  | none =>
    have hset : joints (lineOf owner axis children).items = (Box.gaps axis (children.map (·.box))).set k 0 := by
      refine List.ext_getElem (by rw [List.length_set, hlen]) fun i hi hi' => ?_
      rw [hjoints i hi, hgap, List.getElem_set, statedGap, h, interior_gapsOf]
      by_cases hik : k = i
      · simp [hik]
      · simp [hik, Plan.distributes, List.getElem?_eq_getElem (hlen ▸ hi)]
    rw [hset, List.sum_set', dif_pos hlt, hkw]
    simp only [Option.getD_none, Option.elim_none]
    ring
  | some v =>
    have hzero : (joints (lineOf owner axis children).items).sum = 0 := by
      refine List.sum_eq_zero fun m hm => ?_
      obtain ⟨i, hi, rfl⟩ := List.mem_iff_getElem.1 hm
      rw [hjoints i hi, hgap, if_pos Option.isSome_some]
    rw [hzero]
    simp only [Option.getD_some, Option.elim_some]
    ring

theorem near_spacer {k : Nat} (h : (mainPlan owner axis children).plan = .spacer k) :
    let l := lineOf owner axis children
    Near (|((min (gapsOf owner axis children).stop 0 + max (-l.room (k + 1)) 0 : Int) : ℚ)| + (children.length - 1))
      axis ((l.sprung (k + 1)).starts.eraseIdx (k + 1)) (children.map (·.box)) := by
  obtain ⟨w, hw, -⟩ := widest_of_spacer owner axis children h
  have hk := widest?_eq_some hw
  rw [interior_gapsOf] at hk
  obtain ⟨hlt, -⟩ := List.getElem?_eq_some_iff.1 hk
  rw [length_gaps] at hlt
  have hd : (mainPlan owner axis children).plan.distributes = false := by rw [h]; rfl
  have hj : (lineOf owner axis children).justify = .start := congrArg Plan.justify h
  have hk : k + 1 < (children.map (·.box)).length := by omega
  have hnear := (fit_spacer owner axis children h).near_sprung hj hk fun i hi hi' hne =>
    near_gap owner axis children hd (by rw [h]; simpa using hne.symm) hi hi'
  rwa [List.length_map] at hnear

theorem justifyChildren_spacer {owner : Node} {axis : Axis} {flow : List Tree} {k : Nat}
    (hd : owner.direction = some axis) (hs : (mainPlan owner axis (flow.map (·.node))).plan = .spacer k) (j : Journal) :
    let p := mainPlan owner axis (flow.map (·.node))
    ∃ s : Node, s.hasRole .spacer = true ∧ s.sizing axis = some .constrained ∧
      (justifyChildren owner flow j).1 = (owner.pushAll (p.ownTokens axis),
        (worded (p.childTokens axis) flow).take (k + 1) ++
          ⟨s, [], []⟩ :: (worded (p.childTokens axis) flow).drop (k + 1)) := by
  intro p
  obtain ⟨a, b, ha, hb, -⟩ := gap_of_spacer hs
  have hne : flow ≠ [] := by
    rintro rfl
    cases ha
  have hplaced {i : Nat} {c : Node} (hc : (flow.map (·.node))[i]? = some c) :
      ∃ t, (worded (p.childTokens axis) flow)[i]? = some t := by
    have hlen : (worded (p.childTokens axis) flow).length = flow.length := by
      rw [worded, List.length_zipWith, length_childTokens_mainPlan, List.length_map, min_self]
    obtain ⟨hi, -⟩ := List.getElem?_eq_some_iff.1 hc
    rw [List.length_map] at hi
    exact ⟨_, List.getElem?_eq_getElem (hlen ▸ hi)⟩
  obtain ⟨before, hbefore⟩ := hplaced ha
  obtain ⟨after, hafter⟩ := hplaced hb
  refine ⟨spacerNode owner.box axis j.created before.box after.box, ?_, ?_, ?_⟩
  · cases axis <;> rfl
  · cases axis <;> rfl
  · rw [justifyChildren_eq hd hne]
    dsimp only
    rw [hs]
    dsimp only
    unfold insertSpacer
    rw [hbefore, hafter]
    rfl

/-- Between children a spacer stands for the widest gap, and is left what the others do not take: the widest gap where
no gap token is stated, and else all gaps less a gap token for each child, the spacer being one more neighbour for it.
The others keep to the design up to the tolerance for each gap, and up to what sticks out of the owner or is missing. -/
theorem sprung_in_place {owner : Node} {axis : Axis} {flow : List Tree} {k : Nat} (hd : owner.direction = some axis)
    (hs : (mainPlan owner axis (flow.map (·.node))).plan = .spacer k) (j : Journal) :
    let p := mainPlan owner axis (flow.map (·.node))
    let g := gapsOf owner axis (flow.map (·.node))
    (∃ s : Node, s.hasRole .spacer = true ∧ s.sizing axis = some .constrained ∧
      (justifyChildren owner flow j).1 = (owner.pushAll (p.ownTokens axis),
        (worded (p.childTokens axis) flow).take (k + 1) ++
          ⟨s, [], []⟩ :: (worded (p.childTokens axis) flow).drop (k + 1))) ∧
    ∃ l : Line, l.Written axis owner.box (flow.map Tree.box) (p.ownTokens axis) (p.childTokens axis) ∧
      (∃ w, 0 < w ∧ g.widest? = some (k, w) ∧ l.room (k + 1) =
        min g.stop 0 + p.gap.elim w fun v => (Box.gaps axis (flow.map Tree.box)).sum - v * flow.length) ∧
      (p.gap = none → -1 ≤ g.stop → 0 ≤ l.room (k + 1)) ∧
      List.Forall₂ (fun x t => |x - (t.box.start axis : ℚ)| ≤
        |((min g.stop 0 + max (-l.room (k + 1)) 0 : Int) : ℚ)| + (flow.length - 1) * Tuning.tolerance)
        ((l.sprung (k + 1)).starts.eraseIdx (k + 1)) flow := by
  intro p g
  have hboxes : (flow.map (·.node)).map (·.box) = flow.map Tree.box := List.map_map
  have hwritten := written_line owner axis (flow.map (·.node))
  obtain ⟨w, hw, h0⟩ := widest_of_spacer owner axis _ hs
  have hroom := room_spacer owner axis _ hs hw
  have hnear := near_spacer owner axis _ hs
  dsimp only at hnear
  rw [hboxes] at hwritten hroom hnear
  rw [List.length_map] at hroom hnear
  refine ⟨justifyChildren_spacer hd hs j, _, hwritten, ⟨w, h0, hw, hroom⟩, fun hgap hstop => ?_, ?_⟩
  · rw [hroom, show (mainPlan owner axis (flow.map (·.node))).gap = none from hgap, Option.elim_none]
    have : min g.stop 0 = min (gapsOf owner axis (flow.map (·.node))).stop 0 := rfl
    omega
  · rw [Near, List.forall₂_map_right_iff] at hnear
    simpa [Tuning.tolerance] using hnear

/-- A stretched row of four boxes, with ten pixels between the first three. -/
def toolbar (last : Box) : Tree where
  node := { box := ⟨0, 0, 400, 100⟩, width := some .constrained, direction := some .row }
  flow := [⟨0, 0, 100, 40⟩, ⟨110, 0, 80, 60⟩, ⟨200, 0, 90, 50⟩, last].map fun box => ⟨{ box }, [], []⟩

/-- Fifty pixels before the last box leave thirty for the spacer, between two gaps. -/
theorem sprung_in_place_toolbar : let t := toolbar ⟨340, 0, 60, 70⟩
    (mainPlan t.node .row (t.flow.map (·.node))).plan = .spacer 2 ∧
    ∃ l : Line, l.Written .row t.box (t.flow.map Tree.box) ["justify-start", "gap-x-[10px]"] [[], [], [], []] ∧
      l.room 3 = 30 ∧
      List.Forall₂ (fun x t => |x - (t.box.start .row : ℚ)| ≤ 3) ((l.sprung 3).starts.eraseIdx 3) t.flow := by
  intro t
  have hd : t.node.direction = some .row := rfl
  have hs : (mainPlan t.node .row (t.flow.map (·.node))).plan = .spacer 2 := by decide
  obtain ⟨-, l, hl, ⟨w, -, -, hroom⟩, -, hnear⟩ := sprung_in_place hd hs {}
  have hgap : (mainPlan t.node .row (t.flow.map (·.node))).gap = some 10 := by decide
  have hstop : (gapsOf t.node .row (t.flow.map (·.node))).stop = 0 := by decide
  have hroom : l.room (2 + 1) = 30 := by
    rw [hroom, hgap, hstop, Option.elim_some]
    decide
  have hown : (mainPlan t.node .row (t.flow.map (·.node))).ownTokens .row = ["justify-start", "gap-x-[10px]"] := by
    decide +kernel
  have hper : (mainPlan t.node .row (t.flow.map (·.node))).childTokens .row = [[], [], [], []] := by decide +kernel
  rw [hown, hper] at hl
  rw [hroom, hstop, show t.flow.length = 4 from rfl] at hnear
  refine ⟨hs, l, hl, hroom, hnear.imp fun x u h => h.trans ?_⟩
  norm_num [Tuning.tolerance]

/-- With fifteen pixels there, the gap on both sides of the spacer and the others take five more than there are. -/
theorem overflowing_toolbar : ¬∀ (owner : Node) (axis : Axis) (children : List Node) (k : Nat) (l : Line),
    (mainPlan owner axis children).plan = .spacer k →
    l.Written axis owner.box (children.map (·.box)) ((mainPlan owner axis children).ownTokens axis)
      ((mainPlan owner axis children).childTokens axis) → 0 ≤ l.room (k + 1) := by
  intro h
  let t := toolbar ⟨305, 0, 95, 70⟩
  have hroom := h t.node .row (t.flow.map (·.node)) 2 _ (by decide) (written_line _ _ _)
  exact absurd hroom (by decide)

end Resolve

end FlexRecovery
