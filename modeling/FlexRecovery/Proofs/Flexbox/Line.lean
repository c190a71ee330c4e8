import FlexRecovery.Box
import Mathlib

/-!
A line of a flexbox: items of a fixed size along one axis, one after another between the paddings of their container.
Lengths are whole pixels; positions are rational, since free space is divided.

A line drifts from the boxes of a design by what it starts off and by what each gap is off.
-/

namespace FlexRecovery.Flexbox

/-- What becomes of the free space. -/
inductive Justify where
  | start
  | stop
  | center
  | between
  | around
  | evenly
  deriving DecidableEq, Repr

def Justify.keyword : Justify → String
  | start => "justify-start"
  | stop => "justify-end"
  | center => "justify-center"
  | between => "justify-between"
  | around => "justify-around"
  | evenly => "justify-evenly"

/-- Lengths of one item along the line. -/
@[ext]
structure Item where
  marginStart : Int
  extent : Int
  marginStop : Int
  deriving DecidableEq, Repr

/-- With its margins. -/
def Item.length (i : Item) : Int := i.marginStart + i.extent + i.marginStop

/-- Items in a container with these edges. -/
@[ext]
structure Line where
  start : Int
  stop : Int
  justify : Justify
  padStart : Int
  padStop : Int
  gap : Int
  items : List Item
  deriving DecidableEq, Repr

/-- The leading edges of items that are laid out from a position on, that far apart. -/
def place (space : ℚ) : ℚ → List Item → List ℚ
  | _, [] => []
  | x, i :: items => (x + i.marginStart) :: place space (x + i.length + space) items

namespace Line

variable (l : Line)

/-- What the items and the gaps leave between the paddings, negative if they overflow. -/
def free : Int :=
  l.stop - l.padStop - (l.start + l.padStart) - (l.items.map Item.length).sum - l.gap * (l.items.length - 1)

/-- The share of the free space before the first item. Nothing is distributed where the items overflow. -/
def lead : ℚ :=
  match l.justify with
  | .start | .between => 0
  | .stop => l.free
  | .center => l.free / 2
  | .around => (max l.free 0 : Int) / l.items.length / 2
  | .evenly => (max l.free 0 : Int) / (l.items.length + 1)

/-- The share of the free space between neighbours. -/
def share : ℚ :=
  match l.justify with
  | .start | .stop | .center => 0
  | .between => (max l.free 0 : Int) / (l.items.length - 1)
  | .around => (max l.free 0 : Int) / l.items.length
  | .evenly => (max l.free 0 : Int) / (l.items.length + 1)

/-- The leading edges of the items. -/
def starts : List ℚ := place (l.gap + l.share) (l.start + l.padStart + l.lead) l.items

end Line

/-- The margins between neighbours. -/
def joints : List Item → List Int
  | i :: k :: items => (i.marginStop + k.marginStart) :: joints (k :: items)
  | _ => []

/-- Something for each two neighbours of a list. -/
def neighbours {α β : Type} (f : α → α → β) (as : List α) : List β := List.zipWith f as as.tail

section

variable {α β : Type} (f : α → α → β) (as : List α)

theorem length_neighbours : (neighbours f as).length = as.length - 1 := by
  rw [neighbours, List.length_zipWith, List.length_tail]
  exact min_eq_right (Nat.sub_le _ _)

theorem neighbours_drop (n : Nat) : neighbours f (as.drop n) = (neighbours f as).drop n := by
  rw [neighbours, neighbours, List.drop_zipWith, List.tail_drop, List.drop_tail]

theorem neighbours_take (n : Nat) : neighbours f (as.take (n + 1)) = (neighbours f as).take n := by
  refine List.ext_getElem ?_ fun k _ _ => by simp [neighbours]
  simp only [length_neighbours, List.length_take]
  omega

end

theorem joints_eq (items : List Item) : joints items = neighbours (fun i k => i.marginStop + k.marginStart) items := by
  induction items with
  | nil => rfl
  | cons i items ih =>
    cases items with
    | nil => rfl
    | cons k items => exact congrArg (_ :: ·) ih

theorem gaps_eq (axis : Axis) (boxes : List Box) :
    Box.gaps axis boxes = neighbours (fun b c => c.start axis - b.stop axis) boxes := by
  induction boxes with
  | nil => rfl
  | cons b boxes ih =>
    cases boxes with
    | nil => rfl
    | cons c boxes => exact congrArg (_ :: ·) ih

theorem length_joints (items : List Item) : (joints items).length = items.length - 1 := by
  rw [joints_eq, length_neighbours]

theorem length_gaps (axis : Axis) (boxes : List Box) : (Box.gaps axis boxes).length = boxes.length - 1 := by
  rw [gaps_eq, length_neighbours]

theorem getElem_joints {items : List Item} {n : Nat} (hn : n < (joints items).length) (h : n + 1 < items.length) :
    (joints items)[n] = items[n].marginStop + items[n + 1].marginStart := by
  simp [joints_eq, neighbours]

/-- Items as long as boxes of a design. -/
abbrev Sized (axis : Axis) (items : List Item) (boxes : List Box) : Prop :=
  List.Forall₂ (fun i b => i.extent = b.extent axis) items boxes

/-- Items that far apart lie between their neighbours as the boxes do, up to an error. -/
abbrev Spread (δ space : ℚ) (axis : Axis) (items : List Item) (boxes : List Box) : Prop :=
  List.Forall₂ (fun m g : Int => |(m : ℚ) + space - g| ≤ δ) (joints items) (Box.gaps axis boxes)

variable {axis : Axis} {i : Item} {b : Box} {items : List Item} {boxes : List Box} {δ ε space x : ℚ}

/-- Positions up to an error. -/
abbrev Near (δ : ℚ) (axis : Axis) (ys : List ℚ) (boxes : List Box) : Prop :=
  List.Forall₂ (fun y b => |y - (b.start axis : ℚ)| ≤ δ) ys boxes

/-- The error of a line grows by that of a gap with each item. -/
theorem near_place (hδ : 0 ≤ δ) (hs : Sized axis items boxes) (hg : Spread δ space axis items boxes)
    (hx : ∀ i ∈ items.head?, ∀ b ∈ boxes.head?, |x + i.marginStart - b.start axis| ≤ ε) :
    Near (ε + δ * (items.length - 1)) axis (place space x items) boxes := by
  induction hs generalizing x ε with
  | nil => exact .nil
  | @cons i b items boxes hi hs ih =>
    have hfirst := hx i rfl b rfl
    rw [List.length_cons, Nat.cast_succ, add_sub_cancel_right]
    refine .cons (hfirst.trans (le_add_of_nonneg_right (mul_nonneg hδ items.length.cast_nonneg))) ?_
    cases hs with
    | nil => exact .nil
    | @cons k c items boxes hk hs =>
      obtain ⟨hgap, hg⟩ := List.forall₂_cons.1 hg
      have hnext : |x + i.length + space + k.marginStart - c.start axis| ≤ ε + δ := by
        have hstop := Box.stop_eq b axis
        have heq : x + i.length + space + k.marginStart - c.start axis =
            (x + i.marginStart - b.start axis) +
              (((i.marginStop + k.marginStart : Int) : ℚ) + space - ((c.start axis - b.stop axis : Int) : ℚ)) := by
          rw [Item.length, hi, hstop]
          push_cast
          ring
        rw [heq]
        exact (abs_add_le _ _).trans (add_le_add hfirst hgap)
      have hnear := ih hg (x := x + i.length + space) (ε := ε + δ) fun j hj d hd => by
        cases hj
        cases hd
        exact hnext
      refine hnear.imp fun _ _ h => h.trans_eq ?_
      rw [List.length_cons, Nat.cast_succ]
      ring

/-- The lengths of items, their margins between neighbours apart. -/
theorem sum_length (i : Item) (items : List Item) : ((i :: items).map Item.length).sum =
    i.marginStart + ((i :: items).map Item.extent).sum + (joints (i :: items)).sum +
      ((i :: items).getLast (by simp)).marginStop := by
  induction items generalizing i with
  | nil => simp [Item.length, joints]
  | cons k items ih =>
    rw [List.map_cons, List.sum_cons, ih, joints, List.getLast_cons (List.cons_ne_nil k items)]
    simp only [Item.length, List.map_cons, List.sum_cons]
    ring

/-- Boxes and the gaps between them fill the span from the first to the last. -/
theorem sum_extent (axis : Axis) (b : Box) (boxes : List Box) :
    ((b :: boxes).map fun c => (c.extent axis : Int)).sum + (Box.gaps axis (b :: boxes)).sum =
      ((b :: boxes).getLast (by simp)).stop axis - b.start axis := by
  induction boxes generalizing b with
  | nil => simp [Box.gaps, Box.stop_eq]
  | cons c boxes ih =>
    rw [List.getLast_cons (List.cons_ne_nil c boxes), Box.gaps, List.map_cons, List.sum_cons, List.sum_cons]
    have hc := ih c
    have hb := Box.stop_eq b axis
    omega

/-- The lengths of items reach from before the first box to behind the last, but for what is left in the gaps. -/
theorem Sized.sum_length (hs : Sized axis (i :: items) (b :: boxes)) : ((i :: items).map Item.length).sum =
    ((b :: boxes).getLast (by simp)).stop axis + ((i :: items).getLast (by simp)).marginStop -
      (b.start axis - i.marginStart) - ((Box.gaps axis (b :: boxes)).sum - (joints (i :: items)).sum) := by
  have hextents : (i :: items).map Item.extent = (b :: boxes).map fun c => (c.extent axis : Int) := by
    rw [← List.forall₂_eq_eq_eq, List.forall₂_map_left_iff, List.forall₂_map_right_iff]
    exact hs
  have hspan := sum_extent axis b boxes
  rw [← hextents] at hspan
  rw [Flexbox.sum_length]
  omega

/-- What gaps are off in sum. -/
theorem abs_sum_le {ms gs : List Int} (h : List.Forall₂ (fun m g : Int => |(m : ℚ) + space - g| ≤ δ) ms gs) :
    |(gs.sum : ℚ) - ms.sum - space * ms.length| ≤ δ * ms.length := by
  induction h with
  | nil => simp
  | @cons m g ms gs hm _ ih =>
    have heq : ((g :: gs).sum : ℚ) - (m :: ms).sum - space * (m :: ms).length =
        -((m : ℚ) + space - g) + ((gs.sum : ℚ) - ms.sum - space * ms.length) := by
      simp only [List.sum_cons, List.length_cons]
      push_cast
      ring
    rw [heq]
    refine (abs_add_le _ _).trans ((add_le_add ((abs_neg _).trans_le hm) ih).trans_eq ?_)
    simp only [List.length_cons]
    push_cast
    ring

/-- A line for boxes of a design. It leaves some length before the first of them and after the last. -/
structure Line.Fit (l : Line) (axis : Axis) (boxes : List Box) (before after : Int) : Prop where
  sized : Sized axis l.items boxes
  before : ∀ i ∈ l.items.head?, ∀ b ∈ boxes.head?, b.start axis = l.start + l.padStart + i.marginStart + before
  after : ∀ i ∈ l.items.getLast?, ∀ b ∈ boxes.getLast?, b.stop axis + i.marginStop + after = l.stop - l.padStop

namespace Line.Fit

variable {l : Line} {before after : Int}

/-- The free space is what is left at both ends and in the gaps. -/
theorem free_eq (h : l.Fit axis boxes before after) (hne : boxes ≠ []) : l.free =
    before + after + ((Box.gaps axis boxes).sum - (joints l.items).sum - l.gap * (boxes.length - 1)) := by
  obtain ⟨hs, hb, ha⟩ := h
  obtain ⟨b, boxes, rfl⟩ := List.exists_cons_of_ne_nil hne
  have hlen := hs.length_eq
  obtain ⟨i, items, -, -, hl⟩ := List.forall₂_cons_right_iff.1 hs
  rw [hl] at hs hb ha
  have hlengths := Sized.sum_length hs
  have hbefore := hb i rfl b rfl
  have hafter := ha _ (List.getLast?_eq_getLast_of_ne_nil (List.cons_ne_nil i items)) _
    (List.getLast?_eq_getLast_of_ne_nil (List.cons_ne_nil b boxes))
  rw [Line.free, hlen, hl]
  omega

/-- A line is off by what it starts off and by what each gap is off. -/
theorem near (h : l.Fit axis boxes before after) (hδ : 0 ≤ δ) (hg : Spread δ (l.gap + l.share) axis l.items boxes)
    (hx : |l.lead - before| ≤ ε) : Near (ε + δ * (boxes.length - 1)) axis l.starts boxes := by
  rw [Line.starts, ← h.sized.length_eq]
  refine near_place hδ h.sized hg fun i hi b hb => ?_
  have hbefore : (b.start axis : ℚ) = l.start + l.padStart + i.marginStart + before := by
    exact_mod_cast h.before i hi b hb
  rw [hbefore]
  convert hx using 2
  ring

/-- Packed items leave the free space of both ends, up to the tolerance for each gap. -/
theorem abs_free_sub_le (h : l.Fit axis boxes before after) (hne : boxes ≠ [])
    (hg : Spread 1 l.gap axis l.items boxes) : |(l.free : ℚ) - before - after| ≤ boxes.length - 1 := by
  have hsum := abs_sum_le hg
  have hpos := List.length_pos_iff.2 hne
  rw [length_joints, h.sized.length_eq, Nat.cast_sub hpos, Nat.cast_one, one_mul] at hsum
  have hfree : (l.free : ℚ) - before - after =
      (Box.gaps axis boxes).sum - (joints l.items).sum - l.gap * (boxes.length - 1) := by
    rw [h.free_eq hne]
    push_cast
    ring
  rw [hfree]
  exact hsum

/-- Packed from the start. -/
theorem near_start (h : l.Fit axis boxes 0 after) (hj : l.justify = .start)
    (hg : Spread 1 l.gap axis l.items boxes) : Near (boxes.length - 1) axis l.starts boxes := by
  have hshare : l.share = 0 := by rw [Line.share, hj]
  have hlead : l.lead = 0 := by rw [Line.lead, hj]
  have hnear := h.near (ε := 0) zero_le_one (by rwa [hshare, add_zero]) (by simp [hlead])
  rwa [zero_add, one_mul] at hnear

/-- Packed against the end. -/
theorem near_stop (h : l.Fit axis boxes before after) (hne : boxes ≠ []) (hj : l.justify = .stop)
    (hg : Spread 1 l.gap axis l.items boxes) (ha : |(after : ℚ)| ≤ 1) :
    Near (boxes.length + (boxes.length - 1)) axis l.starts boxes := by
  have hshare : l.share = 0 := by rw [Line.share, hj]
  have hlead : l.lead = l.free := by rw [Line.lead, hj]
  have hx : |l.lead - before| ≤ boxes.length := by
    have heq : l.lead - before = ((l.free : ℚ) - before - after) + after := by rw [hlead]; ring
    rw [heq]
    refine (abs_add_le _ _).trans ((add_le_add (h.abs_free_sub_le hne hg) ha).trans_eq ?_)
    ring
  have hnear := h.near zero_le_one (by rwa [hshare, add_zero]) hx
  rwa [one_mul] at hnear

/-- Packed in the center. -/
theorem near_center (h : l.Fit axis boxes before after) (hne : boxes ≠ []) (hj : l.justify = .center)
    (hg : Spread 1 l.gap axis l.items boxes) (hc : |(after : ℚ) - before| ≤ 1) :
    Near (boxes.length / 2 + (boxes.length - 1)) axis l.starts boxes := by
  have hshare : l.share = 0 := by rw [Line.share, hj]
  have hlead : l.lead = l.free / 2 := by rw [Line.lead, hj]
  have hx : |l.lead - before| ≤ boxes.length / 2 := by
    have heq : l.lead - before = (((l.free : ℚ) - before - after) + (after - before)) / 2 := by rw [hlead]; ring
    rw [heq, abs_div, abs_two]
    refine div_le_div_of_nonneg_right ?_ zero_le_two
    refine (abs_add_le _ _).trans ((add_le_add (h.abs_free_sub_le hne hg) hc).trans_eq ?_)
    ring
  have hnear := h.near zero_le_one (by rwa [hshare, add_zero]) hx
  rwa [one_mul] at hnear

end Line.Fit

/-- A line without margins or gaps of its own, for boxes whose gaps are close to the first of them. -/
structure Line.Even (l : Line) (axis : Axis) (boxes : List Box) (first : Int) : Prop where
  gapless : l.gap = 0
  marginless : ∀ m ∈ joints l.items, m = 0
  uniform : ∃ rest, Box.gaps axis boxes = first :: rest ∧ ∀ v ∈ rest, |(first : ℚ) - v| ≤ 1

/-- An equal share of free space that is close to a gap for each part. -/
theorem abs_share_sub_le {free gap : Int} {parts : ℚ} (hparts : 0 < parts) (hgap : 0 < gap)
    (h : |(free : ℚ) - gap * parts| ≤ parts) : |((max free 0 : Int) : ℚ) / parts - gap| ≤ 1 := by
  have hone : (1 : ℚ) ≤ gap := by exact_mod_cast hgap
  have hfree : (0 : ℚ) ≤ free := by
    have := (abs_le.1 h).1
    nlinarith
  have heq : (free : ℚ) / parts - gap = (free - gap * parts) / parts := by
    field_simp
  rw [max_eq_left (by exact_mod_cast hfree), heq, abs_div, abs_of_pos hparts]
  exact (div_le_one hparts).2 h

namespace Line.Even

variable {l : Line} {before after gap : Int}

theorem length_boxes (he : l.Even axis boxes gap) : (2 : ℚ) ≤ boxes.length := by
  obtain ⟨rest, hu, -⟩ := he.uniform
  have hlen := length_gaps axis boxes
  rw [hu, List.length_cons] at hlen
  have : 2 ≤ boxes.length := by omega
  exact_mod_cast this

/-- The free space makes up for the gaps, up to the tolerance for each but the first. -/
theorem abs_free_sub_le (he : l.Even axis boxes gap) (h : l.Fit axis boxes before after) :
    |(l.free : ℚ) - before - after - gap * (boxes.length - 1)| ≤ boxes.length - 2 := by
  have htwo := he.length_boxes
  obtain ⟨hgap, hjoints, rest, hu, hclose⟩ := he
  have hne : boxes ≠ [] := by
    rintro rfl
    cases hu
  have hlen : (boxes.length : ℚ) = rest.length + 2 := by
    have hlen := length_gaps axis boxes
    rw [hu, List.length_cons] at hlen
    have : boxes.length = rest.length + 2 := by omega
    exact_mod_cast this
  have hrest : List.Forall₂ (fun m g : Int => |(m : ℚ) + gap - g| ≤ 1) (rest.map fun _ => 0) rest :=
    List.forall₂_map_left_iff.2 (List.forall₂_same.2 fun v hv => by simpa using hclose v hv)
  have hsum := abs_sum_le hrest
  rw [List.map_const', List.sum_replicate, smul_zero, List.length_replicate, Int.cast_zero, sub_zero, one_mul] at hsum
  have hfree : (l.free : ℚ) - before - after - gap * (boxes.length - 1) = rest.sum - gap * rest.length := by
    rw [h.free_eq hne, hgap, List.sum_eq_zero hjoints, hu, List.sum_cons, hlen]
    push_cast
    rw [hlen]
    ring
  rw [hfree, hlen]
  linarith

/-- A share that is close to the first gap is close enough to all. -/
theorem near (he : l.Even axis boxes gap) (h : l.Fit axis boxes before after) (hs : |l.share - gap| ≤ 1)
    (hx : |l.lead - before| ≤ ε) : Near (ε + 2 * (boxes.length - 1)) axis l.starts boxes := by
  have key : ∀ m ∈ joints l.items, ∀ v ∈ Box.gaps axis boxes, |(m : ℚ) + (l.gap + l.share) - v| ≤ 2 := by
    intro m hm v hv
    obtain ⟨hgap, hjoints, rest, hu, hclose⟩ := he
    have hv : |(gap : ℚ) - v| ≤ 1 := by
      rw [hu, List.mem_cons] at hv
      rcases hv with rfl | hv
      · simp
      · exact hclose v hv
    rw [hjoints m hm, hgap, Int.cast_zero, zero_add, zero_add]
    exact (abs_sub_le l.share gap v).trans ((add_le_add hs hv).trans_eq one_add_one_eq_two)
  refine h.near zero_le_two (List.forall₂_iff_get.2 ⟨?_, fun k hk hk' => ?_⟩) hx
  · rw [length_joints, length_gaps, h.sized.length_eq]
  · exact key _ (List.get_mem _ _) _ (List.get_mem _ _)

/-- Distributed between the items. -/
theorem near_between (he : l.Even axis boxes gap) (h : l.Fit axis boxes 0 after) (h0 : 0 < gap)
    (hj : l.justify = .between) (ha : |(after : ℚ)| ≤ 1) : Near (2 * (boxes.length - 1)) axis l.starts boxes := by
  have htwo := he.length_boxes
  have hfree := he.abs_free_sub_le h
  have hlead : l.lead = 0 := by rw [Line.lead, hj]
  have hshare : |l.share - gap| ≤ 1 := by
    rw [Line.share, hj, h.sized.length_eq]
    refine abs_share_sub_le (by linarith) h0 ?_
    rw [abs_le] at hfree ha ⊢
    push_cast at hfree
    constructor <;> linarith
  have hnear := he.near (ε := 0) h hshare (by simp [hlead])
  rwa [zero_add] at hnear

/-- Distributed around the items, half a gap before the first. -/
theorem near_around (he : l.Even axis boxes gap) (h : l.Fit axis boxes before after) (h0 : 0 < gap)
    (hj : l.justify = .around) (hb : |(before : ℚ) * 2 - gap| ≤ 1) (ha : |(after : ℚ) * 2 - gap| ≤ 1) :
    Near (1 + 2 * (boxes.length - 1)) axis l.starts boxes := by
  have htwo := he.length_boxes
  have hfree := he.abs_free_sub_le h
  have hshare : |l.share - gap| ≤ 1 := by
    rw [Line.share, hj, h.sized.length_eq]
    refine abs_share_sub_le (by linarith) h0 ?_
    rw [abs_le] at hfree ha hb ⊢
    constructor <;> linarith
  have hlead : l.lead = l.share / 2 := by rw [Line.lead, Line.share, hj]
  refine he.near h hshare ?_
  rw [hlead]
  rw [abs_le] at hshare hb ⊢
  constructor <;> linarith

/-- Distributed evenly, with a gap before the first and after the last. -/
theorem near_evenly (he : l.Even axis boxes gap) (h : l.Fit axis boxes before after) (h0 : 0 < gap)
    (hj : l.justify = .evenly) (hb : |(before : ℚ) - gap| ≤ 1) (ha : |(after : ℚ) - gap| ≤ 1) :
    Near (2 + 2 * (boxes.length - 1)) axis l.starts boxes := by
  have htwo := he.length_boxes
  have hfree := he.abs_free_sub_le h
  have hshare : |l.share - gap| ≤ 1 := by
    rw [Line.share, hj, h.sized.length_eq]
    refine abs_share_sub_le (by linarith) h0 ?_
    rw [abs_le] at hfree ha hb ⊢
    constructor <;> linarith
  have hlead : l.lead = l.share := by rw [Line.lead, Line.share, hj]
  refine he.near h hshare ?_
  rw [hlead]
  rw [abs_le] at hshare hb ⊢
  constructor <;> linarith

end Line.Even

end FlexRecovery.Flexbox
