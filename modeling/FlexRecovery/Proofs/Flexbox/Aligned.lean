import FlexRecovery.Proofs.Flexbox.Band

/-!
Across the direction of an owner the tokens reproduce the design: in the band that they state each child has the edges
of its box, up to the tolerance, and a stretched one exactly.
-/

namespace FlexRecovery.Resolve

open Flexbox

/-! ### Where the tokens put a child -/

/-- How far a child that leaves that rest of its band is moved by its alignment and its margins. -/
def moved (a : Align) (rest : Margins) (s e : Int) : ℚ :=
  match a with
  | .start | .stretch => s - rest.start
  | .stop => rest.stop - e
  | .center => ((s - rest.start) + (rest.stop - e)) / 2

/-- Tokens that put a child with that rest where it is, up to the tolerance, and keep its size. -/
def Keeps (align : Align) (rest : Margins) (ts : List CrossToken) : Prop :=
  ∃ chosen s e, Says ts chosen s e ∧ chosen.getD align ≠ .stretch ∧ |moved (chosen.getD align) rest s e| ≤ 1

variable {align : Align} {rest : Margins} {ts : List CrossToken} {chosen : Option Align} {s e : Int}

theorem Says.keeps {a : Align} (h : Says ts chosen s e) (ha : chosen.getD align = a) (hne : a ≠ .stretch)
    (hmoved : |moved a rest s e| ≤ 1) : Keeps align rest ts := by
  subst ha
  exact ⟨chosen, s, e, h, hne, hmoved⟩

theorem moved_start (h : close rest.start s = true) : |moved .start rest s e| ≤ 1 := by
  rw [moved, abs_sub_comm]
  exact abs_le_of_close h

theorem moved_stop (h : close rest.stop e = true) : |moved .stop rest s e| ≤ 1 := abs_le_of_close h

/-- Twice the tolerance in the skew is the tolerance at the center. -/
theorem moved_center (h : |rest.skew - (s - e)| ≤ 2) : |moved .center rest s e| ≤ 1 := by
  have h : |((rest.skew - (s - e) : Int) : ℚ)| ≤ 2 := by exact_mod_cast h
  rw [Margins.skew, abs_le] at h
  push_cast at h
  rw [moved, abs_le]
  constructor <;> linarith

theorem ne_zero_of_not_close {v : Int} (h : ¬close v 0 = true) : v ≠ 0 := by
  rintro rfl
  exact h (close_iff.2 (by omega))

/-- Wherever it is pinned, a child keeps its place. -/
theorem keeps_pinnedTokens (align : Align) (rest : Margins) : Keeps align rest (pinnedTokens align rest) := by
  unfold pinnedTokens
  split
  · next hs => exact (says_self (t := .selfStart) rfl).keeps rfl (by simp) (moved_start hs)
  · next hs =>
    split
    · next he => exact (says_self (t := .selfStop) rfl).keeps rfl (by simp) (moved_stop he)
    · next he =>
      have hs := ne_zero_of_not_close hs
      have he := ne_zero_of_not_close he
      split
      · next hc =>
        have hc := close_iff.1 hc
        exact (says_self (t := .selfCenter) rfl).keeps rfl (by simp)
          (moved_center (abs_le.2 (by rw [Margins.skew]; omega)))
      · split
        · have hm : |moved .stop rest 0 rest.stop| ≤ 1 := by simp [moved]
          by_cases ha : align = .stop
          · rw [if_pos ha]
            exact (says_nil.withStop he).keeps ha (by simp) hm
          · rw [if_neg ha]
            exact ((says_self (t := .selfStop) rfl).withStop he).keeps rfl (by simp) hm
        · have hm : |moved .start rest rest.start 0| ≤ 1 := by simp [moved]
          by_cases ha : align = .start
          · rw [if_pos ha]
            exact (says_nil.withStart hs).keeps ha (by simp) hm
          · rw [if_neg ha]
            exact ((says_self (t := .selfStart) rfl).withStart hs).keeps rfl (by simp) hm

/-- Centered children are moved by the skew that most of them share. -/
theorem keeps_centerShift {centerSkew : Int} (h : close rest.skew centerSkew = true) :
    Keeps .center rest (centerShift centerSkew) := by
  have h := close_iff.1 h
  unfold centerShift
  split
  · next hc =>
    have hc := close_iff.1 hc
    exact says_nil.keeps rfl (by simp) (moved_center (abs_le.2 (by omega)))
  · next hc =>
    have hc := ne_zero_of_not_close hc
    split
    · exact (says_nil.withStart hc).keeps rfl (by simp) (moved_center (abs_le.2 (by omega)))
    · exact (says_nil.withStop (neg_ne_zero.2 hc)).keeps rfl (by simp) (moved_center (abs_le.2 (by omega)))

/-- A child that is not stretched keeps its place. -/
theorem keeps_childTokens (align : Align) (centerSkew : Int) (rest : Margins) :
    Keeps align rest (childTokens align centerSkew false rest) := by
  unfold childTokens
  rw [if_neg Bool.false_ne_true]
  cases align with
  | start =>
    dsimp only
    split
    · next h => exact says_nil.keeps rfl (by simp) (moved_start h)
    · exact keeps_pinnedTokens _ _
  | center =>
    dsimp only
    split
    · next h => exact keeps_centerShift h
    · exact keeps_pinnedTokens _ _
  | stop =>
    dsimp only
    split
    · next h => exact says_nil.keeps rfl (by simp) (moved_stop h)
    · exact keeps_pinnedTokens _ _
  | stretch =>
    dsimp only
    split
    · next h => exact (says_self (t := .selfStart) rfl).keeps rfl (by simp) (moved_start h)
    · exact keeps_pinnedTokens _ _

/-- A stretched child states its rest on both sides. -/
theorem says_constrained (align : Align) (centerSkew : Int) (rest : Margins) :
    Says (childTokens align centerSkew true rest) none rest.start rest.stop := by
  unfold childTokens
  rw [if_pos rfl]
  have hstart : Says (if rest.start = 0 then [] else [.marginStart rest.start]) none rest.start 0 := by
    split
    · next h => rw [h]; exact says_nil
    · next h => exact says_nil.withStart h
  by_cases h : rest.stop = 0
  · rw [if_pos h, List.append_nil, h]
    exact hstart
  · rw [if_neg h]
    exact hstart.withStop h

/-! ### The edges of a child -/

/-- Without stretching an item is moved as a whole. -/
theorem edges_of_ne_stretch {b : Band} {i : Piece} {box : Box} {axis : Axis} (hext : i.extent = box.extent axis)
    (hs : b.start + b.padStart + rest.start = box.start axis) (he : b.stop - b.padStop - rest.stop = box.stop axis)
    (ha : i.self.getD b.align ≠ .stretch) :
    let shift := moved (i.self.getD b.align) rest i.marginStart i.marginStop
    b.edges i = (box.start axis + shift, box.stop axis + shift) := by
  have hbox : (i.extent : ℚ) = box.stop axis - box.start axis := by
    rw [hext, box.stop_eq axis]
    push_cast
    ring
  have hs : (b.start + b.padStart + rest.start : ℚ) = box.start axis := by exact_mod_cast hs
  have he : (b.stop - b.padStop - rest.stop : ℚ) = box.stop axis := by exact_mod_cast he
  intro shift
  unfold Band.edges
  cases hi : i.self.getD b.align with
  | stretch => exact absurd hi ha
  | _ =>
    simp only [shift, hi, moved, hbox, ← hs, ← he, Prod.mk.injEq]
    constructor <;> ring

/-- A stretched item fills what its margins leave. -/
theorem edges_of_stretch {b : Band} {i : Piece} {box : Box} {axis : Axis}
    (hs : b.start + b.padStart + i.marginStart = box.start axis)
    (he : b.stop - b.padStop - i.marginStop = box.stop axis) (ha : i.self.getD b.align = .stretch)
    (hi : i.isSized = false) : b.edges i = ((box.start axis : ℚ), (box.stop axis : ℚ)) := by
  unfold Band.edges
  rw [ha]
  simp only [hi, Bool.false_eq_true, if_false, Prod.mk.injEq]
  exact ⟨by exact_mod_cast hs, by exact_mod_cast he⟩

/-- Paddings are not negative. -/
theorem padding_nonneg (follows isOpenEnd : Bool) (align : Align) (margins : List Margins) :
    0 ≤ (padding follows isOpenEnd align margins).1 ∧ 0 ≤ (padding follows isOpenEnd align margins).2 := by
  unfold padding
  refine ⟨le_max_right _ _, ?_⟩
  dsimp only
  split
  · exact le_rfl
  · exact le_max_right _ _

/-- The tokens of each child across the direction, with those of its size. -/
def CrossPlan.sizedTokens (p : CrossPlan) (direction : Axis) (flow : List Tree) : List (List String) :=
  List.zipWith (fun ts t => crossTokens direction (p.align == .stretch) t.node ts) p.children flow

/-- What a child leaves of its band. -/
def CrossPlan.restOf (p : CrossPlan) (owner : Box) (cross : Axis) (box : Box) : Margins :=
  ⟨(Margins.between box owner cross).start - p.padStart, (Margins.between box owner cross).stop - p.padStop⟩

/-- The children of a plan are placed one by one, all by the same skew. -/
theorem children_crossPlan (owner : Node) (cross : Axis) (children : List Node) :
    ∃ skew, (crossPlan owner cross children).children = children.map fun c =>
      childTokens (crossPlan owner cross children).align skew (c.sizing cross == some .constrained)
        ((crossPlan owner cross children).restOf owner.box cross c.box) := by
  refine ⟨(cluster ((children.map fun c => (crossPlan owner cross children).restOf owner.box cross c.box).map
    Margins.skew)).elim 0 (·.1), ?_⟩
  simp only [crossPlan, CrossPlan.restOf, List.map_map]
  rw [List.zip_map', List.map_map]
  rfl

/-- The tokens of a child state an item that reproduces its box. -/
theorem reproduces_pieceOf (p : CrossPlan) (hp : 0 ≤ p.padStart ∧ 0 ≤ p.padStop) (owner : Box) (direction : Axis)
    (skew : Int) (n : Node) :
    ∃ i : Piece, i.Written direction.cross n.box (crossTokens direction (p.align == .stretch) n
      (childTokens p.align skew (n.sizing direction.cross == some .constrained)
        (p.restOf owner direction.cross n.box))) ∧
      (p.band owner direction.cross).Reproduces i direction.cross n := by
  have hstart : (p.band owner direction.cross).start + (p.band owner direction.cross).padStart +
      (p.restOf owner direction.cross n.box).start = n.box.start direction.cross := by
    simp only [CrossPlan.band, CrossPlan.restOf, Margins.between, max_eq_left hp.1]
    ring
  have hstop : (p.band owner direction.cross).stop - (p.band owner direction.cross).padStop -
      (p.restOf owner direction.cross n.box).stop = n.box.stop direction.cross := by
    simp only [CrossPlan.band, CrossPlan.restOf, Margins.between, max_eq_left hp.2]
    ring
  by_cases hc : n.sizing direction.cross = some .constrained
  · have hc' : (n.sizing direction.cross == some .constrained) = true := beq_iff_eq.2 hc
    rw [hc']
    refine ⟨_, written_pieceOf (says_constrained _ _ _) fun _ => rfl, ?_⟩
    rw [Band.Reproduces, if_pos hc]
    refine edges_of_stretch hstart hstop ?_ (by simp [pieceOf, hc])
    by_cases ha : p.align = .stretch <;> simp [pieceOf, hc, ha, CrossPlan.band]
  · have hc' : (n.sizing direction.cross == some .constrained) = false := beq_eq_false_iff_ne.2 hc
    rw [hc']
    obtain ⟨chosen, s, e, hsays, hne, hmoved⟩ := keeps_childTokens p.align skew (p.restOf owner direction.cross n.box)
    refine ⟨_, written_pieceOf hsays fun h => absurd h hc, ?_⟩
    have hself (b : Bool) : (pieceOf direction b n chosen s e).self = chosen := if_neg fun h => hc h.1
    rw [Band.Reproduces, if_neg hc, edges_of_ne_stretch rfl hstart hstop (by rwa [hself]), hself]
    simp only [add_sub_cancel_left, and_self]
    exact hmoved

variable {owner : Node} {direction : Axis} {flow : List Tree}

theorem map_worded {tokens : List (List String)} (f : Node → List String)
    (hf : ∀ n ts, f (n.pushAll ts) = f n) : (worded tokens flow).map (Tree.mapNode fun n => n.pushAll (f n)) =
      worded (List.zipWith (fun ts t => ts ++ f t.node) tokens flow) flow := by
  induction flow generalizing tokens with
  | nil => simp [worded]
  | cons t flow ih =>
    cases tokens with
    | nil => rfl
    | cons ts tokens =>
      simp only [worded, List.zipWith_cons_cons, List.map_cons, Tree.mapNode, hf, Node.pushAll_pushAll] at ih ⊢
      rw [ih]

theorem withSizes_alignChildren (hd : owner.direction = some direction) (hne : flow ≠ []) :
    withSizes (alignChildren owner flow).1 (alignChildren owner flow).2 =
      worded ((crossPlan owner direction.cross (flow.map (·.node))).sizedTokens direction flow) flow := by
  rw [alignChildren_eq hd hne]
  have hdir (a : Align) (ts : List String) :
      ({ owner with align := some a }.pushAll ts).direction = some direction := hd
  have halign (a : Align) (ts : List String) : ({ owner with align := some a }.pushAll ts).align = some a := rfl
  simp only [withSizes, hdir, halign]
  rw [map_worded _ fun n ts => ?_]
  · rw [CrossPlan.childTokens, CrossPlan.sizedTokens, List.zipWith_map_left]
    rfl
  · simp only [sizeTokens, Node.sizing_pushAll, extentToken]
    rfl

/-- The tokens that align children across the direction of their owner, with those of their sizes, state a flexbox in
which each child that is not stretched keeps its place up to the tolerance, and each stretched one exactly. -/
theorem aligned_in_place {owner : Node} {direction : Axis} {flow : List Tree} (hd : owner.direction = some direction)
    (hne : flow ≠ []) :
    let p := crossPlan owner direction.cross (flow.map (·.node))
    let per := p.sizedTokens direction flow
    (alignChildren owner flow).1 = { owner with align := some p.align }.pushAll (p.ownTokens direction.cross) ∧
    withSizes (alignChildren owner flow).1 (alignChildren owner flow).2 = worded per flow ∧
    ∃ b : Band, b.Written direction.cross owner.box (p.ownTokens direction.cross) ∧
      List.Forall₂ (fun ts t => ∃ i : Piece, i.Written direction.cross t.box ts ∧ b.Reproduces i direction.cross t.node)
        per flow := by
  intro p per
  refine ⟨by rw [alignChildren_eq hd hne], withSizes_alignChildren hd hne, _, written_band p owner.box _, ?_⟩
  obtain ⟨skew, hchildren⟩ := children_crossPlan owner direction.cross (flow.map (·.node))
  have hpads : 0 ≤ p.padStart ∧ 0 ≤ p.padStop := padding_nonneg _ _ _ _
  simp only [per, CrossPlan.sizedTokens, p, hchildren, List.map_map, List.zipWith_map_left]
  rw [List.zipWith_self, List.forall₂_map_left_iff, List.forall₂_same]
  exact fun t _ => reproduces_pieceOf p hpads owner.box direction skew t.node

/-- A stretched box in a row, one that is a pixel lower, one near the bottom and one at the top. -/
def banner : Tree where
  node := { box := ⟨0, 0, 100, 60⟩, direction := some .row }
  flow := [⟨{ box := ⟨0, 10, 20, 40⟩, height := some .constrained }, [], []⟩,
    ⟨{ box := ⟨20, 11, 20, 20⟩, height := some .fixed }, [], []⟩,
    ⟨{ box := ⟨40, 30, 20, 16⟩, height := some .auto }, [], []⟩,
    ⟨{ box := ⟨60, 10, 20, 40⟩, height := some .auto }, [], []⟩]

theorem aligned_in_place_banner : banner.node.direction = some .row ∧ banner.flow ≠ [] ∧
    ∃ b : Band, b.Written .column banner.box ["items-start", "pt-[10px]"] ∧
      List.Forall₂ (fun ts t => ∃ i : Piece, i.Written .column t.box ts ∧ b.Reproduces i .column t.node)
        [["mb-[10px]", "self-stretch"], ["h-[20px]"], ["self-end", "mb-[14px]"], []] banner.flow := by
  have hd : banner.node.direction = some .row := rfl
  have hne : banner.flow ≠ [] := by simp [banner]
  obtain ⟨-, -, b, hb, hper⟩ := aligned_in_place hd hne
  have hown : (crossPlan banner.node .column (banner.flow.map (·.node))).ownTokens .column =
      ["items-start", "pt-[10px]"] := by decide +kernel
  have hsized : (crossPlan banner.node .column (banner.flow.map (·.node))).sizedTokens .row banner.flow =
      [["mb-[10px]", "self-stretch"], ["h-[20px]"], ["self-end", "mb-[14px]"], []] := by decide +kernel
  rw [show Axis.row.cross = .column from rfl, hown] at hb
  rw [show Axis.row.cross = .column from rfl, hsized] at hper
  exact ⟨hd, hne, b, hb, hper⟩

end FlexRecovery.Resolve
