import FlexRecovery.Box.Relations

/-!
Boxes that are translated. The relations between boxes are about differences of edges, so none of them changes
when both boxes are translated alike.
-/

namespace FlexRecovery

/-- How far something is translated along each axis. -/
abbrev Offset := Axis → Int

theorem close_add (a b c : Int) : close (a + c) (b + c) = close a b := by
  unfold close
  rw [decide_eq_decide]
  omega

theorem close_add_add (a b c e x : Int) : close (a + x + (b + x)) (c + x + (e + x)) = close (a + b) (c + e) := by
  rw [← close_add (a + b) (c + e) (x + x)]
  congr 1 <;> omega

namespace Box

variable (d : Offset) (a b : Box) (axis : Axis)

def translate (d : Offset) (b : Box) : Box := { b with left := b.left + d .row, top := b.top + d .column }

@[simp] theorem left_translate : (b.translate d).left = b.left + d .row := rfl

@[simp] theorem top_translate : (b.translate d).top = b.top + d .column := rfl

@[simp] theorem width_translate : (b.translate d).width = b.width := rfl

@[simp] theorem height_translate : (b.translate d).height = b.height := rfl

@[simp] theorem right_translate : (b.translate d).right = b.right + d .row := Int.add_right_comm _ _ _

@[simp] theorem bottom_translate : (b.translate d).bottom = b.bottom + d .column := Int.add_right_comm _ _ _

@[simp] theorem start_translate : (b.translate d).start axis = b.start axis + d axis := by
  cases axis <;> rfl

@[simp] theorem stop_translate : (b.translate d).stop axis = b.stop axis + d axis := by
  cases axis
  · exact right_translate d b
  · exact bottom_translate d b

@[simp] theorem extent_translate : (b.translate d).extent axis = b.extent axis := by
  cases axis <;> rfl

@[simp] theorem area_translate : (b.translate d).area = b.area := rfl

section relations

@[simp] theorem within_translate : within (a.translate d) (b.translate d) axis = within a b axis := by
  unfold within
  simp only [start_translate, stop_translate, decide_eq_decide]
  omega

@[simp] theorem contains_translate : contains (a.translate d) (b.translate d) = contains a b := by
  simp only [contains, within_translate]

@[simp] theorem same_translate : same (a.translate d) (b.translate d) = same a b := by
  simp only [same, left_translate, top_translate, right_translate, bottom_translate, close_add]

@[simp] theorem strictlyContains_translate :
    strictlyContains (a.translate d) (b.translate d) = strictlyContains a b := by
  simp only [strictlyContains, contains_translate, same_translate, area_translate]
  rfl

@[simp] theorem overlap_translate : overlap (a.translate d) (b.translate d) axis = overlap a b axis := by
  simp only [overlap, start_translate, stop_translate]
  omega

@[simp] theorem overlaps_translate : overlaps (a.translate d) (b.translate d) = overlaps a b := by
  simp only [overlaps, overlapping, overlap_translate]

@[simp] theorem intrudesFully_translate :
    intrudesFully (a.translate d) (b.translate d) = intrudesFully a b := by
  simp only [intrudesFully, intrudes, overlap_translate, extent_translate]

theorem bestContainer_translate (bs : List Box) :
    bestContainer (a.translate d) (bs.map (translate d)) = bestContainer a bs := by
  simp only [bestContainer, List.zipIdx_map, List.foldl_map, Prod.map, strictlyContains_translate, area_translate, id]
  rfl

end relations

theorem ofEdges_translate (l t r s : Int) :
    ofEdges (l + d .row) (t + d .column) (r + d .row) (s + d .column) = (ofEdges l t r s).translate d := by
  unfold ofEdges
  rw [Int.add_sub_add_right, Int.add_sub_add_right]
  rfl

theorem withSpan_translate (s e : Int) :
    (b.translate d).withSpan axis (s + d axis) (e + d axis) = (b.withSpan axis s e).translate d := by
  cases axis
  · rw [withSpan, withSpan, bottom_translate]
    exact ofEdges_translate d _ _ _ _
  · rw [withSpan, withSpan, right_translate]
    exact ofEdges_translate d _ _ _ _

theorem join_translate : (a.translate d).join (b.translate d) = (a.join b).translate d := by
  unfold join
  rw [← ofEdges_translate]
  simp only [left_translate, top_translate, right_translate, bottom_translate]
  congr 1 <;> omega

/-- The hull of no boxes lies at the origin, whatever is translated. -/
theorem hull_translate {bs : List Box} (h : bs ≠ []) : hull (bs.map (translate d)) = (hull bs).translate d := by
  obtain ⟨b, bs, rfl⟩ := List.exists_cons_of_ne_nil h
  simp only [hull, List.map_cons, hull?, Option.getD_some, List.foldl_map]
  induction bs generalizing b with
  | nil => rfl
  | cons c bs ih =>
    rw [List.foldl_cons, List.foldl_cons, join_translate]
    exact ih (b.join c) (List.cons_ne_nil _ _)

theorem gaps_translate (bs : List Box) : gaps axis (bs.map (translate d)) = gaps axis bs := by
  induction bs with
  | nil => rfl
  | cons a bs ih =>
    cases bs with
    | nil => rfl
    | cons b bs =>
      simp only [List.map_cons, gaps, start_translate, stop_translate, Int.add_sub_add_right]
      exact congrArg _ ih

end Box

end FlexRecovery
