import FlexRecovery.Proofs.Ruled
import FlexRecovery.Tree
import Mathlib.Data.List.Pairwise

/-!
Flow children of which some are lists of older ones. Two wrapping grids never come to be one node: what nearly has the box
of a grid is a list that shares no area with it, no such list nearly has the boxes of two grids, and it is no more like a
part of what it was folded with than the grid itself.
-/

namespace FlexRecovery

namespace Box

/-- Side by side, up to a pixel across and two pixels up and down. -/
def Beside (a b : Box) : Prop := a.Engulfs b ∧ b.Engulfs a

end Box

namespace Regroup

open Box

def IsGrid (t : Tree) : Prop := t.node.hasRole .listWrap = true

/-- A box that no flow child but a list contains. -/
structure Sturdy (ts : List Tree) (b : Box) : Prop where
  height : 2 ≤ b.height
  outside : ∀ x ∈ ts, x.node.roles.isList = false → x.box.contains b = false
  clear : b.width = 1 → ∀ x ∈ ts, x.node.roles.isList = false → ¬x.box.Engulfs b

/-- Two grids are not narrow and side by side. -/
def Separate (o o' : Tree) : Prop :=
  IsGrid o → IsGrid o' → o.box.width = 1 → o'.box.width = 1 → ¬o.box.Beside o'.box

/-- How grids stand among flow children that were collapsed and nested. -/
structure Steady (ts : List Tree) : Prop where
  sturdy : ∀ o ∈ ts, IsGrid o → Sturdy ts o.box
  separate : ts.Pairwise Separate

/-- Two grids stay separate if each gets the box of a flow child that has nearly its own. -/
structure Unmixed (ts : List Tree) (o o' : Tree) : Prop where
  differ : ∀ c ∈ ts, c.box.same o.box = true → c.box.same o'.box = false
  separate : ∀ c ∈ ts, ∀ c' ∈ ts, c.box.same o.box = true → c'.box.same o'.box = true → c.box.width = 1 →
    c'.box.width = 1 → ¬c.box.Beside c'.box

/-- How grids stand among flow children that are still to be collapsed. -/
structure Foldable (ts : List Tree) : Prop where
  sturdy : ∀ o ∈ ts, IsGrid o → ∀ c ∈ ts, c.box.same o.box = true → Sturdy ts c.box
  unmixed : ts.Pairwise fun o o' => IsGrid o → IsGrid o' → Unmixed ts o o'

theorem Separate.symm {o o' : Tree} (h : Separate o o') : Separate o' o := fun ho' ho hw' hw hb =>
  h ho ho' hw hw' hb.symm

theorem Unmixed.symm {ts : List Tree} {o o' : Tree} (h : Unmixed ts o o') : Unmixed ts o' o where
  differ := fun c hc hs => Bool.eq_false_iff.2 fun hs' => by
    rw [h.differ c hc hs'] at hs
    cases hs
  separate := fun c hc c' hc' hs hs' hw hw' hb => h.separate c' hc' c hc hs' hs hw' hw hb.symm

/-- What a flow child is when lists are made of others. -/
inductive Plot.Kind where
  | old
  | list
  /-- Ruled above its first row and below it. -/
  | grid (s g : Int)

/-- A flow child with the boxes of the old ones that it was made of. -/
structure Plot where
  tree : Tree
  parts : List Box
  kind : Plot.Kind

namespace Plot

def box (p : Plot) : Box := p.tree.box

/-- A low list has two flat parts. -/
def Layered (p : Plot) : Prop :=
  p.box.height = 2 → ∃ y ∈ p.parts, ∃ z ∈ p.parts, y ≠ z ∧ y.height = 1 ∧ z.height = 1

/-- The rows of the first grid come before those of the second. -/
def Precedes (p q : Plot) (g s g' : Int) : Prop := g + 1 ≤ s ∧ s ≤ q.box.top ∧ p.box.bottom + 1 ≤ g'

/-- How a list stands to a grid, and how two grids stand to one another. -/
structure Stands (p q : Plot) : Prop where
  layered : ∀ s g, p.kind = .list → q.kind = .grid s g → p.box.same q.box = false ∨ p.Layered
  ordered : ∀ s g s' g', p.kind = .grid s g → q.kind = .grid s' g' → p.Precedes q g s' g' ∨ q.Precedes p g' s g

/-- How a plot stands to another one. -/
structure Amid (p q : Plot) : Prop extends Stands p q where
  clear : p.kind ≠ .old → p.box.overlaps q.box = false

end Plot

/-- The old flow children, divided among the new ones. -/
structure Plan (old : List Tree) (ps : List Plot) : Prop where
  strewn : Strewn (old.map Tree.box)
  nodup : (old.map Tree.box).Nodup
  perm : (ps.flatMap Plot.parts).Perm (old.map Tree.box)
  around : ∀ p ∈ ps, p.box.Around p.parts
  kept : ∀ p ∈ ps, p.kind = .old → p.tree ∈ old ∧ p.parts = [p.box]
  listed : ∀ p ∈ ps, p.kind ≠ .old → p.tree.node.roles.isList = true ∧ 3 ≤ p.parts.length
  flat : ∀ p ∈ ps, p.kind = .list → ¬IsGrid p.tree
  ruled : ∀ p ∈ ps, ∀ s g, p.kind = .grid s g → Ruled (old.map Tree.box) p.parts p.box s g
  amid : ∀ p ∈ ps, ∀ q ∈ ps, p ≠ q → p.Amid q

namespace Plan

variable {old : List Tree} {ps : List Plot} {p q c : Plot} {b : Box} {s g : Int}

theorem mem_old (h : Plan old ps) (hp : p ∈ ps) (hb : b ∈ p.parts) : b ∈ old.map Tree.box :=
  h.perm.mem_iff.1 (List.mem_flatMap.2 ⟨p, hp, hb⟩)

theorem parts_nodup (h : Plan old ps) (hp : p ∈ ps) : p.parts.Nodup :=
  (List.nodup_flatMap.1 (h.perm.nodup_iff.2 h.nodup)).1 p hp

/-- No box is a part of two. -/
theorem disjoint (h : Plan old ps) (hp : p ∈ ps) (hq : q ∈ ps) (hne : p ≠ q) (hb : b ∈ p.parts) : b ∉ q.parts := by
  have hpair := (List.nodup_flatMap.1 (h.perm.nodup_iff.2 h.nodup)).2
  have : Std.Symm (Function.onFun List.Disjoint Plot.parts) := ⟨fun _ _ h _ hb hb' => h hb' hb⟩
  exact hpair.forall hp hq hne hb

theorem nodup_plots (h : Plan old ps) : ps.Nodup := by
  refine (List.nodup_flatMap.1 (h.perm.nodup_iff.2 h.nodup)).2.imp_of_mem ?_
  rintro p q hp - hd rfl
  obtain ⟨b, hb, -⟩ := (h.around p hp).exists_start .row
  exact hd hb hb

theorem exists_two (h : Plan old ps) (hp : p ∈ ps) (hk : p.kind ≠ .old) : ∃ y ∈ p.parts, ∃ z ∈ p.parts, y ≠ z := by
  have hlen := (h.listed p hp hk).2
  have hnodup := h.parts_nodup hp
  match hparts : p.parts with
  | [] => simp [hparts] at hlen
  | [_] => simp [hparts] at hlen
  | y :: z :: rest =>
    rw [hparts] at hnodup
    refine ⟨y, by simp, z, by simp, ?_⟩
    rintro rfl
    simp at hnodup

theorem exists_three (h : Plan old ps) (hp : p ∈ ps) (hk : p.kind ≠ .old) :
    ∃ x ∈ p.parts, ∃ y ∈ p.parts, ∃ z ∈ p.parts, x ≠ y ∧ y ≠ z ∧ x ≠ z := by
  have hlen := (h.listed p hp hk).2
  have hnodup := h.parts_nodup hp
  match hparts : p.parts with
  | [] => simp [hparts] at hlen
  | [_] => simp [hparts] at hlen
  | [_, _] => simp [hparts] at hlen
  | x :: y :: z :: rest =>
    rw [hparts] at hnodup
    simp only [List.nodup_cons, List.mem_cons, not_or] at hnodup
    exact ⟨x, by simp, y, by simp, z, by simp, hnodup.1.1, hnodup.2.1.1, hnodup.1.2.1⟩

/-- The box of an old flow child. -/
theorem box_mem (h : Plan old ps) (hp : p ∈ ps) (hk : p.kind = .old) : p.box ∈ old.map Tree.box :=
  h.mem_old hp (by rw [(h.kept p hp hk).2]; exact List.mem_singleton_self _)

theorem box_not_mem (h : Plan old ps) (hp : p ∈ ps) (hk : p.kind = .old) (hq : q ∈ ps) (hne : p ≠ q) :
    p.box ∉ q.parts :=
  h.disjoint hp hq hne (by rw [(h.kept p hp hk).2]; exact List.mem_singleton_self _)

theorem unlike_part (h : Plan old ps) (hp : p ∈ ps) (hk : p.kind = .old) (hq : q ∈ ps) (hne : p ≠ q)
    (hb : b ∈ q.parts) : Unlike p.box b :=
  h.strewn.unlike _ (h.box_mem hp hk) _ (h.mem_old hq hb) fun he => h.box_not_mem hp hk hq hne (he ▸ hb)

theorem solid_part (h : Plan old ps) (hp : p ∈ ps) (hb : b ∈ p.parts) : Solid b := h.strewn.solid _ (h.mem_old hp hb)

/-- Two old flow children are unlike. -/
theorem not_same_old (h : Plan old ps) (hp : p ∈ ps) (hk : p.kind = .old) (hq : q ∈ ps) (hk' : q.kind = .old)
    (hne : p ≠ q) : p.box.same q.box = false :=
  (h.unlike_part hp hk hq hne (by rw [(h.kept q hq hk').2]; exact List.mem_singleton_self _)).differ

/-- No old flow child contains a grid. -/
theorem not_contains_grid (h : Plan old ps) (hp : p ∈ ps) (hk : p.kind = .grid s g) (hb : b ∈ old.map Tree.box) :
    b.contains p.box = false :=
  (h.ruled p hp s g hk).not_contains h.strewn (fun _ => h.mem_old hp) (h.around p hp) hb

theorem not_same_grid_of_old (h : Plan old ps) (hp : p ∈ ps) (hk : p.kind = .grid s g) (hc : c ∈ ps)
    (hck : c.kind = .old) : c.box.same p.box = false := by
  rw [Bool.eq_false_iff]
  intro hs
  have hcontains := contains_of_same hs
  rw [h.not_contains_grid hp hk (h.box_mem hc hck)] at hcontains
  cases hcontains

theorem inside (h : Plan old ps) (hp : p ∈ ps) (hk : p.kind = .grid s g) : p.box.top < g ∧ g < p.box.bottom :=
  (h.ruled p hp s g hk).inside h.strewn (fun _ => h.mem_old hp) (h.around p hp)

/-- Two grids have boxes that differ by two pixels. -/
theorem not_same_grids (h : Plan old ps) {s' g' : Int} (hp : p ∈ ps) (hk : p.kind = .grid s g) (hq : q ∈ ps)
    (hk' : q.kind = .grid s' g') (hne : p ≠ q) : p.box.same q.box = false := by
  rw [Bool.eq_false_iff, ne_eq, same_edges]
  intro hs
  have hi := h.inside hp hk
  have hi' := h.inside hq hk'
  have ho := (h.amid p hp q hq hne).ordered _ _ _ _ hk hk'
  simp only [Plot.Precedes, Level, start, stop] at *
  omega

theorem not_old_of_same (h : Plan old ps) (hp : p ∈ ps) (hk : p.kind = .grid s g) (hc : c ∈ ps)
    (hs : c.box.same p.box = true) : c.kind ≠ .old := fun hck => by
  rw [h.not_same_grid_of_old hp hk hc hck] at hs
  cases hs

/-- What nearly has the box of a grid is a list. -/
theorem list_of_same (h : Plan old ps) (hp : p ∈ ps) (hk : p.kind = .grid s g) (hc : c ∈ ps) (hne : c ≠ p)
    (hs : c.box.same p.box = true) : c.kind = .list := by
  cases hck : c.kind with
  | old => exact absurd hck (h.not_old_of_same hp hk hc hs)
  | list => rfl
  | grid s' g' =>
    rw [h.not_same_grids hc hck hp hk hne] at hs
    cases hs

/-- A narrow grid is cut in the middle, and so is a narrow list of nearly its box. -/
theorem of_narrow (h : Plan old ps) (hp : p ∈ ps) (hk : p.kind = .grid s g) (hc : c ∈ ps)
    (hs : c.box.same p.box = true) (hw : c.box.width = 1) : c.box.top + 3 ≤ g ∧ g + 3 ≤ c.box.bottom := by
  have hr := h.ruled p hp s g hk
  by_cases hne : c = p
  · subst hne
    exact hr.of_narrow h.strewn (fun _ => h.mem_old hp) (h.around c hp) hw
  · exact hr.of_narrow_list h.strewn (fun _ => h.mem_old hp) (h.around p hp)
      (fun b hb => ⟨h.mem_old hc hb, h.disjoint hc hp hne hb⟩) (h.around c hc) hs hw

/-! ### What contains a grid, or a list of nearly its box -/

theorem two_le_height_of_grid (h : Plan old ps) (hp : p ∈ ps) (hk : p.kind = .grid s g) (hc : c ∈ ps)
    (hs : c.box.same p.box = true) : 2 ≤ c.box.height := by
  by_cases hne : c = p
  · subst hne
    have hi := h.inside hp hk
    simp only [bottom] at hi
    omega
  · exact (h.ruled p hp s g hk).two_le_height h.strewn (fun _ => h.mem_old hp) (h.around p hp)
      (fun b hb => ⟨h.mem_old hc hb, h.disjoint hc hp hne hb⟩) (h.around c hc) hs

/-- A grid is wide if something that was there before contains a list of nearly its box: that stands in one of its rows
with two of its parts. -/
theorem three_le_width_of_contains (h : Plan old ps) (hp : p ∈ ps) (hk : p.kind = .grid s g)
    (hs : c.box.same p.box = true) (hb : b ∈ old.map Tree.box) (hbc : b.contains c.box = true) : 3 ≤ p.box.width := by
  have hr := h.ruled p hp s g hk
  rcases hr.cut b hb with hbg | hbg
  · obtain ⟨u, hu, v, hv, huv, hug, hvg⟩ := hr.lower
    exact three_le_width (h.solid_part hp hu) (h.solid_part hp hv) ((h.around p hp).frames u hu)
      ((h.around p hp).frames v hv) hug hvg (h.strewn.unlike u (h.mem_old hp hu) v (h.mem_old hp hv) huv) hs hbc hbg
  · obtain ⟨u, hu, v, hv, huv, hug, hvg⟩ := hr.upper
    exact three_le_width_of_below (h.solid_part hp hu) (h.solid_part hp hv) ((h.around p hp).frames u hu)
      ((h.around p hp).frames v hv) hug hvg (h.strewn.unlike u (h.mem_old hp hu) v (h.mem_old hp hv) huv) hs hbc hbg

/-- What contains a list of nearly the box of a grid leaves one of the parts of the list without a size of its own. -/
theorem not_contains_of_grid (h : Plan old ps) (hp : p ∈ ps) (hk : p.kind = .grid s g) (hc : c ∈ ps)
    (hs : c.box.same p.box = true) (hb : b ∈ old.map Tree.box) : b.contains c.box = false := by
  by_cases hne : c = p
  · subst hne
    exact h.not_contains_grid hc hk hb
  have hck := h.list_of_same hp hk hc hne hs
  have hsolid := h.strewn.solid b hb
  have unlike {y z : Box} (hy : y ∈ c.parts) (hz : z ∈ c.parts) (hyz : y ≠ z) : Unlike y z :=
    h.strewn.unlike y (h.mem_old hc hy) z (h.mem_old hc hz) hyz
  have unlike_b {y : Box} (hy : y ∈ c.parts) (hby : b ≠ y) : Unlike b y :=
    h.strewn.unlike b hb y (h.mem_old hc hy) hby
  have frames {y : Box} (hy : y ∈ c.parts) : c.box.Frames y := (h.around c hc).frames y hy
  rw [Bool.eq_false_iff]
  intro hbc
  have hwide := h.three_le_width_of_contains hp hk hs hb hbc
  have hheight := h.two_le_height_of_grid hp hk hc hs
  have hinside := h.inside hp hk
  have hclear := (h.amid c hc p hp hne).clear (by simp [hck])
  rcases overlaps_eq_false.1 hclear with hrow | hcolumn
  · have hw : c.box.width = 1 := by
      rw [same_edges] at hs
      obtain ⟨y, hy, -⟩ := (h.around c hc).exists_start .row
      have hyw := (h.solid_part hc hy).width
      have hye := frames_edges.1 (frames hy)
      simp only [overlap, Level, start, stop, right] at *
      omega
    obtain ⟨x, hx, y, hy, z, hz, hxy, hyz, hxz⟩ := h.exists_three hc (by simp [hck])
    have two {y z : Box} (hy : y ∈ c.parts) (hz : z ∈ c.parts) (hyz : y ≠ z) (hby : b ≠ y) : False := by
      have hnot := not_contains_of_narrow hsolid (h.solid_part hc hy) (h.solid_part hc hz) (frames hy) (frames hz)
        (unlike hy hz hyz) (unlike_b hy hby) hw
      rw [hbc] at hnot
      cases hnot
    by_cases hbx : b = x
    · exact two hy hx hxy.symm fun hby => hxy (hbx.symm.trans hby)
    · exact two hx hy hxy hbx
  · have hh : c.box.height = 2 := by
      rw [same_edges] at hs
      simp only [overlap, Level, start, stop, bottom] at *
      omega
    have hlayered := ((h.amid c hc p hp hne).layered s g hck hk).resolve_left (by simp [hs])
    obtain ⟨y, hy, z, hz, hyz, hyh, hzh⟩ := hlayered hh
    have two {y z : Box} (hy : y ∈ c.parts) (hz : z ∈ c.parts) (hyz : y ≠ z) (hyh : y.height = 1) (hzh : z.height = 1)
        (hby : b ≠ y) : False := by
      have hnot := not_contains_of_low hsolid (h.solid_part hc hy) (h.solid_part hc hz) (frames hy) (frames hz)
        (unlike hy hz hyz) (unlike_b hy hby) hyh hzh hh
      rw [hbc] at hnot
      cases hnot
    by_cases hby : b = y
    · exact two hz hy hyz.symm hzh hyh fun hbz => hyz (hby.symm.trans hbz)
    · exact two hy hz hyz hyh hzh hby

/-! ### Lists of nearly the box of a grid that is no new one -/

/-- Such a grid is narrow, and the parts of the list are a little wider. -/
structure Straddles (c o : Box) (parts : List Box) : Prop where
  narrow : o.width = 1
  height : 2 ≤ c.height
  covers : ∀ y ∈ parts, y.left ≤ o.left ∧ o.right ≤ y.right ∧ 2 ≤ y.width

theorem straddles (h : Plan old ps) (hp : p ∈ ps) (hk : p.kind = .old) (hc : c ∈ ps) (hck : c.kind ≠ .old)
    (hs : c.box.same p.box = true) (h2 : 2 ≤ p.box.height) : Straddles c.box p.box c.parts := by
  have hne : p ≠ c := by
    rintro rfl
    exact hck hk
  have hsolid := h.strewn.solid _ (h.box_mem hp hk)
  have frames {y : Box} (hy : y ∈ c.parts) : c.box.Frames y := (h.around c hc).frames y hy
  have unlike {y : Box} (hy : y ∈ c.parts) : Unlike p.box y := h.unlike_part hp hk hc hne hy
  obtain ⟨y, hy, z, hz, hyz⟩ := h.exists_two hc hck
  have hyz := h.strewn.unlike y (h.mem_old hc hy) z (h.mem_old hc hz) hyz
  have hnarrow := narrow_of_same hsolid (h.solid_part hc hy) (h.solid_part hc hz) (frames hy) (frames hz) hyz (unlike hy)
    (unlike hz) hs ((h.amid c hc p hp hne.symm).clear hck) h2
  have hshared := two_le_overlap .column hsolid (h.solid_part hc hy) (h.solid_part hc hz) (frames hy) (frames hz)
    hyz (unlike hy) (unlike hz) hs h2
  refine ⟨hnarrow, ?_, fun x hx => covers_of_narrow hsolid (h.solid_part hc hx) (frames hx) (unlike hx) hs hnarrow⟩
  simp only [overlap, start, stop, bottom] at hshared
  omega

theorem Straddles.wider {o : Box} {parts : List Box} (h : Straddles b o parts) (hb : b.Around parts) :
    b.left ≤ o.left ∧ o.right ≤ b.right ∧ 2 ≤ b.width := by
  obtain ⟨y, hy, hyl⟩ : ∃ y : Box, y ∈ _ ∧ y.left = b.left := hb.exists_start .row
  have hc := h.covers y hy
  have hf := frames_edges.1 (hb.frames y hy)
  simp only [right] at *
  omega

/-- No list nearly has the boxes of a grid that is no new one and of a new one. -/
theorem not_same_both (h : Plan old ps) (ho : p ∈ ps) (hok : p.kind = .old) (h2 : 2 ≤ p.box.height) (hq : q ∈ ps)
    (hk : q.kind = .grid s g) (hc : c ∈ ps) (hs : c.box.same p.box = true) : c.box.same q.box = false := by
  by_cases hck : c.kind = .old
  · exact h.not_same_grid_of_old hq hk hc hck
  by_cases hcq : c = q
  · subst hcq
    rw [same_comm, h.not_same_grid_of_old hc hk ho hok] at hs
    cases hs
  have hst := h.straddles ho hok hc hck hs h2
  have hr := h.ruled q hq s g hk
  have hinside := h.inside hq hk
  have hclear := (h.amid c hc q hq hcq).clear hck
  have frames {y : Box} (hy : y ∈ c.parts) : c.box.Frames y := (h.around c hc).frames y hy
  obtain ⟨y, hy, z, hz, hyz⟩ := h.exists_two hc hck
  have hyz := h.strewn.unlike y (h.mem_old hc hy) z (h.mem_old hc hz) hyz
  rcases hr.cut _ (h.box_mem ho hok) with hog | hog
  · obtain ⟨u, hu, v, hv, huv, hug, hvg⟩ := hr.lower
    exact not_same_of_above (h.solid_part hc hy) (h.solid_part hc hz) (h.solid_part hq hu) (h.solid_part hq hv) (frames hy)
      (frames hz) ((h.around q hq).frames u hu) ((h.around q hq).frames v hv) hyz
      (h.strewn.unlike u (h.mem_old hq hu) v (h.mem_old hq hv) huv) (hst.covers y hy) (hst.covers z hz) hst.narrow hs
      hclear hinside.1 hug hvg hog
  · obtain ⟨u, hu, v, hv, huv, hug, hvg⟩ := hr.upper
    exact not_same_of_below (h.solid_part hc hy) (h.solid_part hc hz) (h.solid_part hq hu) (h.solid_part hq hv) (frames hy)
      (frames hz) ((h.around q hq).frames u hu) ((h.around q hq).frames v hv) hyz
      (h.strewn.unlike u (h.mem_old hq hu) v (h.mem_old hq hv) huv) (hst.covers y hy) (hst.covers z hz) hst.narrow hs
      hclear hinside.2 hug hvg hog

/-- No list nearly has the boxes of two new grids. -/
theorem not_same_two (h : Plan old ps) {s' g' : Int} (hp : p ∈ ps) (hk : p.kind = .grid s g) (hq : q ∈ ps)
    (hk' : q.kind = .grid s' g') (hne : p ≠ q) (hc : c ∈ ps) (hs : c.box.same p.box = true) :
    c.box.same q.box = false := by
  rw [Bool.eq_false_iff]
  intro hs'
  have hck := h.not_old_of_same hp hk hc hs
  have hcp : c ≠ p := by
    rintro rfl
    rw [h.not_same_grids hc hk hq hk' hne] at hs'
    cases hs'
  have hcq : c ≠ q := by
    rintro rfl
    rw [h.not_same_grids hc hk' hp hk hne.symm] at hs
    cases hs
  -- The list would have the box of the upper grid moved down, since that of the lower one is moved down twice.
  have key {p q : Plot} {s g s' g' : Int} (hp : p ∈ ps) (hk : p.kind = .grid s g) (hq : q ∈ ps)
      (hk' : q.kind = .grid s' g') (hcp : c ≠ p) (hs : c.box.same p.box = true) (hs' : c.box.same q.box = true)
      (ho : p.Precedes q g s' g') : False := by
    have hi := h.inside hp hk
    have hi' := h.inside hq hk'
    have hsame := same_edges.1 hs
    have hsame' := same_edges.1 hs'
    unfold Plot.Precedes at ho
    refine (h.ruled p hp s g hk).not_shifted h.strewn (fun _ => h.mem_old hp) (h.around p hp)
      (fun b hb => ⟨h.mem_old hc hb, h.disjoint hc hp hcp hb⟩) (h.around c hc) hs ((h.amid c hc p hp hcp).clear hck) ?_ ?_
      ?_ fun z hz => ?_
    · simp only [Level, start, stop] at *
      omega
    · simp only [Level, start, stop] at *
      omega
    · simp only [Level, start, stop] at *
      omega
    · have := (h.ruled q hq s' g' hk').fore z (h.mem_old hc hz)
      simp only [Level, start, stop] at *
      omega
  rcases (h.amid p hp q hq hne).ordered _ _ _ _ hk hk' with ho | ho
  · exact key hp hk hq hk' hcp hs hs' ho
  · exact key hq hk' hp hk hcq hs' hs ho

/-! ### Narrow grids -/

/-- A narrow grid that is no new one does not stand beside a new one. -/
theorem not_beside_old (h : Plan old ps) (hp : p ∈ ps) (hok : p.kind = .old) (hw : p.box.width = 1) (hc : c ∈ ps)
    (hck : c.kind ≠ .old) (hcw : c.box.width = 1) : ¬p.box.Beside c.box := by
  have hne : p ≠ c := by
    rintro rfl
    exact hck hok
  have frames {y : Box} (hy : y ∈ c.parts) : c.box.Frames y := (h.around c hc).frames y hy
  have unlike {y : Box} (hy : y ∈ c.parts) : Unlike p.box y := h.unlike_part hp hok hc hne hy
  have unlike_parts {y z : Box} (hy : y ∈ c.parts) (hz : z ∈ c.parts) (hyz : y ≠ z) : Unlike y z :=
    h.strewn.unlike y (h.mem_old hc hy) z (h.mem_old hc hz) hyz
  obtain ⟨x, hx, y, hy, z, hz, hxy, hyz, hxz⟩ := h.exists_three hc hck
  exact fun hb => not_engulfs_of_narrow (h.strewn.solid _ (h.box_mem hp hok)) (h.solid_part hc hx) (h.solid_part hc hy)
    (h.solid_part hc hz) (frames hx) (frames hy) (frames hz) (unlike_parts hx hy hxy) (unlike_parts hy hz hyz)
    (unlike_parts hx hz hxz) (unlike hx) (unlike hy) (unlike hz) hcw hw hb.1

/-- Two new grids that are narrow are one below the other. -/
theorem not_beside_new (h : Plan old ps) {s' g' : Int} {c' : Plot} (hp : p ∈ ps) (hk : p.kind = .grid s g) (hq : q ∈ ps)
    (hk' : q.kind = .grid s' g') (hne : p ≠ q) (hc : c ∈ ps) (hc' : c' ∈ ps) (hs : c.box.same p.box = true)
    (hs' : c'.box.same q.box = true) (hw : c.box.width = 1) (hw' : c'.box.width = 1) : ¬c.box.Beside c'.box := by
  rintro ⟨hb, hb'⟩
  have hn := h.of_narrow hp hk hc hs hw
  have hn' := h.of_narrow hq hk' hc' hs' hw'
  have hsame := same_edges.1 hs
  have hsame' := same_edges.1 hs'
  have ho := (h.amid p hp q hq hne).ordered _ _ _ _ hk hk'
  simp only [Plot.Precedes, Engulfs, Level, start, stop] at *
  omega

/-! ### All grids -/

/-- Flow children that are no lists are old. -/
theorem plain (h : Plan old ps) {x : Tree} (hx : x ∈ ps.map Plot.tree) (hl : x.node.roles.isList = false) :
    x ∈ old ∧ x.box ∈ old.map Tree.box := by
  obtain ⟨p, hp, rfl⟩ := List.mem_map.1 hx
  have hk : p.kind = .old := by
    by_contra hk
    rw [(h.listed p hp hk).1] at hl
    cases hl
  exact ⟨(h.kept p hp hk).1, h.box_mem hp hk⟩

theorem kind_of_isGrid (h : Plan old ps) (hp : p ∈ ps) (hg : IsGrid p.tree) :
    p.kind = .old ∨ ∃ s g, p.kind = .grid s g := by
  cases hk : p.kind with
  | old => exact .inl rfl
  | list => exact absurd hg (h.flat p hp hk)
  | grid s g => exact .inr ⟨s, g, rfl⟩

theorem sturdy_of_old (h : Plan old ps) (hp : p ∈ ps) (hk : p.kind = .old) (hsturdy : Sturdy old p.box) (hc : c ∈ ps)
    (hs : c.box.same p.box = true) : Sturdy (ps.map Plot.tree) c.box := by
  by_cases hck : c.kind = .old
  · obtain rfl : c = p := by
      by_contra hne
      rw [h.not_same_old hc hck hp hk hne] at hs
      cases hs
    exact ⟨hsturdy.height, fun x hx hl => hsturdy.outside x (h.plain hx hl).1 hl,
      fun hw x hx hl => hsturdy.clear hw x (h.plain hx hl).1 hl⟩
  · have hst := h.straddles hp hk hc hck hs hsturdy.height
    have hwider := hst.wider (h.around c hc)
    refine ⟨hst.height, fun x hx hl => ?_, fun hw => ?_⟩
    · rw [Bool.eq_false_iff]
      exact fun hxc => hsturdy.clear hst.narrow x (h.plain hx hl).1 hl
        (engulfs_of_contains hs hwider.1 hwider.2.1 hxc)
    · omega

theorem sturdy_of_grid (h : Plan old ps) (hp : p ∈ ps) (hk : p.kind = .grid s g) (hc : c ∈ ps)
    (hs : c.box.same p.box = true) : Sturdy (ps.map Plot.tree) c.box := by
  refine ⟨h.two_le_height_of_grid hp hk hc hs, fun x hx hl => h.not_contains_of_grid hp hk hc hs (h.plain hx hl).2,
    fun hw x hx hl hxc => ?_⟩
  have hn := h.of_narrow hp hk hc hs hw
  have hcut := (h.ruled p hp s g hk).cut x.box (h.plain hx hl).2
  simp only [Engulfs] at hxc
  omega

theorem unmixed_of_plots (hdiffer : ∀ c ∈ ps, c.box.same p.box = true → c.box.same q.box = false)
    (hseparate : ∀ c ∈ ps, ∀ c' ∈ ps, c.box.same p.box = true → c'.box.same q.box = true → c.box.width = 1 →
      c'.box.width = 1 → ¬c.box.Beside c'.box) : Unmixed (ps.map Plot.tree) p.tree q.tree :=
  ⟨List.forall_mem_map.2 hdiffer,
    List.forall_mem_map.2 fun c hc => List.forall_mem_map.2 fun c' hc' => hseparate c hc c' hc'⟩

/-- What nearly has the box of a grid that is no new one and is narrow, is that grid. -/
theorem eq_of_narrow (h : Plan old ps) (hp : p ∈ ps) (hk : p.kind = .old) (h2 : 2 ≤ p.box.height) (hc : c ∈ ps)
    (hs : c.box.same p.box = true) (hw : c.box.width = 1) : c = p := by
  have hck : c.kind = .old := by
    by_contra hck
    have hwider := (h.straddles hp hk hc hck hs h2).wider (h.around c hc)
    omega
  by_contra hne
  rw [h.not_same_old hc hck hp hk hne] at hs
  cases hs

theorem unmixed_of_old (h : Plan old ps) (hp : p ∈ ps) (hk : p.kind = .old) (h2 : 2 ≤ p.box.height) (hq : q ∈ ps)
    (hk' : q.kind = .old) (h2' : 2 ≤ q.box.height) (hne : p ≠ q)
    (hseparate : p.box.width = 1 → q.box.width = 1 → ¬p.box.Beside q.box) :
    Unmixed (ps.map Plot.tree) p.tree q.tree := by
  refine unmixed_of_plots (fun c hc hs => Bool.eq_false_iff.2 fun hs' => ?_) fun c hc c' hc' hs hs' hw hw' => ?_
  · by_cases hck : c.kind = .old
    · by_cases hcp : c = p
      · rw [hcp, h.not_same_old hp hk hq hk' hne] at hs'
        cases hs'
      · rw [h.not_same_old hc hck hp hk hcp] at hs
        cases hs
    · -- A list of nearly the boxes of both has items that cover both.
      have hst := h.straddles hp hk hc hck hs h2
      have hst' := h.straddles hq hk' hc hck hs' h2'
      have hwider := hst.wider (h.around c hc)
      have hwider' := hst'.wider (h.around c hc)
      have hsame := same_edges.1 hs
      have hsame' := same_edges.1 hs'
      have hn := hst.narrow
      have hn' := hst'.narrow
      refine hseparate hn hn' ?_
      simp only [Beside, Engulfs, Level, start, stop, right] at *
      omega
  · obtain rfl := h.eq_of_narrow hp hk h2 hc hs hw
    obtain rfl := h.eq_of_narrow hq hk' h2' hc' hs' hw'
    exact hseparate hw hw'

theorem unmixed_of_mixed (h : Plan old ps) (hp : p ∈ ps) (hk : p.kind = .old) (h2 : 2 ≤ p.box.height) (hq : q ∈ ps)
    (hk' : q.kind = .grid s g) : Unmixed (ps.map Plot.tree) p.tree q.tree := by
  refine unmixed_of_plots (fun c hc hs => h.not_same_both hp hk h2 hq hk' hc hs) fun c hc c' hc' hs hs' hw hw' => ?_
  obtain rfl := h.eq_of_narrow hp hk h2 hc hs hw
  exact h.not_beside_old hc hk hw hc' (h.not_old_of_same hq hk' hc' hs') hw'

theorem unmixed_of_new (h : Plan old ps) {s' g' : Int} (hp : p ∈ ps) (hk : p.kind = .grid s g) (hq : q ∈ ps)
    (hk' : q.kind = .grid s' g') (hne : p ≠ q) : Unmixed (ps.map Plot.tree) p.tree q.tree :=
  unmixed_of_plots (fun _ hc hs => h.not_same_two hp hk hq hk' hne hc hs) fun _ hc _ hc' hs hs' hw hw' =>
    h.not_beside_new hp hk hq hk' hne hc hc' hs hs' hw hw'

/-- However lists are made of flow children, no two grids among them can come to be one node. -/
theorem foldable (h : Plan old ps) (hold : Steady old) : Foldable (ps.map Plot.tree) := by
  have sturdy {p : Plot} (hp : p ∈ ps) (hk : p.kind = .old) (hg : IsGrid p.tree) : Sturdy old p.box :=
    hold.sturdy p.tree (h.kept p hp hk).1 hg
  constructor
  · refine List.forall_mem_map.2 fun p hp hg => List.forall_mem_map.2 fun c hc hs => ?_
    rcases h.kind_of_isGrid hp hg with hk | ⟨s, g, hk⟩
    · exact h.sturdy_of_old hp hk (sturdy hp hk hg) hc hs
    · exact h.sturdy_of_grid hp hk hc hs
  · refine List.pairwise_map.2 (h.nodup_plots.imp_of_mem fun {p q} hp hq hne hg hg' => ?_)
    rcases h.kind_of_isGrid hp hg with hk | ⟨s, g, hk⟩ <;> rcases h.kind_of_isGrid hq hg' with hk' | ⟨s', g', hk'⟩
    · refine h.unmixed_of_old hp hk (sturdy hp hk hg).height hq hk' (sturdy hq hk' hg').height hne ?_
      have hne' : p.tree ≠ q.tree := fun he => h.box_not_mem hp hk hq hne (by
        rw [(h.kept q hq hk').2, Plot.box, Plot.box, he]
        exact List.mem_singleton_self _)
      have : Std.Symm Separate := ⟨fun _ _ h => h.symm⟩
      exact hold.separate.forall (h.kept p hp hk).1 (h.kept q hq hk').1 hne' hg hg'
    · exact h.unmixed_of_mixed hp hk (sturdy hp hk hg).height hq hk'
    · exact (h.unmixed_of_mixed hq hk' (sturdy hq hk' hg').height hp hk).symm
    · exact h.unmixed_of_new hp hk hq hk' hne

end Plan

end Regroup

end FlexRecovery
