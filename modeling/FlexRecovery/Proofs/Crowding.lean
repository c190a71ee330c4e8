import FlexRecovery.Proofs.Boxes
import FlexRecovery.Proofs.Reach

/-!
Boxes that are left side by side when equal ones were collapsed and nested ones moved in. The tolerance lets such boxes
share most of their area, but not in a row or a column: two that cover nearly one span along an axis and are equally long
along it stand two pixels apart along the other.
-/

namespace FlexRecovery.Box

variable {a b c o u v w x y z : Box} {axis : Axis}

/-- It has an area. -/
structure Solid (b : Box) : Prop where
  width : 0 < b.width
  height : 0 < b.height

/-- Different boxes, of which neither lies in the other. -/
structure Unlike (a b : Box) : Prop where
  differ : a.same b = false
  outside : a.strictlyContains b = false
  outside' : b.strictlyContains a = false

theorem Unlike.symm (h : Unlike a b) : Unlike b a := ⟨same_comm a b ▸ h.differ, h.outside', h.outside⟩

/-- The spans along an axis are the same up to the tolerance. -/
def Level (axis : Axis) (a b : Box) : Prop :=
  (a.start axis ≤ b.start axis + 1 ∧ b.start axis ≤ a.start axis + 1) ∧
    a.stop axis ≤ b.stop axis + 1 ∧ b.stop axis ≤ a.stop axis + 1

/-- Both edges lie two pixels or more before those of the other. -/
def Ahead (axis : Axis) (a b : Box) : Prop := a.start axis + 2 ≤ b.start axis ∧ a.stop axis + 2 ≤ b.stop axis

theorem within_edges : b.within a axis = true ↔ a.start axis ≤ b.start axis + 1 ∧ b.stop axis ≤ a.stop axis + 1 := by
  rw [within_iff]
  omega

theorem contains_axes : a.contains b = true ↔ ∀ axis, b.within a axis = true := by
  rw [contains, Bool.and_eq_true]
  exact ⟨fun h axis => by cases axis; exacts [h.1, h.2], fun h => ⟨h _, h _⟩⟩

theorem same_axes : a.same b = true ↔ ∀ axis, Level axis a b := by
  simp only [same, Bool.and_eq_true, close_iff]
  constructor
  · rintro ⟨⟨⟨hl, ht⟩, hr⟩, hb⟩ axis
    cases axis <;> simp only [Level, start, stop] <;> omega
  · intro h
    have hx := h .row
    have hy := h .column
    simp only [Level, start, stop] at hx hy
    omega

theorem area_eq (b : Box) (axis : Axis) : b.area = b.extent axis * b.extent axis.cross := by
  cases axis
  · rfl
  · exact Nat.mul_comm _ _

theorem Solid.extent (h : Solid b) (axis : Axis) : 0 < b.extent axis := by
  cases axis
  · exact h.width
  · exact h.height

/-- What it contains is no smaller: it would have taken the other in. -/
theorem Unlike.area_le (h : Unlike a b) (hc : a.contains b = true) : a.area ≤ b.area := by
  have hout := h.outside
  rw [strictlyContains, hc, h.differ, Bool.not_false, Bool.and_true, Bool.true_and, decide_eq_false_iff_not] at hout
  omega

/-- So if it is at least as long along one axis, it is at most as long along the other. -/
theorem Unlike.extent_le (axis : Axis) (h : Unlike a b) (hc : a.contains b = true) (ha : Solid a)
    (he : b.extent axis ≤ a.extent axis) : a.extent axis.cross ≤ b.extent axis.cross := by
  have harea := h.area_le hc
  rw [area_eq a axis, area_eq b axis] at harea
  exact Nat.le_of_mul_le_mul_left (harea.trans (Nat.mul_le_mul_right _ he)) (ha.extent axis)

/-- Boxes in a row, or in a column. -/
theorem Unlike.ahead (axis : Axis) (h : Unlike a b) (ha : Solid a) (hb : Solid b) (hl : Level axis.cross a b)
    (he : a.extent axis.cross = b.extent axis.cross) : Ahead axis a b ∨ Ahead axis b a := by
  have hdiffer : ¬Level axis a b := by
    intro hla
    have hs : a.same b = true := same_axes.2 fun x => by
      cases axis <;> cases x <;> first | exact hla | exact hl
    rw [h.differ] at hs
    cases hs
  have key {a b : Box} (h : Unlike a b) (ha : Solid a) (hl : Level axis.cross a b)
      (he : a.extent axis.cross = b.extent axis.cross) (hw : b.within a axis = true) :
      a.extent axis ≤ b.extent axis := by
    have hc : a.contains b = true := contains_axes.2 fun x => by
      have hw' : b.within a axis.cross = true := within_edges.2 ⟨hl.1.1, hl.2.2⟩
      cases axis <;> cases x <;> first | exact hw | exact hw'
    have hle := h.extent_le axis.cross hc ha he.ge
    rwa [Axis.cross_cross] at hle
  have hab := key h ha hl he
  have hba := key h.symm hb ⟨hl.1.symm, hl.2.symm⟩ he.symm
  rw [within_edges] at hab hba
  simp only [Level, Ahead, stop_eq] at *
  omega

theorem Unlike.not_level (h : Unlike a b) (hx : Level .row a b) (hy : Level .column a b) : False := by
  have hs : a.same b = true := same_axes.2 fun axis => by
    cases axis
    · exact hx
    · exact hy
  rw [h.differ] at hs
  cases hs

theorem frames_edges : a.Frames b ↔
    (a.left ≤ b.left ∧ b.right ≤ a.right) ∧ a.top ≤ b.top ∧ b.bottom ≤ a.bottom := by
  rw [frames_iff]
  refine ⟨fun h => ⟨h .row, h .column⟩, fun h axis => ?_⟩
  cases axis
  · exact h.1
  · exact h.2

theorem contains_edges : a.contains b = true ↔
    (a.left ≤ b.left + 1 ∧ b.right ≤ a.right + 1) ∧ a.top ≤ b.top + 1 ∧ b.bottom ≤ a.bottom + 1 := by
  rw [contains_axes]
  refine ⟨fun h => ⟨within_edges.1 (h .row), within_edges.1 (h .column)⟩, fun h axis => ?_⟩
  cases axis
  · exact within_edges.2 h.1
  · exact within_edges.2 h.2

theorem same_edges : a.same b = true ↔ Level .row a b ∧ Level .column a b := by
  rw [same_axes]
  refine ⟨fun h => ⟨h _, h _⟩, fun h axis => ?_⟩
  cases axis
  · exact h.1
  · exact h.2

/-! ### What lies on one side of a cut

A box `w` is cut at `g`, and two boxes in it lie on one side of the cut. -/

/-- What contains it and lies on the one side would have the size of those on the other. -/
theorem not_contains_of_above {g : Int} (hx : Solid x) (hu : Solid u) (hv : Solid v) (hwu : w.Frames u)
    (hwv : w.Frames v) (hug : g ≤ u.top) (hvg : g ≤ v.top) (huv : Unlike u v) (hxu : Unlike x u)
    (hxg : x.bottom ≤ g) : x.contains w = false := by
  rw [Bool.eq_false_iff]
  intro hc
  have hcu : x.contains u = true := by
    rw [contains_edges] at hc ⊢
    rw [frames_edges] at hwu
    omega
  rw [contains_edges] at hc
  rw [frames_edges] at hwu hwv
  have hsolid := And.intro hu.height hv.height
  have hflat : u.height = 1 ∧ v.height = 1 ∧ u.top = v.top := by
    simp only [right, bottom] at *
    omega
  have hahead := huv.ahead .row hu hv
    (by simp only [Axis.cross, Level, start, stop, right, bottom] at *; omega) (by simp only [Axis.cross, extent]; omega)
  have hw : u.width ≤ x.width := by
    simp only [Ahead, start, stop, right, bottom] at *
    omega
  have hh := hxu.extent_le .row hcu hx hw
  have hxh := hx.height
  simp only [Axis.cross, extent] at hh
  have hw' := hxu.extent_le .column hcu hx (by simp only [extent]; omega)
  simp only [Axis.cross, extent] at hw'
  refine hxu.not_level ?_ ?_ <;> (simp only [Ahead, Level, start, stop, right, bottom] at *; omega)

/-- A list of nearly that box is wide if something that contains it lies on the one side. -/
theorem three_le_width {g : Int} (hu : Solid u) (hv : Solid v) (hwu : w.Frames u) (hwv : w.Frames v)
    (hug : g ≤ u.top) (hvg : g ≤ v.top) (huv : Unlike u v) (hcw : c.same w = true) (hc : x.contains c = true)
    (hxg : x.bottom ≤ g) : 3 ≤ w.width := by
  rw [contains_edges] at hc
  rw [frames_edges] at hwu hwv
  rw [same_edges] at hcw
  have hu' := And.intro hu.width hu.height
  have hv' := And.intro hv.width hv.height
  by_contra hlt
  refine huv.not_level ?_ ?_ <;> (simp only [Level, start, stop, right, bottom] at *; omega)

/-- A narrow box is cut three pixels below its top or lower. -/
theorem three_le_of_narrow {g : Int} (hu : Solid u) (hv : Solid v) (hwu : w.Frames u) (hwv : w.Frames v)
    (hug : u.bottom ≤ g) (hvg : v.bottom ≤ g) (huv : Unlike u v) (hw : w.width = 1) : w.top + 3 ≤ g := by
  rw [frames_edges] at hwu hwv
  have hu' := And.intro hu.width hu.height
  have hv' := And.intro hv.width hv.height
  have hahead := huv.ahead .column hu hv
    (by simp only [Axis.cross, Level, start, stop, right, bottom] at *; omega)
    (by simp only [Axis.cross, extent, right] at *; omega)
  simp only [Ahead, start, stop, right, bottom] at *
  omega

/-- A box above the cut is not as high as the first item of a narrow list that nearly has the box, so it is wider. -/
theorem wider_of_narrow_list {t : Box} {g : Int} (hz : Solid z) (hcz : c.Frames z) (hcw : c.same w = true)
    (hc : c.width = 1) (htop : z.top = c.top) (ht : Solid t) (hzt : Unlike z t) (hwt : w.Frames t)
    (htg : t.bottom ≤ g) (hg : g < c.top + 3) : t.bottom + 2 ≤ z.bottom ∧ z.height ≤ t.area ∧ t.area ≤ 3 * t.height ∧
      t.left ≤ z.left ∧ z.left + 1 ≤ t.right := by
  rw [frames_edges] at hwt hcz
  rw [same_edges] at hcw
  have hz' := And.intro hz.width hz.height
  have ht' := And.intro ht.width ht.height
  have hrow : Level .row z t := by
    simp only [Level, start, stop, right] at *
    omega
  have hbottom : t.bottom + 2 ≤ z.bottom := by
    by_contra hbottom
    refine hzt.not_level hrow ?_
    simp only [Level, start, stop, right, bottom] at *
    omega
  have hcontains : z.contains t = true := by
    rw [contains_edges]
    simp only [Level, start, stop, bottom, right] at *
    omega
  have hzw : z.width = 1 := by
    simp only [right] at hcz
    omega
  have harea := hzt.area_le hcontains
  rw [area, hzw, Nat.one_mul, area] at harea
  have hwidth : t.width ≤ 3 := by
    simp only [Level, start, stop, right] at *
    omega
  have hwide : 2 ≤ t.width := by
    by_contra hnarrow
    obtain hone : t.width = 1 := by omega
    rw [hone, Nat.one_mul] at harea
    simp only [Level, start, stop, bottom] at *
    omega
  refine ⟨hbottom, harea, Nat.mul_le_mul_right _ hwidth, ?_⟩
  simp only [Level, start, stop, right] at *
  omega

/-- So is one that nearly is a narrow list, below the top of that list. -/
theorem three_le_of_narrow_list {g : Int} (hu : Solid u) (hv : Solid v) (hz : Solid z) (hwu : w.Frames u)
    (hwv : w.Frames v) (hcz : c.Frames z) (hug : u.bottom ≤ g) (hvg : v.bottom ≤ g) (huv : Unlike u v)
    (hzu : Unlike z u) (hzv : Unlike z v) (hcw : c.same w = true) (hc : c.width = 1) (htop : z.top = c.top) :
    c.top + 3 ≤ g := by
  by_contra hlt
  obtain ⟨hub, huz, hua, hux⟩ := wider_of_narrow_list hz hcz hcw hc htop hu hzu hwu hug (by omega)
  obtain ⟨hvb, hvz, hva, hvx⟩ := wider_of_narrow_list hz hcz hcw hc htop hv hzv hwv hvg (by omega)
  rw [frames_edges] at hwu hwv hcz
  rw [same_edges] at hcw
  have hz' := And.intro hz.width hz.height
  have hu' := And.intro hu.width hu.height
  have hv' := And.intro hv.width hv.height
  have hrow : Level .row u v := by
    simp only [Level, start, stop, right] at *
    omega
  have hdiffer : ¬Level .column u v := huv.not_level hrow
  have hcu : v.contains u = true → v.area ≤ u.area := huv.symm.area_le
  have hcv : u.contains v = true → u.area ≤ v.area := huv.area_le
  rw [contains_edges] at hcu hcv
  simp only [Level, start, stop, right, bottom] at *
  omega

/-! ### Upside down -/

/-- Its mirror image, with top and bottom exchanged. -/
def upended (b : Box) : Box := ⟨b.left, -b.bottom, b.width, b.height⟩

theorem edges_upended (b : Box) : b.upended.left = b.left ∧ b.upended.right = b.right ∧ b.upended.top = -b.bottom ∧
    b.upended.bottom = -b.top := by
  refine ⟨rfl, rfl, rfl, ?_⟩
  simp only [upended, bottom]
  omega

theorem contains_upended (a b : Box) : a.upended.contains b.upended = a.contains b := by
  have ha := edges_upended a
  have hb := edges_upended b
  rw [Bool.eq_iff_iff, contains_edges, contains_edges]
  omega

theorem same_upended (a b : Box) : a.upended.same b.upended = a.same b := by
  have ha := edges_upended a
  have hb := edges_upended b
  rw [Bool.eq_iff_iff, same_edges, same_edges]
  simp only [Level, start, stop]
  omega

theorem strictlyContains_upended (a b : Box) : a.upended.strictlyContains b.upended = a.strictlyContains b := by
  rw [strictlyContains, contains_upended, same_upended]
  rfl

theorem Solid.upended (h : Solid b) : Solid b.upended := ⟨h.width, h.height⟩

theorem Unlike.upended (h : Unlike a b) : Unlike a.upended b.upended :=
  ⟨same_upended a b ▸ h.differ, strictlyContains_upended a b ▸ h.outside, strictlyContains_upended b a ▸ h.outside'⟩

theorem Frames.upended (h : a.Frames b) : a.upended.Frames b.upended := by
  have ha := edges_upended a
  have hb := edges_upended b
  rw [frames_edges] at h ⊢
  omega

theorem not_contains_of_below {g : Int} (hx : Solid x) (hu : Solid u) (hv : Solid v) (hwu : w.Frames u)
    (hwv : w.Frames v) (hug : u.bottom ≤ g) (hvg : v.bottom ≤ g) (huv : Unlike u v) (hxu : Unlike x u)
    (hxg : g ≤ x.top) : x.contains w = false := by
  have hxe := edges_upended x
  have hue := edges_upended u
  have hve := edges_upended v
  rw [← contains_upended]
  exact not_contains_of_above (g := -g) hx.upended hu.upended hv.upended hwu.upended hwv.upended (by omega) (by omega)
    huv.upended hxu.upended (by omega)

theorem three_le_width_of_below {g : Int} (hu : Solid u) (hv : Solid v) (hwu : w.Frames u) (hwv : w.Frames v)
    (hug : u.bottom ≤ g) (hvg : v.bottom ≤ g) (huv : Unlike u v) (hcw : c.same w = true) (hc : x.contains c = true)
    (hxg : g ≤ x.top) : 3 ≤ w.width := by
  have hxe := edges_upended x
  have hue := edges_upended u
  have hve := edges_upended v
  rw [← same_upended] at hcw
  rw [← contains_upended] at hc
  exact three_le_width (w := w.upended) (g := -g) hu.upended hv.upended hwu.upended hwv.upended (by omega) (by omega)
    huv.upended hcw hc
    (by omega)

theorem le_three_of_narrow {g : Int} (hu : Solid u) (hv : Solid v) (hwu : w.Frames u) (hwv : w.Frames v)
    (hug : g ≤ u.top) (hvg : g ≤ v.top) (huv : Unlike u v) (hw : w.width = 1) : g + 3 ≤ w.bottom := by
  have hwe := edges_upended w
  have hue := edges_upended u
  have hve := edges_upended v
  have h := three_le_of_narrow (g := -g) hu.upended hv.upended hwu.upended hwv.upended (by omega) (by omega) huv.upended hw
  omega

theorem le_three_of_narrow_list {g : Int} (hu : Solid u) (hv : Solid v) (hz : Solid z) (hwu : w.Frames u)
    (hwv : w.Frames v) (hcz : c.Frames z) (hug : g ≤ u.top) (hvg : g ≤ v.top) (huv : Unlike u v)
    (hzu : Unlike z u) (hzv : Unlike z v) (hcw : c.same w = true) (hc : c.width = 1) (hbottom : z.bottom = c.bottom) :
    g + 3 ≤ c.bottom := by
  have hce := edges_upended c
  have hze := edges_upended z
  have hue := edges_upended u
  have hve := edges_upended v
  rw [← same_upended] at hcw
  have h := three_le_of_narrow_list (g := -g) hu.upended hv.upended hz.upended hwu.upended hwv.upended hcz.upended
    (by omega) (by omega) huv.upended hzu.upended hzv.upended hcw hc (by omega)
  omega

/-! ### Around a list of items

A box `c` is made of items, such as `y` and `z`, that lie in it. -/

/-- What contains a narrow list contains its items, which stand in a column, and would have the size of one of them. -/
theorem not_contains_of_narrow (hx : Solid x) (hy : Solid y) (hz : Solid z) (hcy : c.Frames y) (hcz : c.Frames z)
    (hyz : Unlike y z) (hxy : Unlike x y) (hc : c.width = 1) : x.contains c = false := by
  rw [Bool.eq_false_iff]
  intro hxc
  have hcontains : x.contains y = true := by
    rw [contains_edges] at hxc ⊢
    rw [frames_edges] at hcy
    omega
  rw [contains_edges] at hxc
  rw [frames_edges] at hcy hcz
  have hx' := And.intro hx.width hx.height
  have hy' := And.intro hy.width hy.height
  have hz' := And.intro hz.width hz.height
  have hahead := hyz.ahead .column hy hz
    (by simp only [Axis.cross, Level, start, stop, right, bottom] at *; omega)
    (by simp only [Axis.cross, extent, right] at *; omega)
  have hh := hxy.extent_le .row hcontains hx (by simp only [extent, right] at *; omega)
  have hw := hxy.extent_le .column hcontains hx
    (by simp only [Axis.cross, extent, Ahead, start, stop, right, bottom] at *; omega)
  simp only [Axis.cross, extent] at hh hw
  refine hxy.not_level ?_ ?_ <;> (simp only [Ahead, Level, start, stop, right, bottom] at *; omega)

/-- What contains a low list would have the size of one of its lowest items, if these stand in a row. -/
theorem not_contains_of_low (hx : Solid x) (hy : Solid y) (hz : Solid z) (hcy : c.Frames y) (hcz : c.Frames z)
    (hyz : Unlike y z) (hxy : Unlike x y) (hyh : y.height = 1) (hzh : z.height = 1) (hc : c.height = 2) :
    x.contains c = false := by
  rw [Bool.eq_false_iff]
  intro hxc
  have hcontains : x.contains y = true := by
    rw [contains_edges] at hxc ⊢
    rw [frames_edges] at hcy
    omega
  rw [contains_edges] at hxc
  rw [frames_edges] at hcy hcz
  have hx' := And.intro hx.width hx.height
  have hahead := hyz.ahead .row hy hz
    (by simp only [Axis.cross, Level, start, stop, right, bottom] at *; omega)
    (by simp only [Axis.cross, extent]; omega)
  have hh := hxy.extent_le .row hcontains hx
    (by simp only [extent, Ahead, start, stop, right, bottom] at *; omega)
  simp only [Axis.cross, extent] at hh
  have hw := hxy.extent_le .column hcontains hx (by simp only [extent]; omega)
  simp only [Axis.cross, extent] at hw
  refine hxy.not_level ?_ ?_ <;> (simp only [Ahead, Level, start, stop, right, bottom] at *; omega)

/-- Reaches over the other, by two pixels up and down. -/
def Engulfs (a b : Box) : Prop :=
  (a.left ≤ b.left + 1 ∧ b.right ≤ a.right + 1) ∧ a.top ≤ b.top + 2 ∧ b.bottom ≤ a.bottom + 2

/-- A narrow box and a narrow list of three items do not reach over one another. -/
theorem not_engulfs_of_narrow (ho : Solid o) (hx : Solid x) (hy : Solid y) (hz : Solid z) (hcx : c.Frames x)
    (hcy : c.Frames y) (hcz : c.Frames z) (hxy : Unlike x y) (hyz : Unlike y z) (hxz : Unlike x z) (hox : Unlike o x)
    (hoy : Unlike o y) (hoz : Unlike o z) (hc : c.width = 1) (hw : o.width = 1) (hoc : o.Engulfs c) : False := by
  unfold Engulfs at hoc
  rw [frames_edges] at hcx hcy hcz
  have ho' := And.intro ho.width ho.height
  have column {a b : Box} (ha : Solid a) (hb : Solid b) (hca : c.left ≤ a.left ∧ a.right ≤ c.right)
      (hcb : c.left ≤ b.left ∧ b.right ≤ c.right) (hab : Unlike a b) : Ahead .column a b ∨ Ahead .column b a := by
    have ha' := And.intro ha.width ha.height
    have hb' := And.intro hb.width hb.height
    exact hab.ahead _ ha hb (by simp only [Axis.cross, Level, start, stop, right] at *; omega)
      (by simp only [Axis.cross, extent, right] at *; omega)
  -- The middle item is no higher than the narrow box, and lies in it.
  have key {a m b : Box} (ha : Solid a) (hm : Solid m) (hb : Solid b) (hca : c.top ≤ a.top ∧ a.bottom ≤ c.bottom)
      (hcm : c.left ≤ m.left ∧ m.right ≤ c.right) (hcb : c.top ≤ b.top ∧ b.bottom ≤ c.bottom) (hom : Unlike o m)
      (ham : Ahead .column a m) (hmb : Ahead .column m b) : False := by
    have hm' := And.intro hm.width hm.height
    have hcontains : o.contains m = true := by
      rw [contains_edges]
      simp only [Ahead, start, stop, right, bottom] at *
      omega
    have hh := hom.extent_le .row hcontains ho (by simp only [extent, right] at *; omega)
    simp only [Axis.cross, extent] at hh
    refine hom.not_level ?_ ?_ <;> (simp only [Ahead, Level, start, stop, right, bottom] at *; omega)
  rcases column hx hy hcx.1 hcy.1 hxy with h₁ | h₁ <;> rcases column hy hz hcy.1 hcz.1 hyz with h₂ | h₂
  · exact key hx hy hz hcx.2 hcy.1 hcz.2 hoy h₁ h₂
  · rcases column hx hz hcx.1 hcz.1 hxz with h₃ | h₃
    · exact key hx hz hy hcx.2 hcz.1 hcy.2 hoz h₃ h₂
    · exact key hz hx hy hcz.2 hcx.1 hcy.2 hox h₃ h₁
  · rcases column hx hz hcx.1 hcz.1 hxz with h₃ | h₃
    · exact key hy hx hz hcy.2 hcx.1 hcz.2 hox h₁ h₃
    · exact key hy hz hx hcy.2 hcz.1 hcx.2 hoz h₂ h₃
  · exact key hz hy hx hcz.2 hcy.1 hcx.2 hoy h₂ h₁

/-! ### A box that nearly is a list

The list lies clear of the box, so there is little room for both. -/

/-- Where they share a line of pixels along an axis, an item is as long across it as the box, and its span along it is
another one. -/
theorem extent_of_overlap {t : Box} {axis : Axis} (ho : Solid o) (ht : Solid t) (hct : c.Frames t) (hot : Unlike o t)
    (hco : c.same o = true) (h2 : 2 ≤ o.extent axis) (hlt : c.overlap o axis < 2) :
    t.extent axis = 1 ∧ c.extent axis = 2 ∧ o.extent axis * o.extent axis.cross ≤ t.extent axis.cross := by
  have hsame := same_axes.1 hco
  have hcontains : o.contains t = true := contains_axes.2 fun x => by
    have hs := hsame x
    have hi := hct.edges x
    rw [within_edges]
    unfold Level at *
    omega
  have hsa := hsame axis
  have hsc := hsame axis.cross
  have hia := hct.edges axis
  have hic := hct.edges axis.cross
  have he := ht.extent axis
  have hcross := hot.extent_le axis hcontains ho (by simp only [overlap, Level, stop_eq] at *; omega)
  have hlevel : Level axis.cross o t := by
    simp only [Level, stop_eq] at *
    omega
  have hdiffer : ¬Level axis o t := fun h => by
    cases axis
    · exact hot.not_level h hlevel
    · exact hot.not_level hlevel h
  have hone : t.extent axis = 1 := by
    simp only [overlap, Level, stop_eq] at *
    omega
  have harea := hot.area_le hcontains
  rw [area_eq o axis, area_eq t axis, hone, Nat.one_mul] at harea
  refine ⟨hone, ?_, harea⟩
  simp only [overlap, Level, stop_eq] at *
  omega

theorem two_le_overlap (axis : Axis) (ho : Solid o) (hy : Solid y) (hz : Solid z) (hcy : c.Frames y) (hcz : c.Frames z)
    (hyz : Unlike y z) (hoy : Unlike o y) (hoz : Unlike o z) (hco : c.same o = true) (h2 : 2 ≤ o.extent axis) :
    2 ≤ c.overlap o axis := by
  by_contra hlt
  obtain ⟨hy1, hc2, hya⟩ := extent_of_overlap ho hy hcy hoy hco h2 (by omega)
  obtain ⟨hz1, -, hza⟩ := extent_of_overlap ho hz hcz hoz hco h2 (by omega)
  have hyi := hcy.edges axis
  have hzi := hcz.edges axis
  have hahead := hyz.ahead axis.cross hy hz (by rw [Axis.cross_cross]; simp only [Level, stop_eq] at *; omega)
    (by rw [Axis.cross_cross]; omega)
  have hsc := same_axes.1 hco axis.cross
  have hyc := hcy.edges axis.cross
  have hzc := hcz.edges axis.cross
  have hoc := ho.extent axis.cross
  have hdouble : 2 * o.extent axis.cross ≤ o.extent axis * o.extent axis.cross := Nat.mul_le_mul_right _ h2
  simp only [Ahead, Level, stop_eq] at *
  omega

theorem overlaps_eq_false : a.overlaps b = false ↔ a.overlap b .row ≤ 1 ∨ a.overlap b .column ≤ 1 := by
  rw [overlaps, overlapping, overlapping, Bool.and_eq_false_iff, decide_eq_false_iff_not, decide_eq_false_iff_not,
    Int.not_lt, Int.not_lt]
  rfl

/-- The box is narrow, and so are the items, but wider than the box. -/
theorem narrow_of_same (ho : Solid o) (hy : Solid y) (hz : Solid z) (hcy : c.Frames y) (hcz : c.Frames z)
    (hyz : Unlike y z) (hoy : Unlike o y) (hoz : Unlike o z) (hco : c.same o = true) (hclear : c.overlaps o = false)
    (h2 : 2 ≤ o.height) : o.width = 1 := by
  have hw := ho.width
  have hrow := two_le_overlap .row ho hy hz hcy hcz hyz hoy hoz hco
  have hcolumn := two_le_overlap .column ho hy hz hcy hcz hyz hoy hoz hco h2
  rw [overlaps_eq_false] at hclear
  simp only [extent] at hrow
  omega

theorem covers_of_narrow (ho : Solid o) (hy : Solid y) (hcy : c.Frames y) (hoy : Unlike o y) (hco : c.same o = true)
    (hw : o.width = 1) : y.left ≤ o.left ∧ o.right ≤ y.right ∧ 2 ≤ y.width := by
  rw [frames_edges] at hcy
  rw [same_edges] at hco
  have ho' := ho.height
  have hy' := And.intro hy.width hy.height
  have hrow : Level .row o y := by
    simp only [Level, start, stop, right] at *
    omega
  have hdiffer : ¬Level .column o y := hoy.not_level hrow
  have hcontains : o.contains y = true := by
    rw [contains_edges]
    simp only [Level, start, stop, right, bottom] at *
    omega
  have hwide : 2 ≤ y.width := by
    by_contra hnarrow
    have hh := hoy.extent_le .row hcontains ho (by simp only [extent]; omega)
    simp only [Axis.cross, extent, Level, start, stop, right, bottom] at *
    omega
  simp only [Level, start, stop, right, bottom] at *
  omega

/-- What contains the list reaches over the box. -/
theorem engulfs_of_contains (hco : c.same o = true) (hleft : c.left ≤ o.left) (hright : o.right ≤ c.right)
    (hxc : x.contains c = true) : x.Engulfs o := by
  rw [contains_edges] at hxc
  rw [same_edges] at hco
  simp only [Engulfs, Level, start, stop] at *
  omega

/-- A list that nearly is a narrow box does not nearly have a box `w` with two items below a cut that the narrow one
lies above. -/
theorem not_same_of_above {g : Int} (hy : Solid y) (hz : Solid z) (hu : Solid u) (hv : Solid v) (hcy : c.Frames y)
    (hcz : c.Frames z) (hwu : w.Frames u) (hwv : w.Frames v) (hyz : Unlike y z) (huv : Unlike u v)
    (hyo : y.left ≤ o.left ∧ o.right ≤ y.right ∧ 2 ≤ y.width)
    (hzo : z.left ≤ o.left ∧ o.right ≤ z.right ∧ 2 ≤ z.width) (ho : o.width = 1)
    (hco : c.same o = true) (hclear : c.overlaps w = false) (hwg : w.top < g) (hug : g ≤ u.top) (hvg : g ≤ v.top)
    (hog : o.bottom ≤ g) : c.same w = false := by
  rw [Bool.eq_false_iff]
  intro hcw
  rw [overlaps_eq_false] at hclear
  rw [same_edges] at hco hcw
  rw [frames_edges] at hcy hcz hwu hwv
  have hy' := And.intro hy.width hy.height
  have hz' := And.intro hz.width hz.height
  have hu' := And.intro hu.width hu.height
  have hv' := And.intro hv.width hv.height
  rcases hclear with hrow | hcolumn
  · refine huv.not_level ?_ ?_ <;> (simp only [overlap, Level, start, stop, right, bottom] at *; omega)
  · refine hyz.not_level ?_ ?_ <;> (simp only [overlap, Level, start, stop, right, bottom] at *; omega)

theorem not_same_of_below {g : Int} (hy : Solid y) (hz : Solid z) (hu : Solid u) (hv : Solid v) (hcy : c.Frames y)
    (hcz : c.Frames z) (hwu : w.Frames u) (hwv : w.Frames v) (hyz : Unlike y z) (huv : Unlike u v)
    (hyo : y.left ≤ o.left ∧ o.right ≤ y.right ∧ 2 ≤ y.width)
    (hzo : z.left ≤ o.left ∧ o.right ≤ z.right ∧ 2 ≤ z.width) (ho : o.width = 1)
    (hco : c.same o = true) (hclear : c.overlaps w = false) (hwg : g < w.bottom) (hug : u.bottom ≤ g) (hvg : v.bottom ≤ g)
    (hog : g ≤ o.top) : c.same w = false := by
  have hce := edges_upended c
  have hoe := edges_upended o
  have hwe := edges_upended w
  have hye := edges_upended y
  have hze := edges_upended z
  have hue := edges_upended u
  have hve := edges_upended v
  have hclear' : c.upended.overlaps w.upended = false := by
    rw [overlaps_eq_false] at hclear ⊢
    simp only [overlap, start, stop] at *
    omega
  rw [← same_upended] at hco ⊢
  exact not_same_of_above (o := o.upended) (g := -g) hy.upended hz.upended hu.upended hv.upended hcy.upended hcz.upended
    hwu.upended hwv.upended hyz.upended huv.upended ⟨by omega, by omega, hyo.2.2⟩ ⟨by omega, by omega, hzo.2.2⟩ ho hco
    hclear' (by omega) (by omega) (by omega) (by omega)

end FlexRecovery.Box
