import FlexRecovery.Proofs.Crowding
import FlexRecovery.Proofs.Spans

/-!
A wrapping grid among the boxes that it was made of and those around it. It is ruled at the lower edge of its first row:
every box lies above that line or below it. This keeps the box of a grid apart from all other boxes up to the tolerance,
except for that of a list that shares no area with it.
-/

namespace FlexRecovery.Box

/-- Boxes with an area, of which none lies in another. -/
structure Strewn (all : List Box) : Prop where
  solid : ∀ b ∈ all, Solid b
  unlike : ∀ a ∈ all, ∀ b ∈ all, a ≠ b → Unlike a b

/-- The item, or something in it that is lower. -/
def Partakes (p item : Box) : Prop := p = item ∨ item.Frames p ∧ p.height < item.height

/-- Items of two rows that begin with `f` and `f'`: equally wide and equally far from the first one. -/
structure Paired (f f' a b : Box) : Prop where
  offset : (a.left - f.left) - (b.left - f'.left) ≤ 1 ∧ (b.left - f'.left) - (a.left - f.left) ≤ 1
  width : a.width ≤ b.width + 1 ∧ b.width ≤ a.width + 1

/-- Items that correspond, one in the first row of the box and one below it. -/
structure Across (parts : List Box) (w : Box) (g : Int) (f f' a b : Box) : Prop where
  upper : w.Frames a ∧ a.bottom ≤ g ∧ ∃ p ∈ parts, Partakes p a
  lower : w.Frames b ∧ g ≤ b.top ∧ ∃ p ∈ parts, Partakes p b
  paired : Paired f f' a b

/-- Made of some of the boxes in two rows or more. The line at `g` below the first row runs between all boxes, and so does
the one at `s` above the first row. -/
structure Ruled (all parts : List Box) (w : Box) (s g : Int) : Prop where
  cut : ∀ b ∈ all, b.bottom ≤ g ∨ g ≤ b.top
  fore : ∀ b ∈ all, b.bottom + 1 ≤ g ∨ s ≤ b.top
  upper : ∃ u ∈ parts, ∃ v ∈ parts, u ≠ v ∧ u.bottom ≤ g ∧ v.bottom ≤ g
  lower : ∃ u ∈ parts, ∃ v ∈ parts, u ≠ v ∧ g ≤ u.top ∧ g ≤ v.top
  rows : ∃ f f', Across parts w g f f' f f' ∧
    (∀ p ∈ parts, p.bottom ≤ g → f.left ≤ p.left ∧ ∃ a b, Partakes p a ∧ Across parts w g f f' a b) ∧
    ∀ p ∈ parts, g ≤ p.top → g + 1 ≤ p.top ∨ f'.left ≤ p.left ∧ ∃ a b, Partakes p b ∧ Across parts w g f f' a b

variable {all parts others : List Box} {c w x : Box} {s g : Int}

theorem Paired.symm {f f' a b : Box} (h : Paired f f' a b) : Paired f' f b a := ⟨h.offset.symm, h.width.symm⟩

/-- Tall items at both ends of one row, and flat items in the other row that keep away from both ends. -/
theorem Paired.false_of_tall {f f' a b : Box} (h : Paired f f' a b) (ha : Solid a) (hb : Solid b) (hba : Unlike b a)
    (hlevel : a.within b .column = true) (hflat : a.height = 1) (htall : b.height = 2) (hf' : f'.left = w.left)
    (hf : w.left + 1 ≤ f.left) (hbr : b.right = w.right) (har : a.right + 1 ≤ w.right) : False := by
  have hoffset := h.offset
  have hwidth := h.width
  have ha' := ha.width
  have hb' := hb.width
  by_cases hbal : b.left ≤ a.left + 1
  · have hcontains : b.contains a = true := contains_axes.2 fun axis => by
      cases axis
      · rw [within_edges]
        simp only [start, stop]
        omega
      · exact hlevel
    have harea := hba.area_le hcontains
    rw [area, area, hflat, htall] at harea
    simp only [right] at *
    omega
  · omega

theorem Partakes.frames {p i : Box} (h : Partakes p i) : i.Frames p := by
  rcases h with rfl | h
  · exact .refl _
  · exact h.1

/-- What partakes in a flat item is the item. -/
theorem Partakes.eq {p i : Box} (h : Partakes p i) (hi : i.height ≤ p.height) : p = i := by
  rcases h with rfl | ⟨-, h⟩
  · rfl
  · omega

/-- A flat item is one of the boxes. -/
theorem mem_of_flat (hsolid : ∀ p ∈ parts, Solid p) {i : Box} (h : ∃ p ∈ parts, Partakes p i) (hi : i.height ≤ 1) :
    i ∈ parts ∧ i.height = 1 := by
  obtain ⟨p, hp, hpi⟩ := h
  have hheight := (hsolid p hp).height
  obtain rfl := hpi.eq (by omega)
  exact ⟨hp, by omega⟩

section

variable (hall : Strewn all) (hp : ∀ p ∈ parts, p ∈ all) (hw : w.Around parts) (h : Ruled all parts w s g)

include hall hp hw h

theorem Ruled.inside : w.top < g ∧ g < w.bottom := by
  obtain ⟨u, hu, -, -, -, hug, -⟩ := h.upper
  obtain ⟨v, hv, -, -, -, hvg, -⟩ := h.lower
  have hwu := frames_edges.1 (hw.frames u hu)
  have hwv := frames_edges.1 (hw.frames v hv)
  have hu' := (hall.solid u (hp u hu)).height
  have hv' := (hall.solid v (hp v hv)).height
  simp only [bottom] at *
  omega

/-- No other box contains it. -/
theorem Ruled.not_contains (hx : x ∈ all) : x.contains w = false := by
  have hsolid : ∀ p ∈ parts, Solid p := fun p hmem => hall.solid p (hp p hmem)
  have hxs := hall.solid x hx
  have hx' := hxs.height
  rcases h.cut x hx with hxg | hxg
  · obtain ⟨u, hu, v, hv, huv, hug, hvg⟩ := h.lower
    have hxu : x ≠ u := by
      rintro rfl
      simp only [bottom] at *
      omega
    exact not_contains_of_above hxs (hsolid u hu) (hsolid v hv) (hw.frames u hu) (hw.frames v hv) hug hvg
      (hall.unlike u (hp u hu) v (hp v hv) huv) (hall.unlike x hx u (hp u hu) hxu) hxg
  · obtain ⟨u, hu, v, hv, huv, hug, hvg⟩ := h.upper
    have hxu : x ≠ u := by
      rintro rfl
      simp only [bottom] at *
      omega
    exact not_contains_of_below hxs (hsolid u hu) (hsolid v hv) (hw.frames u hu) (hw.frames v hv) hug hvg
      (hall.unlike u (hp u hu) v (hp v hv) huv) (hall.unlike x hx u (hp u hu) hxu) hxg

/-- It is cut in the middle if it is narrow. -/
theorem Ruled.of_narrow (hn : w.width = 1) : w.top + 3 ≤ g ∧ g + 3 ≤ w.bottom := by
  have hsolid : ∀ p ∈ parts, Solid p := fun p hmem => hall.solid p (hp p hmem)
  constructor
  · obtain ⟨u, hu, v, hv, huv, hug, hvg⟩ := h.upper
    exact three_le_of_narrow (hsolid u hu) (hsolid v hv) (hw.frames u hu) (hw.frames v hv) hug hvg
      (hall.unlike u (hp u hu) v (hp v hv) huv) hn
  · obtain ⟨u, hu, v, hv, huv, hug, hvg⟩ := h.lower
    exact le_three_of_narrow (hsolid u hu) (hsolid v hv) (hw.frames u hu) (hw.frames v hv) hug hvg
      (hall.unlike u (hp u hu) v (hp v hv) huv) hn

end

section

/-! ### A list of other boxes that nearly has the box of the grid -/

variable (hall : Strewn all) (hp : ∀ p ∈ parts, p ∈ all) (hw : w.Around parts) (h : Ruled all parts w s g)
  (ho : ∀ p ∈ others, p ∈ all ∧ p ∉ parts) (hc : c.Around others) (hcw : c.same w = true)

include hall hp hw h ho hc hcw

theorem Ruled.of_narrow_list (hn : c.width = 1) : c.top + 3 ≤ g ∧ g + 3 ≤ c.bottom := by
  have hsolid : ∀ p ∈ parts, Solid p := fun p hmem => hall.solid p (hp p hmem)
  have unlike {z p : Box} (hz : z ∈ others) (hmem : p ∈ parts) : Unlike z p :=
    hall.unlike z (ho z hz).1 p (hp p hmem) fun he => (ho z hz).2 (he ▸ hmem)
  constructor
  · obtain ⟨u, hu, v, hv, huv, hug, hvg⟩ := h.upper
    obtain ⟨z, hz, hztop⟩ : ∃ z : Box, z ∈ _ ∧ z.top = c.top := hc.exists_start .column
    exact three_le_of_narrow_list (hsolid u hu) (hsolid v hv) (hall.solid z (ho z hz).1) (hw.frames u hu)
      (hw.frames v hv) (hc.frames z hz) hug hvg (hall.unlike u (hp u hu) v (hp v hv) huv) (unlike hz hu) (unlike hz hv)
      hcw hn hztop
  · obtain ⟨u, hu, v, hv, huv, hug, hvg⟩ := h.lower
    obtain ⟨z, hz, hzbottom⟩ : ∃ z : Box, z ∈ _ ∧ z.bottom = c.bottom := hc.exists_stop .column
    exact le_three_of_narrow_list (hsolid u hu) (hsolid v hv) (hall.solid z (ho z hz).1) (hw.frames u hu)
      (hw.frames v hv) (hc.frames z hz) hug hvg (hall.unlike u (hp u hu) v (hp v hv) huv) (unlike hz hu) (unlike hz hv)
      hcw hn hzbottom

omit h in
/-- A flat item of the grid that is level with the items of a list of flat items is at no end of the grid. -/
theorem Ruled.flat_part (hflat : ∀ z ∈ others, z.height = 1) {p : Box} (hmem : p ∈ parts) (hph : p.height = 1)
    (hlevel : ∀ z ∈ others, Level .column p z) : w.left + 1 ≤ p.left ∧ p.right + 1 ≤ w.right := by
  obtain ⟨y, hy, hyleft⟩ : ∃ y : Box, y ∈ _ ∧ y.left = c.left := hc.exists_start .row
  obtain ⟨z, hz, hzright⟩ : ∃ z : Box, z ∈ _ ∧ z.right = c.right := hc.exists_stop .row
  have hps := hall.solid p (hp p hmem)
  have ahead {z : Box} (hz : z ∈ others) : Ahead .row p z ∨ Ahead .row z p :=
    (hall.unlike p (hp p hmem) z (ho z hz).1 fun he => (ho z hz).2 (he ▸ hmem)).ahead _ hps (hall.solid z (ho z hz).1)
      (hlevel z hz) (by simp only [Axis.cross, extent, hph, hflat z hz])
  have hay := ahead hy
  have haz := ahead hz
  have hframes := frames_edges.1 (hw.frames p hmem)
  rw [same_edges] at hcw
  simp only [Ahead, Level, start, stop] at *
  omega

omit hp hw h hcw in
/-- In a list of one line of pixels all items are flat. -/
theorem flat_others (hflat : c.height < 2) {z : Box} (hz : z ∈ others) : z.height = 1 ∧ z.top = c.top := by
  have hframes := frames_edges.1 (hc.frames z hz)
  have hheight := (hall.solid z (ho z hz).1).height
  simp only [bottom] at hframes
  omega

omit h in
/-- Flat items keep away from both ends of a grid with nearly the box of such a list. -/
theorem Ruled.flat_part_of_flat (hflat : c.height < 2) {p : Box} (hmem : p ∈ parts) (hph : p.height = 1) :
    w.left + 1 ≤ p.left ∧ p.right + 1 ≤ w.right := by
  refine Ruled.flat_part hall hp hw ho hc hcw (fun z hz => (flat_others hall ho hc hflat hz).1) hmem hph fun z hz => ?_
  obtain ⟨hz1, hzt⟩ := flat_others hall ho hc hflat hz
  have hpart := frames_edges.1 (hw.frames p hmem)
  have hcol := (same_edges.1 hcw).2
  simp only [Level, start, stop, bottom] at *
  omega

/-- So the items at both ends of the grid are tall. -/
theorem Ruled.tall_part (hflat : c.height < 2) {p : Box} (hmem : p ∈ parts)
    (hend : p.left = w.left ∨ p.right = w.right) : p.height = 2 := by
  have hinside := h.inside hall hp hw
  have hpart := frames_edges.1 (hw.frames p hmem)
  have hheight := (hall.solid p (hp p hmem)).height
  have hcol := (same_edges.1 hcw).2
  have hcut := h.cut p (hp p hmem)
  have hne : p.height ≠ 1 := fun hph => by
    have := Ruled.flat_part_of_flat hall hp hw ho hc hcw hflat hmem hph
    omega
  simp only [Level, start, stop, bottom] at *
  omega

/-- They do not both stand in the first row. -/
theorem Ruled.false_of_upper (hflat : c.height < 2) {p q : Box} (hpm : p ∈ parts) (hqm : q ∈ parts)
    (hpl : p.left = w.left) (hqr : q.right = w.right) (hpg : p.bottom ≤ g) (hqg : q.bottom ≤ g) : False := by
  have hsolid : ∀ p ∈ parts, Solid p := fun p hmem => hall.solid p (hp p hmem)
  have hinside := h.inside hall hp hw
  have flat {p : Box} := Ruled.flat_part_of_flat hall hp hw ho hc hcw hflat (p := p)
  have hp2 := h.tall_part hall hp hw ho hc hcw hflat hpm (.inl hpl)
  have hq2 := h.tall_part hall hp hw ho hc hcw hflat hqm (.inr hqr)
  have hcol := (same_edges.1 hcw).2
  have hpe := (frames_edges.1 (hw.frames p hpm)).2
  have hqe := (frames_edges.1 (hw.frames q hqm)).2
  obtain ⟨f, f', hff, hrows, -⟩ := h.rows
  have hfl := (hrows p hpm hpg).1
  obtain ⟨-, a, b, hqa, hab⟩ := hrows q hqm hqg
  have hwa := frames_edges.1 hab.upper.1
  have hwb := frames_edges.1 hab.lower.1
  have hwf := frames_edges.1 hff.upper.1
  have hwf' := frames_edges.1 hff.lower.1
  have hag := hab.upper.2.1
  have hbg := hab.lower.2.1
  have hfg' := hff.lower.2.1
  have hqa := hqa.eq (by simp only [Level, start, stop, bottom] at *; omega)
  subst hqa
  obtain ⟨hbm, hb1⟩ := mem_of_flat hsolid hab.lower.2.2 (by simp only [Level, start, stop, bottom] at *; omega)
  obtain ⟨hfm', hf1'⟩ := mem_of_flat hsolid hff.lower.2.2 (by simp only [Level, start, stop, bottom] at *; omega)
  have hqb : q ≠ b := by
    rintro rfl
    omega
  refine hab.paired.symm.false_of_tall (w := w) (hsolid b hbm) (hsolid q hqm)
    (hall.unlike q (hp q hqm) b (hp b hbm) hqb) ?_ hb1 hq2 (by omega) (flat hfm' hf1').1 hqr (flat hbm hb1).2
  rw [within_edges]
  simp only [Level, start, stop, bottom] at *
  omega

/-- They do not both stand below it. -/
theorem Ruled.false_of_lower (hflat : c.height < 2) {p q : Box} (hpm : p ∈ parts) (hqm : q ∈ parts)
    (hpl : p.left = w.left) (hqr : q.right = w.right) (hpg : g ≤ p.top) (hqg : g ≤ q.top) : False := by
  have hsolid : ∀ p ∈ parts, Solid p := fun p hmem => hall.solid p (hp p hmem)
  have hinside := h.inside hall hp hw
  have flat {p : Box} := Ruled.flat_part_of_flat hall hp hw ho hc hcw hflat (p := p)
  have hp2 := h.tall_part hall hp hw ho hc hcw hflat hpm (.inl hpl)
  have hq2 := h.tall_part hall hp hw ho hc hcw hflat hqm (.inr hqr)
  have hcol := (same_edges.1 hcw).2
  have hpe := (frames_edges.1 (hw.frames p hpm)).2
  have hqe := (frames_edges.1 (hw.frames q hqm)).2
  obtain ⟨f, f', hff, -, hrows⟩ := h.rows
  have hfl := (hrows p hpm hpg).resolve_left (by simp only [Level, start, stop, bottom] at *; omega)
  obtain ⟨-, a, b, hqb, hab⟩ := (hrows q hqm hqg).resolve_left (by simp only [Level, start, stop, bottom] at *; omega)
  have hwa := frames_edges.1 hab.upper.1
  have hwb := frames_edges.1 hab.lower.1
  have hwf := frames_edges.1 hff.upper.1
  have hwf' := frames_edges.1 hff.lower.1
  have hag := hab.upper.2.1
  have hbg := hab.lower.2.1
  have hfg := hff.upper.2.1
  have hqb := hqb.eq (by simp only [Level, start, stop, bottom] at *; omega)
  subst hqb
  obtain ⟨ham, ha1⟩ := mem_of_flat hsolid hab.upper.2.2 (by simp only [Level, start, stop, bottom] at *; omega)
  obtain ⟨hfm, hf1⟩ := mem_of_flat hsolid hff.upper.2.2 (by simp only [Level, start, stop, bottom] at *; omega)
  have hqa : q ≠ a := by
    rintro rfl
    omega
  refine hab.paired.false_of_tall (w := w) (hsolid a ham) (hsolid q hqm)
    (hall.unlike q (hp q hqm) a (hp a ham) hqa) ?_ ha1 hq2 (by omega) (flat hfm hf1).1 hqr (flat ham ha1).2
  rw [within_edges]
  simp only [Level, start, stop, bottom] at *
  omega

/-- The list has more than one line of pixels. -/
theorem Ruled.two_le_height : 2 ≤ c.height := by
  by_contra hlt
  have hflat : c.height < 2 := by omega
  obtain ⟨p, hpm, hpl⟩ : ∃ p : Box, p ∈ _ ∧ p.left = w.left := hw.exists_start .row
  obtain ⟨q, hqm, hqr⟩ : ∃ q : Box, q ∈ _ ∧ q.right = w.right := hw.exists_stop .row
  have hp2 := h.tall_part hall hp hw ho hc hcw hflat hpm (.inl hpl)
  have hq2 := h.tall_part hall hp hw ho hc hcw hflat hqm (.inr hqr)
  have hpe := (frames_edges.1 (hw.frames p hpm)).2
  have hqe := (frames_edges.1 (hw.frames q hqm)).2
  have hcol := (same_edges.1 hcw).2
  rcases h.cut p (hp p hpm) with hpg | hpg <;> rcases h.cut q (hp q hqm) with hqg | hqg
  · exact h.false_of_upper hall hp hw ho hc hcw hflat hpm hqm hpl hqr hpg hqg
  · simp only [Level, start, stop, bottom] at *
    omega
  · simp only [Level, start, stop, bottom] at *
    omega
  · exact h.false_of_lower hall hp hw ho hc hcw hflat hpm hqm hpl hqr hpg hqg

omit h ho hc hcw in
/-- The first row of a grid that is ruled below its first line of pixels. -/
theorem Ruled.flat_upper (hg : g = w.top + 1) {p : Box} (hmem : p ∈ parts) (hpg : p.bottom ≤ g) :
    p.height = 1 ∧ p.top = w.top := by
  have hpart := (frames_edges.1 (hw.frames p hmem)).2
  have hheight := (hall.solid p (hp p hmem)).height
  simp only [bottom] at *
  omega

/-- The list does not have the box of such a grid moved down by a pixel, if that is more than two lines high: both would
be too high to be clear of one another unless they are narrow, and then there is no room for two items in a row. -/
theorem Ruled.not_shifted_of_high (hclear : c.overlaps w = false) (htop : c.top = w.top + 1)
    (hbottom : c.bottom = w.bottom + 1) (hg : g = w.top + 1) (hhigh : w.top + 2 < w.bottom) : False := by
  have hsolid : ∀ p ∈ parts, Solid p := fun p hmem => hall.solid p (hp p hmem)
  have hrow := (same_edges.1 hcw).1
  obtain ⟨u, hu, v, hv, huv, hug, hvg⟩ := h.upper
  obtain ⟨z, hz, hztop⟩ : ∃ z : Box, z ∈ _ ∧ z.top = c.top := hc.exists_start .column
  have hue := frames_edges.1 (hw.frames u hu)
  have hve := frames_edges.1 (hw.frames v hv)
  have hze := frames_edges.1 (hc.frames z hz)
  have huf := Ruled.flat_upper hall hp hw hg hu hug
  have hvf := Ruled.flat_upper hall hp hw hg hv hvg
  have hus := (hsolid u hu).width
  have hvs := (hsolid v hv).width
  have hzs := hall.solid z (ho z hz).1
  have hzs' := And.intro hzs.width hzs.height
  rw [overlaps_eq_false] at hclear
  have hahead := (hall.unlike u (hp u hu) v (hp v hv) huv).ahead .row (hsolid u hu) (hsolid v hv)
    (by simp only [Axis.cross, Level, start, stop, bottom] at *; omega)
    (by simp only [Axis.cross, extent]; omega)
  have huw : u.width = 1 := by
    simp only [overlap, Ahead, Level, start, stop, right, bottom] at *
    omega
  -- The highest item of the list lies on the first item of the row.
  have hzu : Unlike z u := hall.unlike z (ho z hz).1 u (hp u hu) fun he => (ho z hz).2 (he ▸ hu)
  have hcontains : z.contains u = true := by
    rw [contains_edges]
    simp only [overlap, Ahead, Level, start, stop, right, bottom] at *
    omega
  have hextent := hzu.extent_le .row hcontains hzs (by simp only [extent]; omega)
  simp only [Axis.cross, extent] at hextent
  refine hzu.not_level ?_ ?_ <;>
    (simp only [overlap, Ahead, Level, start, stop, right, bottom] at *; omega)

omit h ho hc hcw in
/-- What lies below the first row of such a grid, if it is two lines high. -/
theorem Ruled.flat_lower (hg : g = w.top + 1) (hlow : w.bottom ≤ w.top + 2) {p : Box} (hmem : p ∈ parts)
    (hpg : g ≤ p.top) : p.height = 1 ∧ p.top = w.top + 1 := by
  have hpart := (frames_edges.1 (hw.frames p hmem)).2
  have hheight := (hall.solid p (hp p hmem)).height
  simp only [bottom] at *
  omega

omit h in
/-- It stays away from both ends of the grid. -/
theorem Ruled.lower_within (htop : c.top = w.top + 1) (hbottom : c.bottom = w.bottom + 1) (hg : g = w.top + 1)
    (hlow : w.bottom ≤ w.top + 2) (hfore : ∀ z ∈ others, z.bottom ≤ w.bottom ∨ w.top + 2 ≤ z.top) {p : Box}
    (hmem : p ∈ parts) (hpg : g ≤ p.top) : w.left + 1 ≤ p.left ∧ p.right + 1 ≤ w.right := by
  have others_flat : ∀ z ∈ others, z.height = 1 := by
    intro z hz
    have hze := (frames_edges.1 (hc.frames z hz)).2
    have hzf := hfore z hz
    have hzs := (hall.solid z (ho z hz).1).height
    simp only [bottom] at *
    omega
  have hpf := Ruled.flat_lower hall hp hw hg hlow hmem hpg
  refine Ruled.flat_part hall hp hw ho hc hcw others_flat hmem hpf.1 fun z hz => ?_
  have hz1 := others_flat z hz
  have hze := (frames_edges.1 (hc.frames z hz)).2
  simp only [Level, start, stop, bottom] at *
  omega

/-- It does not have that box if the grid is two lines high either: then the items of the second row stay away from both
ends of the grid, so the first row reaches them, and no two items correspond. -/
theorem Ruled.not_shifted_of_low (htop : c.top = w.top + 1) (hbottom : c.bottom = w.bottom + 1)
    (hg : g = w.top + 1) (hlow : w.bottom ≤ w.top + 2)
    (hfore : ∀ z ∈ others, z.bottom ≤ w.bottom ∨ w.top + 2 ≤ z.top) : False := by
  have hsolid : ∀ p ∈ parts, Solid p := fun p hmem => hall.solid p (hp p hmem)
  have lower {p : Box} := Ruled.lower_within hall hp hw ho hc hcw htop hbottom hg hlow hfore (p := p)
  have upper {p : Box} (hmem : p ∈ parts) (hend : p.left = w.left ∨ p.right = w.right) : p.bottom ≤ g := by
    rcases h.cut p (hp p hmem) with hpg | hpg
    · exact hpg
    · have := lower hmem hpg
      omega
  obtain ⟨p, hpm, hpl⟩ : ∃ p : Box, p ∈ _ ∧ p.left = w.left := hw.exists_start .row
  obtain ⟨q, hqm, hqr⟩ : ∃ q : Box, q ∈ _ ∧ q.right = w.right := hw.exists_stop .row
  obtain ⟨f, f', hff, hrows, -⟩ := h.rows
  have hfl := (hrows p hpm (upper hpm (.inl hpl))).1
  obtain ⟨-, a, b, hqa, hab⟩ := hrows q hqm (upper hqm (.inr hqr))
  have hwa := frames_edges.1 hab.upper.1
  have hwb := frames_edges.1 hab.lower.1
  have hwf := frames_edges.1 hff.upper.1
  have hwf' := frames_edges.1 hff.lower.1
  have hag := hab.upper.2.1
  have hbg := hab.lower.2.1
  have hfg := hff.upper.2.1
  have hfg' := hff.lower.2.1
  have ham := (mem_of_flat hsolid hab.upper.2.2 (by simp only [bottom] at *; omega)).1
  have hbm := (mem_of_flat hsolid hab.lower.2.2 (by simp only [bottom] at *; omega)).1
  have hfm := (mem_of_flat hsolid hff.upper.2.2 (by simp only [bottom] at *; omega)).1
  have hfm' := (mem_of_flat hsolid hff.lower.2.2 (by simp only [bottom] at *; omega)).1
  have haq := frames_edges.1 hqa.frames
  have ahead {i j : Box} (hi : i ∈ parts) (hj : j ∈ parts) (hig : i.bottom ≤ g) (hjg : g ≤ j.top) :
      Ahead .row i j ∨ Ahead .row j i := by
    have hif := Ruled.flat_upper hall hp hw hg hi hig
    have hjf := Ruled.flat_lower hall hp hw hg hlow hj hjg
    refine (hall.unlike i (hp i hi) j (hp j hj) ?_).ahead _ (hsolid i hi) (hsolid j hj) ?_ ?_
    · rintro rfl
      omega
    · simp only [Axis.cross, Level, start, stop, bottom] at *
      omega
    · simp only [Axis.cross, extent]
      omega
  have hf := ahead hfm hfm' hfg hfg'
  have ha := ahead ham hbm hag hbg
  have hfin := lower hfm' hfg'
  have hbin := lower hbm hbg
  have hoffset := hab.paired.offset
  simp only [Ahead, start, stop] at *
  omega

/-- The list does not have the box of the grid moved down by a pixel, if none of its items reaches over the bottom of the
grid and up to its first row. -/
theorem Ruled.not_shifted (hclear : c.overlaps w = false) (htop : c.top = w.top + 1) (hbottom : c.bottom = w.bottom + 1)
    (hg : g = w.top + 1) (hfore : ∀ z ∈ others, z.bottom ≤ w.bottom ∨ w.top + 2 ≤ z.top) : False := by
  rcases lt_or_ge (w.top + 2) w.bottom with hhigh | hlow
  · exact h.not_shifted_of_high hall hp hw ho hc hcw hclear htop hbottom hg hhigh
  · exact h.not_shifted_of_low hall hp hw ho hc hcw htop hbottom hg hlow hfore

end

end FlexRecovery.Box
