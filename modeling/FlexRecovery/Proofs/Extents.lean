import FlexRecovery.Proofs.Canvas
import FlexRecovery.Proofs.Containment
import FlexRecovery.Proofs.Settling
import FlexRecovery.Proofs.Standing

/-!
Every box but that of the page has an area and lies on the page, from the draft on: containers are hulls of boxes
on the page, a container that is widened gets the span of its owner, and a spacer takes up a gap in its owner. All
edges are therefore at most as far out as the longest edge of a page.
-/

namespace FlexRecovery

open Node Tree Box

namespace Box

variable {page a b : Box}

theorem inside_iff : page.Inside b ↔
    ∀ axis, page.start axis ≤ b.start axis ∧ b.start axis < b.stop axis ∧ b.stop axis ≤ page.stop axis := by
  constructor
  · rintro ⟨hf, hw, hh⟩ axis
    obtain ⟨hs, he⟩ := hf.edges axis
    refine ⟨hs, ?_, he⟩
    rw [stop_eq]
    cases axis <;> simp only [extent] <;> omega
  · intro h
    refine ⟨frames_iff.2 fun axis => ⟨(h axis).1, (h axis).2.2⟩, ?_, ?_⟩
    · have hx := (h .row).2.1
      rw [stop_eq] at hx
      simp only [extent] at hx
      omega
    · have hy := (h .column).2.1
      rw [stop_eq] at hy
      simp only [extent] at hy
      omega

/-- The smallest box around boxes on the page. -/
theorem Around.inside {bs : List Box} (h : b.Around bs) (hb : ∀ c ∈ bs, page.Inside c) : page.Inside b := by
  obtain ⟨c, hc, -⟩ := h.tight .left
  refine ⟨fun e => ?_, ?_, ?_⟩
  · obtain ⟨c, hc, he⟩ := h.tight e
    rw [← he]
    exact (hb c hc).frames e
  · have hw := (hb c hc).width
    have he := (h.frames c hc).edges .row
    simp only [start, stop, right] at he
    omega
  · have hh := (hb c hc).height
    have he := (h.frames c hc).edges .column
    simp only [start, stop, bottom] at he
    omega

/-- A box on the page with another span that is on the page. -/
theorem Inside.withSpan (h : page.Inside b) (axis : Axis) {s e : Int} (hs : page.start axis ≤ s) (hse : s < e)
    (he : e ≤ page.stop axis) : page.Inside (b.withSpan axis s e) := by
  have key (axis : Axis) : (b.withSpan axis s e).start axis = s ∧ (b.withSpan axis s e).stop axis = e :=
    ⟨start_withSpan b axis s e, stop_withSpan b axis hse.le⟩
  refine inside_iff.2 fun x => ?_
  by_cases hx : x = axis
  · subst hx
    rw [(key x).1, (key x).2]
    exact ⟨hs, hse, he⟩
  · obtain rfl : axis = x.cross := by cases x <;> cases axis <;> first | rfl | exact absurd rfl hx
    rw [start_withSpan_cross, stop_withSpan_cross]
    exact inside_iff.1 h x

/-- A box that something lies in has an area. -/
theorem Inside.self (h : page.Inside b) : page.Inside page := by
  refine inside_iff.2 fun axis => ?_
  obtain ⟨hs, hlt, he⟩ := inside_iff.1 h axis
  omega

end Box

/-- Has an area and lies on the page. -/
def OnPage (page : Box) (_ : Link) (n : Node) : Prop := page.Inside n.box

variable {page : Box}

theorem standing_of_inside {t : Tree} (h : ∀ m ∈ t.members, m.Every fun s => page.Inside s.box) :
    t.Standing (OnPage page) := by
  induction t using induction_members with
  | _ t ih =>
    have key {m : Tree} (hm : m ∈ t.members) {l : Link} : Seated (OnPage page) l m := by
      obtain ⟨hi, hb⟩ := every_iff.1 (h m hm)
      exact ⟨hi, ih m hm hb⟩
    exact standing_iff.2 ⟨fun m hm => key (List.mem_append_left _ hm), fun m hm => key (List.mem_append_right _ hm)⟩

theorem Tree.Standing.inside {t : Tree} (h : t.Standing (OnPage page)) :
    ∀ s ∈ t.subtrees, ∀ m ∈ s.members, page.Inside m.box := by
  intro s hs m hm
  obtain ⟨hf, ha⟩ := h s hs
  exact (List.mem_append.1 hm).elim (hf m) (ha m)

namespace Stacking

theorem stackable_onPage (page : Box) : Stackable (OnPage page) where
  numbered := fun n k h => by rw [OnPage, (alike_numbered n k).kept.2]; exact h
  owning := fun _ n flow h => by rw [OnPage, (alike_owning n flow).kept.2]; exact h

end Stacking

namespace Regroup

theorem robust_onPage (page : Box) : Robust (OnPage page) where
  reads := fun _ _ _ hb _ _ _ h => by rw [OnPage, hb]; exact h
  absorb := fun _ lower upper h _ => by rw [OnPage, box_absorb]; exact h
  promoted := fun _ n h => by
    have hb : n.promoted.box = n.box := by
      unfold promoted
      split <;> rfl
    rw [OnPage, hb]
    exact h
  leaves := fun _ h => h
  container := fun _ _ _ _ _ hb h => hb.inside (List.forall_mem_map.2 h)

end Regroup

namespace Resolve

variable {o : Options}

theorem Fits.onPage {owner : Box} {n n' : Node} (h : Fits owner n n') (ho : page.Inside owner)
    (hn : page.Inside n.box) : page.Inside n'.box := by
  rcases h with h | ⟨axis, h⟩
  · rw [Touches.box h]
    exact hn
  · obtain ⟨hs, hse, he⟩ := inside_iff.1 ho axis
    rw [Touches.box h]
    exact hn.withSpan axis hs hse he

theorem Fills.onPage {owner a b : Box} {axis : Axis} {s : Tree} (h : Fills owner axis a b s) (ho : page.Inside owner)
    (ha : page.Inside a) (hb : page.Inside b) : page.Inside s.box ∧ s.Standing (OnPage page) := by
  obtain ⟨hgap, index, n, hn, rfl⟩ := h
  refine ⟨?_, standing_iff.2 ⟨by simp, by simp⟩⟩
  obtain ⟨-, -, hae⟩ := inside_iff.1 ha axis
  obtain ⟨has, hlt, -⟩ := inside_iff.1 ha axis
  obtain ⟨-, -, hbe⟩ := inside_iff.1 hb axis
  obtain ⟨-, hblt, -⟩ := inside_iff.1 hb axis
  have hbox : (spacerNode owner axis index a b).box = owner.withSpan axis (a.stop axis) (b.start axis) := by
    cases axis <;> rfl
  rw [show Tree.box ⟨n, [], []⟩ = n.box from rfl, Touches.box hn, hbox]
  exact ho.withSpan axis (by omega) hgap (by omega)

/-- What a tree on the page is resolved to, if overflow is not bounded. -/
def Paged (page : Box) : Settlement := fun t n u =>
  t.Standing (OnPage page) → (t.members ≠ [] → page.Inside n.box) → u.box = n.box ∧ u.Standing (OnPage page)

theorem paged_resolve (ho : o.boundOverflow = false) (page : Box) (t : Tree) (n : Node) (j : Journal) :
    Paged page t n (resolve o n t j).1 := by
  refine settle_induction o (fun {t n fs n' us rs} hf hn _ hl ha ht hown => ?_) t n j
  have hbox : (containing n' t.attached).box = n.box := (box_containing _ _).trans (Touches.box hn)
  refine ⟨hbox, standing_iff.2 ⟨?_, ?_⟩⟩
  · have hseats : ∀ r ∈ fs, page.Inside n.box ∧ Seated (OnPage page) .flow r := by
      intro r hr
      obtain ⟨m, hm, hs⟩ := exists_of_mem_right hf hr
      have hown := hown (List.ne_nil_of_mem (List.mem_append_left t.attached hm))
      have hm := ht.flow m hm
      cases hs with
      | bare hn h =>
        have hfits := hn.onPage hown hm.node
        obtain ⟨hb, hs⟩ := h hm.below fun _ => hfits
        exact ⟨hown, by rw [OnPage, ← Tree.box, hb]; exact hfits, hs⟩
      | wrapped hb => simp [ho] at hb
    refine fun u hu => (hl.forall (G := fun u => page.Inside n.box ∧ Seated (OnPage page) .flow u) ?_ ?_ hseats u hu).2
    · rintro t u ⟨m, hm, rfl⟩ ⟨hown, ht⟩
      exact ⟨hown, by rw [OnPage, Touches.box hm]; exact ht.node, ht.below.rooted m⟩
    · rintro axis before after s ⟨hown, hb⟩ ⟨-, ha⟩ hs
      obtain ⟨hs, hs'⟩ := hs.onPage hown hb.node ha.node
      exact ⟨hown, hs, hs'⟩
  · intro r hr
    obtain ⟨m, hm, hs⟩ := exists_of_mem_right ha hr
    have hm := ht.attached m hm
    cases hs with
    | chrome hc h =>
      obtain ⟨hb, hs⟩ := h hm.below fun _ => hm.node
      exact ⟨by rw [OnPage, ← Tree.box, hb]; exact hm.node, hs⟩
    | @pinned r hc h =>
      have hb : (pinPrepared n.box m.node).box = m.node.box := Touches.box (touches_pinPrepared n.box m.node)
      obtain ⟨hr, hs⟩ := h hm.below fun _ => hb ▸ hm.node
      refine ⟨?_, hs.rooted _⟩
      rw [OnPage, show (r.mapNode (Resolve.pinned _)).node.box = r.box from rfl, hr, hb]
      exact hm.node

end Resolve

/-- What is computed from boxes on the page by that many additions and subtractions of edges and lengths. The
tolerance counts as a length. -/
inductive Reckoned (page : Box) : Nat → Int → Prop where
  | start (b axis) (h : page.Frames b) : Reckoned page 1 (b.start axis)
  | stop (b axis) (h : page.Frames b) : Reckoned page 1 (b.stop axis)
  | extent (b axis) (h : page.Frames b) : Reckoned page 1 (b.extent axis)
  | tolerance : Reckoned page 1 Tuning.tolerance
  | zero : Reckoned page 0 0
  | add {k l v w} (h : Reckoned page k v) (h' : Reckoned page l w) : Reckoned page (k + l) (v + w)
  | sub {k l v w} (h : Reckoned page k v) (h' : Reckoned page l w) : Reckoned page (k + l) (v - w)

namespace Reckoned

variable {k l : Nat} {v : Int}

/-- On a page from the origin on, no sum gets further than the edges in it reach together. -/
theorem natAbs_le (h : Reckoned page k v) (edge : Nat) (he : 1 ≤ edge)
    (hp : ∀ axis, page.start axis = 0 ∧ page.stop axis ≤ edge) : v.natAbs ≤ edge * k := by
  have hedge (b : Box) (hb : page.Frames b) (axis : Axis) : 0 ≤ b.start axis ∧ b.start axis ≤ b.stop axis ∧
      b.stop axis ≤ edge := by
    obtain ⟨hs, hb⟩ := hb.edges axis
    obtain ⟨h0, h1⟩ := hp axis
    exact ⟨by omega, start_le_stop b axis, by omega⟩
  induction h with
  | start b axis hb =>
    have := hedge b hb axis
    omega
  | stop b axis hb =>
    have := hedge b hb axis
    omega
  | extent b axis hb =>
    have := hedge b hb axis
    have := stop_eq b axis
    omega
  | tolerance =>
    simp only [Tuning.tolerance]
    omega
  | zero => simp
  | add _ _ ih ih' =>
    rw [Nat.mul_add]
    omega
  | sub _ _ ih ih' =>
    rw [Nat.mul_add]
    omega

end Reckoned

/-- The distances of two boxes that regrouping and resolving start from. -/
structure Measured (page a b : Box) (axis : Axis) : Prop where
  gap : Reckoned page 2 (b.start axis - a.stop axis)
  overlap : Reckoned page 2 (a.overlap b axis)
  start : Reckoned page 2 (Resolve.Margins.between a b axis).start
  stop : Reckoned page 2 (Resolve.Margins.between a b axis).stop
  skew : Reckoned page 4 (Resolve.Margins.between a b axis).skew

theorem measured {page a b : Box} (ha : page.Frames a) (hb : page.Frames b) (axis : Axis) : Measured page a b axis := by
  have hstart : Reckoned page 2 (Resolve.Margins.between a b axis).start := .sub (.start a axis ha) (.start b axis hb)
  have hstop : Reckoned page 2 (Resolve.Margins.between a b axis).stop := .sub (.stop b axis hb) (.stop a axis ha)
  have hmin : Reckoned page 1 (min (a.stop axis) (b.stop axis)) := by
    rcases min_choice (a.stop axis) (b.stop axis) with e | e <;> rw [e]
    · exact .stop a axis ha
    · exact .stop b axis hb
  have hmax : Reckoned page 1 (max (a.start axis) (b.start axis)) := by
    rcases max_choice (a.start axis) (b.start axis) with e | e <;> rw [e]
    · exact .start a axis ha
    · exact .start b axis hb
  exact ⟨.sub (.start b axis hb) (.stop a axis ha), .sub hmin hmax, hstart, hstop, .sub hstart hstop⟩

namespace Recovery

open Draft

variable (o : Options) (d : Document)

/-- In a draft every member has an area and lies in the box of its owner, so all boxes lie on the page. -/
theorem enclosed_drafted : (drafted o d).1.box = canvas d ∧
    (∀ s ∈ (drafted o d).1.subtrees, ∀ m ∈ s.members, s.box.Inside m.box) ∧
    ∀ s ∈ (drafted o d).1.subtrees, (canvas d).Frames s.box := by
  obtain ⟨hb, he⟩ := enclosing_ofPage o d {}
  refine ⟨hb, he, ?_⟩
  have hroot : (canvas d).Frames (drafted o d).1.box := by
    rw [drafted, hb]
    exact .refl _
  exact every_iff.2 ⟨hroot, fun m hm s hs => (inside_of_enclosing he hroot m hm s hs).frames⟩

/-- The trees of a run, from the draft to the one that is resolved. -/
def passed : List Tree := [(drafted o d).1, cleaned o (drafted o d).1, (regrouped o d).1, (resolved o d).1]

theorem mem_passed_of_ok {o : Options} {d : Document} {r : Recovery} (h : ofDocument o d = .ok r) :
    r.tree ∈ passed o d := by
  rw [tree_of_ok h, staged]
  cases o.stage <;> simp [passed]

variable {o}

theorem onPage_passed (ho : o.boundOverflow = false) : ∀ t ∈ passed o d,
    t.box = canvas d ∧ t.Standing (OnPage (canvas d)) := by
  obtain ⟨hb, he, -⟩ := enclosed_drafted o d
  have hdraft : (drafted o d).1.Standing (OnPage (canvas d)) :=
    standing_of_inside (inside_of_enclosing he (hb ▸ .refl _))
  have hclean := standing_cleaned o (fun _ => Stacking.stackable_onPage _) hdraft
  have hcbox : (cleaned o (drafted o d).1).box = canvas d := (alike_cleaned o _).kept.2.trans hb
  obtain ⟨hregroup, -⟩ := standing_regrouped (Regroup.robust_onPage _) hclean
  have hrbox : (regrouped o d).1.box = canvas d := (within_regrouped o d).box.trans hcbox
  have hown : (regrouped o d).1.members ≠ [] → (canvas d).Inside (regrouped o d).1.node.box := by
    intro hne
    obtain ⟨m, hm⟩ := List.exists_mem_of_ne_nil _ hne
    rw [← Tree.box, hrbox]
    exact (hregroup.inside _ (self_mem_subtrees _) m hm).self
  obtain ⟨hsbox, hs⟩ := Resolve.paged_resolve ho (canvas d) (regrouped o d).1 _ (regrouped o d).2 hregroup hown
  simp only [passed, List.forall_mem_cons]
  exact ⟨⟨hb, hdraft⟩, ⟨hcbox, hclean⟩, ⟨hrbox, hregroup⟩, ⟨hsbox.trans hrbox, hs⟩, by simp⟩

theorem canvas_le {d : Document} (h : failure? d = none) (axis : Axis) :
    (canvas d).start axis = 0 ∧ (canvas d).stop axis ≤ 16384 := by
  unfold failure? at h
  split at h
  · cases h
  · split at h
    · next hs =>
      obtain ⟨hw, hh⟩ := Bool.and_eq_true_iff.1 hs
      have hw := Single.nearest_of_isSupported hw
      have hh := Single.nearest_of_isSupported hh
      cases axis <;> simp only [canvas, ofSize, start, stop, right, bottom, true_and] <;> omega
    · cases h

/-- Unless overflow is bounded, every box below the root lies on the page and has an area, whatever a run is asked
for and wherever it stops. Hulls of such boxes do so too, and neither their areas nor sums of less than 131072 of
their edges and lengths need more than 31 bits. -/
theorem onPage_throughout {d : Document} (h : failure? d = none) (ho : o.boundOverflow = false) :
    (∀ r, ofDocument o d = .ok r → r.tree ∈ passed o d) ∧
    (∀ t ∈ passed o d, t.box = canvas d ∧ ∀ s ∈ t.subtrees, ∀ m ∈ s.members, (canvas d).Inside m.box) ∧
    (∀ bs ≠ [], (∀ b ∈ bs, (canvas d).Inside b) → (canvas d).Inside (hull bs)) ∧
    (∀ b axis, (canvas d).Frames b → 0 ≤ b.start axis ∧ b.stop axis ≤ 16384) ∧
    (∀ b, (canvas d).Frames b → b.area < 2147483648) ∧
    (∀ a b axis, (canvas d).Frames a → (canvas d).Frames b → Measured (canvas d) a b axis) ∧
    ∀ k v, Reckoned (canvas d) k v → k < 131072 → v.natAbs < 2147483648 := by
  have hc := canvas_le h
  have hedge (b : Box) (axis : Axis) (hb : (canvas d).Frames b) : 0 ≤ b.start axis ∧ b.stop axis ≤ 16384 := by
    have := hb.edges axis
    have := hc axis
    omega
  refine ⟨fun r => mem_passed_of_ok, fun t ht => ?_, fun bs hne hb => (around_hull hne).inside hb, hedge, ?_,
    fun a b axis ha hb => measured ha hb axis, ?_⟩
  · obtain ⟨hb, hs⟩ := onPage_passed d ho t ht
    exact ⟨hb, hs.inside⟩
  · intro b hb
    have hw := hedge b .row hb
    have hh := hedge b .column hb
    rw [stop_eq] at hw hh
    simp only [extent] at hw hh
    calc b.area ≤ 16384 * 16384 := Nat.mul_le_mul (by omega) (by omega)
      _ < 2147483648 := by decide
  · intro k v hv hk
    have := hv.natAbs_le 16384 (by decide) hc
    omega

theorem onPage_drift : Draft.failure? drift = none ∧ ({} : Options).boundOverflow = false ∧
    ∀ t ∈ passed {} drift, t.box = canvas drift ∧ ∀ s ∈ t.subtrees, ∀ m ∈ s.members, (canvas drift).Inside m.box :=
  have h : Draft.failure? drift = none := by decide +kernel
  ⟨h, rfl, (onPage_throughout h rfl).2.1⟩

end Recovery

end FlexRecovery
