import FlexRecovery.Proofs.Boxes
import Mathlib.Data.Multiset.AddSub

/-!
How far one box sticks out of another, side by side. Boxes that are the same up to the tolerance may drift apart
over a chain of them, by at most one pixel for each box of the chain.
-/

namespace FlexRecovery

/-- The sides of a box. -/
inductive Side where
  | left
  | top
  | right
  | bottom
  deriving DecidableEq

namespace Box

/-- How far out the edge lies. -/
def outset (b : Box) : Side → Int
  | .left => -b.left
  | .top => -b.top
  | .right => b.right
  | .bottom => b.bottom

variable {a b c outer inner : Box} {l : Multiset Box}

theorem contains_iff : outer.contains inner = true ↔ ∀ e, inner.outset e ≤ outer.outset e + 1 := by
  rw [contains, Bool.and_eq_true, within_iff, within_iff]
  simp only [start, stop]
  constructor
  · intro h e
    cases e <;> simp only [outset] <;> omega
  · intro h
    have hl := h .left
    have ht := h .top
    have hr := h .right
    have hb := h .bottom
    simp only [outset] at hl ht hr hb
    omega

theorem same_iff : a.same b = true ↔ ∀ e, a.outset e ≤ b.outset e + 1 ∧ b.outset e ≤ a.outset e + 1 := by
  simp only [same, Bool.and_eq_true, close_iff]
  constructor
  · intro h e
    cases e <;> simp only [outset] <;> omega
  · intro h
    have hl := h .left
    have ht := h .top
    have hr := h .right
    have hb := h .bottom
    simp only [outset] at hl ht hr hb
    omega

theorem contains_of_same (h : a.same b = true) : a.contains b = true :=
  contains_iff.2 fun e => (same_iff.1 h e).2

theorem contains_of_strictlyContains (h : outer.strictlyContains inner = true) : outer.contains inner = true := by
  simp only [strictlyContains, Bool.and_eq_true] at h
  exact h.1.1

/-- Covers it, without any slack. -/
def Frames (outer inner : Box) : Prop := ∀ e, inner.outset e ≤ outer.outset e

theorem Frames.refl (a : Box) : Frames a a := fun _ => le_rfl

theorem Frames.trans (h : Frames a b) (h' : Frames b c) : Frames a c := fun e => (h' e).trans (h e)

theorem Frames.edges (h : a.Frames b) (axis : Axis) : a.start axis ≤ b.start axis ∧ b.stop axis ≤ a.stop axis := by
  have hl := h .left
  have ht := h .top
  have hr := h .right
  have hb := h .bottom
  simp only [outset] at hl ht hr hb
  cases axis <;> simp only [start, stop] <;> omega

theorem frames_iff : a.Frames b ↔ ∀ axis, a.start axis ≤ b.start axis ∧ b.stop axis ≤ a.stop axis := by
  refine ⟨Frames.edges, fun h e => ?_⟩
  have hx := h .row
  have hy := h .column
  simp only [start, stop] at hx hy
  cases e <;> simp only [outset] <;> omega

theorem outset_meet (h : a.meet b = some c) (e : Side) : c.outset e = min (a.outset e) (b.outset e) := by
  obtain ⟨hl, ht, hr, hb, -⟩ := edges_meet h
  cases e <;> simp only [outset] <;> omega

theorem frames_meet (h : a.meet b = some c) : Frames a c ∧ Frames b c := by
  refine ⟨fun e => ?_, fun e => ?_⟩
  · rw [outset_meet h]
    exact min_le_left _ _
  · rw [outset_meet h]
    exact min_le_right _ _

theorem outset_join (a b : Box) (e : Side) : (a.join b).outset e = max (a.outset e) (b.outset e) := by
  obtain ⟨hl, ht, hr, hb⟩ := edges_join a b
  cases e <;> simp only [outset] <;> omega

/-- The smallest box around some others: each of its edges is the edge of one of them. -/
structure Around (b : Box) (bs : List Box) : Prop where
  frames : ∀ c ∈ bs, b.Frames c
  tight : ∀ e, ∃ c ∈ bs, c.outset e = b.outset e

theorem Around.perm {bs cs : List Box} (h : Around b bs) (hp : bs.Perm cs) : Around b cs where
  frames := fun c hc => h.frames c (hp.mem_iff.2 hc)
  tight := by
    intro e
    obtain ⟨c, hc, he⟩ := h.tight e
    exact ⟨c, hp.mem_iff.1 hc, he⟩

theorem Around.join {bs : List Box} (h : Around b bs) (c : Box) : Around (b.join c) (bs ++ [c]) where
  frames := by
    intro d hd e
    rw [outset_join]
    rcases List.mem_append.1 hd with hd | hd
    · exact (h.frames d hd e).trans (le_max_left _ _)
    · rw [List.mem_singleton.1 hd]
      exact le_max_right _ _
  tight := by
    intro e
    rw [outset_join]
    rcases le_total (b.outset e) (c.outset e) with hle | hle
    · exact ⟨c, by simp, (max_eq_right hle).symm⟩
    · obtain ⟨d, hd, he⟩ := h.tight e
      exact ⟨d, List.mem_append_left _ hd, he.trans (max_eq_left hle).symm⟩

theorem around_hull {bs : List Box} (h : bs ≠ []) : Around (hull bs) bs := by
  have key (cs ds : List Box) (b : Box) (hb : Around b ds) : Around (cs.foldl Box.join b) (ds ++ cs) := by
    induction cs generalizing b ds with
    | nil =>
      rw [List.append_nil]
      exact hb
    | cons c cs ih =>
      have hj := ih (ds ++ [c]) (b.join c) (hb.join c)
      rw [List.append_assoc] at hj
      exact hj
  obtain ⟨b, bs, rfl⟩ := List.exists_cons_of_ne_nil h
  exact key bs [b] b ⟨by simp [Frames.refl], fun e => ⟨b, by simp, rfl⟩⟩

/-- From one box over boxes of the multiset, each of them once and the same as the one before it. -/
inductive Leads : Multiset Box → Box → Box → Prop where
  | refl (l : Multiset Box) (a : Box) : Leads l a a
  | step {l : Multiset Box} {a b c : Box} (h : a.same b = true) (hs : Leads l b c) : Leads (b ::ₘ l) a c

theorem Leads.add (h : Leads l a b) (m : Multiset Box) : Leads (l + m) a b := by
  induction h with
  | refl => exact .refl _ _
  | step h _ ih =>
    rw [Multiset.cons_add]
    exact .step h ih

/-- Each box on the way adds at most a pixel. -/
theorem Leads.outset_le (h : Leads l a b) (e : Side) : b.outset e ≤ a.outset e + l.card := by
  induction h with
  | refl => omega
  | step h _ ih =>
    have := (same_iff.1 h e).2
    rw [Multiset.card_cons]
    push_cast
    omega

/-- Without a box that is the same and another one there is no way out. -/
theorem Leads.eq (h : Leads l a b) (hl : ∀ c ∈ l, a.same c = true → c = a) : b = a := by
  induction h with
  | refl => rfl
  | step h _ ih =>
    obtain rfl := hl _ (Multiset.mem_cons_self _ _) h
    exact ih fun c hc => hl c (Multiset.mem_cons_of_mem hc)

/-- On each edge the inner box sticks out by at most the tolerance of some box that the outer one leads to. -/
def Reaches (l : Multiset Box) (outer inner : Box) : Prop := ∀ e, ∃ b, Leads l outer b ∧ inner.outset e ≤ b.outset e + 1

theorem reaches_of_contains (h : outer.contains inner = true) (l : Multiset Box) : Reaches l outer inner :=
  fun e => ⟨outer, .refl _ _, contains_iff.1 h e⟩

theorem Frames.contains (h : Frames outer inner) : outer.contains inner = true := contains_iff.2 fun e => by
  have := h e
  omega

theorem Reaches.add (h : Reaches l outer inner) (m : Multiset Box) : Reaches (l + m) outer inner := by
  intro e
  obtain ⟨b, hb, he⟩ := h e
  exact ⟨b, hb.add m, he⟩

theorem Reaches.step (ho : outer.same a = true) (h : Reaches l a inner) : Reaches (l + {a}) outer inner := by
  intro e
  obtain ⟨b, hb, he⟩ := h e
  refine ⟨b, ?_, he⟩
  rw [Multiset.add_comm, Multiset.singleton_add]
  exact .step ho hb

/-- A box sticks out no further than the boxes that it lies around. -/
theorem Reaches.around {bs : List Box} (h : ∀ c ∈ bs, Reaches l outer c) (hb : b.Around bs) : Reaches l outer b := by
  intro e
  obtain ⟨c, hc, he⟩ := hb.tight e
  rw [← he]
  exact h c hc e

theorem Reaches.outset_le (h : Reaches l outer inner) (e : Side) :
    inner.outset e ≤ outer.outset e + (1 + l.card) := by
  obtain ⟨b, hb, he⟩ := h e
  have := hb.outset_le e
  omega

theorem Reaches.contains (h : Reaches l outer inner) (hl : ∀ c ∈ l, outer.same c = true → c = outer) :
    outer.contains inner = true := by
  refine contains_iff.2 fun e => ?_
  obtain ⟨b, hb, he⟩ := h e
  rw [hb.eq hl] at he
  exact he

end Box

end FlexRecovery
