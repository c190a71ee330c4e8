import FlexRecovery.Draft
import FlexRecovery.Proofs.Journaled
import FlexRecovery.Proofs.Ledger

/-!
The node that is drafted from one layer: which layer it stands for, what it says, and which creation indices
it and its spans take.
-/

namespace FlexRecovery

open Node

namespace Journaled

variable {α β : Type}

/-- Creates no node, whatever it reports. -/
def Quiet (x : Journaled α) : Prop := ∀ j, (x j).2.created = j.created

theorem quiet_pure (a : α) : Quiet (pure a : Journaled α) := fun _ => rfl

theorem quiet_warn (node : Option DesignId) (rule message : String) : Quiet (Journal.warn node rule message) :=
  fun _ => rfl

theorem Quiet.bind {x : Journaled α} {f : α → Journaled β} (hx : x.Quiet) (hf : ∀ a, (f a).Quiet) :
    (x >>= f).Quiet := fun j => (hf (x j).1 (x j).2).trans (hx j)

theorem Quiet.ite {c : Prop} [Decidable c] {x y : Journaled α} (hx : x.Quiet) (hy : y.Quiet) :
    Quiet (if c then x else y) := by
  split
  · exact hx
  · exact hy

/-- A report that is made under a condition only. -/
theorem Quiet.warned {c : Prop} [Decidable c] {x : PUnit → Journaled α} (node : Option DesignId)
    (rule message : String) (hx : ∀ u, (x u).Quiet) :
    Quiet (if c then Journal.warn node rule message >>= x else x ()) :=
  .ite ((quiet_warn _ _ _).bind hx) (hx ())

end Journaled

section styling

open Journaled

theorem quiet_degraded (p : Paint) (node : Option DesignId) (rule what : String) :
    (p.degraded node rule what).Quiet := .warned _ _ _ fun _ => quiet_pure _

theorem quiet_gradient (g : LinearGradient) (opacity : Float32) (node : Option DesignId) :
    (g.classes opacity node).Quiet := by
  unfold LinearGradient.classes
  split
  · exact quiet_pure _
  · exact quiet_pure _
  · exact .warned _ _ _ fun _ => .warned _ _ _ fun _ => quiet_pure _

theorem quiet_fillClasses (fill : List Paint) (opacity : Float32) (node : Option DesignId) :
    (fillClasses fill opacity node).Quiet := by
  unfold fillClasses
  split
  · exact quiet_pure _
  · refine .warned _ _ _ fun _ => ?_
    split
    · exact quiet_pure _
    · exact quiet_gradient _ _ _

theorem quiet_border (borders : List Border) (opacity : Float32) (node : Option DesignId) :
    (Border.classes borders opacity node).Quiet := by
  unfold Border.classes
  split
  · exact quiet_pure _
  · refine .warned _ _ _ fun _ => .ite (.bind (quiet_degraded _ _ _ _) fun c => ?_) (quiet_pure _)
    split
    · exact quiet_pure _
    · exact quiet_pure _

theorem quiet_stroke (s : Stroke) (opacity : Float32) (node : Option DesignId) :
    (s.classes opacity node).Quiet := (quiet_border _ _ _).bind fun _ => quiet_pure _

theorem quiet_run (r : TextRun) (opacity : Float32) (node : Option DesignId) : (r.classes opacity node).Quiet :=
  (quiet_degraded _ _ _ _).bind fun _ => quiet_pure _

end styling

/-- The indices that these nodes and their spans took follow those that were taken before. -/
def Numbered (l : Multiset Node) (c c' : Nat) : Prop :=
  (l.bind fun n => (n.indices : Multiset Nat)) + Multiset.range c = Multiset.range c'

theorem numbered_zero (c : Nat) : Numbered 0 c c := zero_add _

theorem Numbered.add {l m : Multiset Node} {c c' c'' : Nat} (h : Numbered l c c') (h' : Numbered m c' c'') :
    Numbered (l + m) c c'' := by
  unfold Numbered at h h' ⊢
  rw [Multiset.add_bind, add_assoc, add_left_comm, h, h']

theorem Numbered.later {n n' : Node} {c c' : Nat} (h : Numbered {n} c c') (hn : n.Later n') : Numbered {n'} c c' := by
  unfold Numbered at h ⊢
  rw [Multiset.singleton_bind, hn.indices, ← h, Multiset.singleton_bind]

theorem numbered_singleton {n : Node} {c m : Nat} (h : n.indices = List.range' c m) : Numbered {n} c (c + m) := by
  unfold Numbered Multiset.range
  rw [Multiset.singleton_bind, h, add_comm, Multiset.coe_add, List.range_eq_range', List.range_eq_range']
  have hr := List.range'_append_1 (s := 0) (m := c) (n := m)
  rw [zero_add] at hr
  rw [hr]

namespace Node

theorem plain_of_literal {n : Node} {s : String} (h : n.text = some (.literal s)) : n.plain = some s := by
  cases n
  cases h
  rfl

theorem plain_of_spans {n : Node} {ns : List Node} (h : n.text = some (.spans ns)) :
    n.plain = some (plainAll ns) := by
  cases n
  cases h
  rfl

theorem plain_congr {m n : Node} (h : m.text = n.text) : m.plain = n.plain := by
  cases m with
  | mk _ _ _ _ _ _ _ _ _ _ _ t _ _ _ =>
    cases n
    cases h
    rcases t with _ | _ | _ <;> rfl

theorem indices_of_literal {n : Node} {s : String} (h : n.text = some (.literal s)) : n.indices = [n.index] := by
  cases n
  cases h
  rfl

theorem indices_of_spans {n : Node} {ns : List Node} (h : n.text = some (.spans ns)) :
    n.indices = n.index :: indicesAll ns := by
  cases n
  cases h
  rfl

end Node

namespace Draft

open Regroup

/-- What a node says about the layer it was drafted from. -/
structure Drafted (t : LayerTraits) (n : Node) : Prop where
  id : n.id = some t.id
  direction : n.direction = none
  preset : isPreset n = false
  pending : n.Pending
  span : n.tag ≠ .span
  text : n.isText = true →
    t.kind = .text ∧ ∃ rs, t.runs = some rs ∧ n.plain = some (String.join (rs.map (·.value)))

/-- A node with an index, before it is given its text. -/
structure Based (t : LayerTraits) (tag : Tag) (c : Nat) (n : Node) : Prop where
  id : n.id = some t.id
  index : n.index = c
  tag : n.tag = tag
  direction : n.direction = none
  preset : isPreset n = false
  pending : n.Pending

/-- Drafting this node from a layer, and how many indices that takes. -/
structure Draws (t : LayerTraits) (c : Nat) (n : Node) (c' : Nat) : Prop where
  drafted : Drafted t n
  numbered : Numbered {n} c c'

/-- A step that drafts a node from the layer. -/
def Drafting (t : LayerTraits) (x : Journaled Node) : Prop := ∀ j, Draws t j.created (x j).1 (x j).2.created

theorem Based.draws {t : LayerTraits} {tag : Tag} {c : Nat} {n : Node} (h : Based t tag c n) (ht : tag ≠ .text)
    (hs : tag ≠ .span) (hn : n.text = none) : Draws t c n (c + 1) where
  drafted := by
    refine ⟨h.id, h.direction, h.preset, h.pending, h.tag ▸ hs, fun htext => ?_⟩
    rw [isText, h.tag, beq_iff_eq] at htext
    exact absurd htext ht
  numbered := numbered_singleton (by rw [indices_of_no_text hn, h.index]; rfl)

/-- Sizes, tokens and content do not say what a node is based on. -/
theorem Based.revised {t : LayerTraits} {tag : Tag} {c : Nat} {n n' : Node} (h : Based t tag c n)
    (hn : n' = { n with
      width := n'.width, height := n'.height, classes := n'.classes, style := n'.style, text := n'.text,
      multiLine := n'.multiLine, lineHeight := n'.lineHeight, source := n'.source })
    (hw : n.width.isSome = true → n'.width.isSome = true) (hh : n.height.isSome = true → n'.height.isSome = true) :
    Based t tag c n' where
  id := by rw [hn]; exact h.id
  index := by rw [hn]; exact h.index
  tag := by rw [hn]; exact h.tag
  direction := by rw [hn]; exact h.direction
  preset := by rw [hn]; exact h.preset
  pending := h.pending.of_roles (by rw [hn]) (.imp hw hh)

/-- A node without a role. -/
theorem pending_of_empty {n : Node} (h : n.roles.toList = []) : n.Pending := by
  have without (r : Role) : n.hasRole r = false := by simp [hasRole, Distinct.contains, h]
  refine ⟨without _, without _, fun hc => ?_⟩
  rw [isChrome_eq, without, without] at hc
  cases hc

theorem based_styled (t : LayerTraits) (tag : Tag) (box : Box) (opacity : Float32) (j : Journal) :
    Based t tag j.created (styled t tag box opacity j).1 ∧ (styled t tag box opacity j).1.text = none ∧
      (styled t tag box opacity j).2.created = j.created + 1 := by
  refine ⟨⟨rfl, rfl, rfl, rfl, rfl, pending_of_empty rfl⟩, rfl, ?_⟩
  have hq : ((do
      let fill ← fillClasses t.fill opacity (some t.id)
      let stroke ← t.stroke.classes opacity (some t.id)
      return (fill, stroke)) : Journaled _).Quiet :=
    (quiet_fillClasses _ _ _).bind fun _ => (quiet_stroke _ _ _).bind fun _ => Journaled.quiet_pure _
  exact hq { j with created := j.created + 1 }

theorem drafting_chrome (cv : Canvas) (t : LayerTraits) (box : Box) (opacity : Float32) :
    Drafting t (chrome cv t box opacity) := by
  intro j
  obtain ⟨h, hn, hc⟩ := based_styled t .view box opacity j
  rw [show (chrome cv t box opacity j).2 = (styled t .view box opacity j).2 from rfl, hc]
  let r : Role := if close box.left cv.page.left && close box.top cv.page.top then .header else .safeArea
  have hr : r.isList = false ∧ r ≠ .tableRow ∧ r ≠ .spacer ∧ r ≠ .overflow := by
    simp only [r]
    split <;> simp [Role.isList]
  have without {s : Role} (hs : r ≠ s) (hf : (styled t .view box opacity j).1.hasRole s = false) :
      ((styled t .view box opacity j).1.addRole r).hasRole s = false := by
    rw [hasRole_addRole, hf, beq_false_of_ne hs.symm, Bool.or_false]
  have hb : Based t .view j.created (chrome cv t box opacity j).1 := {
    id := h.id, index := h.index, tag := h.tag, direction := h.direction
    preset := (isPreset_addRole _ hr.1 hr.2.1).trans h.preset
    pending := ⟨without hr.2.2.1 h.pending.spacer, without hr.2.2.2 h.pending.overflow, fun _ => ⟨rfl, rfl⟩⟩ }
  exact hb.draws (by simp) (by simp) hn

theorem drafting_view (t : LayerTraits) (box : Box) (opacity : Float32) :
    Drafting t (styled t .view box opacity) := by
  intro j
  obtain ⟨h, hn, hc⟩ := based_styled t .view box opacity j
  rw [hc]
  exact h.draws (by simp) (by simp) hn

theorem drafting_image (t : LayerTraits) (box : Box) (opacity : Float32) :
    Drafting t (image t box opacity) := by
  intro j
  obtain ⟨h, hn, hc⟩ := based_styled t .image box opacity j
  rw [show (image t box opacity j).2 = (styled t .image box opacity j).2 from rfl, hc]
  have hb : Based t .image j.created (image t box opacity j).1 := h.revised rfl (fun _ => rfl) fun _ => rfl
  exact hb.draws (by simp) (by simp) hn

theorem drafting_slice (t : LayerTraits) (box : Box) (opacity : Float32) :
    Drafting t (slice t box opacity) := by
  intro j
  obtain ⟨h, hn, hc⟩ := based_styled t .view box opacity j
  have hj : (slice t box opacity j).2.created = j.created + 1 := by
    rw [← hc]
    unfold slice
    cases t.bitmap <;> rfl
  have hb : Based t .view j.created (slice t box opacity j).1 := by
    unfold slice
    cases t.bitmap <;> exact h.revised rfl (fun _ => rfl) fun _ => rfl
  rw [hj]
  apply hb.draws (by simp) (by simp)
  unfold slice
  cases t.bitmap <;> exact hn

/-- The spans of a text say what its runs say, and are numbered in turn. -/
theorem spans_of_runs (t : LayerTraits) (box : Box) (opacity : Float32) (rs : List TextRun) (j : Journal) :
    plainAll (rs.mapM (span t box opacity) j).1 = String.join (rs.map (·.value)) ∧
      indicesAll (rs.mapM (span t box opacity) j).1 = List.range' j.created rs.length ∧
      (rs.mapM (span t box opacity) j).2.created = j.created + rs.length := by
  induction rs generalizing j with
  | nil => exact ⟨rfl, rfl, rfl⟩
  | cons r rs ih =>
    obtain ⟨hp, hi, hc⟩ := ih (span t box opacity r j).2
    have htext : (span t box opacity r j).1.text = some (.literal r.value) := rfl
    have hindex : (span t box opacity r j).1.index = j.created := rfl
    have hj : (span t box opacity r j).2.created = j.created + 1 :=
      quiet_run r opacity (some t.id) { j with created := j.created + 1 }
    rw [Journaled.run_mapM_cons]
    rw [hj] at hi hc
    refine ⟨?_, ?_, ?_⟩
    · rw [plainAll, plain_of_literal htext, hp, List.map_cons, String.join_cons]
      rfl
    · rw [indicesAll, indices_of_literal htext, hindex, hi]
      rfl
    · rw [hc, List.length_cons]
      omega

/-- With the alignment of the first run that states one. -/
def aligned (rs : List TextRun) (n : Node) : Node := (rs.findSome? (·.align)).elim n fun a => n.push a.token

/-- With its text: one string, or a span for each of several runs. -/
def worded (t : LayerTraits) (box : Box) (opacity : Float32) (rs : List TextRun) (n : Node) : Journaled Node :=
  match rs with
  | [] => pure { n with text := some (.literal "") }
  | [r] => do
    let classes ← r.classes opacity (some t.id)
    pure { dressed n classes r.font with text := some (.literal r.value) }
  | rs => do
    let spans ← rs.mapM (span t box opacity)
    pure { n with text := some (.spans spans) }

/-- A single line does not wrap. -/
def lined (multiLine : Bool) (n : Node) : Node :=
  if multiLine then { n with width := some .auto, height := some .auto }
  else { n.push "whitespace-nowrap" with height := some .fixed }

theorem text_eq (t : LayerTraits) (rs : List TextRun) (box : Box) (opacity : Float32) :
    text t rs box opacity = styled t .text box opacity >>= fun n =>
      worded t box opacity rs (aligned rs { n with
        lineHeight := some (lineHeight box rs), multiLine := isMultiLine (lineHeight box rs) box }) >>= fun n =>
        pure (lined (isMultiLine (lineHeight box rs) box) n) := by
  unfold text lined
  dsimp only
  generalize isMultiLine (lineHeight box rs) box = multiLine
  cases multiLine <;> rcases rs with _ | ⟨r, _ | ⟨r', rs⟩⟩ <;> rfl

theorem Based.aligned {t : LayerTraits} {tag : Tag} {c : Nat} {n : Node} (h : Based t tag c n) (rs : List TextRun) :
    Based t tag c (aligned rs n) := by
  unfold Draft.aligned
  cases rs.findSome? (·.align) with
  | none => exact h
  | some a => exact h.revised rfl (fun h => h) fun h => h

theorem Based.lined {t : LayerTraits} {tag : Tag} {c : Nat} {n : Node} (h : Based t tag c n) (multiLine : Bool) :
    Based t tag c (lined multiLine n) ∧ (lined multiLine n).text = n.text := by
  unfold Draft.lined
  split
  · exact ⟨h.revised rfl (fun _ => rfl) fun _ => rfl, rfl⟩
  · exact ⟨h.revised rfl (fun h => h) fun _ => rfl, rfl⟩

/-- A text says what its runs say, and its spans are numbered after it. -/
structure Words (rs : List TextRun) (c : Nat) (n : Node) (c' : Nat) : Prop where
  plain : n.plain = some (String.join (rs.map (·.value)))
  indices : n.indices = List.range' c (c' - c)
  lt : c < c'

theorem words_of_literal {rs : List TextRun} {n : Node} {c : Nat} (hi : n.index = c)
    (ht : n.text = some (.literal (String.join (rs.map (·.value))))) : Words rs c n (c + 1) where
  plain := plain_of_literal ht
  indices := by
    rw [indices_of_literal ht, hi, Nat.add_sub_cancel_left]
    rfl
  lt := Nat.lt_succ_self c

theorem Words.same_text {rs : List TextRun} {n n' : Node} {c c' : Nat} (h : Words rs c n c')
    (hi : n'.index = n.index) (ht : n'.text = n.text) : Words rs c n' c' where
  plain := (plain_congr ht).trans h.plain
  indices := (indices_congr hi ht).trans h.indices
  lt := h.lt

theorem Based.worded {t : LayerTraits} {n : Node} {j : Journal} {c : Nat} (h : Based t .text c n)
    (hj : j.created = c + 1) (box : Box) (opacity : Float32) (rs : List TextRun) :
    Based t .text c (worded t box opacity rs n j).1 ∧
      Words rs c (worded t box opacity rs n j).1 (worded t box opacity rs n j).2.created := by
  rcases rs with _ | ⟨r, _ | ⟨r', rs⟩⟩
  · refine ⟨h.revised rfl (fun h => h) fun h => h, ?_⟩
    rw [show (Draft.worded t box opacity [] n j).2.created = c + 1 from hj]
    exact words_of_literal h.index rfl
  · refine ⟨h.revised rfl (fun h => h) fun h => h, ?_⟩
    rw [show (Draft.worded t box opacity [r] n j).2.created = c + 1 from (quiet_run r opacity _ j).trans hj]
    refine words_of_literal h.index ?_
    rw [List.map_singleton, String.join_cons, String.join_nil, String.append_empty]
    rfl
  · obtain ⟨hp, hi, hc⟩ := spans_of_runs t box opacity (r :: r' :: rs) j
    have hrun : Draft.worded t box opacity (r :: r' :: rs) n j =
        ({ n with text := some (.spans ((r :: r' :: rs).mapM (span t box opacity) j).1) },
          ((r :: r' :: rs).mapM (span t box opacity) j).2) := rfl
    rw [hrun]
    refine ⟨h.revised rfl (fun h => h) fun h => h, ?_, ?_, ?_⟩
    · rw [plain_of_spans rfl, hp]
    · rw [indices_of_spans rfl, hi, hc, hj, Nat.add_assoc c 1, Nat.add_sub_cancel_left, Nat.add_comm 1,
        List.range'_succ]
      exact congrArg (· :: _) h.index
    · rw [hc]
      omega

theorem drafting_text (t : LayerTraits) (rs : List TextRun) (box : Box) (opacity : Float32)
    (hk : t.kind = .text) (hr : t.runs = some rs) : Drafting t (text t rs box opacity) := by
  intro j
  obtain ⟨h, -, hc⟩ := based_styled t .text box opacity j
  have hlines : Based t .text j.created { (styled t .text box opacity j).1 with
      lineHeight := some (lineHeight box rs), multiLine := isMultiLine (lineHeight box rs) box } :=
    h.revised rfl (fun h => h) fun h => h
  obtain ⟨hb, hw⟩ := (hlines.aligned rs).worded hc box opacity rs
  obtain ⟨hl, ht⟩ := hb.lined (isMultiLine (lineHeight box rs) box)
  have hw := hw.same_text (hl.index.trans hb.index.symm) ht
  rw [text_eq]
  refine ⟨⟨hl.id, hl.direction, hl.preset, hl.pending, fun hs => ?_, fun _ => ⟨hk, rs, hr, hw.plain⟩⟩, ?_⟩
  · cases hl.tag.symm.trans hs
  · have hnum := numbered_singleton hw.indices
    rw [Nat.add_sub_cancel' hw.lt.le] at hnum
    exact hnum

theorem drafting_node (cv : Canvas) (onPage : Bool) (t : LayerTraits) (box : Box) (opacity : Float32) :
    Drafting t (node cv onPage t box opacity) := by
  unfold node
  split
  · exact drafting_chrome cv t box opacity
  · split
    · next hk hr => exact drafting_text t _ box opacity hk hr
    · exact drafting_image t box opacity
    · exact drafting_slice t box opacity
    · exact drafting_view t box opacity

end Draft

end FlexRecovery
