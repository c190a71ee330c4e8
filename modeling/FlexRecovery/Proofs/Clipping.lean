import FlexRecovery.Proofs.Drafting
import FlexRecovery.Proofs.Reach

/-!
Boxes are clipped to their owner when they are drafted, so in a draft every member has an area and does not stick
out of its owner by a single pixel.
-/

namespace FlexRecovery

namespace Box

variable {a b c : Box}

/-- Has an area, and all of it lies in the other box. -/
structure Inside (outer inner : Box) : Prop where
  frames : outer.Frames inner
  width : 0 < inner.width
  height : 0 < inner.height

theorem Frames.inside (h : Frames a b) (h' : Inside b c) : Inside a c := ⟨h.trans h'.frames, h'.width, h'.height⟩

theorem inside_meet (h : a.meet b = some c) : Inside a c ∧ Inside b c := by
  obtain ⟨-, -, -, -, hw, hh⟩ := edges_meet h
  exact ⟨⟨(frames_meet h).1, hw, hh⟩, (frames_meet h).2, hw, hh⟩

end Box

namespace Tree

open Box

/-- Flow children and attached trees alike lie inside the box of their owner. -/
def Enclosing (t : Tree) : Prop := ∀ m ∈ t.members, Inside t.box m.box

/-- Lies inside a box, and so does everything below it in its own owner. -/
structure Lodged (b : Box) (t : Tree) : Prop where
  self : Inside b t.box
  below : t.Every Enclosing

theorem every_enclosing_iff {t : Tree} : t.Every Enclosing ↔ ∀ m ∈ t.members, Lodged t.box m := by
  rw [every_iff]
  exact ⟨fun h m hm => ⟨h.1 m hm, h.2 m hm⟩, fun h => ⟨fun m hm => (h m hm).self, fun m hm => (h m hm).below⟩⟩

/-- Whatever lies below the root lies inside each box that the root does not stick out of. -/
theorem inside_of_enclosing {page : Box} {t : Tree} (h : t.Every Enclosing) (hp : page.Frames t.box) :
    ∀ m ∈ t.members, m.Every fun s => Inside page s.box := by
  induction t using induction_members with
  | _ t ih =>
    intro m hm
    have hl := every_enclosing_iff.1 h m hm
    have hi := hp.inside hl.self
    exact every_iff.2 ⟨hi, ih m hm hl.below hi.frames⟩

end Tree

namespace Draft

open Node Tree Box Journaled

theorem box_text (t : LayerTraits) (rs : List TextRun) (box : Box) (opacity : Float32) :
    Gives (·.box = box) (text t rs box opacity) := by
  have haligned (n : Node) : (aligned rs n).box = n.box := by
    unfold aligned
    cases rs.findSome? (·.align) <;> rfl
  have hworded (n : Node) : Gives (·.box = n.box) (worded t box opacity rs n) := by
    rcases rs with _ | ⟨r, _ | ⟨r', rs⟩⟩ <;> exact fun _ => rfl
  have hlined (multiLine : Bool) (n : Node) : (lined multiLine n).box = n.box := by
    cases multiLine <;> rfl
  rw [text_eq]
  exact fun j => (hlined _ _).trans ((hworded _ _).trans (haligned _))

/-- A node gets the box that it is drafted for. -/
theorem box_node (cv : Canvas) (onPage : Bool) (t : LayerTraits) (box : Box) (opacity : Float32) :
    Gives (·.box = box) (node cv onPage t box opacity) := by
  unfold node
  split
  · exact fun _ => rfl
  · split
    · exact box_text t _ box opacity
    · exact fun _ => rfl
    · unfold slice
      cases t.bitmap <;> exact fun _ => rfl
    · exact fun _ => rfl

/-- What a layer yields lies on the page, and in the box of its owner if that is not the page. -/
structure Clipped (page owner : Box) (y : Yield) : Prop where
  own : ∀ m ∈ y.own, Lodged owner m.2
  strays : ∀ m ∈ y.strays, Lodged page m.2

/-- An owner with members that were clipped to it. -/
theorem every_enclosing_owner {n : Node} {ms : List Member} (hm : ∀ m ∈ ms, Lodged n.box m.2) :
    Every Enclosing ⟨n, flowOf ms, attachedOf ms⟩ := by
  refine every_enclosing_iff.2 fun u hu => ?_
  obtain ⟨m, hmem, rfl⟩ := List.mem_map.1 (mem_flowOf_attachedOf hu)
  exact hm m hmem

theorem lodged_assembled {n : Node} {ms : List Member} {b : Box} (hb : b.Inside n.box)
    (hm : ∀ m ∈ ms, Lodged n.box m.2) : Lodged b (assembled n ms) := by
  have hmarked : (marked n).box = n.box := (alike_marked n).kept.2
  unfold assembled
  split
  · rw [← hmarked] at hb hm
    exact ⟨hb, every_enclosing_owner hm⟩
  · exact ⟨hb, every_enclosing_owner hm⟩

/-- A layer that shares nothing with its owner keeps its box on the page, and leaves. -/
theorem clipped_member {page owner placed : Box} {n : Node} {below : List Yield} {onPage : Bool}
    (hplaced : page.Inside placed) (ho : onPage = true → owner = page) (hn : n.box = (placed.meet owner).getD placed)
    (hbelow : ∀ y ∈ below, Clipped page n.box y) (link : Link) :
    Clipped page owner (
      let member : Member := (link, assembled n (below.flatMap (·.own)))
      let strays := below.flatMap (·.strays)
      if (placed.meet owner).isNone && !onPage then { strays := member :: strays }
      else { own := [member], strays }) := by
  have hown : ∀ m ∈ below.flatMap (·.own), Lodged n.box m.2 := by
    intro m hm
    obtain ⟨y, hy, hm⟩ := List.mem_flatMap.1 hm
    exact (hbelow y hy).own m hm
  have hstrays : ∀ m ∈ below.flatMap (·.strays), Lodged page m.2 := by
    intro m hm
    obtain ⟨y, hy, hm⟩ := List.mem_flatMap.1 hm
    exact (hbelow y hy).strays m hm
  cases hmeet : placed.meet owner with
  | some b =>
    have hn : n.box = b := by rw [hn, hmeet, Option.getD_some]
    have hb : owner.Inside n.box := hn ▸ (inside_meet hmeet).2
    exact ⟨List.forall_mem_singleton.2 (lodged_assembled hb hown), hstrays⟩
  | none =>
    have hn : n.box = placed := by rw [hn, hmeet, Option.getD_none]
    have hb : page.Inside n.box := hn ▸ hplaced
    cases onPage with
    | true =>
      rw [ho rfl]
      exact ⟨List.forall_mem_singleton.2 (lodged_assembled hb hown), hstrays⟩
    | false => exact ⟨by simp, List.forall_mem_cons.2 ⟨lodged_assembled hb hown, hstrays⟩⟩

theorem clipped_nothing (page owner : Box) : Clipped page owner {} := ⟨by simp, by simp⟩

mutual

theorem clipped_layer (cv : Canvas) (owner : Box) (onPage : Bool) (inherited : Float32)
    (ho : onPage = true → owner = cv.page) :
    (l : Layer) → Gives (Clipped cv.page owner) (layer cv owner onPage inherited l)
  | ⟨t, children⟩ => by
    rw [layer]
    dsimp only
    split
    · exact gives_pure (clipped_nothing _ _)
    split
    · exact fun _ => clipped_nothing _ _
    split
    · exact gives_pure (clipped_nothing _ _)
    split
    · exact gives_pure (clipped_nothing _ _)
    · next placed hplaced =>
      refine .warned _ _ _ fun _ => (box_node cv onPage t _ _).bind fun n hn => ?_
      have hmember (below : List Yield) (hb : ∀ y ∈ below, Clipped cv.page ((placed.meet owner).getD placed) y) :=
        clipped_member (inside_meet hplaced).2 ho hn (hn ▸ hb) (linkOf cv onPage t)
      split
      · exact (clipped_layers cv _ false _ (by simp) children).bind fun below hb => gives_pure (hmember below hb)
      · exact gives_pure (hmember [] (by simp))

theorem clipped_layers (cv : Canvas) (owner : Box) (onPage : Bool) (inherited : Float32)
    (ho : onPage = true → owner = cv.page) :
    (ls : List Layer) → Gives (∀ y ∈ ·, Clipped cv.page owner y) (layers cv owner onPage inherited ls)
  | [] => by
    rw [layers]
    exact gives_pure (by simp)
  | l :: ls => by
    rw [layers]
    exact (clipped_layer cv owner onPage inherited ho l).bind fun y hy =>
      (clipped_layers cv owner onPage inherited ho ls).bind fun ys hys =>
        gives_pure (List.forall_mem_cons.2 ⟨hy, hys⟩)

end

/-- The box of the page. -/
def canvas (d : Document) : Box := .ofSize 0 0 (Single.nearest d.width) (Single.nearest d.height)

theorem enclosing_ofPage (o : Options) (d : Document) :
    Gives (fun t => t.box = canvas d ∧ t.Every Enclosing) (ofPage o d) := by
  obtain ⟨width, height, t, children⟩ := d
  let page := canvas ⟨width, height, t, children⟩
  have hpage : Gives (·.box = page) (pageNode t page (Single.unit t.opacity)) := fun _ => rfl
  refine hpage.bind fun n hn => ?_
  have hlayers := clipped_layers ⟨o, page, t.box.left, t.box.top⟩ page true (Single.unit t.opacity) (fun _ => rfl)
    children
  refine hlayers.bind fun ys hys => gives_pure ⟨hn, every_enclosing_owner fun m hm => ?_⟩
  obtain ⟨y, hy, hm⟩ := List.mem_flatMap.1 hm
  rw [hn]
  exact (List.mem_append.1 hm).elim ((hys y hy).own m) ((hys y hy).strays m)

theorem frames_ofPage (o : Options) (d : Document) : Gives (Every (Flowing Frames)) (ofPage o d) :=
  fun j => (enclosing_ofPage o d j).2.mono fun _ h m hm => (h m (List.mem_append_left _ hm)).frames

end Draft

end FlexRecovery
