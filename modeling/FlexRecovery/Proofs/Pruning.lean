import FlexRecovery.Proofs.Disguise.Agreement
import FlexRecovery.Recovery

/-!
Layers that are left out of a draft leave no trace in it: the recovery is that of the document without them.
-/

namespace FlexRecovery

namespace Layer

mutual

/-- Without the layers below it that have one of those names, and without all that is in them. -/
def without (names : List String) : Layer → Layer
  | ⟨t, children⟩ => ⟨t, withoutAll names children⟩

def withoutAll (names : List String) : List Layer → List Layer
  | [] => []
  | l :: ls => if names.contains l.traits.id.name then withoutAll names ls else without names l :: withoutAll names ls

end

end Layer

/-- The page itself stays, whatever its name. -/
def Document.without (names : List String) (d : Document) : Document := { d with page := d.page.without names }

/-- Nothing is left out by name. -/
def Options.inclusive (o : Options) : Options := { o with excluded := [] }

namespace Draft

open Journaled Layer

def Canvas.inclusive (c : Canvas) : Canvas := { c with options := c.options.inclusive }

/-- Two ways to draft the layers of an owner that leave the same journal and yield the same members in the same
order. A layer that yields nothing may be missing in one of them. -/
structure SameLevel (x y : Journaled (List Yield)) : Prop where
  journal : ∀ j, (x j).2 = (y j).2
  members : ∀ j (f : Yield → List Member), f {} = [] → (x j).1.flatMap f = (y j).1.flatMap f

namespace SameLevel

variable {x y : Journaled (List Yield)}

theorem refl (x : Journaled (List Yield)) : SameLevel x x := ⟨fun _ => rfl, fun _ _ _ => rfl⟩

theorem skip (h : SameLevel x y) : SameLevel (pure {} >>= fun a => x >>= fun ys => pure (a :: ys)) y where
  journal := h.journal
  members := by
    intro j f hf
    rw [← h.members j f hf]
    exact (List.flatMap_cons ..).trans (by rw [hf]; rfl)

theorem cons (h : SameLevel x y) (l : Journaled Yield) :
    SameLevel (l >>= fun a => x >>= fun ys => pure (a :: ys)) (l >>= fun a => y >>= fun ys => pure (a :: ys)) where
  journal := fun j => h.journal (l j).2
  members := by
    intro j f hf
    have hm := h.members (l j).2 f hf
    exact (List.flatMap_cons ..).trans ((congrArg (f (l j).1 ++ ·) hm).trans (List.flatMap_cons ..).symm)

/-- An owner sees of the layers in it only their members. -/
theorem bind (h : SameLevel x y) {α : Type} (g : List Member → List Member → α) :
    (x >>= fun below => pure (g (below.flatMap (·.own)) (below.flatMap (·.strays))) : Journaled α) =
      y >>= fun below => pure (g (below.flatMap (·.own)) (below.flatMap (·.strays))) := by
  funext j
  refine Prod.ext ?_ (h.journal j)
  have hown := h.members j (·.own) rfl
  have hstrays := h.members j (·.strays) rfl
  exact (congrArg (g · _) hown).trans (congrArg (g _) hstrays)

end SameLevel

variable (c : Canvas)

theorem keeps_inclusive (id : DesignId) : c.inclusive.options.keeps id = c.options.keeps id := rfl

theorem strict_inclusive : c.inclusive.options.strict = c.options.strict := rfl

theorem place_inclusive (b : RawBox) : c.inclusive.place b = c.place b := rfl

/-- What a layer yields with its member and the strays below it. -/
def yielding (stray : Bool) (member : Member) (strays : List Member) : Yield :=
  if stray then { strays := member :: strays } else { own := [member], strays }

/-- A layer that is drafted, on a box that is its own, and the layers in it. -/
theorem drafted_congr {c : Canvas} {children pruned : List Layer}
    (hs : ∀ box opacity, SameLevel (layers c box false opacity children) (layers c.inclusive box false opacity pruned))
    (onPage stray : Bool) (t : LayerTraits) (box : Box) (opacity : Float32) :
    (do
      let n ← node c onPage t box opacity
      let below ← if descends c onPage t n then layers c box false opacity children else pure []
      return yielding stray (linkOf c onPage t, assembled n (below.flatMap (·.own))) (below.flatMap (·.strays))) =
    (do
      let n ← node c.inclusive onPage t box opacity
      let below ← if descends c.inclusive onPage t n then layers c.inclusive box false opacity pruned else pure []
      return yielding stray (linkOf c.inclusive onPage t, assembled n (below.flatMap (·.own)))
        (below.flatMap (·.strays)) : Journaled Yield) := by
  refine bind_congr fun n => ite_congr rfl (fun _ => ?_) fun _ => rfl
  exact (hs box opacity).bind fun own strays => yielding stray (linkOf c onPage t, assembled n own) strays

/-- A layer whose name is not excluded, when nothing in it depends on the names that are. -/
theorem layer_congr {t : LayerTraits} {children pruned : List Layer} (h : c.options.excludes t.id = false)
    (hs : ∀ box opacity, SameLevel (layers c box false opacity children) (layers c.inclusive box false opacity pruned))
    (owner : Box) (onPage : Bool) (inherited : Float32) :
    layer c owner onPage inherited ⟨t, children⟩ = layer c.inclusive owner onPage inherited ⟨t, pruned⟩ := by
  have hp : c.inclusive.options.excludes t.id = false := rfl
  rw [layer, layer]
  dsimp only
  rw [h, hp, keeps_inclusive, strict_inclusive, place_inclusive]
  cases c.place t.box with
  | none => rfl
  | some placed =>
    dsimp only
    have body := drafted_congr hs onPage ((placed.meet owner).isNone && !onPage) t ((placed.meet owner).getD placed)
      (inherited * Single.unit t.opacity)
    refine ite_congr rfl (fun _ => rfl) fun _ => ite_congr rfl (fun _ => rfl) fun _ =>
      ite_congr rfl (fun _ => rfl) fun _ => ite_congr rfl (fun _ => ?_) fun _ => body
    exact bind_congr fun _ => body

mutual

theorem layer_inclusive : (l : Layer) → c.options.excludes l.traits.id = false →
    ∀ owner onPage inherited, layer c owner onPage inherited l =
      layer c.inclusive owner onPage inherited (l.without c.options.excluded)
  | ⟨t, children⟩, h => by
    rw [Layer.without]
    exact layer_congr c h fun box opacity => layers_inclusive children box false opacity

theorem layers_inclusive : (ls : List Layer) → ∀ owner onPage inherited,
    SameLevel (layers c owner onPage inherited ls)
      (layers c.inclusive owner onPage inherited (withoutAll c.options.excluded ls))
  | [], _, _, _ => by
    rw [withoutAll, layers, layers]
    exact .refl _
  | l :: ls, owner, onPage, inherited => by
    rw [layers, withoutAll]
    have hs := layers_inclusive ls owner onPage inherited
    split
    · next hx =>
      obtain ⟨t, children⟩ := l
      have hl : layer c owner onPage inherited ⟨t, children⟩ = pure {} := by
        rw [layer]
        exact if_pos hx
      rw [hl]
      exact hs.skip
    · next hx =>
      rw [layers, layer_inclusive l (Bool.eq_false_iff.2 hx)]
      exact hs.cons _

end

theorem ofPage_inclusive (o : Options) (d : Document) :
    ofPage o d = ofPage o.inclusive (d.without o.excluded) := by
  obtain ⟨width, height, t, children⟩ := d
  refine bind_congr fun n => ?_
  have hs := layers_inclusive ⟨o, .ofSize 0 0 (Single.nearest width) (Single.nearest height), t.box.left, t.box.top⟩
    children (.ofSize 0 0 (Single.nearest width) (Single.nearest height)) true (Single.unit t.opacity)
  funext j
  have hm := hs.members j (fun y => y.own ++ y.strays) rfl
  refine Prod.ext ?_ (hs.journal j)
  exact congrArg (fun ms => (⟨n, flowOf ms, attachedOf ms⟩ : Tree)) hm

end Draft

namespace Ghosts

variable {o o' : Options}

mutual

theorem unwrap_congr (h : isGhost o = isGhost o') : (t : Tree) → unwrap o t = unwrap o' t
  | ⟨n, flow, attached⟩ => by
    rw [unwrap, unwrap, h, unwrapAll_congr h flow, unwrapAttached_congr h attached]

theorem unwrapAll_congr (h : isGhost o = isGhost o') : (ts : List Tree) → unwrapAll o ts = unwrapAll o' ts
  | [] => by rw [unwrapAll, unwrapAll]
  | t :: ts => by rw [unwrapAll, unwrapAll, unwrap_congr h t, unwrapAll_congr h ts]

theorem unwrapAttached_congr (h : isGhost o = isGhost o') :
    (ts : List Tree) → unwrapAttached o ts = unwrapAttached o' ts
  | [] => by rw [unwrapAttached, unwrapAttached]
  | ⟨n, flow, attached⟩ :: ts => by
    rw [unwrapAttached, unwrapAttached, unwrapAll_congr h flow, unwrapAttached_congr h attached,
      unwrapAttached_congr h ts]

end

theorem remove_congr (h : isGhost o = isGhost o') (t : Tree) : remove o t = remove o' t := by
  unfold remove
  rw [unwrapAll_congr h, unwrapAttached_congr h]

end Ghosts

namespace Recovery

theorem complete_inclusive (o : Options) (t : Tree) (j : Journal) : complete o t j = complete o.inclusive t j := by
  have hc : cleaned o t = cleaned o.inclusive t := by
    have hg : Ghosts.isGhost o = Ghosts.isGhost o.inclusive := rfl
    have hr := Ghosts.remove_congr hg t
    unfold cleaned
    rw [hr]
    rfl
  have hr : Resolve.tree o = Resolve.tree o.inclusive := Resolve.tree_congr ⟨rfl, rfl, .inl rfl, .inl rfl⟩
  unfold complete
  rw [hc, hr]
  rfl

/-- Excluding layers is deleting them from the document: the same failure, or the same tree and the same findings. -/
theorem ofDocument_excluded (o : Options) (d : Document) :
    ofDocument o d = ofDocument { o with excluded := [] } (d.without o.excluded) := by
  obtain ⟨width, height, t, children⟩ := d
  have hd := Draft.ofPage_inclusive o ⟨width, height, t, children⟩
  unfold ofDocument
  rw [hd]
  exact bind_congr fun _ => complete_inclusive o _ _

end Recovery

end FlexRecovery
