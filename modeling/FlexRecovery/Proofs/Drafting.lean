import FlexRecovery.Proofs.Drafted

/-!
A draft holds at most one node for each layer of the document, and the nodes and spans of a draft are numbered
without gaps.
-/

namespace FlexRecovery

namespace Layer

mutual

/-- What the layer and all layers inside it state about themselves. -/
def inside : Layer → List LayerTraits
  | ⟨t, children⟩ => t :: insideAll children

def insideAll : List Layer → List LayerTraits
  | [] => []
  | l :: ls => inside l ++ insideAll ls

end

end Layer

namespace Draft

open Node Tree Regroup

/-- Trees that were drafted from some of the layers. -/
structure Sketch (ls : Multiset LayerTraits) (c : Nat) (ts : List Tree) (c' : Nat) : Prop where
  numbered : Numbered (censusAll ts) c c'
  drafted : ∃ ms ≤ ls, Multiset.Rel Drafted ms (censusAll ts)
  content : ∀ t ∈ ts, t.Every fun s => s.node.isContent = true → s.members = []

theorem sketch_nil (ls : Multiset LayerTraits) (c : Nat) : Sketch ls c [] c where
  numbered := numbered_zero c
  drafted := ⟨0, Multiset.zero_le _, .zero⟩
  content := by simp

theorem Sketch.append {ls ls' : Multiset LayerTraits} {c c' c'' : Nat} {ts us : List Tree}
    (h : Sketch ls c ts c') (h' : Sketch ls' c' us c'') : Sketch (ls + ls') c (ts ++ us) c'' where
  numbered := by
    rw [censusAll_append]
    exact h.numbered.add h'.numbered
  drafted := by
    obtain ⟨ms, hms, hr⟩ := h.drafted
    obtain ⟨ms', hms', hr'⟩ := h'.drafted
    rw [censusAll_append]
    exact ⟨ms + ms', add_le_add hms hms', hr.add hr'⟩
  content := by
    intro t ht
    exact (List.mem_append.1 ht).elim (h.content t) (h'.content t)

theorem Sketch.perm {ls : Multiset LayerTraits} {c c' : Nat} {ts us : List Tree} (h : Sketch ls c ts c')
    (hp : ts.Perm us) : Sketch ls c us c' where
  numbered := by
    rw [← censusAll_perm hp]
    exact h.numbered
  drafted := by
    rw [← censusAll_perm hp]
    exact h.drafted
  content := fun t ht => h.content t (hp.mem_iff.2 ht)

theorem marked_marked (n : Node) : n.Marked (marked n) := by
  unfold marked
  dsimp only
  split
  · exact (marked_addRole n (r := .divider) rfl).trans ⟨.of_roles (.of_layout rfl) rfl rfl rfl fun _ => ⟨rfl, rfl⟩, rfl, rfl, rfl⟩
  · exact .refl n

theorem alike_marked (n : Node) : n.Alike (marked n) := (marked_marked n).toAlike

theorem Drafted.alike {t : LayerTraits} {n n' : Node} (h : Drafted t n) (hn : n.Alike n') : Drafted t n' where
  id := hn.kept.1.id.trans h.id
  direction := hn.direction.trans h.direction
  preset := (isPreset_of_alike hn).trans h.preset
  pending := hn.pending h.pending
  span := by
    rw [hn.tag]
    exact h.span
  text := by
    rw [hn.kept.1.isText, plain_congr hn.kept.1.text]
    exact h.text

theorem censusAll_flowOf_attachedOf (ms : List Member) :
    censusAll (flowOf ms) + censusAll (attachedOf ms) = censusAll (ms.map (·.2)) := by
  induction ms with
  | nil => rfl
  | cons m ms ih =>
    obtain ⟨link, t⟩ := m
    rw [List.map_cons, censusAll_cons, ← ih]
    cases link
    · rw [show flowOf ((.flow, t) :: ms) = t :: flowOf ms from rfl, censusAll_cons, add_assoc]
      rfl
    · rw [show attachedOf ((.attached, t) :: ms) = t :: attachedOf ms from rfl, censusAll_cons, add_left_comm]
      rfl

theorem mem_flowOf_attachedOf {ms : List Member} {t : Tree} (h : t ∈ flowOf ms ++ attachedOf ms) :
    t ∈ ms.map (·.2) := by
  simp only [flowOf, attachedOf, List.mem_append, List.mem_filterMap] at h
  rw [List.mem_map]
  rcases h with ⟨m, hm, ht⟩ | ⟨m, hm, ht⟩
  · refine ⟨m, hm, ?_⟩
    split at ht
    · exact Option.some.inj ht
    · cases ht
  · refine ⟨m, hm, ?_⟩
    split at ht
    · cases ht
    · exact Option.some.inj ht

/-- A node is drafted before its members, and other trees are found with them. -/
theorem Sketch.owner {t : LayerTraits} {ls : Multiset LayerTraits} {n n' : Node} {c c' c'' : Nat} {ms : List Member}
    {us : List Tree} (hn : Draws t c n c') (hn' : n.Alike n') (h : Sketch ls c' (ms.map (·.2) ++ us) c'')
    (hc : n.isContent = true → ms = []) :
    Sketch (t ::ₘ ls) c (⟨n', flowOf ms, attachedOf ms⟩ :: us) c'' := by
  have hcensus : censusAll (⟨n', flowOf ms, attachedOf ms⟩ :: us) = {n'} + censusAll (ms.map (·.2) ++ us) := by
    rw [censusAll_cons, census_mk, censusAll_flowOf_attachedOf, censusAll_append, Multiset.singleton_add,
      Multiset.cons_add]
  refine ⟨?_, ?_, fun u hu => ?_⟩
  · rw [hcensus]
    exact (hn.numbered.later hn'.kept.1).add h.numbered
  · obtain ⟨ms', hms, hr⟩ := h.drafted
    rw [hcensus, Multiset.singleton_add]
    exact ⟨t ::ₘ ms', Multiset.cons_le_cons t hms, .cons (hn.drafted.alike hn') hr⟩
  · rcases List.mem_cons.1 hu with rfl | hu
    · refine every_iff.2 ⟨fun hcont => ?_, fun m hm => ?_⟩
      · rw [hc (by rw [isContent, ← hn'.tag]; exact hcont)]
        rfl
      · exact h.content m (List.mem_append_left _ (mem_flowOf_attachedOf hm))
    · exact h.content u (List.mem_append_right _ hu)

/-- A step that drafts trees from some of the layers. -/
def Sketching {α : Type} (trees : α → List Tree) (ls : Multiset LayerTraits) (x : Journaled α) : Prop :=
  ∀ j, Sketch ls j.created (trees (x j).1) (x j).2.created

/-- All that a layer yields. -/
def Yield.trees (y : Yield) : List Tree := (y.own ++ y.strays).map (·.2)

def yielded (ys : List Yield) : List Tree := ys.flatMap Yield.trees

theorem sketching_pure {α : Type} {trees : α → List Tree} {ls : Multiset LayerTraits} {a : α} (h : trees a = []) :
    Sketching trees ls (pure a) := by
  intro j
  rw [show (pure a : Journaled α) j = (a, j) from rfl, h]
  exact sketch_nil ls _

theorem Sketching.warned {α : Type} {trees : α → List Tree} {ls : Multiset LayerTraits} {c : Prop} [Decidable c]
    {x : PUnit → Journaled α} (node : Option DesignId) (rule message : String) (hx : ∀ u, Sketching trees ls (x u)) :
    Sketching trees ls (if c then Journal.warn node rule message >>= x else x ()) := by
  split
  · exact fun j => hx () (Journal.warn node rule message j).2
  · exact hx ()

theorem perm_yielded (ys : List Yield) :
    (yielded ys).Perm ((ys.flatMap (·.own)).map (·.2) ++ (ys.flatMap (·.strays)).map (·.2)) := by
  induction ys with
  | nil => exact .nil
  | cons y ys ih =>
    simp only [yielded, List.flatMap_cons, List.map_append, Yield.trees, List.append_assoc] at ih ⊢
    exact List.Perm.append_left _ ((List.Perm.append_left _ ih).trans (List.perm_append_comm_assoc _ _ _))

/-- What a layer yields, once its node and all below it are drafted. -/
theorem Sketch.member {t : LayerTraits} {ls : Multiset LayerTraits} {n : Node} {c c' c'' : Nat}
    {below : List Yield} (hn : Draws t c n c') (h : Sketch ls c' (yielded below) c'')
    (hc : n.isContent = true → below = []) (link : Link) (stray : Bool) :
    Sketch (t ::ₘ ls) c (Yield.trees (
      let member : Member := (link, assembled n (below.flatMap (·.own)))
      let strays := below.flatMap (·.strays)
      if stray then { strays := member :: strays } else { own := [member], strays })) c'' := by
  have halike (ms : List Member) : n.Alike (if (flowOf ms).isEmpty then marked n else n) := by
    split
    · exact alike_marked n
    · exact .refl n
  have hown (h : n.isContent = true) : below.flatMap (·.own) = [] := by
    rw [hc h]
    rfl
  have hs := Sketch.owner hn (halike (below.flatMap (·.own))) (h.perm (perm_yielded below)) hown
  cases stray
  · exact hs
  · exact hs

mutual

theorem sketching_layer (cv : Canvas) (owner : Box) (onPage : Bool) (inherited : Float32) :
    (l : Layer) → Sketching Yield.trees l.inside (layer cv owner onPage inherited l)
  | ⟨t, children⟩ => by
    rw [layer]
    dsimp only
    split
    · exact sketching_pure rfl
    split
    · exact fun j => sketch_nil _ _
    split
    · exact sketching_pure rfl
    split
    · exact sketching_pure rfl
    · next placed _ =>
      refine .warned _ _ _ fun _ j => ?_
      rw [Journaled.run_bind]
      have hn := drafting_node cv onPage t ((placed.meet owner).getD placed) (inherited * Single.unit t.opacity) j
      split
      · next hd =>
        refine Sketch.member hn (sketching_layers cv _ false _ children _) (fun h => ?_) _ _
        simp [descends, h] at hd
      · have hb (c : Nat) : Sketch (Layer.insideAll children) c (yielded []) c := sketch_nil _ c
        exact Sketch.member hn (hb _) (fun _ => rfl) (linkOf cv onPage t) ((placed.meet owner).isNone && !onPage)

theorem sketching_layers (cv : Canvas) (owner : Box) (onPage : Bool) (inherited : Float32) :
    (ls : List Layer) → Sketching yielded (Layer.insideAll ls) (layers cv owner onPage inherited ls)
  | [] => sketching_pure rfl
  | l :: ls => by
    intro j
    have h := sketching_layer cv owner onPage inherited l j
    have hs := sketching_layers cv owner onPage inherited ls (layer cv owner onPage inherited l j).2
    have hrun : layers cv owner onPage inherited (l :: ls) j =
        let y := layer cv owner onPage inherited l j
        let ys := layers cv owner onPage inherited ls y.2
        (y.1 :: ys.1, ys.2) := by
      rw [layers]
      rfl
    rw [hrun]
    exact h.append hs

end

theorem drafting_pageNode (t : LayerTraits) (page : Box) (opacity : Float32) :
    Drafting t (pageNode t page opacity) := by
  intro j
  have hj : (pageNode t page opacity j).2.created = j.created + 1 :=
    quiet_fillClasses t.fill opacity (some t.id) { j with created := j.created + 1 }
  rw [hj]
  have hb : Based t .view j.created (pageNode t page opacity j).1 :=
    ⟨rfl, rfl, rfl, rfl, rfl, ⟨rfl, rfl, fun _ => ⟨rfl, rfl⟩⟩⟩
  exact hb.draws (by simp) (by simp) rfl

theorem sketch_ofPage (o : Options) (d : Document) (j : Journal) :
    Sketch d.page.inside j.created [(ofPage o d j).1] (ofPage o d j).2.created := by
  obtain ⟨width, height, t, children⟩ := d
  let page := Box.ofSize 0 0 (Single.nearest width) (Single.nearest height)
  let n := pageNode t page (Single.unit t.opacity) j
  let ys := layers ⟨o, page, t.box.left, t.box.top⟩ page true (Single.unit t.opacity) children n.2
  have hn : Draws t j.created n.1 n.2.created := drafting_pageNode t page (Single.unit t.opacity) j
  have hs : Sketch (Layer.insideAll children) n.2.created (yielded ys.1) ys.2.created :=
    sketching_layers _ page true _ children n.2
  have hm : yielded ys.1 = (ys.1.flatMap fun y => y.own ++ y.strays).map (·.2) ++ [] := by
    rw [List.append_nil, List.map_flatMap]
    rfl
  rw [hm] at hs
  exact Sketch.owner hn (.refl _) hs fun h => by cases h

theorem Sketch.exists_layer {ls : Multiset LayerTraits} {c c' : Nat} {ts : List Tree} (h : Sketch ls c ts c')
    {n : Node} (hn : n ∈ censusAll ts) : ∃ t ∈ ls, Drafted t n := by
  obtain ⟨ms, hms, hr⟩ := h.drafted
  obtain ⟨t, ht, hd⟩ := Multiset.exists_mem_of_rel_of_mem (Multiset.rel_flip.2 hr) hn
  exact ⟨t, Multiset.mem_of_le hms ht, hd⟩

theorem Sketch.index_lt {ls : Multiset LayerTraits} {c c' : Nat} {ts : List Tree} (h : Sketch ls c ts c')
    {n : Node} (hn : n ∈ censusAll ts) : n.index < c' := by
  have hi : n.index ∈ (censusAll ts).bind fun n => (n.indices : Multiset Nat) :=
    Multiset.mem_bind.2 ⟨n, hn, n.index_mem_indices⟩
  rw [← Multiset.mem_range, ← h.numbered]
  exact Multiset.mem_add.2 (.inl hi)

/-- Every node of a draft stands for a layer, and nothing has been grouped. -/
structure Raw (k : Nat) (t : Tree) : Prop where
  old : t.node.index < k
  layer : t.node.id.isSome = true
  direction : t.node.direction = none
  preset : isPreset t.node = false
  pending : t.node.Pending
  span : t.node.tag ≠ .span
  content : t.node.isContent = true → t.members = []

theorem Raw.alike {k : Nat} {t r : Tree} (h : Raw k t) (hn : t.node.Alike r.node)
    (hm : t.members = [] → r.members = []) : Raw k r where
  old := by
    rw [hn.kept.1.index]
    exact h.old
  layer := by
    rw [hn.kept.1.id]
    exact h.layer
  direction := hn.direction.trans h.direction
  preset := (isPreset_of_alike hn).trans h.preset
  pending := hn.pending h.pending
  span := by
    rw [hn.tag]
    exact h.span
  content := by
    rw [isContent, hn.tag]
    exact fun hc => hm (h.content hc)

theorem Sketch.raw {ls : Multiset LayerTraits} {c c' : Nat} {ts : List Tree} (h : Sketch ls c ts c') :
    ∀ t ∈ ts, t.Every (Raw c') := by
  intro t ht s hs
  have hmem : s.node ∈ censusAll ts := mem_censusAll.2 ⟨t, ht, mem_census.2 ⟨s, hs, rfl⟩⟩
  obtain ⟨l, -, hd⟩ := h.exists_layer hmem
  refine ⟨h.index_lt hmem, ?_, hd.direction, hd.preset, hd.pending, hd.span, h.content t ht s hs⟩
  rw [hd.id, Option.isSome_some]

end Draft

end FlexRecovery
