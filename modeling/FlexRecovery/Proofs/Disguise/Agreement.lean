import FlexRecovery.Proofs.Disguise.Resolving

/-!
Two trees that look alike, each in its disguise, are resolved to trees that look alike, and with the same findings,
also under options that differ in nothing but tokens that both disguises leave out.
-/

namespace FlexRecovery.Resolve

open Tree Journaled

/-- Options that differ in nothing but tokens that are left out. -/
structure Agree (drops : String → Bool) (o o' : Options) : Prop where
  items : o.fixedListItems = o'.fixedListItems
  bounds : o.boundOverflow = o'.boundOverflow
  scrolls : o.scrollLists = o'.scrollLists ∨ drops "overflow-x-auto" = true ∧ drops "overflow-y-auto" = true
  clamps : o.clampText = o'.clampText ∨ ∀ k, drops ("line-clamp-" ++ k) = true

variable {d e : Disguise} {o o' : Options}

section nodes

variable {n n' : Node} (hn : n.recast d = n'.recast e)

include hn

/-- What does not see through a disguise sees the same in nodes that look alike. -/
theorem alike_reading {α : Type} {f : Node → α} (hf : ∀ d n, f (Node.recast d n) = f n) : f n = f n' := by
  rw [← hf d, hn, hf e]

theorem alike_push (hde : d.drops = e.drops) (token : String) :
    (n.push token).recast d = (n'.push token).recast e := by
  rw [Node.recast_push, Node.recast_push, hn, hde]

theorem alike_scrolling (hde : d.drops = e.drops) (ho : Agree d.drops o o') :
    (scrolling o n).recast d = (scrolling o' n').recast e := by
  rcases ho.scrolls with h | ⟨hx, hy⟩
  · unfold scrolling
    rw [h, alike_reading (f := (·.hasRole .listX)) hn fun d n => Node.hasRole_recast d n _,
      alike_reading (f := (·.hasRole .listY)) hn fun d n => Node.hasRole_recast d n _]
    split
    · exact hn
    · split
      · exact alike_push hn hde _
      · split
        · exact alike_push hn hde _
        · exact hn
  · have hidden (d : Disguise) (hx : d.drops "overflow-x-auto" = true) (hy : d.drops "overflow-y-auto" = true)
        (o : Options) (n : Node) : (scrolling o n).recast d = n.recast d := by
      unfold scrolling
      split
      · rfl
      · split
        · rw [Node.recast_push, hx, if_pos rfl]
        · split
          · rw [Node.recast_push, hy, if_pos rfl]
          · rfl
    rw [hidden d hx hy, hidden e (hde ▸ hx) (hde ▸ hy), hn]

theorem alike_clamped (hde : d.drops = e.drops) (ho : Agree d.drops o o') :
    (clamped o n).recast d = (clamped o' n').recast e := by
  rcases ho.clamps with h | h
  · unfold clamped
    rw [h, alike_reading hn Node.lineHeight_recast, alike_reading (f := (·.box.height)) hn fun d n => by simp]
    split
    · split
      · exact alike_push hn hde _
      · exact hn
    · exact hn
  · have hidden (d : Disguise) (h : ∀ k, d.drops ("line-clamp-" ++ k) = true) (o : Options) (n : Node) :
        (clamped o n).recast d = n.recast d := by
      unfold clamped
      split
      · split
        · rw [Node.recast_push, h, if_pos rfl]
        · rfl
      · rfl
    rw [hidden d h, hidden e (hde ▸ h), hn]

end nodes

section slots

variable (hde : d.drops = e.drops) (ho : Agree d.drops o o')

include hde ho

theorem alike_slot {owner owner' n n' : Node} (hw : owner.recast d = owner'.recast e) (direction : Axis)
    (hn : n.recast d = n'.recast e) {next next' : Option Node}
    (hnext : next.map (Node.recast d) = next'.map (Node.recast e)) :
    Slot.recast d <$> slot o owner direction n next = Slot.recast e <$> slot o' owner' direction n' next' := by
  have hs := alike_scrolling hn hde ho
  have ht := alike_push hs hde "truncate"
  have single {m m' : Node} (hm : m.recast d = m'.recast e) :
      Slot.recast d <$> (pure { node := m } : Journaled Slot) = Slot.recast e <$> pure { node := m' } := by
    rw [map_pure, map_pure, Slot.recast, Slot.recast, hm]
    rfl
  unfold slot
  dsimp only
  rw [ho.bounds, alike_reading hs Node.isText_recast, alike_reading hs Node.multiLine_recast,
    alike_reading hs Node.width_recast, alike_reading (f := (·.hasRole .overflow)) hw fun d n => Node.hasRole_recast d n _]
  split
  · exact single (alike_clamped hs hde ho)
  · split
    · exact single hs
    · split
      · exact single ht
      · rw [← bounded_recast, ← bounded_recast, hw, ht, hnext]

theorem alike_slotsFrom {owner owner' : Node} (hw : owner.recast d = owner'.recast e) (direction : Axis)
    {ns ns' : List Node} (hns : ns.map (Node.recast d) = ns'.map (Node.recast e)) :
    List.map (Slot.recast d) <$> slotsFrom o owner direction ns =
      List.map (Slot.recast e) <$> slotsFrom o' owner' direction ns' := by
  induction ns generalizing ns' with
  | nil =>
    obtain rfl := List.map_eq_nil_iff.1 hns.symm
    rfl
  | cons n ns ih =>
    cases ns' with
    | nil => cases hns
    | cons n' ns' =>
      obtain ⟨hn, hns⟩ := List.cons.inj hns
      have hnext : ns.head?.map (Node.recast d) = ns'.head?.map (Node.recast e) := by
        rw [← List.head?_map, hns, List.head?_map]
      rw [slotsFrom, slotsFrom]
      refine map_bind_congr (alike_slot hde ho hw direction hn hnext) fun s s' hs => ?_
      refine map_bind_congr (ih hns) fun ss ss' hss => ?_
      rw [map_pure, map_pure, List.map_cons, List.map_cons, hs, hss]

theorem alike_slots {owner owner' : Node} (hw : owner.recast d = owner'.recast e) {ns ns' : List Node}
    (hns : ns.map (Node.recast d) = ns'.map (Node.recast e)) :
    List.map (Slot.recast d) <$> slots o owner ns = List.map (Slot.recast e) <$> slots o' owner' ns' := by
  have hsized (o : Options) (d : Disguise) (owner : Node) (direction : Axis) (ns : List Node) :
      (ns.map (sized o owner direction)).map (Node.recast d) =
        (ns.map (Node.recast d)).map (sized o (owner.recast d) direction) := by
    rw [List.map_map, List.map_map]
    exact List.map_congr_left fun n _ => (sized_recast d direction o owner n).symm
  have hitems : sized o = sized o' := by
    funext owner direction n
    unfold sized
    rw [ho.items]
  unfold slots
  rw [alike_reading hw Node.direction_recast]
  cases owner'.direction with
  | none =>
    have bare (d : Disguise) (ns : List Node) : (ns.map fun n => ({ node := n } : Slot)).map (Slot.recast d) =
        (ns.map (Node.recast d)).map fun n => { node := n } := by
      rw [List.map_map, List.map_map]
      rfl
    dsimp only
    rw [map_pure, map_pure, bare, bare, hns]
  | some direction =>
    refine alike_slotsFrom hde ho hw direction ?_
    rw [hitems, hsized, hsized, hw, hns]

end slots

theorem alike_finish {n n' : Node} (hn : n.recast d = n'.recast e) {ts ts' : List Tree}
    (hts : ts.map (Tree.recast d) = ts'.map (Tree.recast e)) :
    Prod.map (Node.recast d) (List.map (Tree.recast d)) <$> finish n ts =
      Prod.map (Node.recast e) (List.map (Tree.recast e)) <$> finish n' ts' := by
  rw [← finish_recast, hn, hts, finish_recast]

theorem alike_containing (hde : d.drops = e.drops) {n n' : Node} (hn : n.recast d = n'.recast e) {ts ts' : List Tree}
    (hts : ts.map (Tree.recast d) = ts'.map (Tree.recast e)) :
    (containing n ts).recast d = (containing n' ts').recast e := by
  have hany (d : Disguise) (ts : List Tree) : (ts.any fun a => !a.node.roles.isChrome) =
      (ts.map (Tree.recast d)).any fun a => !a.node.roles.isChrome := by
    simp only [List.any_map, Function.comp_def, node_recast, Node.roles_recast]
  unfold containing
  rw [hany d ts, hts, ← hany e ts']
  split
  · exact alike_push hn hde _
  · exact hn

theorem alike_node {t t' : Tree} (h : t.recast d = t'.recast e) : t.node.recast d = t'.node.recast e := by
  rw [← node_recast, h, node_recast]

theorem alike_mapNode {t t' : Tree} (h : t.recast d = t'.recast e) {f f' : Node → Node}
    (hf : ∀ n n', n.recast d = n'.recast e → (f n).recast d = (f' n').recast e) :
    (t.mapNode f).recast d = (t'.mapNode f').recast e := by
  have hnode := hf _ _ (alike_node h)
  rw [recast_eq, recast_eq] at h ⊢
  obtain ⟨-, hflow, hattached⟩ := Tree.mk.inj h
  exact congr (congr (congrArg Tree.mk hnode) hflow) hattached

mutual

theorem alike_resolve (hde : d.drops = e.drops) (ho : Agree d.drops o o') {n n' : Node} (hn : n.recast d = n'.recast e) :
    ∀ t t' : Tree, t.recast d = t'.recast e →
      Tree.recast d <$> resolve o n t = Tree.recast e <$> resolve o' n' t'
  | ⟨m, flow, attached⟩, ⟨m', flow', attached'⟩, h => by
    rw [recast_mk, recast_mk] at h
    obtain ⟨-, hflow, hattached⟩ := Tree.mk.inj h
    have hnodes : (flow.map node).map (Node.recast d) = (flow'.map node).map (Node.recast e) := by
      rw [← map_node_recast, hflow, map_node_recast]
    rw [resolve, resolve]
    refine map_bind_congr (alike_slots hde ho hn hnodes) fun ss ss' hss => ?_
    refine map_bind_congr (alike_resolveFlow hde ho ss ss' hss flow flow' hflow) fun ts ts' hts => ?_
    refine map_bind_congr (alike_finish hn hts) fun p p' hp => ?_
    obtain ⟨hp, hq⟩ := Prod.mk.inj hp
    have hc := alike_containing hde hp hattached
    have hbox : (containing p.1 attached).box.recast d = (containing p'.1 attached').box.recast e := by
      rw [← Node.box_recast, hc, Node.box_recast]
    refine map_bind_congr (alike_resolveAttached hde ho hbox attached attached' hattached) fun us us' hus => ?_
    rw [map_pure, map_pure, recast_mk, recast_mk, hc, hq, hus]

theorem alike_resolveFlow (hde : d.drops = e.drops) (ho : Agree d.drops o o') :
    ∀ ss ss' : List Slot, ss.map (Slot.recast d) = ss'.map (Slot.recast e) →
    ∀ ts ts' : List Tree, ts.map (Tree.recast d) = ts'.map (Tree.recast e) →
      List.map (Tree.recast d) <$> resolveFlow o ss ts = List.map (Tree.recast e) <$> resolveFlow o' ss' ts'
  | [], ss', hss, ts, ts', hts => by
    obtain rfl := List.map_eq_nil_iff.1 hss.symm
    rw [resolveFlow, resolveFlow] <;> simp
  | s :: ss, ss', hss, [], ts', hts => by
    obtain rfl := List.map_eq_nil_iff.1 hts.symm
    rw [resolveFlow, resolveFlow] <;> simp
  | s :: ss, [], hss, t :: ts, ts', hts => by cases hss
  | s :: ss, s' :: ss', hss, t :: ts, [], hts => by cases hts
  | ⟨n, w⟩ :: ss, ⟨n', w'⟩ :: ss', hss, t :: ts, t' :: ts', hts => by
    obtain ⟨hs, hss⟩ := List.cons.inj hss
    obtain ⟨hn, hw⟩ := Slot.mk.inj hs
    obtain ⟨ht, hts⟩ := List.cons.inj hts
    have rest (r r' : Tree) (hr : r.recast d = r'.recast e) :
        List.map (Tree.recast d) <$> (resolveFlow o ss ts >>= fun rs => pure (r :: rs)) =
          List.map (Tree.recast e) <$> (resolveFlow o' ss' ts' >>= fun rs => pure (r' :: rs)) := by
      refine map_bind_congr (alike_resolveFlow hde ho ss ss' hss ts ts' hts) fun rs rs' hrs => ?_
      rw [map_pure, map_pure, List.map_cons, List.map_cons, hr, hrs]
    rw [resolveFlow, resolveFlow]
    cases w with
    | none =>
      obtain rfl := Option.map_eq_none_iff.1 hw.symm
      exact map_bind_congr (alike_resolve hde ho hn t t' ht) rest
    | some w =>
      obtain ⟨v, rfl, hv⟩ : ∃ v, w' = some v ∧ v.recast e = w.recast d := Option.map_eq_some_iff.1 hw.symm
      have hone : [n].map (Node.recast d) = [n'].map (Node.recast e) := congrArg (fun n => [n]) hn
      refine map_bind_congr (alike_slots hde ho hv.symm hone) fun inner inner' hinner => ?_
      have hchild : (inner.head?.elim n (·.node)).recast d = (inner'.head?.elim n' (·.node)).recast e := by
        cases inner with
        | nil =>
          obtain rfl := List.map_eq_nil_iff.1 hinner.symm
          exact hn
        | cons i inner =>
          cases inner' with
          | nil => cases hinner
          | cons i' inner' => exact (Slot.mk.inj (List.cons.inj hinner).1).1
      refine map_bind_congr (alike_resolve hde ho hchild t t' ht) fun c c' hc => ?_
      refine map_bind_congr (alike_finish hv.symm (congrArg (fun c => [c]) hc)) fun p p' hp => ?_
      obtain ⟨hp, hq⟩ := Prod.mk.inj hp
      have hmade : Tree.recast d <$> (pure ⟨p.1, p.2, []⟩ : Journaled Tree) =
          Tree.recast e <$> pure ⟨p'.1, p'.2, []⟩ := by
        rw [map_pure, map_pure, recast_mk, recast_mk, hp, hq]
        rfl
      exact map_bind_congr hmade rest

theorem alike_resolveAttached (hde : d.drops = e.drops) (ho : Agree d.drops o o') {owner owner' : Box}
    (hw : owner.recast d = owner'.recast e) :
    ∀ ts ts' : List Tree, ts.map (Tree.recast d) = ts'.map (Tree.recast e) →
      List.map (Tree.recast d) <$> resolveAttached o owner ts =
        List.map (Tree.recast e) <$> resolveAttached o' owner' ts'
  | [], ts', h => by
    obtain rfl := List.map_eq_nil_iff.1 h.symm
    rfl
  | t :: ts, [], h => by cases h
  | t :: ts, t' :: ts', h => by
    obtain ⟨ht, hts⟩ := List.cons.inj h
    have hnode := alike_node ht
    have rest (r r' : Tree) (hr : r.recast d = r'.recast e) :
        List.map (Tree.recast d) <$> (resolveAttached o owner ts >>= fun rs => pure (r :: rs)) =
          List.map (Tree.recast e) <$> (resolveAttached o' owner' ts' >>= fun rs => pure (r' :: rs)) := by
      refine map_bind_congr (alike_resolveAttached hde ho hw ts ts' hts) fun rs rs' hrs => ?_
      rw [map_pure, map_pure, List.map_cons, List.map_cons, hr, hrs]
    rw [resolveAttached, resolveAttached, alike_reading hnode Node.roles_recast]
    split
    · exact map_bind_congr (alike_resolve hde ho hnode t t' ht) rest
    · have hpin : (pinPrepared owner t.node).recast d = (pinPrepared owner' t'.node).recast e := by
        rw [← pinPrepared_recast, hw, hnode, pinPrepared_recast]
      refine map_bind_congr (alike_resolve hde ho hpin t t' ht) fun r r' hr => ?_
      have hplaced : Tree.recast d <$> (pure (r.mapNode (pinned owner)) : Journaled Tree) =
          Tree.recast e <$> pure (r'.mapNode (pinned owner')) := by
        rw [map_pure, map_pure, alike_mapNode hr fun n n' hn => ?_]
        rw [← pinned_recast, hw, hn, pinned_recast]
      exact map_bind_congr hplaced rest

end

theorem alike_tree (hde : d.drops = e.drops) (ho : Agree d.drops o o') {t t' : Tree} (h : t.recast d = t'.recast e) :
    Tree.recast d <$> Resolve.tree o t = Tree.recast e <$> Resolve.tree o' t' :=
  alike_resolve hde ho (alike_node h) t t' h

/-- Options that agree in all that resolving asks for. -/
theorem tree_congr (h : Agree (fun _ => false) o o') : Resolve.tree o = Resolve.tree o' := by
  funext t
  have ht := alike_tree (d := .moved fun _ => 0) (e := .moved fun _ => 0) rfl h (t := t) rfl
  rw [recast_still, id_map, id_map] at ht
  exact ht

end FlexRecovery.Resolve
