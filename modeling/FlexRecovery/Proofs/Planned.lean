import FlexRecovery.Proofs.Clearing
import FlexRecovery.Proofs.Plots
import FlexRecovery.Proofs.Ready
import FlexRecovery.Proofs.Rearranging
import FlexRecovery.Proofs.Rows

/-!
The passes that make lists keep a plan of what each flow child was made of: tables first, then rows, of which some become
grids, then columns.
-/

namespace FlexRecovery

open Box

/-- A box around others is the smallest one around what these are made of. -/
theorem Box.Around.flatMap {α : Type} {w : Box} {box : α → Box} {parts : α → List Box} {as : List α}
    (h : w.Around (as.map box)) (ha : ∀ a ∈ as, (box a).Around (parts a)) : w.Around (as.flatMap parts) where
  frames := by
    intro c hc
    obtain ⟨a, hmem, hc⟩ := List.mem_flatMap.1 hc
    exact (h.frames _ (List.mem_map_of_mem hmem)).trans ((ha a hmem).frames c hc)
  tight := by
    intro e
    obtain ⟨b, hb, he⟩ := h.tight e
    obtain ⟨a, hmem, rfl⟩ := List.mem_map.1 hb
    obtain ⟨c, hc, hce⟩ := (ha a hmem).tight e
    exact ⟨c, List.mem_flatMap.2 ⟨a, hmem, hc⟩, hce.trans he⟩

namespace Regroup

/-- The plot of a flow child. -/
def plotAt (ps : List Plot) (s : Sibling) : Plot := ps.getD s.position ⟨s.tree, [], .old⟩

/-- What a flow child was made of. -/
def partsAt (ps : List Plot) (s : Sibling) : List Box := (plotAt ps s).parts

variable {old : List Tree} {ps : List Plot} {s : Sibling}

theorem exists_of_mem_list (hs : s ∈ Sibling.list (ps.map Plot.tree)) :
    ps[s.position]? = some (plotAt ps s) ∧ (plotAt ps s).tree = s.tree := by
  obtain ⟨⟨t, i⟩, hmem, rfl⟩ := List.mem_map.1 hs
  have hi := List.mem_zipIdx_iff_getElem?.1 hmem
  rw [List.getElem?_map, Option.map_eq_some_iff] at hi
  obtain ⟨p, hp, rfl⟩ := hi
  have hplot : plotAt ps ⟨i, p.tree⟩ = p := by
    rw [plotAt, List.getD_eq_getElem?_getD, hp]
    rfl
  rw [hplot]
  exact ⟨hp, rfl⟩

theorem plotAt_mem (hs : s ∈ Sibling.list (ps.map Plot.tree)) : plotAt ps s ∈ ps :=
  List.mem_of_getElem? (exists_of_mem_list hs).1

theorem tree_plotAt (hs : s ∈ Sibling.list (ps.map Plot.tree)) : (plotAt ps s).tree = s.tree :=
  (exists_of_mem_list hs).2

theorem box_plotAt (hs : s ∈ Sibling.list (ps.map Plot.tree)) : (plotAt ps s).box = s.box :=
  congrArg Tree.box (tree_plotAt hs)

theorem map_plotAt (ps : List Plot) : (Sibling.list (ps.map Plot.tree)).map (plotAt ps) = ps := by
  refine List.ext_getElem? fun i => ?_
  rw [List.getElem?_map]
  cases hs : (Sibling.list (ps.map Plot.tree))[i]? with
  | none =>
    have hlen := List.getElem?_eq_none_iff.1 hs
    rw [Option.map_none, eq_comm, List.getElem?_eq_none_iff]
    simpa [Sibling.list] using hlen
  | some s =>
    have hpos : s.position = i := by
      rw [Sibling.list, List.getElem?_map, Option.map_eq_some_iff] at hs
      obtain ⟨⟨t, k⟩, hk, rfl⟩ := hs
      rw [List.getElem?_zipIdx, Option.map_eq_some_iff] at hk
      obtain ⟨t', -, he⟩ := hk
      simp only [Prod.mk.injEq] at he
      exact he.2.symm.trans (by omega)
    have hmem := exists_of_mem_list (List.mem_of_getElem? hs)
    rw [hpos] at hmem
    rw [Option.map_some, hmem.1]

/-- The order of the plots does not matter. -/
theorem Plan.perm_plots {ps' : List Plot} (h : Plan old ps) (hp : ps.Perm ps') : Plan old ps' where
  strewn := h.strewn
  nodup := h.nodup
  perm := (hp.symm.flatMap_right _).trans h.perm
  around := fun p hm => h.around p (hp.mem_iff.2 hm)
  kept := fun p hm => h.kept p (hp.mem_iff.2 hm)
  listed := fun p hm => h.listed p (hp.mem_iff.2 hm)
  flat := fun p hm => h.flat p (hp.mem_iff.2 hm)
  ruled := fun p hm => h.ruled p (hp.mem_iff.2 hm)
  amid := fun p hm q hm' => h.amid p (hp.mem_iff.2 hm) q (hp.mem_iff.2 hm')

/-- Trees that are those of some plots in another order are those of the plots in that order. -/
theorem exists_perm_plots {flow : List Tree} (h : flow.Perm (ps.map Plot.tree)) :
    ∃ ps', ps.Perm ps' ∧ ps'.map Plot.tree = flow := by
  have hforall : List.Forall₂ (fun (t : Tree) (p : Plot) => p.tree = t) (ps.map Plot.tree) ps :=
    List.forall₂_map_left_iff.2 (List.forall₂_same.2 fun _ _ => rfl)
  obtain ⟨ps', hf, hp⟩ := List.perm_comp_forall₂ h hforall
  refine ⟨ps', hp.symm, ?_⟩
  clear hp h hforall
  induction hf with
  | nil => rfl
  | cons he _ ih => rw [List.map_cons, he, ih]

section pass

variable {α : Type} {P : α → Tree → Prop} {ms : α → List Sibling} {xs : List α} {made : List (α × Tree)}
  {left : List Sibling}

/-- The plot of a container that is made of siblings. -/
def Plot.ofMade (ps : List Plot) (ms : α → List Sibling) (kind : α × Tree → Plot.Kind) (m : α × Tree) : Plot :=
  ⟨m.2, (ms m.1).flatMap (partsAt ps), kind m⟩

/-- What a pass leaves: what it made, and the plots that it left alone. -/
def Plot.after (ps : List Plot) (ms : α → List Sibling) (kind : α × Tree → Plot.Kind) (made : List (α × Tree))
    (left : List Sibling) : List Plot :=
  made.map (.ofMade ps ms kind) ++ left.map (plotAt ps)

/-- Of two different members of a list in order, one comes before the other. -/
theorem or_of_pairwise {β : Type} {R : β → β → Prop} {l : List β} (h : l.Pairwise R) {a b : β} (ha : a ∈ l) (hb : b ∈ l)
    (hne : a ≠ b) : R a b ∨ R b a := by
  have : Std.Symm fun a b => R a b ∨ R b a := ⟨fun _ _ => Or.symm⟩
  exact (h.imp (S := fun a b => R a b ∨ R b a) .inl).forall ha hb hne

/-- What is asked of a pass, beside that its containers lie clear of everything else. -/
structure Making (old : List Tree) (ps : List Plot) (ms : α → List Sibling) (kind : α × Tree → Plot.Kind)
    (made : List (α × Tree)) (left : List Sibling) : Prop where
  new : ∀ m ∈ made, kind m ≠ .old
  listed : ∀ m ∈ made, m.2.node.roles.isList = true ∧ 3 ≤ ((ms m.1).flatMap (partsAt ps)).length
  flat : ∀ m ∈ made, kind m = .list → ¬IsGrid m.2
  ruled : ∀ m ∈ made, ∀ s g, kind m = .grid s g →
    Ruled (old.map Tree.box) ((ms m.1).flatMap (partsAt ps)) m.2.box s g
  stands : ∀ m ∈ made, ∀ n ∈ made, m ≠ n → (Plot.ofMade ps ms kind m).Stands (Plot.ofMade ps ms kind n)
  beside : ∀ m ∈ made, ∀ s ∈ left,
    (Plot.ofMade ps ms kind m).Stands (plotAt ps s) ∧ (plotAt ps s).Stands (Plot.ofMade ps ms kind m)

/-- The parts of what a pass leaves are those of what it was given. -/
theorem perm_after (hr : Rearranged P ms xs (Sibling.list (ps.map Plot.tree)) made left)
    (kind : α × Tree → Plot.Kind) :
    ((Plot.after ps ms kind made left).flatMap Plot.parts).Perm (ps.flatMap Plot.parts) := by
  have hp := (hr.members.map (plotAt ps)).flatMap_right Plot.parts
  rw [map_plotAt, List.map_append, List.flatMap_append] at hp
  refine List.Perm.trans (List.Perm.of_eq ?_) hp.symm
  rw [Plot.after, List.flatMap_append, List.flatMap_map, List.map_flatMap, List.flatMap_assoc]
  congr 1
  refine List.flatMap_congr fun m _ => ?_
  rw [List.flatMap_map]
  rfl

/-- A container lies around the parts of its members. -/
theorem Plan.around_parts (h : Plan old ps) (hr : Rearranged P ms xs (Sibling.list (ps.map Plot.tree)) made left)
    {m : α × Tree} (hm : m ∈ made) (hne : ms m.1 ≠ []) : m.2.box.Around ((ms m.1).flatMap (partsAt ps)) := by
  rw [(hr.each m hm).2]
  refine Around.flatMap (around_hull (by simpa using hne)) fun s hs => ?_
  have hs := hr.mem_made hm hs
  exact box_plotAt hs ▸ h.around _ (plotAt_mem hs)

/-- What a pass leaves lies amid the rest: containers clear of everything else, and the others as before. -/
theorem Plan.amid_after (h : Plan old ps) (hr : Rearranged P ms xs (Sibling.list (ps.map Plot.tree)) made left)
    {kind : α × Tree → Plot.Kind} (hm : Making old ps ms kind made left) :
    ∀ p ∈ Plot.after ps ms kind made left, ∀ q ∈ Plot.after ps ms kind made left, p ≠ q → p.Amid q := by
  intro p hp q hq hne
  rcases List.mem_append.1 hp with hp | hp <;> rcases List.mem_append.1 hq with hq | hq
  · obtain ⟨m, hmem, rfl⟩ := List.mem_map.1 hp
    obtain ⟨n, hmem', rfl⟩ := List.mem_map.1 hq
    have hmn : m ≠ n := fun he => hne (he ▸ rfl)
    refine ⟨hm.stands m hmem n hmem' hmn, fun _ => ?_⟩
    rcases or_of_pairwise hr.apart hmem hmem' hmn with ho | ho
    · exact overlaps_comm n.2.box m.2.box ▸ ho
    · exact ho
  · obtain ⟨m, hmem, rfl⟩ := List.mem_map.1 hp
    obtain ⟨s, hs, rfl⟩ := List.mem_map.1 hq
    exact ⟨(hm.beside m hmem s hs).1, fun _ => box_plotAt (hr.mem_left hs) ▸ hr.clear m hmem s hs⟩
  · obtain ⟨s, hs, rfl⟩ := List.mem_map.1 hp
    obtain ⟨m, hmem, rfl⟩ := List.mem_map.1 hq
    refine ⟨(hm.beside m hmem s hs).2, fun _ => ?_⟩
    rw [box_plotAt (hr.mem_left hs), overlaps_comm]
    exact hr.clear m hmem s hs
  · obtain ⟨s, hs, rfl⟩ := List.mem_map.1 hp
    obtain ⟨s', hs', rfl⟩ := List.mem_map.1 hq
    exact h.amid _ (plotAt_mem (hr.mem_left hs)) _ (plotAt_mem (hr.mem_left hs')) hne

theorem Plan.after (h : Plan old ps) (hr : Rearranged P ms xs (Sibling.list (ps.map Plot.tree)) made left)
    {kind : α × Tree → Plot.Kind} (hm : Making old ps ms kind made left) :
    Plan old (Plot.after ps ms kind made left) := by
  -- Whatever holds of the new plots and of the old ones.
  have each {Q : Plot → Prop} (hnew : ∀ m ∈ made, Q (.ofMade ps ms kind m)) (hrest : ∀ p ∈ ps, Q p) :
      ∀ p ∈ Plot.after ps ms kind made left, Q p :=
    List.forall_mem_append.2 ⟨List.forall_mem_map.2 hnew,
      List.forall_mem_map.2 fun s hs => hrest _ (plotAt_mem (hr.mem_left hs))⟩
  refine ⟨h.strewn, h.nodup, (perm_after hr kind).trans h.perm, each (fun m hmem => ?_) h.around,
    each (fun m hmem hk => absurd hk (hm.new m hmem)) h.kept, each (fun m hmem _ => hm.listed m hmem) h.listed,
    each hm.flat h.flat, each hm.ruled h.ruled, h.amid_after hr hm⟩
  refine h.around_parts hr hmem fun he => ?_
  have hlen := (hm.listed m hmem).2
  rw [he] at hlen
  simp at hlen

end pass

/-- Flow children of which none is higher than what it was made of, unless it has lower parts. -/
def Piled (ps : List Plot) : Prop := ∀ p ∈ ps, ∀ b ∈ p.parts, Partakes b p.box

/-- Two flow children were made of different ones. -/
theorem Plan.disjoint_parts (h : Plan old ps) {s' : Sibling} (hs : s ∈ Sibling.list (ps.map Plot.tree))
    (hs' : s' ∈ Sibling.list (ps.map Plot.tree)) (hne : s ≠ s') : List.Disjoint (partsAt ps s) (partsAt ps s') := by
  intro b hb hb'
  refine h.disjoint (plotAt_mem hs) (plotAt_mem hs') (fun he => hne ?_) hb hb'
  have hnodup := h.nodup_plots
  rw [← map_plotAt ps] at hnodup
  exact List.inj_on_of_nodup_map hnodup hs hs' he

/-- A flow child has an area, and if it is flat, so is one of its parts. -/
theorem Plan.exists_part (h : Plan old ps) (hs : s ∈ Sibling.list (ps.map Plot.tree)) :
    ∃ b ∈ partsAt ps s, 0 < b.height ∧ b.height ≤ s.box.height := by
  have haround := h.around _ (plotAt_mem hs)
  rw [box_plotAt hs] at haround
  obtain ⟨b, hb, -⟩ := haround.exists_start .row
  have hsolid := (h.solid_part (plotAt_mem hs) hb).height
  have hframes := frames_edges.1 (haround.frames b hb)
  refine ⟨b, hb, hsolid, ?_⟩
  simp only [bottom] at hframes
  omega

theorem Plan.divided (h : Plan old ps) (hp : Piled ps) :
    Divided (partsAt ps) (Sibling.list (ps.map Plot.tree)) (old.map Tree.box) where
  nodup := Sibling.nodup_list _
  solid := h.strewn.solid
  covers := by
    intro b hb
    obtain ⟨p, hmem, hb⟩ := List.mem_flatMap.1 (h.perm.mem_iff.2 hb)
    rw [← map_plotAt ps] at hmem
    obtain ⟨s, hs, rfl⟩ := List.mem_map.1 hmem
    exact ⟨s, hs, hb⟩
  inside := fun s hs b hb => ⟨h.mem_old (plotAt_mem hs) hb, box_plotAt hs ▸ hp _ (plotAt_mem hs) b hb⟩
  around := fun s hs => box_plotAt hs ▸ h.around _ (plotAt_mem hs)
  apart := fun _ hs _ hs' => h.disjoint_parts hs hs'

/-- Whatever is made of several flow children has at least as many parts. -/
theorem Plan.length_le_parts (h : Plan old ps) {l : List Sibling} (hl : ∀ s ∈ l, s ∈ Sibling.list (ps.map Plot.tree)) :
    l.length ≤ (l.flatMap (partsAt ps)).length := by
  refine length_le_flatMap fun s hs => List.length_pos_iff_exists_mem.2 ?_
  obtain ⟨b, hb, -⟩ := (h.around _ (plotAt_mem (hl s hs))).exists_start .row
  exact ⟨b, hb⟩

theorem MadeOf.isList {role : Role} {l : List Sibling} {t : Tree} (h : MadeOf role l t) :
    t.node.roles.isList = role.isList := isList_of_roles h.2

theorem MadeOf.isGrid_iff {role : Role} {l : List Sibling} {t : Tree} (h : MadeOf role l t) :
    IsGrid t ↔ role = .listWrap := by
  rw [IsGrid, hasRole_of_roles h.2, decide_eq_true_iff, List.mem_singleton, eq_comm]

/-- Old flow children, and lists or tables whose parts are all lower. -/
def Tabulated (ps : List Plot) : Prop :=
  ∀ p ∈ ps, p.kind = .old ∨ p.kind = .list ∧ ∀ b ∈ p.parts, b.height < p.box.height

theorem Plan.piled (h : Plan old ps) (ht : Tabulated ps) : Piled ps := by
  intro p hp b hb
  rcases ht p hp with hk | ⟨-, hlow⟩
  · rw [(h.kept p hp hk).2] at hb
    exact .inl (List.mem_singleton.1 hb)
  · exact .inr ⟨(h.around p hp).frames b hb, hlow b hb⟩

theorem Plan.layered_of_low (h : Plan old ps) {p : Plot} (hp : p ∈ ps) (hk : p.kind ≠ .old)
    (hlow : ∀ b ∈ p.parts, b.height < p.box.height) : p.Layered := by
  intro h2
  obtain ⟨y, hy, z, hz, hne⟩ := h.exists_two hp hk
  have flat {b : Box} (hb : b ∈ p.parts) : b.height = 1 := by
    have := hlow b hb
    have := (h.solid_part hp hb).height
    omega
  exact ⟨y, hy, z, hz, hne, flat hy, flat hz⟩

/-- Without grids there is nothing to be asked. -/
theorem Plot.stands_of_not_grid {p q : Plot} (hq : ∀ s g, q.kind ≠ .grid s g) : p.Stands q :=
  ⟨fun s g _ h => absurd h (hq s g), fun _ _ s' g' _ h => absurd h (hq s' g')⟩

section

variable {α : Type} {P : α → Tree → Prop} {ms : α → List Sibling} {xs : List α} {made : List (α × Tree)}
  {left : List Sibling}

/-- The plan of what a pass leaves, in the order in which it stands. -/
theorem Plan.exists_after (h : Plan old ps) (hr : Rearranged P ms xs (Sibling.list (ps.map Plot.tree)) made left)
    {kind : α × Tree → Plot.Kind} (hm : Making old ps ms kind made left) {flow : List Tree}
    (hflow : flow.Perm (made.map Prod.snd ++ trees left)) :
    ∃ ps', Plan old ps' ∧ (Plot.after ps ms kind made left).Perm ps' ∧ ps'.map Plot.tree = flow := by
  have htrees : (Plot.after ps ms kind made left).map Plot.tree = made.map Prod.snd ++ trees left := by
    rw [Plot.after, List.map_append, List.map_map, List.map_map, trees]
    exact congrArg _ (List.map_congr_left fun s hs => tree_plotAt (hr.mem_left hs))
  obtain ⟨ps', hp, hps⟩ := exists_perm_plots (htrees ▸ hflow)
  exact ⟨ps', (h.after hr hm).perm_plots hp, hp, hps⟩

end

section tables

variable {made : List (List Line × Tree)} {left : List Sibling} (h : Plan old ps) (hold : ∀ p ∈ ps, p.kind = .old)
  (hr : Rearranged Tabled (fun rows => rows.flatMap (·.items))
    ((Line.collect .row (Sibling.list (ps.map Plot.tree))).splitBy sameTable) (Sibling.list (ps.map Plot.tree)) made left)

include h hold hr

theorem Plan.making_tables : Making old ps (fun rows : List Line => rows.flatMap (·.items)) (fun _ => .list) made left := by
  refine ⟨fun _ _ => nofun, fun m hmem => ⟨(hr.each m hmem).1.2.isList, ?_⟩, fun m hmem _ hg => ?_,
    fun _ _ _ _ => nofun, fun _ _ _ _ _ => Plot.stands_of_not_grid fun _ _ => nofun, fun m hmem s hs => ⟨?_, ?_⟩⟩
  · obtain ⟨hlen, hcells⟩ := (hr.each m hmem).1.1
    refine le_trans ?_ (h.length_le_parts fun s => hr.mem_made hmem)
    match m.1, hlen, hcells with
    | a :: b :: rest, _, hcells =>
      have ha := hcells a (by simp)
      have hb := hcells b (by simp)
      rw [List.flatMap_cons, List.flatMap_cons, List.length_append, List.length_append]
      omega
  · exact absurd ((hr.each m hmem).1.2.isGrid_iff.1 hg) (by simp)
  · refine Plot.stands_of_not_grid fun s' g hk => ?_
    rw [hold _ (plotAt_mem (hr.mem_left hs))] at hk
    cases hk
  · exact Plot.stands_of_not_grid fun _ _ => nofun

/-- The cells of a table are lower than it. -/
theorem Plan.height_lt_table {m : List Line × Tree} (hm : m ∈ made) {b : Box}
    (hb : b ∈ (m.1.flatMap (·.items)).flatMap (partsAt ps)) : b.height < m.2.box.height := by
  obtain ⟨s, hs, hb⟩ := List.mem_flatMap.1 hb
  have hplot := plotAt_mem (hr.mem_made hm hs)
  rw [partsAt, (h.kept _ hplot (hold _ hplot)).2, List.mem_singleton, box_plotAt (hr.mem_made hm hs)] at hb
  obtain rfl := hb
  have hsub : m.1.Sublist (Line.collect .row (Sibling.list (ps.map Plot.tree))) := by
    have hsub := List.sublist_flatten_of_mem (hr.inOrder.subset (List.mem_map_of_mem hm))
    rwa [List.flatten_splitBy] at hsub
  have hdivided := h.divided (h.piled fun p hp => .inl (hold p hp))
  refine height_lt_of_rows (hdivided.precedes.sublist hsub) (fun l hl => Line.spans_of_mem_collect (hsub.subset hl))
    (hr.each m hm).1.1.1 ?_ hs
  rw [(hr.each m hm).2]
  exact around_hull (by simpa using List.ne_nil_of_mem hs)

end tables

/-- Tables are made of old flow children only, and their cells are lower than they are. -/
theorem Plan.exists_tables (h : Plan old ps) (hold : ∀ p ∈ ps, p.kind = .old) {t : Tree}
    (ht : t.flow = ps.map Plot.tree) (j : Journal) :
    ∃ ps', Plan old ps' ∧ Tabulated ps' ∧ ps'.map Plot.tree = (tables t j).1.flow := by
  obtain ⟨made, left, hr, hflow⟩ := rearranged_tables t j
  rw [ht] at hr
  obtain ⟨ps', hplan, hperm, hps⟩ := h.exists_after hr (h.making_tables hold hr) hflow
  refine ⟨ps', hplan, fun p hp => ?_, hps⟩
  rcases List.mem_append.1 (hperm.mem_iff.2 hp) with hp | hp
  · obtain ⟨m, hmem, rfl⟩ := List.mem_map.1 hp
    exact .inr ⟨rfl, fun b hb => h.height_lt_table hold hr hmem hb⟩
  · obtain ⟨s, hs, rfl⟩ := List.mem_map.1 hp
    exact .inl (hold _ (plotAt_mem (hr.mem_left hs)))

/-! ### Lists in rows -/

/-- A grid is ruled above and below the first line of its chain. -/
def rowKind (m : List Track × Tree) : Plot.Kind :=
  match m with
  | (t :: _, made) => if made.node.hasRole .listWrap then .grid t.line.crossStart t.line.crossStop else .list
  | ([], _) => .list

theorem rowKind_of_listed {m : List Track × Tree} (h : Listed .row m.1 m.2) : rowKind m = .list ∧ ¬IsGrid m.2 ∨
    ∃ t u rest g, m.1 = t :: u :: rest ∧ gridGap m.1 = some g ∧
      rowKind m = .grid t.line.crossStart t.line.crossStop := by
  obtain ⟨chain, made⟩ := m
  obtain ⟨role, hrole, hmade⟩ := h
  have hgrid : made.node.hasRole .listWrap = true ↔ role = .listWrap := hmade.isGrid_iff
  have list (hr : role ≠ .listWrap) : rowKind (chain, made) = .list ∧ ¬IsGrid made := by
    have hn : ¬made.node.hasRole .listWrap = true := fun h => hr (hgrid.1 h)
    refine ⟨?_, hn⟩
    unfold rowKind
    split
    · next he =>
      obtain ⟨-, rfl⟩ := Prod.mk.inj he
      exact if_neg hn
    · rfl
  cases hrole with
  | single hg => exact .inl (list (by simp [listRole]))
  | zipped hl => exact .inl (list (by simp [listRole]))
  | grid hl hg =>
    match chain, hl with
    | t :: u :: rest, _ => exact .inr ⟨t, u, rest, _, rfl, hg, if_pos (hgrid.2 rfl)⟩

theorem Enlists.isList {axis : Axis} {chain : List Track} {role : Role} (h : Enlists axis chain role) :
    role.isList = true := by
  cases h with
  | single => exact isList_listRole _
  | zipped => exact isList_listRole _
  | grid => rfl

theorem Enlists.of_column {chain : List Track} {role : Role} (h : Enlists .column chain role) : role = .listY := by
  cases h <;> rfl

section lists

variable {made : List (List Track × Tree)} {left : List Sibling} {axis : Axis} {m n : List Track × Tree}

section

variable (h : Plan old ps) (hr : Rearranged (Listed axis) (fun c => c.flatMap Track.items)
  (chains axis (Line.collect axis (Sibling.list (ps.map Plot.tree)))) (Sibling.list (ps.map Plot.tree)) made left)

include hr in
theorem chain_of_made (hm : m ∈ made) : m.1 ∈ chains axis (Line.collect axis (Sibling.list (ps.map Plot.tree))) :=
  hr.inOrder.subset (List.mem_map_of_mem hm)

include h hr

theorem Plan.listed_of_made :
    ∀ m ∈ made, m.2.node.roles.isList = true ∧ 3 ≤ ((m.1.flatMap Track.items).flatMap (partsAt ps)).length := by
  intro m hm
  obtain ⟨⟨role, hrole, hmade⟩, -⟩ := hr.each m hm
  refine ⟨hmade.isList.trans hrole.isList, ?_⟩
  exact (three_le_members hrole (Track.found_of_mem_chains (chain_of_made hr hm))).trans
    (h.length_le_parts fun s => hr.mem_made hm)

/-- The container of a chain lies around its items. -/
theorem Plan.around_of_made (hm : m ∈ made) : m.2.box.Around ((m.1.flatMap Track.items).map Sibling.box) := by
  have hne : m.1.flatMap Track.items ≠ [] := fun he => by
    have hlen := (h.listed_of_made hr m hm).2
    rw [he] at hlen
    simp at hlen
  rw [(hr.each m hm).2]
  exact around_hull (by simpa using hne)

end

section

variable (h : Plan old ps) (htab : Tabulated ps) (hr : Rearranged (Listed .row) (fun c => c.flatMap Track.items)
  (chains .row (Line.collect .row (Sibling.list (ps.map Plot.tree)))) (Sibling.list (ps.map Plot.tree)) made left)

include h htab hr

/-- Chains of rows lie above one another. -/
theorem Plan.above_of_made (hm : m ∈ made) (hn : n ∈ made) (hne : m ≠ n) : Above m.1 n.1 ∨ Above n.1 m.1 := by
  have hpair := (pairwise_chains .row (h.divided (h.piled htab)).precedes).2.sublist hr.inOrder
  exact or_of_pairwise (List.pairwise_map.1 hpair) hm hn hne

/-- A grid precedes another one if its chain lies above the other. -/
theorem Plan.precedes_of_made (hm : m ∈ made) (hn : n ∈ made) {s g s' g' : Int} (hk : rowKind m = .grid s g)
    (hk' : rowKind n = .grid s' g') (ho : Above m.1 n.1) :
    (Plot.ofMade ps (fun c => c.flatMap Track.items) rowKind m).Precedes
      (.ofMade ps (fun c => c.flatMap Track.items) rowKind n) g s' g' := by
  rcases rowKind_of_listed (hr.each m hm).1 with ⟨hl, -⟩ | ⟨t, u, rest, gap, he, hgap, hg⟩
  · exact absurd (hl.symm.trans hk) (by simp)
  rcases rowKind_of_listed (hr.each n hn).1 with ⟨hl, -⟩ | ⟨t', u', rest', gap', he', hgap', hg'⟩
  · exact absurd (hl.symm.trans hk') (by simp)
  obtain ⟨rfl, rfl⟩ := Plot.Kind.grid.inj (hg.symm.trans hk)
  obtain ⟨rfl, rfl⟩ := Plot.Kind.grid.inj (hg'.symm.trans hk')
  have hp := h.around_of_made hr hm
  have hq := h.around_of_made hr hn
  have hc := chain_of_made hr hm
  have hd := chain_of_made hr hn
  rw [he] at hp hc hgap ho
  rw [he'] at hq hd hgap' ho
  obtain ⟨htop, hbottom, hfirst⟩ := above_grid (h.divided (h.piled htab)) hd hgap' hq hc hp ho
  have hrow := (gridGap_eq_some hgap).1
  have hnext := hfirst u (by simp)
  exact ⟨by omega, htop, hbottom⟩

/-- What is made of a chain stands beside what is made of another: it does not nearly have the box of a grid. -/
theorem Plan.stands_of_made (hm : m ∈ made) (hn : n ∈ made) (hne : m ≠ n) :
    (Plot.ofMade ps (fun c => c.flatMap Track.items) rowKind m).Stands
      (.ofMade ps (fun c => c.flatMap Track.items) rowKind n) := by
  have habove := h.above_of_made htab hr hm hn hne
  refine ⟨fun s g _ hk => ?_, fun s g s' g' hk hk' => ?_⟩
  · rcases rowKind_of_listed (hr.each n hn).1 with ⟨hl, -⟩ | ⟨t, u, rest, gap, he, hgap, -⟩
    · exact absurd (hl.symm.trans hk) (by simp)
    · have hq := h.around_of_made hr hn
      have hd := chain_of_made hr hn
      rw [he] at hq hd hgap habove
      exact .inl (not_same_grid_of_chain (h.divided (h.piled htab)) hd hgap hq (chain_of_made hr hm)
        (h.around_of_made hr hm) habove)
  · exact habove.imp (h.precedes_of_made htab hr hm hn hk hk') (h.precedes_of_made htab hr hn hm hk' hk)

theorem Plan.making_rows : Making old ps (fun c : List Track => c.flatMap Track.items) rowKind made left := by
  have hleft : ∀ s ∈ left, ∀ s' g, (plotAt ps s).kind ≠ .grid s' g := by
    intro s hs s' g hk
    rcases htab _ (plotAt_mem (hr.mem_left hs)) with ho | ⟨ho, -⟩ <;> (rw [ho] at hk; cases hk)
  refine ⟨fun m hm => ?_, h.listed_of_made hr, fun m hm hk => ?_, fun m hm s g hk => ?_,
    fun m hm n hn hne => h.stands_of_made htab hr hm hn hne,
    fun m hm s hs => ⟨Plot.stands_of_not_grid (hleft s hs), ⟨?_, ?_⟩⟩⟩
  · rcases rowKind_of_listed (hr.each m hm).1 with ⟨hk, -⟩ | ⟨_, _, _, _, -, -, hk⟩ <;> rw [hk] <;> exact nofun
  · rcases rowKind_of_listed (hr.each m hm).1 with ⟨-, hn⟩ | ⟨_, _, _, _, -, -, hg⟩
    · exact hn
    · rw [hg] at hk
      cases hk
  · rcases rowKind_of_listed (hr.each m hm).1 with ⟨hl, -⟩ | ⟨t, u, rest, gap, he, hgap, hg⟩
    · rw [hl] at hk
      cases hk
    · rw [hg] at hk
      obtain ⟨rfl, rfl⟩ := Plot.Kind.grid.inj hk
      have hw := h.around_of_made hr hm
      have hc := chain_of_made hr hm
      rw [he] at hw hc hgap ⊢
      exact (h.divided (h.piled htab)).ruled_grid hc hgap hw
  · intro s' g hk _
    rcases htab _ (plotAt_mem (hr.mem_left hs)) with ho | ⟨ho, hlow⟩
    · exact absurd (ho.symm.trans hk) (by simp)
    · exact .inr (h.layered_of_low (plotAt_mem (hr.mem_left hs)) (by rw [ho]; exact nofun) hlow)
  · exact fun s' g _ _ hk => absurd hk (hleft s hs s' g)

end

/-- Lists and grids in rows are made where at most tables were made before. -/
theorem Plan.exists_rows (h : Plan old ps) (htab : Tabulated ps) {t : Tree} (ht : t.flow = ps.map Plot.tree)
    (j : Journal) : ∃ ps', Plan old ps' ∧ ps'.map Plot.tree = (listsAlong .row t j).1.flow := by
  obtain ⟨made, left, hr, hflow⟩ := rearranged_listsAlong .row t j
  rw [ht] at hr
  obtain ⟨ps', hplan, -, hps⟩ := h.exists_after hr (h.making_rows htab hr) hflow
  exact ⟨ps', hplan, hps⟩

section

variable (h : Plan old ps) (hr : Rearranged (Listed .column) (fun c => c.flatMap Track.items)
  (chains .column (Line.collect .column (Sibling.list (ps.map Plot.tree)))) (Sibling.list (ps.map Plot.tree)) made left)

include h hr

/-- A list in columns that is two lines of pixels high has flat items. -/
theorem Plan.layered_of_made (hm : m ∈ made) :
    (Plot.ofMade ps (fun c => c.flatMap Track.items) (fun _ => .list) m).Layered := by
  intro h2
  obtain ⟨role, hrole, -⟩ := (hr.each m hm).1
  have hnodup : (m.1.flatMap Track.items).Nodup := by
    have hall := (hr.members.nodup_iff.1 (Sibling.nodup_list _))
    exact (List.nodup_flatMap.1 (List.nodup_append.1 hall).1).1 m hm
  have hfound := Track.found_of_mem_chains (chain_of_made hr hm)
  obtain ⟨s, hs, s', hs', hss, hflat, hflat'⟩ := exists_flat_members hrole hfound hnodup h2 fun s hs => by
    obtain ⟨b, -, hpos, hle⟩ := h.exists_part (hr.mem_made hm hs)
    exact ⟨(h.around_of_made hr hm).frames _ (List.mem_map_of_mem hs), by omega⟩
  obtain ⟨b, hb, hpos, hle⟩ := h.exists_part (hr.mem_made hm hs)
  obtain ⟨b', hb', hpos', hle'⟩ := h.exists_part (hr.mem_made hm hs')
  refine ⟨b, List.mem_flatMap.2 ⟨s, hs, hb⟩, b', List.mem_flatMap.2 ⟨s', hs', hb'⟩, ?_, by omega, by omega⟩
  rintro rfl
  exact h.disjoint_parts (hr.mem_made hm hs) (hr.mem_made hm hs') hss hb hb'

theorem Plan.making_columns :
    Making old ps (fun c : List Track => c.flatMap Track.items) (fun _ => .list) made left := by
  refine ⟨fun _ _ => nofun, h.listed_of_made hr, fun m hm _ hg => ?_, fun _ _ _ _ => nofun,
    fun _ _ _ _ _ => Plot.stands_of_not_grid fun _ _ => nofun,
    fun m hm s hs => ⟨⟨fun _ _ _ _ => .inr (h.layered_of_made hr hm), fun _ _ _ _ => nofun⟩,
      Plot.stands_of_not_grid fun _ _ => nofun⟩⟩
  obtain ⟨role, hrole, hmade⟩ := (hr.each m hm).1
  have hwrap := hmade.isGrid_iff.1 hg
  rw [hrole.of_column] at hwrap
  cases hwrap

end

/-- Lists in columns are made beside grids. -/
theorem Plan.exists_columns (h : Plan old ps) {t : Tree} (ht : t.flow = ps.map Plot.tree) (j : Journal) :
    ∃ ps', Plan old ps' ∧ ps'.map Plot.tree = (listsAlong .column t j).1.flow := by
  obtain ⟨made, left, hr, hflow⟩ := rearranged_listsAlong .column t j
  rw [ht] at hr
  obtain ⟨ps', hplan, -, hps⟩ := h.exists_after hr (h.making_columns hr) hflow
  exact ⟨ps', hplan, hps⟩

end lists

/-- Before lists are made, every flow child was made of itself. -/
theorem plan_old (hstrewn : Strewn (old.map Tree.box)) (hnodup : (old.map Tree.box).Nodup) :
    Plan old (old.map fun t => ⟨t, [t.box], .old⟩) where
  strewn := hstrewn
  nodup := hnodup
  perm := List.Perm.of_eq (by rw [List.flatMap_map, List.map_eq_flatMap])
  around := List.forall_mem_map.2 fun t _ =>
    ⟨List.forall_mem_singleton.2 (.refl _), fun _ => ⟨t.box, List.mem_singleton_self _, rfl⟩⟩
  kept := List.forall_mem_map.2 fun t ht _ => ⟨ht, rfl⟩
  listed := List.forall_mem_map.2 fun _ _ h => absurd rfl h
  flat := List.forall_mem_map.2 fun _ _ => nofun
  ruled := List.forall_mem_map.2 fun _ _ _ _ => nofun
  amid := List.forall_mem_map.2 fun _ _ => List.forall_mem_map.2 fun _ _ _ =>
    ⟨Plot.stands_of_not_grid fun _ _ => nofun, fun h => absurd rfl h⟩

/-- After each pass that makes lists, no two grids among the flow children can come to be one node. -/
theorem foldable_passes {t : Tree} (hstrewn : Strewn (t.flow.map Tree.box)) (hnodup : (t.flow.map Tree.box).Nodup)
    (hsteady : Steady t.flow) {j : Journal} {u v w : Tree × Journal} (hu : tables t j = u)
    (hv : listsAlong .row u.1 u.2 = v) (hw : listsAlong .column v.1 v.2 = w) :
    Foldable t.flow ∧ Foldable u.1.flow ∧ Foldable v.1.flow ∧ Foldable w.1.flow := by
  have h := plan_old hstrewn hnodup
  have hold : (t.flow.map fun t => (⟨t, [t.box], .old⟩ : Plot)).map Plot.tree = t.flow := by
    rw [List.map_map]
    exact List.map_id _
  obtain ⟨ps, hplan, htab, hps⟩ := h.exists_tables (List.forall_mem_map.2 fun _ _ => rfl) hold.symm j
  rw [hu] at hps
  obtain ⟨ps', hplan', hps'⟩ := hplan.exists_rows htab hps.symm u.2
  rw [hv] at hps'
  obtain ⟨ps'', hplan'', hps''⟩ := hplan'.exists_columns hps'.symm v.2
  rw [hw] at hps''
  have hfold := h.foldable hsteady
  rw [hold] at hfold
  exact ⟨hfold, hps ▸ hplan.foldable hsteady, hps' ▸ hplan'.foldable hsteady, hps'' ▸ hplan''.foldable hsteady⟩

end Regroup

end FlexRecovery
