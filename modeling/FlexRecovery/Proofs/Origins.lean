import FlexRecovery.Proofs.Listing
import FlexRecovery.Proofs.Spans

/-!
Where the flow children of an owner come from, once lists and tables have been made of them. Taken apart, the new
containers give the former children back, each of them once and none of them changed but for being marked as an item.
-/

namespace FlexRecovery

namespace Tree

mutual

/-- A tree itself, if it was made before its owner came to create node `k`. A newer one is taken apart into its
children, and so are these. -/
def origins (k : Nat) : Tree → List Tree
  | ⟨n, flow, attached⟩ => if k ≤ n.index then originsAll k flow else [⟨n, flow, attached⟩]

def originsAll (k : Nat) : List Tree → List Tree
  | [] => []
  | t :: ts => origins k t ++ originsAll k ts

end

variable {k : Nat} {t : Tree} {ts us : List Tree}

theorem origins_new (h : k ≤ t.node.index) : origins k t = originsAll k t.flow := by
  obtain ⟨n, flow, attached⟩ := t
  exact if_pos h

theorem origins_old (h : t.node.index < k) : origins k t = [t] := by
  obtain ⟨n, flow, attached⟩ := t
  exact if_neg (Nat.not_le.2 h)

theorem originsAll_eq (k : Nat) (ts : List Tree) : originsAll k ts = ts.flatMap (origins k) := by
  induction ts with
  | nil => rfl
  | cons t ts ih => rw [originsAll, ih, List.flatMap_cons]

theorem originsAll_append (k : Nat) (ts us : List Tree) :
    originsAll k (ts ++ us) = originsAll k ts ++ originsAll k us := by
  rw [originsAll_eq, originsAll_eq, originsAll_eq, List.flatMap_append]

theorem originsAll_perm (k : Nat) (h : ts.Perm us) : (originsAll k ts).Perm (originsAll k us) := by
  rw [originsAll_eq, originsAll_eq]
  exact h.flatMap_right _

theorem originsAll_old (h : ∀ t ∈ ts, t.node.index < k) : originsAll k ts = ts := by
  induction ts with
  | nil => rfl
  | cons t ts ih =>
    obtain ⟨ht, hts⟩ := List.forall_mem_cons.1 h
    rw [originsAll, origins_old ht, ih hts, List.singleton_append]

end Tree

namespace Regroup

open Tree

/-! ### Former children -/

/-- The tree as it was, or marked as an item of a list. -/
def Enrolled (t u : Tree) : Prop := u = t ∨ u = t.mapNode (·.addRole .listItem)

theorem Enrolled.trans {t u v : Tree} (h : Enrolled t u) (h' : Enrolled u v) : Enrolled t v := by
  rcases h with rfl | rfl
  · exact h'
  · rcases h' with rfl | rfl
    · exact .inr rfl
    · refine .inr ?_
      simp only [mapNode, Node.addRole, Distinct.insert_insert]

/-- The same trees in some order, each as it was or marked as an item. -/
def Regathered (ts us : List Tree) : Prop := ∃ vs, List.Forall₂ Enrolled ts vs ∧ vs.Perm us

namespace Regathered

variable {ts us vs ts' us' : List Tree}

theorem refl (ts : List Tree) : Regathered ts ts := ⟨ts, List.forall₂_same.2 fun _ _ => .inl rfl, .refl _⟩

theorem of_perm (h : ts.Perm us) : Regathered ts us := ⟨ts, List.forall₂_same.2 fun _ _ => .inl rfl, h⟩

theorem trans (h : Regathered ts us) (h' : Regathered us vs) : Regathered ts vs := by
  obtain ⟨xs, hx, hp⟩ := h
  obtain ⟨ys, hy, hq⟩ := h'
  obtain ⟨zs, hz, hr⟩ := List.perm_comp_forall₂ hp hy
  exact ⟨zs, forall₂_trans hx hz fun _ _ _ => Enrolled.trans, hr.trans hq⟩

theorem append (h : Regathered ts us) (h' : Regathered ts' us') : Regathered (ts ++ ts') (us ++ us') := by
  obtain ⟨xs, hx, hp⟩ := h
  obtain ⟨ys, hy, hq⟩ := h'
  exact ⟨xs ++ ys, List.rel_append hx hy, hp.append hq⟩

end Regathered

/-! ### What is made -/

/-- A new container. Its box is the smallest one around its members, a list has items and a table has rows of several
cells. -/
structure Assembled (t : Tree) : Prop where
  generated : t.node.isGenerated = true
  attached : t.attached = []
  box : t.box.Around (t.flow.map box)
  items : ∀ r, r = .listX ∨ r = .listY ∨ r = .listWrap → t.node.hasRole r = true →
    ∀ m ∈ t.flow, m.node.hasRole .listItem = true
  rows : t.node.hasRole .tableBody = true → ∀ m ∈ t.flow, m.node.hasRole .tableRow = true ∧ 2 ≤ m.flow.length

variable {k c c' : Nat} {role : Role} {ts us : List Tree} {t made : Tree} {s s' : List Tree × Nat}

theorem Assembled.marked (h : Assembled t) : Assembled (t.mapNode (·.addRole .listItem)) where
  generated := h.generated
  attached := h.attached
  box := h.box
  items := by
    intro r hr hrole
    apply h.items r hr
    rw [show (t.mapNode (·.addRole .listItem)).node = t.node.addRole .listItem from rfl, Node.hasRole_addRole] at hrole
    rcases hr with rfl | rfl | rfl <;> simpa using hrole
  rows := by
    intro hrole
    apply h.rows
    rw [show (t.mapNode (·.addRole .listItem)).node = t.node.addRole .listItem from rfl, Node.hasRole_addRole] at hrole
    simpa using hrole

/-- A part of a list or of a table. -/
theorem assembled_part {n : Node} (hn : Container [role] n c) (hr : role.isList = false)
    (hb : n.box.Around (ts.map box)) : Assembled ⟨n, ts, []⟩ := by
  have hnone (r : Role) (hl : r.isList = true) (hrole : n.hasRole r = true) : False := by
    rw [Node.hasRole_iff, hn.roles, List.mem_singleton] at hrole
    rw [← hrole, hl] at hr
    cases hr
  refine ⟨?_, rfl, hb, fun r hlist hrole => (hnone r ?_ hrole).elim, fun hrole => (hnone _ rfl hrole).elim⟩
  · rw [Node.isGenerated, hn.made.id]
    rfl
  · rcases hlist with rfl | rfl | rfl <;> rfl

namespace Itemized

variable (h : Itemized role ts c us c')

include h

theorem created_le : c ≤ c' := h.grouped.created_le

/-- Taken apart, the items give back what they are made of. -/
theorem regathered (hk : k ≤ c) : Regathered (originsAll k ts) (originsAll k us) := by
  induction h with
  | nil => exact .refl _
  | @single t ts us c c' _ _ ih =>
    refine .append ?_ (ih hk)
    rcases Nat.lt_or_ge t.node.index k with hold | hnew
    · rw [origins_old hold, origins_old (show (t.mapNode (·.addRole .listItem)).node.index < k from hold)]
      exact ⟨_, .cons (.inr rfl) .nil, .refl _⟩
    · rw [origins_new hnew, origins_new (show k ≤ (t.mapNode (·.addRole .listItem)).node.index from hnew)]
      exact .refl _
  | @several members ts us n c c' _ hn _ _ ih =>
    have hnew : k ≤ (⟨n, members, []⟩ : Tree).node.index := hk.trans hn.made.index.ge
    rw [originsAll_append, originsAll, origins_new hnew]
    exact .append (.refl _) (ih (hk.trans (Nat.le_succ c)))

/-- The boxes of the items are the smallest ones around parts of the members. -/
theorem exists_parts : ∃ ps, ps.flatten = ts.map box ∧ List.Forall₂ (fun p c => Box.Around c p) ps (us.map box) := by
  induction h with
  | nil => exact ⟨[], rfl, .nil⟩
  | @single t ts us c c' _ _ ih =>
    obtain ⟨ps, hps, hus⟩ := ih
    have hself : t.box.Around [t.box] := ⟨List.forall_mem_singleton.2 (.refl _), fun e => ⟨_, by simp, rfl⟩⟩
    exact ⟨[t.box] :: ps, by rw [List.flatten_cons, hps]; rfl, .cons hself hus⟩
  | @several members ts us n c c' _ _ hb _ ih =>
    obtain ⟨ps, hps, hus⟩ := ih
    exact ⟨members.map box :: ps, by rw [List.flatten_cons, hps, List.map_append], .cons hb hus⟩

theorem around {b : Box} (hb : b.Around (ts.map box)) : b.Around (us.map box) := by
  obtain ⟨ps, hps, hus⟩ := h.exists_parts
  exact (hps ▸ hb).of_forall₂ hus

theorem hasRole : ∀ u ∈ us, u.node.hasRole role = true := by
  induction h with
  | nil => exact nofun
  | @single t ts us c c' hr _ ih =>
    refine List.forall_mem_cons.2 ⟨?_, ih⟩
    rw [hr, show (t.mapNode (·.addRole .listItem)).node = t.node.addRole .listItem from rfl, Node.hasRole_addRole]
    simp
  | several _ hn _ _ ih =>
    refine List.forall_mem_cons.2 ⟨?_, ih⟩
    rw [Node.hasRole_iff, hn.roles]
    exact List.mem_singleton_self _

/-- A row has several cells. -/
theorem cells (hr : role ≠ .listItem) : ∀ u ∈ us, 2 ≤ u.flow.length := by
  induction h with
  | nil => exact nofun
  | single hr' _ _ => exact absurd hr' hr
  | several hlen _ _ _ ih => exact List.forall_mem_cons.2 ⟨hlen, ih⟩

theorem every (hr : role.isList = false) (hts : ∀ t ∈ ts, t.Every fun u => k ≤ u.node.index → Assembled u) :
    ∀ u ∈ us, u.Every fun v => k ≤ v.node.index → Assembled v := by
  induction h with
  | nil => exact nofun
  | @single t ts us c c' _ _ ih =>
    obtain ⟨ht, hts⟩ := List.forall_mem_cons.1 hts
    obtain ⟨hself, hmembers⟩ := every_iff.1 ht
    exact List.forall_mem_cons.2 ⟨every_iff.2 ⟨fun hk => (hself hk).marked, hmembers⟩, ih hts⟩
  | @several members ts us n c c' _ hn hb _ ih =>
    obtain ⟨hmembers, hts⟩ := List.forall_mem_append.1 hts
    refine List.forall_mem_cons.2 ⟨every_iff.2 ⟨fun _ => ?_, ?_⟩, ih hts⟩
    · exact assembled_part hn hr hb
    · rwa [Tree.members, List.append_nil]

end Itemized

namespace Compiled

variable (h : Compiled ts c made c')

include h

theorem le_index : c ≤ made.node.index := by
  obtain ⟨-, -, hitems, -, hm, -⟩ := h
  exact hitems.created_le.trans hm.made.index.ge

theorem regathered (hk : k ≤ c) : Regathered (originsAll k ts) (origins k made) := by
  rw [origins_new (hk.trans h.le_index)]
  obtain ⟨-, hx, hitems, -, -, -⟩ := h
  exact (Regathered.of_perm (originsAll_perm k hx)).trans (hitems.regathered hk)

theorem assembled : Assembled made := by
  obtain @⟨list, -, ts, xs, items, c, c', hx, hitems, -, m, hm, hb⟩ := h
  have hrole {r : Role} (h : m.hasRole r = true) : r = list := by
    rwa [Node.hasRole_iff, hm.roles, List.mem_singleton] at h
  refine ⟨?_, rfl, hitems.around (hb.perm (hx.map box)), fun r hr h => ?_, fun h => ?_⟩
  · rw [Node.isGenerated, hm.made.id]
    rfl
  · have hitem : itemRole list = .listItem := by
      rw [← hrole h]
      rcases hr with rfl | rfl | rfl <;> rfl
    exact hitem ▸ hitems.hasRole
  · have hcell : itemRole list = .tableRow := by rw [← hrole h]; rfl
    rw [hcell] at hitems
    exact fun u hu => ⟨hitems.hasRole u hu, hitems.cells (by decide) u hu⟩

theorem every (hts : ∀ t ∈ ts, t.Every fun u => k ≤ u.node.index → Assembled u) :
    made.Every fun u => k ≤ u.node.index → Assembled u := by
  have hself := h.assembled
  obtain @⟨list, -, ts, xs, items, c, c', hx, hitems, -, m, -, -⟩ := h
  refine every_iff.2 ⟨fun _ => hself, fun u hu => ?_⟩
  rw [Tree.members, List.append_nil] at hu
  exact hitems.every (isList_itemRole list) (fun t ht => hts t (hx.mem_iff.2 ht)) u hu

end Compiled

/-! ### Step by step -/

namespace Takes

variable (h : Takes s s')

include h

theorem created_le : s.2 ≤ s'.2 := (h.shifts default []).created_le

theorem regathered (hk : k ≤ s.2) : Regathered (originsAll k s.1) (originsAll k s'.1) := by
  obtain @⟨flow, members, before, after, made, c, c', hp, -, hm, -⟩ := h
  have hmiddle : (made :: (before ++ after)).Perm (before ++ made :: after) := List.perm_middle.symm
  have hleft := Regathered.of_perm (originsAll_perm k hp)
  rw [originsAll_append] at hleft
  exact (hleft.trans ((hm.regathered hk).append (.refl _))).trans (.of_perm (originsAll_perm k hmiddle))

/-- Those that are left from before stand in the order in which they stood. -/
theorem sublist (hk : k ≤ s.2) :
    (s'.1.filter fun u => u.node.index < k).Sublist (s.1.filter fun u => u.node.index < k) := by
  obtain @⟨flow, members, before, after, made, c, c', -, hs, hm, -⟩ := h
  have hnew : ¬made.node.index < k := Nat.not_lt.2 (hk.trans hm.le_index)
  dsimp only
  rw [List.filter_append, List.filter_cons_of_neg (by simpa using hnew), ← List.filter_append]
  exact hs.filter _

theorem every (hs : ∀ t ∈ s.1, t.Every fun u => k ≤ u.node.index → Assembled u) :
    ∀ t ∈ s'.1, t.Every fun u => k ≤ u.node.index → Assembled u := by
  obtain @⟨flow, members, before, after, made, c, c', hp, hsub, hm, -⟩ := h
  have hmade := hm.every fun t ht => hs t (hp.mem_iff.2 (List.mem_append_left _ ht))
  have hleft : ∀ t ∈ before ++ after, t.Every fun u => k ≤ u.node.index → Assembled u :=
    fun t ht => hs t (hsub.subset ht)
  obtain ⟨hbefore, hafter⟩ := List.forall_mem_append.1 hleft
  exact List.forall_mem_append.2 ⟨hbefore, List.forall_mem_cons.2 ⟨hmade, hafter⟩⟩

end Takes

/-- What every step keeps, a run of them keeps. -/
theorem keeps_of_takes {P : List Tree × Nat → Prop} (step : ∀ s s', k ≤ s.2 → Takes s s' → P s → P s')
    (h : Relation.ReflTransGen Takes s s') (hk : k ≤ s.2) (hs : P s) : P s' := by
  have hkeeps : k ≤ s'.2 ∧ P s' := by
    induction h with
    | refl => exact ⟨hk, hs⟩
    | tail _ hstep ih => exact ⟨ih.1.trans hstep.created_le, step _ _ ih.1 hstep ih.2⟩
  exact hkeeps.2

/-- Making lists and tables only regroups the flow children of an owner. Step by step a container takes the place of some
of them and lies clear of all others. Taken apart, the new flow children are the former ones, each of them once and
unchanged but for being marked as an item, and those that are left stand in their order. All that is new is put together
as lists and tables are. -/
theorem makeLists_regroups (t : Tree) (j : Journal) (hold : ∀ c ∈ t.flow, c.Every fun u => u.node.index < j.created) :
    (makeLists t j).1.node = t.node ∧ (makeLists t j).1.attached = t.attached ∧
    Relation.ReflTransGen Takes (t.flow, j.created) ((makeLists t j).1.flow, (makeLists t j).2.created) ∧
    Regathered t.flow (originsAll j.created (makeLists t j).1.flow) ∧
    ((makeLists t j).1.flow.filter fun u => u.node.index < j.created).Sublist t.flow ∧
    ∀ c ∈ (makeLists t j).1.flow, c.Every fun u => j.created ≤ u.node.index → Assembled u := by
  obtain ⟨hnode, hattached, htakes⟩ := takes_makeLists t j
  have hchildren : ∀ c ∈ t.flow, c.node.index < j.created := fun c hc => (every_iff.1 (hold c hc)).1
  refine ⟨hnode, hattached, htakes, ?_, ?_, ?_⟩
  · let P (s : List Tree × Nat) : Prop := Regathered t.flow (originsAll j.created s.1)
    have start : P (t.flow, j.created) := by
      change Regathered t.flow (originsAll j.created t.flow)
      rw [originsAll_old hchildren]
      exact .refl _
    exact keeps_of_takes (P := P) (fun _ _ hk hstep hs => hs.trans (hstep.regathered hk)) htakes le_rfl start
  · let P (s : List Tree × Nat) : Prop := (s.1.filter fun u => u.node.index < j.created).Sublist t.flow
    exact keeps_of_takes (P := P) (fun _ _ hk hstep hs => (hstep.sublist hk).trans hs) htakes le_rfl List.filter_sublist
  · let P (s : List Tree × Nat) : Prop := ∀ c ∈ s.1, c.Every fun u => j.created ≤ u.node.index → Assembled u
    have start : P (t.flow, j.created) := fun c hc =>
      (hold c hc).mono fun u hu hnew => absurd hu (Nat.not_lt.2 hnew)
    exact keeps_of_takes (P := P) (fun _ _ _ hstep hs => hstep.every hs) htakes le_rfl start

/-- A wide box over three equal ones. -/
def captioned : Tree := sheet [⟨0, 0, 200, 30⟩, ⟨0, 50, 40, 40⟩, ⟨60, 50, 40, 40⟩, ⟨120, 50, 40, 40⟩]

/-- The three become a list. -/
theorem makeLists_regroups_captioned : (∀ c ∈ captioned.flow, c.Every fun u => u.node.index < 1) ∧
    ((makeLists captioned { created := 1 }).1.flow.map fun t => (t.box, t.flow.map box)) =
      [(⟨0, 0, 200, 30⟩, []), (⟨0, 50, 160, 40⟩, [⟨0, 50, 40, 40⟩, ⟨60, 50, 40, 40⟩, ⟨120, 50, 40, 40⟩])] ∧
    Regathered captioned.flow (originsAll 1 (makeLists captioned { created := 1 }).1.flow) ∧
    ∀ c ∈ (makeLists captioned { created := 1 }).1.flow, c.Every fun u => 1 ≤ u.node.index → Assembled u := by
  have hold : ∀ c ∈ captioned.flow, c.Every fun u => u.node.index < 1 := by
    have hall : ∀ c ∈ captioned.flow, ∀ u ∈ c.subtrees, u.node.index < 1 := by decide
    exact hall
  obtain ⟨-, -, -, hregathered, -, hassembled⟩ := makeLists_regroups captioned { created := 1 } hold
  exact ⟨hold, by decide +kernel, hregathered, hassembled⟩

end Regroup

end FlexRecovery
