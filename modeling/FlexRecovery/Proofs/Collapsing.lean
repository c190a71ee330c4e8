import FlexRecovery.Proofs.Lodging
import FlexRecovery.Proofs.Orderly

/-!
Grids while siblings with one box collapse. Boxes that are the same up to the tolerance may drift apart over a chain of
them, but a sibling takes others in only while it is the lower one of the first pair: before that it has the box and the
grid that it had, and after that nothing is left that has its box.
-/

namespace FlexRecovery.Regroup

open Node Tree Box

variable {all done rest before between after : List Tree} {a a' b b' e f : Tree}

/-- It has the box of a flow child, of one that is no list if it is none itself. -/
def Stems (all : List Tree) (e : Tree) : Prop :=
  ∃ c ∈ all, c.box = e.box ∧ (e.node.roles.isList = false → c.node.roles.isList = false)

/-- It can be told apart from a grid, and from whatever nearly has the box of that. -/
structure Clears (all : List Tree) (e f : Tree) : Prop where
  differ : e.box.same f.box = false
  separate : ∀ c ∈ all, c.box.same f.box = true → e.box.width = 1 → c.box.width = 1 → ¬e.box.Beside c.box

/-- Siblings of which the first may have become grids when they took others in, and the rest are as they were. -/
structure Merging (all done rest : List Tree) : Prop where
  stems : ∀ e ∈ done ++ rest, Stems all e
  sturdy : ∀ e ∈ done, IsGrid e → Sturdy all e.box
  separate : done.Pairwise Separate
  clears : ∀ e ∈ done, ∀ f ∈ rest, IsGrid e → IsGrid f → Clears all e f
  untouched : ∀ f ∈ rest, IsGrid f → ∀ c ∈ all, c.box.same f.box = true → Sturdy all c.box
  unmixed : rest.Pairwise fun f f' => IsGrid f → IsGrid f' → Unmixed all f f'

theorem same_self (b : Box) : b.same b = true := same_axes.2 fun _ => ⟨⟨by omega, by omega⟩, by omega, by omega⟩

theorem Foldable.merging (h : Foldable all) : Merging all [] all where
  stems := fun e he => ⟨e, he, rfl, id⟩
  sturdy := by simp
  separate := .nil
  clears := by simp
  untouched := h.sturdy
  unmixed := h.unmixed

theorem Merging.perm_rest {rest' : List Tree} (h : Merging all done rest) (hp : rest.Perm rest') :
    Merging all done rest' where
  stems := fun e he => h.stems e ((hp.append_left done).mem_iff.2 he)
  sturdy := h.sturdy
  separate := h.separate
  clears := fun e he f hf => h.clears e he f (hp.mem_iff.2 hf)
  untouched := fun f hf => h.untouched f (hp.mem_iff.2 hf)
  unmixed := (hp.pairwise_iff fun hm hg hg' => (hm hg' hg).symm).1 h.unmixed

/-- What nearly has the box of one of two grids can be told apart from the other. -/
theorem Unmixed.clears (h : Unmixed all b f) (he : Stems all e) (hs : e.box.same b.box = true) : Clears all e f := by
  obtain ⟨c, hc, hb, -⟩ := he
  rw [← hb] at hs
  refine ⟨?_, fun c' hc' hs' => ?_⟩
  · rw [← hb]
    exact h.differ c hc hs
  · rw [← hb]
    exact h.separate c hc c' hc' hs hs'

theorem Clears.not_beside (h : Clears all e f) (hs : Stems all a) (hb : a.box.same f.box = true) : Separate e a := by
  obtain ⟨c, hc, he, -⟩ := hs
  intro _ _ hw hw'
  rw [← he] at hw' hb ⊢
  exact h.separate c hc hb hw hw'

/-- The next sibling has its turn. -/
theorem Merging.next (h : Merging all done (f :: rest)) : Merging all (done ++ [f]) rest := by
  have hf : Stems all f := h.stems f (by simp)
  obtain ⟨hun, hrest⟩ := List.pairwise_cons.1 h.unmixed
  refine ⟨fun e he => h.stems e (by simpa using he), ?_, ?_, ?_,
    fun g hg => h.untouched g (List.mem_cons_of_mem _ hg), hrest⟩
  · refine List.forall_mem_append.2 ⟨h.sturdy, List.forall_mem_singleton.2 fun hg => ?_⟩
    obtain ⟨c, hc, hb, -⟩ := hf
    rw [← hb]
    exact h.untouched f List.mem_cons_self hg c hc (hb ▸ same_self c.box)
  · refine List.pairwise_append.2 ⟨h.separate, List.pairwise_singleton _ _, fun e he => ?_⟩
    refine List.forall_mem_singleton.2 fun hg hg' => ?_
    exact (h.clears e he f List.mem_cons_self hg hg').not_beside hf (same_self _) hg hg'
  · refine List.forall_mem_append.2 ⟨fun e he g hg => h.clears e he g (List.mem_cons_of_mem _ hg),
      List.forall_mem_singleton.2 fun g hg hgf hgg => ?_⟩
    exact (hun g hg hgf hgg).clears hf (same_self _)

theorem Merging.advance (h : Merging all done (before ++ rest)) : Merging all (done ++ before) rest := by
  induction before generalizing done with
  | nil => simpa using h
  | cons a before ih =>
    have hn := ih h.next
    rwa [List.append_assoc] at hn

/-- The sibling that has its turn takes one of the others in. -/
theorem Merging.fold (h : Merging all (done ++ [a]) (between ++ b :: after)) (hs : a.box.same b.box = true)
    (hbox : a'.box = a.box) (hgrid : IsGrid a' → IsGrid a ∨ IsGrid b)
    (hlist : a'.node.roles.isList = false → a.node.roles.isList = false) :
    Merging all (done ++ [a']) (between ++ after) := by
  have h := h.perm_rest List.perm_middle
  have ha : Stems all a := h.stems a (by simp)
  have ha' : Stems all a' := by
    obtain ⟨c, hc, hb, hl⟩ := ha
    exact ⟨c, hc, hb.trans hbox.symm, hl ∘ hlist⟩
  have hs' : a'.box.same b.box = true := hbox ▸ hs
  obtain ⟨hun, hrest⟩ := List.pairwise_cons.1 h.unmixed
  obtain ⟨hsep, -, hlast⟩ := List.pairwise_append.1 h.separate
  have hcur : a ∈ done ++ [a] := List.mem_append_right _ (List.mem_singleton_self _)
  refine ⟨?_, ?_, ?_, ?_, fun g hg => h.untouched g (List.mem_cons_of_mem _ hg), hrest⟩
  · have hall := h.stems
    simp only [List.mem_append, List.mem_cons, List.not_mem_nil, or_false] at hall ⊢
    rintro e ((he | rfl) | he | he)
    · exact hall e (.inl (.inl he))
    · exact ha'
    · exact hall e (.inr (.inr (.inl he)))
    · exact hall e (.inr (.inr (.inr he)))
  · refine List.forall_mem_append.2 ⟨fun e he => h.sturdy e (List.mem_append_left _ he),
      List.forall_mem_singleton.2 fun hg => ?_⟩
    rcases hgrid hg with hg | hg
    · exact hbox ▸ h.sturdy a hcur hg
    · obtain ⟨c, hc, hb, -⟩ := ha
      rw [hbox, ← hb]
      exact h.untouched b List.mem_cons_self hg c hc (hb ▸ hs)
  · refine List.pairwise_append.2 ⟨hsep, List.pairwise_singleton _ _, fun e he => ?_⟩
    refine List.forall_mem_singleton.2 fun hge hg => ?_
    rcases hgrid hg with hg' | hg'
    · rw [hbox]
      exact hlast e he a (List.mem_singleton_self _) hge hg'
    · exact (h.clears e (List.mem_append_left _ he) b List.mem_cons_self hge hg').not_beside ha' hs' hge hg
  · refine List.forall_mem_append.2 ⟨fun e he g hg => h.clears e (List.mem_append_left _ he) g (List.mem_cons_of_mem _ hg),
      List.forall_mem_singleton.2 fun g hg hga hgg => ?_⟩
    rcases hgrid hga with hga | hgb
    · have hc := h.clears a hcur g (List.mem_cons_of_mem _ hg) hga hgg
      exact ⟨hbox ▸ hc.differ, hbox ▸ hc.separate⟩
    · exact (hun g hg hgb hgg).clears ha' hs'

/-- The sibling that has its turn is content and goes into one of the others. -/
theorem Merging.move (h : Merging all (done ++ [a]) (between ++ b :: after)) (hbox : b'.box = b.box)
    (hroles : b'.node.roles = b.node.roles) : Merging all done (between ++ b' :: after) := by
  have h := h.perm_rest List.perm_middle
  have hgrid : IsGrid b' ↔ IsGrid b := by rw [IsGrid, IsGrid, hasRole, hasRole, hroles]
  have unmixed {g : Tree} (hu : Unmixed all b g) : Unmixed all b' g := by
    refine ⟨?_, ?_⟩
    · rw [hbox]
      exact hu.differ
    · rw [hbox]
      exact hu.separate
  obtain ⟨hun, hrest⟩ := List.pairwise_cons.1 h.unmixed
  refine Merging.perm_rest ⟨?_, fun e he => h.sturdy e (List.mem_append_left _ he),
    (List.pairwise_append.1 h.separate).1, fun e he => ?_, ?_, ?_⟩ List.perm_middle.symm
  · have hall := h.stems
    simp only [List.mem_append, List.mem_cons, List.not_mem_nil, or_false] at hall ⊢
    rintro e (he | rfl | he)
    · exact hall e (.inl (.inl he))
    · obtain ⟨c, hc, hb, hl⟩ := hall b (.inr (.inl rfl))
      exact ⟨c, hc, hb.trans hbox.symm, hroles ▸ hl⟩
    · exact hall e (.inr (.inr he))
  · have hc := h.clears e (List.mem_append_left _ he)
    refine List.forall_mem_cons.2 ⟨fun hge hgb => ?_, fun g hg => hc g (List.mem_cons_of_mem _ hg)⟩
    have hcb := hc b List.mem_cons_self hge (hgrid.1 hgb)
    exact ⟨hbox ▸ hcb.differ, hbox ▸ hcb.separate⟩
  · refine List.forall_mem_cons.2 ⟨fun hg => ?_, fun g hg => h.untouched g (List.mem_cons_of_mem _ hg)⟩
    rw [hbox]
    exact h.untouched b List.mem_cons_self (hgrid.1 hg)
  · refine List.pairwise_cons.2 ⟨fun g hg hgb hgg => unmixed (hun g hg (hgrid.1 hgb) hgg), hrest⟩

/-- When no siblings with one box are left, grids stand apart. -/
theorem Merging.steady (h : Merging all done []) : Steady done where
  sturdy := by
    intro o ho hg
    have hs := h.sturdy o ho hg
    have each {P : Box → Prop} (hP : ∀ x ∈ all, x.node.roles.isList = false → P x.box) :
        ∀ x ∈ done, x.node.roles.isList = false → P x.box := by
      intro x hx hl
      obtain ⟨c, hc, hb, hcl⟩ := h.stems x (List.mem_append_left _ hx)
      exact hb ▸ hP c hc (hcl hl)
    exact ⟨hs.height, each (P := fun b => b.contains o.box = false) hs.outside,
      fun hw => each (P := fun b => ¬b.Engulfs o.box) (hs.clear hw)⟩
  separate := h.separate

/-! ### One pair after the other -/

/-- No sibling before the first pair has the box of a later one. -/
theorem before_of_splitPair {α : Type} {r : α → α → Bool} {as : List α} {p : Pair α} (h : splitPair r as = some p) :
    p.before.Pairwise (r · · = false) ∧
      ∀ x ∈ p.before, ∀ y ∈ p.lower :: (p.between ++ p.upper :: p.after), r x y = false := by
  induction as generalizing p with
  | nil => cases h
  | cons a as ih =>
    unfold splitPair at h
    split at h
    · obtain rfl := Option.some.inj h
      exact ⟨.nil, by simp⟩
    · next hs =>
      obtain ⟨q, hq, rfl⟩ := Option.map_eq_some_iff.1 h
      obtain ⟨hp, hc⟩ := ih hq
      have ha := splitFirst_eq_none.1 hs
      obtain ⟨rfl, -⟩ := eq_of_splitPair hq
      exact ⟨List.pairwise_cons.2 ⟨fun x hx => ha x (List.mem_append_left _ hx), hp⟩,
        List.forall_mem_cons.2 ⟨fun y hy => ha y (List.mem_append_right _ hy), hc⟩⟩

/-- Siblings of which the first have no partners left, and the next one has its turn. -/
structure Zoned (all flow done rest : List Tree) : Prop where
  flow : flow = done ++ rest
  alone : done.Pairwise fun x y => x.box.same y.box = false
  apart : ∀ x ∈ done, ∀ y ∈ rest, x.box.same y.box = false
  merging : Merging all (done ++ rest.take 1) (rest.drop 1)

/-- The lower one of the first pair has its turn. -/
theorem Zoned.turn {flow : List Tree} (h : Zoned all flow done rest) {p : Pair Tree}
    (hp : splitPair (fun a b : Tree => a.box.same b.box) flow = some p) :
    Merging all (p.before ++ [p.lower]) (p.between ++ p.upper :: p.after) := by
  obtain ⟨hflow, hs⟩ := eq_of_splitPair hp
  rcases List.append_eq_append_iff.1 (h.flow.symm.trans hflow) with ⟨mid, hmid, hrest⟩ | ⟨mid, hmid, hrest⟩
  · have hm := h.merging
    rw [hrest] at hm
    cases mid with
    | nil =>
      rw [List.append_nil] at hmid
      rw [hmid]
      exact hm
    | cons m mid =>
      have hm : Merging all (done ++ [m]) ((mid ++ [p.lower]) ++ (p.between ++ p.upper :: p.after)) := by
        simpa using hm
      have ha := hm.advance
      rw [hmid]
      simpa using ha
  · cases mid with
    | nil =>
      rw [List.append_nil] at hmid
      have hm := h.merging
      rw [← List.nil_append rest, ← hrest, hmid] at hm
      exact hm
    | cons m mid =>
      -- The lower one would have no partner.
      obtain ⟨rfl, hlater⟩ := List.cons.inj hrest
      have hlater : p.between ++ p.upper :: p.after = mid ++ rest := hlater
      have hup : p.upper ∈ mid ++ rest := by
        rw [← hlater]
        simp
      have halone := h.alone
      rw [hmid] at halone
      have hfalse : p.lower.box.same p.upper.box = false := by
        rcases List.mem_append.1 hup with hup | hup
        · exact (List.pairwise_cons.1 (List.pairwise_append.1 halone).2.1).1 _ hup
        · exact h.apart p.lower (by rw [hmid]; simp) _ hup
      rw [hfalse] at hs
      cases hs

/-- The siblings before a pair that is settled have no partner in what is left. -/
theorem zoned_of_settled {flow : List Tree} {p : Pair Tree}
    (hp : splitPair (fun a b : Tree => a.box.same b.box) flow = some p) (hrest : ∀ y ∈ rest, ∃ z ∈ p.lower ::
      (p.between ++ p.upper :: p.after), y.box = z.box) (hm : Merging all (p.before ++ rest.take 1) (rest.drop 1)) :
    Zoned all (p.before ++ rest) p.before rest := by
  obtain ⟨halone, hapart⟩ := before_of_splitPair hp
  refine ⟨rfl, halone, fun x hx y hy => ?_, hm⟩
  obtain ⟨z, hz, hb⟩ := hrest y hy
  rw [hb]
  exact hapart x hx z hz

theorem Zoned.atLower {flow : List Tree} (h : Zoned all flow done rest) {p : Pair Tree}
    (hp : splitPair (fun a b : Tree => a.box.same b.box) flow = some p) (hbox : a.box = p.lower.box)
    (hgrid : IsGrid a → IsGrid p.lower ∨ IsGrid p.upper)
    (hlist : a.node.roles.isList = false → p.lower.node.roles.isList = false) :
    Zoned all (p.before ++ a :: (p.between ++ p.after)) p.before (a :: (p.between ++ p.after)) := by
  refine zoned_of_settled hp (List.forall_mem_cons.2 ⟨⟨_, List.mem_cons_self, hbox⟩, fun y hy => ⟨y, ?_, rfl⟩⟩)
    ((h.turn hp).fold (eq_of_splitPair hp).2 hbox hgrid hlist)
  simp only [List.mem_append, List.mem_cons] at hy ⊢
  tauto

theorem Zoned.atUpper {flow : List Tree} (h : Zoned all flow done rest) {p : Pair Tree}
    (hp : splitPair (fun a b : Tree => a.box.same b.box) flow = some p) (hbox : b.box = p.upper.box)
    (hroles : b.node.roles = p.upper.node.roles) :
    Zoned all (p.before ++ (p.between ++ b :: p.after)) p.before (p.between ++ b :: p.after) := by
  have hm := (h.turn hp).move hbox hroles
  refine zoned_of_settled hp (fun y hy => ?_) ?_
  · rcases List.mem_append.1 hy with hy | hy
    · exact ⟨y, by simp [hy], rfl⟩
    · rcases List.mem_cons.1 hy with rfl | hy
      · exact ⟨p.upper, by simp, hbox⟩
      · exact ⟨y, by simp [hy], rfl⟩
  · rw [← List.take_append_drop 1 (p.between ++ b :: p.after)] at hm
    exact hm.advance

/-! ### All pairs -/

theorem Proper.not_isGrid_of_content {x : Tree} (h : Proper x) (hc : x.node.isContent = true) : ¬IsGrid x := by
  refine not_isGrid (Bool.eq_false_iff.2 fun hl => ?_)
  rcases h.plain.kind with ⟨-, hn⟩ | ⟨hp, -⟩
  · rw [hc] at hn
    cases hn
  · rw [isPreset, hl] at hp
    cases hp

/-- Content goes into a container. -/
theorem Proper.takeIn {x y : Tree} (hx : Proper x) (hy : Proper y) (hc : y.node.isContent = true) :
    Proper (x.addFlow [y]) :=
  hx.addFlow (List.forall_mem_singleton.2 ⟨hy, fun _ => hy.not_isGrid_of_content hc⟩)

section pair

variable {P : Tree → Prop} {p : Pair Tree} {t : Tree}
  (h : ∀ c ∈ p.before ++ p.lower :: (p.between ++ p.upper :: p.after), P c) (ht : P t)

include h ht

/-- With another sibling in the place of the lower one and none in that of the upper one. -/
theorem forall_atLower : ∀ c ∈ p.before ++ t :: (p.between ++ p.after), P c := by
  intro c hc
  simp only [List.mem_append, List.mem_cons] at hc h
  rcases hc with hc | rfl | hc | hc
  · exact h c (.inl hc)
  · exact ht
  · exact h c (.inr (.inr (.inl hc)))
  · exact h c (.inr (.inr (.inr (.inr hc))))

/-- With another sibling in the place of the upper one and none in that of the lower one. -/
theorem forall_atUpper : ∀ c ∈ p.before ++ (p.between ++ t :: p.after), P c := by
  intro c hc
  simp only [List.mem_append, List.mem_cons] at hc h
  rcases hc with hc | hc | rfl | hc
  · exact h c (.inl hc)
  · exact h c (.inr (.inr (.inl hc)))
  · exact ht
  · exact h c (.inr (.inr (.inr (.inr hc))))

end pair

/-- What is left of a pair of siblings. -/
theorem Zoned.settle {flow : List Tree} (h : Zoned all flow done rest) (hproper : ∀ c ∈ flow, Proper c) {p : Pair Tree}
    (hp : splitPair (fun a b : Tree => a.box.same b.box) flow = some p) :
    (∃ done rest, Zoned all (settle p).flow done rest) ∧ (∀ c ∈ (settle p).flow, Proper c) ∧
      ∀ c ∈ (settle p).out, c.Every Orderly := by
  obtain ⟨hflow, hs⟩ := eq_of_splitPair hp
  have hmem := hproper
  rw [hflow] at hmem
  have hlower : Proper p.lower := hmem _ (by simp)
  have hupper : Proper p.upper := hmem _ (by simp)
  have promoted {t : Tree} (ht : Proper t) (hi : t.node.isImage = true) : Proper (t.mapNode Node.promoted) :=
    hosting_of_image hi ▸ ht.hosting
  have box_promoted {t : Tree} (hi : t.node.isImage = true) : (t.mapNode Node.promoted).box = t.box :=
    (kept_promoted hi).2
  unfold Regroup.settle
  dsimp only
  split
  · next hl hu =>
    -- Two grids are told apart.
    have hgrid : IsGrid p.lower → ¬IsGrid p.upper := by
      intro hg hg'
      have hc := (h.turn hp).clears p.lower (by simp) p.upper (by simp) hg hg'
      rw [hc.differ] at hs
      cases hs
    refine ⟨⟨_, _, h.atLower hp (box_absorb _ _) ?_ ?_⟩, forall_atLower hmem (hlower.fused hupper hl hgrid), by simp⟩
    · intro hg
      rw [IsGrid, fused, hasRole_absorb _ _ (by simp), Bool.or_eq_true] at hg
      exact hg
    · intro hf
      rw [fused, isList_absorb, Bool.or_eq_false_iff] at hf
      exact hf.1
  · next hl hu => exact ⟨⟨_, _, h.atLower hp rfl .inl id⟩, forall_atLower hmem (hlower.takeIn hupper hu), by simp⟩
  · next hl hu => exact ⟨⟨_, _, h.atUpper hp rfl rfl⟩, forall_atUpper hmem (hupper.takeIn hlower hl), by simp⟩
  · next hl hu =>
    split
    · next hi =>
      refine ⟨⟨_, _, h.atLower hp (box_promoted hi) (fun hg => .inl ?_) fun hf => ?_⟩,
        forall_atLower hmem ((promoted hlower hi).takeIn hupper hu), by simp⟩
      · simpa [IsGrid, hasRole, Tree.addFlow, mapNode] using hg
      · simpa [Tree.addFlow, mapNode] using hf
    · split
      · next hi =>
        exact ⟨⟨_, _, h.atUpper hp (box_promoted hi) (roles_promoted _)⟩,
          forall_atUpper hmem ((promoted hupper hi).takeIn hlower hl), by simp⟩
      · exact ⟨⟨_, _, h.atLower hp rfl .inl id⟩, forall_atLower hmem hlower, by simpa using hupper.below⟩

/-- No two grids collapse, and those that are left stand apart. -/
theorem collapseEqual_underway {t : Tree} (h : Underway t) (hf : Foldable t.flow) (j : Journal) :
    Underway (collapseEqual t j).1 ∧ Steady (collapseEqual t j).1.flow ∧ (collapseEqual t j).1.box = t.box := by
  have hends := ends_collapseEqual t j
  have key : ∀ s : Tree × Journal, Relation.ReflTransGen (fun a b => settleStep a = some b) (t, j) s →
      Underway s.1 ∧ s.1.node = t.node ∧ ∃ done rest, Zoned t.flow s.1.flow done rest := by
    intro s hs
    induction hs with
    | refl =>
      have hm : Merging t.flow [] (t.flow.take 1 ++ t.flow.drop 1) := by
        rw [List.take_append_drop]
        exact hf.merging
      exact ⟨h, rfl, [], t.flow, rfl, .nil, by simp, hm.advance⟩
    | @tail s s' _ hstep ih =>
      obtain ⟨hu, hn, done, rest, hz⟩ := ih
      obtain ⟨p, hp, rfl⟩ := Option.map_eq_some_iff.1 hstep
      obtain ⟨hz', hproper, hout⟩ := hz.settle hu.flow hp
      refine ⟨⟨hu.sparing, hproper, List.forall_mem_append.2 ⟨hu.attached, fun c hc => ?_⟩⟩, hn, hz'⟩
      exact hout c (by simpa using hc)
  obtain ⟨hu, hn, done, rest, hz⟩ := key _ hends.run
  refine ⟨hu, ?_, congrArg Node.box hn⟩
  rw [hz.flow]
  have hm := hz.merging
  rw [← List.append_nil (rest.drop 1)] at hm
  have ha := hm.advance
  rw [List.append_assoc, List.take_append_drop] at ha
  exact ha.steady

end FlexRecovery.Regroup
