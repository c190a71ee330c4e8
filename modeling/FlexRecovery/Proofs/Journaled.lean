import FlexRecovery.Journal
import Mathlib.Data.List.Forall2

/-! Steps of a recovery, one after another and over lists, and lists that are related piece by piece. -/

namespace FlexRecovery

theorem forall₂_trans {α : Type} {R : α → α → Prop} {as bs cs : List α} (h : List.Forall₂ R as bs)
    (h' : List.Forall₂ R bs cs) (hR : ∀ a b c, R a b → R b c → R a c) : List.Forall₂ R as cs := by
  induction h generalizing cs with
  | nil =>
    cases h'
    exact .nil
  | cons hab _ ih =>
    cases h' with
    | cons hbc h' => exact .cons (hR _ _ _ hab hbc) (ih h')

/-- Whatever stands on the left is related to something on the right. -/
theorem exists_of_forall₂ {α β : Type} {R : α → β → Prop} {as : List α} {bs : List β} (h : List.Forall₂ R as bs) :
    ∀ a ∈ as, ∃ b ∈ bs, R a b := by
  induction h with
  | nil => exact nofun
  | cons hab _ ih =>
    refine List.forall_mem_cons.2 ⟨⟨_, List.mem_cons_self .., hab⟩, fun a ha => ?_⟩
    obtain ⟨b, hb, hr⟩ := ih a ha
    exact ⟨b, List.mem_cons_of_mem _ hb, hr⟩

namespace Journaled

variable {α β σ : Type} {j : Journal}

theorem run_bind (x : Journaled α) (f : α → Journaled β) (j : Journal) : (x >>= f) j = f (x j).1 (x j).2 := rfl

/-- Whatever was reported before, the outcome has that property. -/
def Gives (P : α → Prop) (x : Journaled α) : Prop := ∀ j, P (x j).1

theorem gives_pure {P : α → Prop} {a : α} (h : P a) : Gives P (pure a) := fun _ => h

theorem Gives.bind {P : α → Prop} {Q : β → Prop} {x : Journaled α} {f : α → Journaled β} (hx : Gives P x)
    (hf : ∀ a, P a → Gives Q (f a)) : Gives Q (x >>= f) := fun j => hf _ (hx j) _

/-- A report that is made under a condition only. -/
theorem Gives.warned {P : α → Prop} {c : Prop} [Decidable c] {x : PUnit → Journaled α} (node : Option DesignId)
    (rule message : String) (hx : ∀ u, Gives P (x u)) :
    Gives P (if c then Journal.warn node rule message >>= x else x ()) := by
  split
  · exact fun j => hx () (Journal.warn node rule message j).2
  · exact hx ()

theorem run_mapM_cons (f : α → Journaled β) (a : α) (as : List α) (j : Journal) :
    ((a :: as).mapM f : Journaled (List β)) j =
      ((f a j).1 :: (as.mapM f (f a j).2).1, (as.mapM f (f a j).2).2) := by
  rw [List.mapM_cons]
  rfl

theorem length_mapM (f : α → Journaled β) (as : List α) (j : Journal) : (as.mapM f j).1.length = as.length := by
  induction as generalizing j with
  | nil => rfl
  | cons a as ih => rw [run_mapM_cons, List.length_cons, List.length_cons, ih]

theorem gives_mapM {P : β → Prop} {f : α → Journaled β} {as : List α} (h : ∀ a ∈ as, Gives P (f a)) :
    Gives (∀ b ∈ ·, P b) (as.mapM f : Journaled (List β)) := by
  induction as with
  | nil => exact fun _ _ hb => by cases hb
  | cons a as ih =>
    obtain ⟨ha, has⟩ := List.forall_mem_cons.1 h
    intro j
    rw [run_mapM_cons]
    exact List.forall_mem_cons.2 ⟨ha j, ih has _⟩

/-- What each step has to do with its result. -/
theorem forall₂_mapM {R : α → β → Prop} {f : α → Journaled β} {as : List α} (h : ∀ a ∈ as, ∀ j, R a (f a j).1)
    (j : Journal) : List.Forall₂ R as (as.mapM f j).1 := by
  induction as generalizing j with
  | nil => exact .nil
  | cons a as ih =>
    rw [run_mapM_cons]
    exact .cons (h a (by simp) j) (ih (fun b hb => h b (List.mem_cons_of_mem _ hb)) _)

theorem run_flatMapM_cons (f : α → Journaled (List β)) (a : α) (as : List α) (j : Journal) :
    ((a :: as).flatMapM f : Journaled (List β)) j =
      ((f a j).1 ++ (as.flatMapM f (f a j).2).1, (as.flatMapM f (f a j).2).2) := by
  rw [List.flatMapM_cons]
  rfl

theorem created_le_mapM {f : α → Journaled β} (hf : ∀ a j, j.created ≤ (f a j).2.created) (as : List α) (j : Journal) :
    j.created ≤ (as.mapM f j).2.created := by
  induction as generalizing j with
  | nil => exact Nat.le_refl _
  | cons a as ih =>
    rw [run_mapM_cons]
    exact Nat.le_trans (hf a j) (ih _)

/-- What a list of steps gives, each of them gives at some time. -/
theorem exists_of_mem_mapM {f : α → Journaled β} (hf : ∀ a j, j.created ≤ (f a j).2.created) {as : List α}
    {j : Journal} {b : β} (hb : b ∈ (as.mapM f j).1) :
    ∃ a ∈ as, ∃ j', j.created ≤ j'.created ∧ (f a j').1 = b := by
  induction as generalizing j with
  | nil => cases hb
  | cons a as ih =>
    rw [run_mapM_cons] at hb
    rcases List.mem_cons.1 hb with rfl | hb
    · exact ⟨a, by simp, j, Nat.le_refl _, rfl⟩
    · obtain ⟨a', ha, j', hj, hb⟩ := ih hb
      exact ⟨a', List.mem_cons_of_mem _ ha, j', Nat.le_trans (hf a j) hj, hb⟩

/-- What every step keeps, all of them keep. -/
theorem foldlM_keeps {P : σ → Journal → Prop} {f : σ → α → Journaled σ} {as : List α}
    (step : ∀ s j, ∀ a ∈ as, P s j → P (f s a j).1 (f s a j).2) {s : σ} {j : Journal} (h : P s j) :
    P (as.foldlM f s j).1 (as.foldlM f s j).2 := by
  induction as generalizing s j with
  | nil => exact h
  | cons a as ih =>
    rw [List.foldlM_cons, run_bind]
    exact ih (fun s j b hb => step s j b (List.mem_cons_of_mem _ hb)) (step s j a (by simp) h)

theorem created_forM (f : α → Journaled PUnit) (hf : ∀ a j, (f a j).2.created = j.created) (as : List α)
    (j : Journal) : (as.forM f j).2.created = j.created := by
  induction as generalizing j with
  | nil => rfl
  | cons a as ih => exact (ih (f a j).2).trans (hf a j)

section images

/-! Steps over images of what other steps are over. -/

variable {γ α' β' γ' σ' : Type}

theorem bind_congr_map {x : Journaled α} {x' : Journaled α'} {f : α → Journaled β} {f' : α' → Journaled β'}
    {g : α → α'} {h : β → β'} (hx : x' = g <$> x) (hf : ∀ a, f' (g a) = h <$> f a) :
    x' >>= f' = h <$> (x >>= f) := by
  subst hx
  rw [bind_map_left, map_bind]
  exact bind_congr hf

theorem mapM_congr_map {f : α → Journaled β} {k : α' → Journaled β'} {g : α → α'} {h : β → β'} {as : List α}
    (hf : ∀ a ∈ as, k (g a) = h <$> f a) : (as.map g).mapM k = List.map h <$> as.mapM f := by
  induction as with
  | nil => rfl
  | cons a as ih =>
    rw [List.map_cons, List.mapM_cons, List.mapM_cons]
    refine bind_congr_map (hf a (List.mem_cons_self ..)) fun b => ?_
    refine bind_congr_map (ih fun c hc => hf c (List.mem_cons_of_mem _ hc)) fun bs => ?_
    rw [map_pure, List.map_cons]

theorem foldlM_congr_map {f : σ → α → Journaled σ} {f' : σ' → α' → Journaled σ'} {k : σ → σ'} {g : α → α'}
    {as : List α} (hf : ∀ s, ∀ a ∈ as, f' (k s) (g a) = k <$> f s a) (s : σ) :
    (as.map g).foldlM f' (k s) = k <$> as.foldlM f s := by
  induction as generalizing s with
  | nil => rfl
  | cons a as ih =>
    rw [List.map_cons, List.foldlM_cons, List.foldlM_cons]
    refine bind_congr_map (hf s a (List.mem_cons_self ..)) fun s' => ?_
    exact ih (fun s b hb => hf s b (List.mem_cons_of_mem _ hb)) s'

theorem forM_congr_map {f : α → Journaled PUnit} {f' : α' → Journaled PUnit} {g : α → α'} (hf : ∀ a, f' (g a) = f a)
    (as : List α) : (as.map g).forM f' = as.forM f := by
  induction as with
  | nil => rfl
  | cons a as ih =>
    change (f' (g a) >>= fun _ => (as.map g).forM f') = f a >>= fun _ => as.forM f
    rw [hf a, ih]

/-- Two steps that cannot be told apart by what is seen of their results, each followed by another. -/
theorem map_bind_congr {δ : Type} {x : Journaled α} {x' : Journaled α'} {f : α → Journaled β} {f' : α' → Journaled β'}
    {g : α → γ} {g' : α' → γ} {h : β → δ} {h' : β' → δ} (hx : g <$> x = g' <$> x')
    (hf : ∀ a a', g a = g' a' → h <$> f a = h' <$> f' a') : h <$> (x >>= f) = h' <$> (x' >>= f') := by
  funext j
  obtain ⟨ha, hj⟩ := Prod.mk.inj (congrFun hx j)
  have hstep := congrFun (hf _ _ ha) (x j).2
  rw [map_bind, map_bind, run_bind, run_bind, hstep, hj]

end images

end Journaled

end FlexRecovery
