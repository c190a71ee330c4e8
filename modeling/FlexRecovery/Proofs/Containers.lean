import FlexRecovery.Proofs.Boxes
import Mathlib.Data.List.Induction

/-!
The search for the smallest of several boxes that contains another one, candidate by candidate.
-/

namespace FlexRecovery

theorem getElem?_concat_eq_some {α : Type} {l : List α} {a d : α} {k : Nat} :
    (l ++ [a])[k]? = some d ↔ l[k]? = some d ∨ k = l.length ∧ d = a := by
  rcases Nat.lt_trichotomy k l.length with hlt | rfl | hgt
  · simp [List.getElem?_append_left hlt, hlt.ne]
  · simp [eq_comm]
  · simp [List.getElem?_append_right hgt.le, List.getElem?_eq_none hgt.le, hgt.ne', Nat.sub_ne_zero_of_lt hgt]

namespace Box

/-- The candidate at this position strictly contains the target. Every other one that does is larger, or as large and
later. -/
def Smallest (target : Box) (candidates : List Box) (i : Nat) : Prop :=
  ∃ c, candidates[i]? = some c ∧ c.strictlyContains target = true ∧
    ∀ k d, candidates[k]? = some d → d.strictlyContains target = true → c.area < d.area ∨ c.area = d.area ∧ i ≤ k

/-- What the search for the best container knows after it has seen these candidates. -/
def Seen (target : Box) (candidates : List Box) : Option (Nat × Nat) → Prop
  | none => ∀ c ∈ candidates, c.strictlyContains target = false
  | some (i, area) => target.Smallest candidates i ∧ ∃ c, candidates[i]? = some c ∧ c.area = area

variable {target c : Box} {candidates : List Box} {i : Nat}

/-- A candidate that does not contain the target changes nothing. -/
theorem Smallest.skip (h : target.Smallest candidates i) (hc : c.strictlyContains target = false) :
    target.Smallest (candidates ++ [c]) i := by
  obtain ⟨b, hb, hin, hbest⟩ := h
  refine ⟨b, getElem?_concat_eq_some.2 (.inl hb), hin, fun k d hk hd => ?_⟩
  rcases getElem?_concat_eq_some.1 hk with hk | ⟨-, rfl⟩
  · exact hbest k d hk hd
  · rw [hc] at hd
    cases hd

/-- Neither does one that is not smaller, since it comes later. -/
theorem Smallest.keep {b : Box} (h : target.Smallest candidates i) (hb : candidates[i]? = some b)
    (hc : b.area ≤ c.area) : target.Smallest (candidates ++ [c]) i := by
  obtain ⟨b', hb', hin, hbest⟩ := h
  obtain rfl := Option.some.inj (hb.symm.trans hb')
  refine ⟨b, getElem?_concat_eq_some.2 (.inl hb), hin, fun k d hk hd => ?_⟩
  rcases getElem?_concat_eq_some.1 hk with hk | ⟨rfl, rfl⟩
  · exact hbest k d hk hd
  · have hi : i < candidates.length := (List.getElem?_eq_some_iff.1 hb).1
    omega

/-- One that contains the target and is smaller than all that do is the new best. -/
theorem smallest_last (hin : c.strictlyContains target = true)
    (h : ∀ d ∈ candidates, d.strictlyContains target = true → c.area < d.area) :
    target.Smallest (candidates ++ [c]) candidates.length := by
  refine ⟨c, getElem?_concat_eq_some.2 (.inr ⟨rfl, rfl⟩), hin, fun k d hk hd => ?_⟩
  rcases getElem?_concat_eq_some.1 hk with hk | ⟨rfl, rfl⟩
  · exact .inl (h d (List.mem_of_getElem? hk) hd)
  · exact .inr ⟨rfl, le_rfl⟩

/-- One turn of the search. -/
def better (target : Box) (best : Option (Nat × Nat)) (c : Box × Nat) : Option (Nat × Nat) :=
  if c.1.strictlyContains target then
    match best with
    | some (i, area) => if area ≤ c.1.area then some (i, area) else some (c.2, c.1.area)
    | none => some (c.2, c.1.area)
  else best

theorem Seen.better {best : Option (Nat × Nat)} (h : target.Seen candidates best) (c : Box) :
    target.Seen (candidates ++ [c]) (target.better best (c, candidates.length)) := by
  have hlast : (candidates ++ [c])[candidates.length]? = some c := getElem?_concat_eq_some.2 (.inr ⟨rfl, rfl⟩)
  unfold Box.better
  split
  · next hin =>
    split
    · next i area =>
      obtain ⟨hi, b, hb, rfl⟩ := h
      split
      · next hle => exact ⟨hi.keep hb hle, b, getElem?_concat_eq_some.2 (.inl hb), rfl⟩
      · next hlt =>
        -- All that contain the target are at least as large as the best so far, and the new one is smaller.
        obtain ⟨b', hb', -, hbest⟩ := hi
        obtain rfl := Option.some.inj (hb.symm.trans hb')
        refine ⟨smallest_last hin fun d hd hdin => ?_, c, hlast, rfl⟩
        obtain ⟨k, hk⟩ := List.getElem?_of_mem hd
        have hbd := hbest k d hk hdin
        have hcb : c.area < b.area := Nat.lt_of_not_le hlt
        omega
    · refine ⟨smallest_last hin fun d hd hdin => ?_, c, hlast, rfl⟩
      rw [h d hd] at hdin
      cases hdin
  · next hout =>
    have hout : c.strictlyContains target = false := by simpa using hout
    cases best with
    | none => exact List.forall_mem_append.2 ⟨h, List.forall_mem_singleton.2 hout⟩
    | some p =>
      obtain ⟨hi, b, hb, harea⟩ := h
      exact ⟨hi.skip hout, b, getElem?_concat_eq_some.2 (.inl hb), harea⟩

theorem seen_foldl (target : Box) (candidates : List Box) :
    target.Seen candidates (candidates.zipIdx.foldl target.better none) := by
  induction candidates using List.reverseRecOn with
  | nil => exact nofun
  | append_singleton cs c ih =>
    rw [List.zipIdx_append, List.foldl_append, Nat.zero_add]
    exact ih.better c

/-- The best container is the smallest one, the earliest of several. -/
theorem smallest_bestContainer (h : target.bestContainer candidates = some i) : target.Smallest candidates i := by
  obtain ⟨⟨_, area⟩, hp, rfl⟩ := Option.map_eq_some_iff.1 h
  have hp : candidates.zipIdx.foldl target.better none = some _ := hp
  have hseen := seen_foldl target candidates
  rw [hp] at hseen
  exact hseen.1

theorem strictlyContains_bestContainer (h : target.bestContainer candidates = some i) :
    ∃ c, candidates[i]? = some c ∧ c.strictlyContains target = true := by
  obtain ⟨c, hc, hin, -⟩ := smallest_bestContainer h
  exact ⟨c, hc, hin⟩

/-- Without a best container there is none at all. -/
theorem strictlyContains_of_bestContainer_eq_none (h : target.bestContainer candidates = none) :
    ∀ c ∈ candidates, c.strictlyContains target = false := by
  have hnone : candidates.zipIdx.foldl target.better none = none := Option.map_eq_none_iff.1 h
  have hseen := seen_foldl target candidates
  rw [hnone] at hseen
  exact hseen

end Box

end FlexRecovery
