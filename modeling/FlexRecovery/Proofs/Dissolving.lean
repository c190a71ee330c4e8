import FlexRecovery.Proofs.Census

/-!
Trees dissolved into what lies below them: a tree that passes leaves what its flow children leave.
-/

namespace FlexRecovery.Tree

mutual

/-- What a tree leaves in its place: itself, unless it passes. -/
def dissolve (p : Tree → Bool) : Tree → List Tree
  | ⟨n, flow, attached⟩ => if p ⟨n, flow, attached⟩ then dissolveAll p flow else [⟨n, flow, attached⟩]

def dissolveAll (p : Tree → Bool) : List Tree → List Tree
  | [] => []
  | t :: ts => dissolve p t ++ dissolveAll p ts

end

variable {p : Tree → Bool} {t : Tree} {ts : List Tree}

theorem dissolveAll_eq (p : Tree → Bool) (ts : List Tree) : dissolveAll p ts = ts.flatMap (dissolve p) := by
  induction ts with
  | nil => rfl
  | cons t ts ih => rw [dissolveAll, ih, List.flatMap_cons]

theorem dissolve_eq (p : Tree → Bool) (t : Tree) :
    dissolve p t = if p t then t.flow.flatMap (dissolve p) else [t] := by
  cases t
  rw [dissolve, dissolveAll_eq]

/-- Where none passes all stay. -/
theorem flatMap_dissolve_eq_self (h : ∀ t ∈ ts, p t = false) : ts.flatMap (dissolve p) = ts := by
  induction ts with
  | nil => rfl
  | cons t ts ih =>
    obtain ⟨ht, hts⟩ := List.forall_mem_cons.1 h
    rw [List.flatMap_cons, ih hts, dissolve_eq, ht]
    rfl

/-- None that is left passes. -/
theorem of_mem_dissolve {c : Tree} (h : c ∈ dissolve p t) : p c = false := by
  induction t using induction_members with
  | _ t ih =>
    rw [dissolve_eq] at h
    split at h
    · obtain ⟨u, hu, hc⟩ := List.mem_flatMap.1 h
      exact ih u (List.mem_append_left _ hu) hc
    · next ht =>
      rw [List.mem_singleton.1 h]
      simpa using ht

theorem mem_subtrees_of_mem_dissolve {s : Tree} (h : s ∈ dissolve p t) : s ∈ t.subtrees := by
  induction t using induction_members with
  | _ t ih =>
    rw [dissolve_eq] at h
    split at h
    · obtain ⟨u, hu, hs⟩ := List.mem_flatMap.1 h
      exact mem_subtrees.2 (.inr ⟨u, List.mem_append_left _ hu, ih u (List.mem_append_left _ hu) hs⟩)
    · rw [List.mem_singleton.1 h]
      exact self_mem_subtrees t

end FlexRecovery.Tree
