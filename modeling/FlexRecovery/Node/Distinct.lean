/-! Ordered collections in which nothing occurs twice. A new element goes to the end. -/

namespace FlexRecovery

/-- Elements in the order in which they came. -/
structure Distinct (α : Type) where
  toList : List α := []
  nodup : toList.Nodup := by exact List.nodup_nil

namespace Distinct

variable {α : Type}

instance : Inhabited (Distinct α) := ⟨{}⟩

theorem ext {s t : Distinct α} (h : s.toList = t.toList) : s = t := by
  cases s; cases t; cases h; rfl

variable [DecidableEq α]

/-- An element that is there already keeps its place. -/
def insert (s : Distinct α) (a : α) : Distinct α :=
  if h : a ∈ s.toList then s
  else ⟨s.toList ++ [a], by
    rw [List.nodup_append]
    exact ⟨s.nodup, by simp, fun x hx y hy e => h (by rw [List.mem_singleton] at hy; rw [← hy, ← e]; exact hx)⟩⟩

def insertAll (s : Distinct α) (as : List α) : Distinct α := as.foldl insert s

def filter (s : Distinct α) (p : α → Bool) : Distinct α := ⟨s.toList.filter p, s.nodup.filter p⟩

def erase (s : Distinct α) (a : α) : Distinct α := s.filter (· != a)

def contains (s : Distinct α) (a : α) : Bool := decide (a ∈ s.toList)

def isEmpty (s : Distinct α) : Bool := s.toList.isEmpty

theorem toList_insert (s : Distinct α) (a : α) :
    (s.insert a).toList = if a ∈ s.toList then s.toList else s.toList ++ [a] := by
  unfold insert; split <;> rfl

theorem mem_insert {s : Distinct α} {a b : α} : b ∈ (s.insert a).toList ↔ b ∈ s.toList ∨ b = a := by
  rw [toList_insert]
  split
  · next h => exact ⟨.inl, fun hb => hb.elim id fun e => e ▸ h⟩
  · simp

@[simp] theorem insert_insert (s : Distinct α) (a : α) : (s.insert a).insert a = s.insert a := by
  apply ext
  rw [toList_insert, if_pos (mem_insert.2 (.inr rfl))]

theorem prefix_insert (s : Distinct α) (a : α) : s.toList <+: (s.insert a).toList := by
  rw [toList_insert]
  split
  · exact List.prefix_refl _
  · exact List.prefix_append _ _

theorem mem_insertAll {s : Distinct α} {as : List α} {b : α} :
    b ∈ (s.insertAll as).toList ↔ b ∈ s.toList ∨ b ∈ as := by
  induction as generalizing s with
  | nil => simp [insertAll]
  | cons a as ih =>
    rw [show s.insertAll (a :: as) = (s.insert a).insertAll as from rfl, ih, mem_insert, List.mem_cons, or_assoc]

end Distinct

end FlexRecovery
