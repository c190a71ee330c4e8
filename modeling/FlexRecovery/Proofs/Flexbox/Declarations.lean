import FlexRecovery.Resolve.MainAxis
import Mathlib

/-!
How the tokens of a layout are read. A token states a length for a property, or it is a keyword; a length that no
token states is zero.
-/

namespace FlexRecovery.Flexbox

/-- The token that states a length in pixels for a property. -/
def declaration (property : String) (v : Int) : String := property ++ "-" ++ px v

/-- Names and keywords have no brackets. -/
abbrev Bare (t : String) : Prop := '[' ∉ t.toList

theorem toList_declaration (p : String) (v : Int) :
    (declaration p v).toList = (p ++ "-").toList ++ '[' :: (toString v ++ "px]").toList := by
  unfold declaration px
  simp only [String.toList_append, List.append_assoc]
  rfl

/-- A list is cut in one way at the first place of an element. -/
theorem append_cons_inj {α : Type} {c : α} {xs ys us vs : List α} (hx : c ∉ xs) (hy : c ∉ ys)
    (h : xs ++ c :: us = ys ++ c :: vs) : xs = ys ∧ us = vs := by
  rcases List.append_eq_append_iff.1 h with ⟨as, rfl, h'⟩ | ⟨as, rfl, h'⟩
  · cases as with
    | nil => simpa using h
    | cons a as => exact absurd (by simp [(List.cons.inj h').1]) hy
  · cases as with
    | nil => simpa using h
    | cons a as => exact absurd (by simp [(List.cons.inj h').1]) hx

/-- A declaration can be taken apart. -/
theorem declaration_inj {p q : String} (hp : Bare p) (hq : Bare q) {v w : Int} :
    declaration p v = declaration q w ↔ p = q ∧ v = w := by
  refine ⟨fun h => ?_, fun ⟨hpq, hvw⟩ => by rw [hpq, hvw]⟩
  have hbare {p : String} (hp : Bare p) : '[' ∉ (p ++ "-").toList := by
    rw [String.toList_append, List.mem_append, not_or]
    exact ⟨hp, by decide⟩
  have h := congrArg String.toList h
  rw [toList_declaration, toList_declaration] at h
  obtain ⟨hname, hvalue⟩ := append_cons_inj (hbare hp) (hbare hq) h
  refine ⟨String.append_left_inj "-" |>.1 (String.toList_inj.1 hname), ?_⟩
  exact Int.repr_inj.1 (String.append_left_inj "px]" |>.1 (String.toList_inj.1 hvalue))

theorem declaration_ne {t : String} (ht : Bare t) (p : String) (v : Int) : declaration p v ≠ t := by
  rintro rfl
  rw [Bare, toList_declaration] at ht
  simp at ht

theorem not_bare_declaration (p : String) (v : Int) : ¬Bare (declaration p v) := fun h => declaration_ne h p v rfl

/-- The property has that value: a token states it and none states another, and no token states zero. -/
def States (property : String) (tokens : List String) (v : Int) : Prop :=
  ∀ w, declaration property w ∈ tokens ↔ v ≠ 0 ∧ w = v

/-- The tokens choose that keyword, or none. -/
def Chooses {α : Type} (keyword : α → String) (tokens : List String) (choice : Option α) : Prop :=
  ∀ a, keyword a ∈ tokens ↔ choice = some a

/-- A keyword before declarations is the one that is chosen. -/
theorem Chooses.cons {α : Type} {keyword : α → String} (hinj : keyword.Injective) (hb : ∀ a, Bare (keyword a)) (a : α)
    {ts : List String} (h : ∀ t ∈ ts, ¬Bare t) : Chooses keyword (keyword a :: ts) (some a) := by
  intro b
  rw [List.mem_cons, Option.some_inj]
  refine ⟨?_, fun h => .inl (by rw [h])⟩
  rintro (h' | h')
  · exact (hinj h').symm
  · exact absurd (hb b) (h _ h')

/-- There is one choice. -/
theorem Chooses.unique {α : Type} {keyword : α → String} {ts : List String} {o o' : Option α}
    (h : Chooses keyword ts o) (h' : Chooses keyword ts o') : o = o' :=
  Option.ext fun a => (h a).symm.trans (h' a)

namespace States

variable {p q : String} {ts us : List String} {v w : Int}

/-- A property has one value. -/
theorem unique (h : States p ts v) (h' : States p ts w) : v = w := by
  by_cases hv : v = 0
  · by_cases hw : w = 0
    · rw [hv, hw]
    · exact ((h w).1 ((h' w).2 ⟨hw, rfl⟩)).2.symm
  · exact ((h' v).1 ((h v).2 ⟨hv, rfl⟩)).2

theorem nil (p : String) : States p [] 0 := fun w => by simp

theorem keyword {t : String} (ht : Bare t) (p : String) : States p [t] 0 := fun w => by
  simpa using declaration_ne ht p w

theorem other (hp : Bare p) (hq : Bare q) (h : p ≠ q) (v : Int) : States p [declaration q v] 0 := fun w => by
  simpa [declaration_inj hp hq] using fun hpq => absurd hpq h

theorem declaration (hp : Bare p) (hv : v ≠ 0) : States p [declaration p v] v := fun w => by
  simp [declaration_inj hp hp, hv]

/-- Tokens that say nothing about the property may stand before and after. -/
theorem append (h : States p ts v) (h' : States p us w) (h0 : v = 0 ∨ w = 0) : States p (ts ++ us) (v + w) := by
  intro x
  rw [List.mem_append, h x, h' x]
  rcases h0 with rfl | rfl <;> simp

end States

end FlexRecovery.Flexbox
