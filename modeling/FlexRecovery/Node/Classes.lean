import FlexRecovery.Node.Distinct

/-! Class tokens: ordered, each once, none empty. -/

namespace FlexRecovery

/-- The text begins with that one. -/
def beginsWith (start text : String) : Bool := start.toList.isPrefixOf text.toList

abbrev Classes := Distinct String

namespace Classes

/-- The empty token is ignored. -/
def push (cs : Classes) (token : String) : Classes := if token = "" then cs else cs.insert token

def pushAll (cs : Classes) (tokens : List String) : Classes := tokens.foldl push cs

def hasPrefix (cs : Classes) (start : String) : Bool := cs.toList.any (beginsWith start)

def erasePrefix (cs : Classes) (start : String) : Classes := cs.filter fun t => !beginsWith start t

theorem prefix_push (cs : Classes) (token : String) : cs.toList <+: (cs.push token).toList := by
  unfold push
  split
  · exact List.prefix_refl _
  · exact cs.prefix_insert token

theorem prefix_pushAll (cs : Classes) (tokens : List String) : cs.toList <+: (cs.pushAll tokens).toList := by
  induction tokens generalizing cs with
  | nil => exact List.prefix_refl _
  | cons t ts ih => exact (cs.prefix_push t).trans (ih (cs.push t))

theorem mem_push {cs : Classes} {token t : String} :
    t ∈ (cs.push token).toList ↔ t ∈ cs.toList ∨ (t = token ∧ token ≠ "") := by
  unfold push
  split
  · next h => simp [h]
  · next h => rw [Distinct.mem_insert]; simp [h]

theorem mem_pushAll {cs : Classes} {tokens : List String} {t : String} :
    t ∈ (cs.pushAll tokens).toList ↔ t ∈ cs.toList ∨ (t ∈ tokens ∧ t ≠ "") := by
  induction tokens generalizing cs with
  | nil => simp [pushAll]
  | cons a as ih =>
    rw [show cs.pushAll (a :: as) = (cs.push a).pushAll as from rfl, ih, mem_push, List.mem_cons]
    constructor
    · rintro ((h | ⟨rfl, h⟩) | ⟨h, h'⟩)
      · exact .inl h
      · exact .inr ⟨.inl rfl, h⟩
      · exact .inr ⟨.inr h, h'⟩
    · rintro (h | ⟨rfl | h, h'⟩)
      · exact .inl (.inl h)
      · exact .inl (.inr ⟨rfl, h'⟩)
      · exact .inr ⟨h, h'⟩

end Classes

end FlexRecovery
