import FlexRecovery.Resolve

/-!
The tokens that resolving gives to nodes, by how they begin.
-/

namespace FlexRecovery

theorem beginsWith_iff {s t : String} : beginsWith s t = true ↔ s.toList <+: t.toList := List.isPrefixOf_iff_prefix

/-- Two beginnings of one text, of which one begins the other. -/
theorem beginsWith_or {s s' t : String} (h : beginsWith s t = true) (h' : beginsWith s' t = true) :
    beginsWith s s' = true ∨ beginsWith s' s = true := by
  rw [beginsWith_iff] at h h'
  rw [beginsWith_iff, beginsWith_iff]
  exact List.prefix_or_prefix_of_prefix h h'

/-- Begins with one of those. -/
def Opens (starts : List String) (t : String) : Prop := ∃ s ∈ starts, beginsWith s t = true

instance (starts : List String) (t : String) : Decidable (Opens starts t) :=
  inferInstanceAs (Decidable (∃ s ∈ starts, _))

theorem Opens.append {starts : List String} {t : String} (h : Opens starts t) (u : String) : Opens starts (t ++ u) := by
  obtain ⟨s, hs, hb⟩ := h
  refine ⟨s, hs, ?_⟩
  rw [beginsWith_iff] at hb ⊢
  rw [String.toList_append]
  exact hb.trans (List.prefix_append _ _)

theorem Opens.mono {starts starts' : List String} (h : starts ⊆ starts') {t : String} (ht : Opens starts t) :
    Opens starts' t := by
  obtain ⟨s, hs, hb⟩ := ht
  exact ⟨s, h hs, hb⟩

theorem Opens.trans {starts starts' : List String} {t : String} (ht : Opens starts t)
    (h : ∀ s ∈ starts, Opens starts' s) : Opens starts' t := by
  obtain ⟨s, hs, hb⟩ := ht
  obtain ⟨s', hs', hb'⟩ := h s hs
  refine ⟨s', hs', ?_⟩
  rw [beginsWith_iff] at hb hb' ⊢
  exact hb'.trans hb

/-- No beginning of the one kind begins one of the other kind. -/
abbrev Apart (starts starts' : List String) : Prop :=
  ∀ s ∈ starts, ∀ s' ∈ starts', ¬(beginsWith s s' = true ∨ beginsWith s' s = true)

theorem Apart.not_opens {starts starts' : List String} (h : Apart starts starts') {t : String} (ht : Opens starts t) :
    ¬Opens starts' t := by
  rintro ⟨s', hs', hb'⟩
  obtain ⟨s, hs, hb⟩ := ht
  exact h s hs s' hs' (beginsWith_or hb hb')

namespace Resolve

/-- How the tokens of a layout begin. -/
def stems : List String :=
  ["flex", "items-", "justify-", "self-", "ml-", "mr-", "mt-", "mb-", "pl-", "pr-", "pt-", "pb-", "gap-x-", "gap-y-",
    "w-", "h-", "shrink-0", "truncate", "max-w-"]

/-- How those begin that an owner gets for the layout of its members. -/
def ownerStems : List String :=
  ["flex", "items-", "justify-", "pl-", "pr-", "pt-", "pb-", "gap-x-", "gap-y-"]

/-- How those of content begin that is asked to fit. -/
def fittings : List String := ["overflow-", "line-clamp-"]

/-- How those begin that place a node on its owner. -/
def pinStems : List String := ["absolute", "left-", "right-", "top-", "bottom-", "-translate-", "w-", "h-"]

abbrev IsWord (t : String) : Prop := Opens stems t

theorem isWord_of_opens {t : String} (h : Opens ownerStems t) : IsWord t := h.mono (by decide)

theorem opens_align (a : Align) : Opens ownerStems a.token := by cases a <;> decide

theorem opens_padToken {letter : String} (h : Opens ownerStems ("p" ++ letter ++ "-")) (v : Int) :
    ∀ t ∈ padToken letter v, Opens ownerStems t := by
  unfold padToken
  split
  · exact List.forall_mem_singleton.2 (h.append _)
  · simp

theorem opens_paddings (axis : Axis) (s e : Int) :
    ∀ t ∈ padToken (startLetter axis) s ++ padToken (stopLetter axis) e, Opens ownerStems t := by
  cases axis
  · exact List.forall_mem_append.2 ⟨opens_padToken (by decide) s, opens_padToken (by decide) e⟩
  · exact List.forall_mem_append.2 ⟨opens_padToken (by decide) s, opens_padToken (by decide) e⟩

theorem isWord_margins (axis : Axis) (v : Int) :
    IsWord ("m" ++ startLetter axis ++ "-" ++ px v) ∧ IsWord ("m" ++ stopLetter axis ++ "-" ++ px v) := by
  cases axis
  · exact ⟨Opens.append (by decide) _, Opens.append (by decide) _⟩
  · exact ⟨Opens.append (by decide) _, Opens.append (by decide) _⟩

theorem opens_flex (direction : Axis) : ∀ t ∈ ["flex", directionToken direction], Opens ownerStems t := by
  cases direction <;> decide

theorem isWord_flex (direction : Axis) : ∀ t ∈ ["flex", directionToken direction], IsWord t :=
  fun t ht => isWord_of_opens (opens_flex direction t ht)

theorem isWord_crossToken (axis : Axis) (t : CrossToken) : IsWord (t.text axis) := by
  cases t with
  | marginStart v => exact (isWord_margins axis v).1
  | marginStop v => exact (isWord_margins axis v).2
  | selfStart => exact (by decide : IsWord "self-start")
  | selfStop => exact (by decide : IsWord "self-end")
  | selfCenter => exact (by decide : IsWord "self-center")

/-- What an owner states across its direction. -/
theorem opens_crossPlan (p : CrossPlan) (axis : Axis) : ∀ t ∈ p.align.token ::
    (padToken (startLetter axis) p.padStart ++ padToken (stopLetter axis) p.padStop), Opens ownerStems t :=
  List.forall_mem_cons.2 ⟨opens_align _, opens_paddings _ _ _⟩

theorem isWord_crossPlan (p : CrossPlan) (axis : Axis) : ∀ t ∈ p.align.token ::
    (padToken (startLetter axis) p.padStart ++ padToken (stopLetter axis) p.padStop), IsWord t :=
  fun t ht => isWord_of_opens (opens_crossPlan p axis t ht)

theorem isWord_mainToken (axis : Axis) (t : MainToken) : IsWord (t.text axis) := by
  cases t with
  | marginStart v => exact (isWord_margins axis v).1
  | marginStop v => exact (isWord_margins axis v).2

theorem opens_plan (p : Plan) : Opens ownerStems p.token := by
  cases p with
  | spacer k => exact (by decide : Opens ownerStems "justify-start")
  | _ => decide

theorem opens_gapToken (axis : Axis) (v : Int) : Opens ownerStems (gapToken axis v) := by
  cases axis <;> exact Opens.append (by decide) _

/-- What an owner states along its direction. -/
theorem opens_mainPlan (p : MainPlan) (axis : Axis) : ∀ t ∈ p.plan.token ::
    (padToken (startLetter axis) p.padStart ++ padToken (stopLetter axis) p.padStop ++
      (p.gap.map (gapToken axis)).toList), Opens ownerStems t := by
  refine List.forall_mem_cons.2 ⟨opens_plan _, List.forall_mem_append.2 ⟨opens_paddings _ _ _, ?_⟩⟩
  cases p.gap with
  | none => simp
  | some g => exact List.forall_mem_singleton.2 (opens_gapToken axis g)

theorem isWord_mainPlan (p : MainPlan) (axis : Axis) : ∀ t ∈ p.plan.token ::
    (padToken (startLetter axis) p.padStart ++ padToken (stopLetter axis) p.padStop ++
      (p.gap.map (gapToken axis)).toList), IsWord t :=
  fun t ht => isWord_of_opens (opens_mainPlan p axis t ht)

theorem isWord_extentToken (n : Node) (axis : Axis) : IsWord (extentToken n axis) := by
  cases axis <;> exact Opens.append (by decide) _

theorem isWord_sizeTokens (direction : Axis) (isStretching : Bool) (n : Node) (axis : Axis) :
    ∀ t ∈ sizeTokens direction isStretching n axis, IsWord t := by
  unfold sizeTokens
  split
  · refine List.forall_mem_cons.2 ⟨isWord_extentToken n axis, ?_⟩
    split
    · decide
    · simp
  · split
    · decide
    · split
      · simp
      · decide
  · simp

theorem isWord_maxWidth (v : Int) : IsWord (maxWidth v) := Opens.append (by decide) _

theorem opens_pin (axis : Axis) (p : Pin) : ∀ t ∈ p.tokens axis, Opens pinStems t := by
  have hstart : Opens pinStems (startEdge axis ++ "-") := by cases axis <;> decide
  have hstop : Opens pinStems (stopEdge axis ++ "-") := by cases axis <;> decide
  have hoffset {e : String} (he : Opens pinStems (e ++ "-")) (v : Int) : Opens pinStems (offset e v) := by
    unfold offset
    split
    · rw [show "-0" = "-" ++ "0" from rfl, ← String.append_assoc]
      exact he.append _
    · exact he.append _
  cases p with
  | start v => exact List.forall_mem_singleton.2 (hoffset hstart v)
  | stop v => exact List.forall_mem_singleton.2 (hoffset hstop v)
  | center =>
    refine List.forall_mem_cons.2 ⟨?_, List.forall_mem_singleton.2 ?_⟩
    · rw [show "-1/2" = "-" ++ "1/2" from rfl, ← String.append_assoc]
      exact hstart.append _
    · exact (Opens.append (by decide) _).append _
  | extent v =>
    refine List.forall_mem_singleton.2 (Opens.append ?_ _)
    cases axis <;> decide

theorem opens_positionTokens (owner : Box) (n : Node) : ∀ t ∈ positionTokens owner n, Opens pinStems t := by
  refine List.forall_mem_cons.2 ⟨by decide, fun t ht => ?_⟩
  rcases List.mem_append.1 ht with ht | ht <;>
    obtain ⟨a, -, ha⟩ := List.mem_flatMap.1 ht <;> exact opens_pin _ a t ha

end Resolve

end FlexRecovery
