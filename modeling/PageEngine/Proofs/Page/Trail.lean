import PageEngine.Proofs.Walk.Visits

/-! Spots on a page. A spot is a path, the chain of components around it, and what stands
there: an element, or the component that a tag asks for. Spots lie inside one another as
templates and contents do, whatever the values are, and a trail leads from the page down to a
spot. Two trails to comparable paths lead through the same spots, so that most elements are
told by their path alone. -/

namespace PageEngine

/-- What stands at a spot. -/
inductive Occupant where
  | element (e : Element)
  | component (reference : Reference)

structure Spot where
  path : ElementPath
  /-- The components around the spot, innermost first. -/
  chain : List Placement
  occupant : Occupant

/-- The template of the innermost component, or of the page. -/
def templateIn (root : Template) : List Placement → Template
  | [] => root
  | p :: _ => p.template

namespace Element

/-- The element on a branch that an element opens, at an index. -/
def onBranch? (i : Nat) : Element → Option Element
  | .group children => children[i]?
  | .tag _ (.repetition ..) content => content
  | _ => none

/-- The content that an element visits where it stands. -/
def wrapped? : Element → Option Element
  | .tag _ t content => if t.wraps then content else none
  | _ => none

end Element

/-- The second spot lies directly inside the first. -/
inductive Inner (M : Memory) : Spot → Spot → Prop
  | branch {path : ElementPath} {chain : List Placement} {e inner : Element} (i : UInt32)
    (h : e.onBranch? i.toNat = some inner) :
    Inner M ⟨path, chain, .element e⟩ ⟨path.enter i, chain, .element inner⟩
  | wrapped {path : ElementPath} {chain : List Placement} {e inner : Element}
    (h : e.wrapped? = some inner) :
    Inner M ⟨path, chain, .element e⟩ ⟨path, chain, .element inner⟩
  | content {path : ElementPath} {p : Placement} {chain : List Placement} {site : Site}
    {c : Option Element} {inner : Element} (h : p.reference.content = some inner) :
    Inner M ⟨path, p :: chain, .element (.tag site .slot c)⟩ ⟨path, chain, .element inner⟩
  | reference {path : ElementPath} {chain : List Placement} {site : Site} {name : String}
    {bindings : Associations} {c : Option Element} :
    Inner M ⟨path, chain, .element (.tag site (.component name bindings) c)⟩
      ⟨path, chain, .component ⟨name, bindings, c⟩⟩
  | switch {path : ElementPath} {chain : List Placement} {site : Site} {a : Association}
    {bindings : Associations} {c : Option Element} {index : UInt32} {name : String}
    (h : (M.switches.namesAt site)[index.toNat]? = some name) :
    Inner M ⟨path, chain, .element (.tag site (.switch a bindings) c)⟩
      ⟨path.enter index, chain, .component ⟨name, bindings, c⟩⟩
  | template {path : ElementPath} {chain : List Placement} {reference : Reference} {t : Template}
    (h : Dictionary.get? reference.name M.templates = some (.ok t)) :
    Inner M ⟨path, chain, .component reference⟩
      ⟨path, ⟨path.text, reference, t⟩ :: chain, .element t.root⟩

/-- The spots from a spot up to the page, or none at all. -/
inductive Trail (M : Memory) (root : Template) : List Spot → Prop
  | nil : Trail M root []
  | page : Trail M root [⟨.empty, [], .element root.root⟩]
  | inner {q q' : Spot} {outer : List Spot} (h : Trail M root (q :: outer)) (hi : Inner M q q') :
    Trail M root (q' :: q :: outer)

namespace Inner

variable {M N : Memory} {q q' q₁ q₂ : Spot}

theorem mono (h : Inner M q q') (hle : M.Le N) : Inner N q q' := by
  cases h with
  | branch i h => exact .branch i h
  | wrapped h => exact .wrapped h
  | content h => exact .content h
  | reference => exact .reference
  | switch h => exact .switch (hle.getElem? h)
  | template h => exact .template (hle.templates _ _ h)

theorem suffix (h : Inner M q q') : q.path.indices <:+ q'.path.indices := by
  cases h with
  | branch i h => exact ElementPath.suffix_enter ..
  | switch h => exact ElementPath.suffix_enter ..
  | _ => exact List.suffix_refl _

/-- Of the spots directly inside one, no two lie on comparable paths. -/
theorem unique (h₁ : Inner M q q₁) (h₂ : Inner M q q₂) (hpath : q₁.path.Comparable q₂.path) :
    q₁ = q₂ := by
  cases h₁ with
  | @branch path chain e inner i h₁ =>
    cases h₂ with
    | branch j h₂ =>
      obtain rfl := hpath.index_eq
      rw [Option.some.inj (h₁.symm.trans h₂)]
    | wrapped h₂ =>
      unfold Element.onBranch? at h₁
      unfold Element.wrapped? at h₂
      split at h₁ <;> simp [Tag.wraps] at h₁ h₂
    | content h₂ => cases h₁
    | reference => cases h₁
    | switch h₂ => cases h₁
  | @wrapped path chain e inner h₁ =>
    cases h₂ with
    | branch j h₂ =>
      unfold Element.onBranch? at h₂
      unfold Element.wrapped? at h₁
      split at h₂ <;> simp [Tag.wraps] at h₁ h₂
    | wrapped h₂ => rw [Option.some.inj (h₁.symm.trans h₂)]
    | content h₂ => cases h₁
    | reference => cases h₁
    | switch h₂ => cases h₁
  | content h₁ =>
    cases h₂ with
    | branch j h₂ => cases h₂
    | wrapped h₂ => cases h₂
    | content h₂ => rw [Option.some.inj (h₁.symm.trans h₂)]
  | reference =>
    cases h₂ with
    | branch j h₂ => cases h₂
    | wrapped h₂ => cases h₂
    | reference => rfl
  | switch h₁ =>
    cases h₂ with
    | branch j h₂ => cases h₂
    | wrapped h₂ => cases h₂
    | switch h₂ =>
      obtain rfl := hpath.index_eq
      rw [Option.some.inj (h₁.symm.trans h₂)]
  | template h₁ =>
    cases h₂ with
    | template h₂ =>
      have ht := Option.some.inj (h₁.symm.trans h₂)
      cases ht
      rfl

end Inner

namespace Trail

variable {M N : Memory} {root : Template} {q q' : Spot} {trail outer outer' : List Spot}

theorem mono (h : Trail M root trail) (hle : M.Le N) : Trail N root trail := by
  induction h with
  | nil => exact .nil
  | page => exact .page
  | inner h hi ih => exact .inner ih (hi.mono hle)

theorem of_cons (h : Trail M root (q :: outer)) : Trail M root outer := by
  cases h with
  | page => exact .nil
  | inner h hi => exact h

/-- Everything on a trail lies above its end. -/
theorem suffix_path (h : Trail M root (q :: outer)) (hq : q' ∈ outer) :
    q'.path.indices <:+ q.path.indices := by
  generalize htrail : q :: outer = trail at h
  induction h generalizing q outer with
  | nil => cases htrail
  | page =>
    cases htrail
    cases hq
  | @inner q₀ q₁ outer₀ h hi ih =>
    cases htrail
    rcases List.mem_cons.1 hq with rfl | hq
    · exact hi.suffix
    · exact (ih hq rfl).trans hi.suffix

theorem page_suffix (h : Trail M root (q :: outer)) :
    [⟨.empty, [], .element root.root⟩] <:+ q :: outer := by
  generalize htrail : q :: outer = trail at h
  induction h generalizing q outer with
  | nil => cases htrail
  | page => exact List.suffix_refl _
  | inner h hi ih => exact (ih rfl).trans (List.suffix_cons ..)

/-- A trail that leads on takes a first step. -/
theorem inner_of_suffix (h : Trail M root trail) (hs : q :: outer <:+ trail)
    (hne : q :: outer ≠ trail) : ∃ q', Inner M q q' ∧ q' :: q :: outer <:+ trail := by
  induction h with
  | nil => exact absurd (List.suffix_nil.1 hs) (by simp)
  | page =>
    rcases List.suffix_cons_iff.1 hs with heq | hs
    · exact absurd heq hne
    · exact absurd (List.suffix_nil.1 hs) (by simp)
  | @inner q₀ q₁ outer₀ h hi ih =>
    rcases List.suffix_cons_iff.1 hs with heq | hs
    · exact absurd heq hne
    · by_cases heq : q :: outer = q₀ :: outer₀
      · cases heq
        exact ⟨q₁, hi, List.suffix_refl _⟩
      · obtain ⟨q', hi', hs'⟩ := ih hs heq
        exact ⟨q', hi', hs'.trans (List.suffix_cons ..)⟩

/-- Of two trails to comparable paths one leads on from the other. -/
theorem suffix_or_suffix (h : Trail M root (q :: outer)) (h' : Trail M root (q' :: outer'))
    (hpath : q.path.Comparable q'.path) :
    q :: outer <:+ q' :: outer' ∨ q' :: outer' <:+ q :: outer := by
  generalize htrail : q :: outer = trail at h
  induction h generalizing q outer with
  | nil => cases htrail
  | page => exact .inl h'.page_suffix
  | @inner q₀ q₁ outer₀ h hi ih =>
    cases htrail
    rcases ih (hpath.of_suffix hi.suffix) rfl with hs | hs
    · by_cases heq : q₀ :: outer₀ = q' :: outer'
      · exact .inr (heq ▸ List.suffix_cons ..)
      · -- The other trail goes on too, and can only take the same step.
        obtain ⟨q₂, hi₂, hs₂⟩ := h'.inner_of_suffix hs heq
        have hq₂ : q₂.path.indices <:+ q'.path.indices := by
          rcases List.mem_cons.1 (hs₂.subset (List.mem_cons_self ..)) with rfl | hmem
          · exact List.suffix_refl _
          · exact h'.suffix_path hmem
        rw [hi.unique hi₂ (hpath.symm.of_suffix hq₂).symm]
        exact .inl hs₂
    · exact .inr (hs.trans (List.suffix_cons ..))

end Trail

/-! ### Spots told by their path -/

/-- Elements that visit nothing where they stand, except for the template of a component. -/
def Element.isLeaf : Element → Bool
  | .text _ => true
  | .group _ => false
  | .tag _ .slot _ => false
  | .tag _ t _ => !t.wraps

namespace Occupant

/-- On one path the tag of a component comes first, then the component, then its template. -/
def rank : Occupant → Nat
  | .element (.group _) => 2
  | .element _ => 0
  | .component _ => 1

theorem rank_of_isLeaf {e : Element} (h : e.isLeaf = true) : (element e).rank = 0 := by
  cases e with
  | group children => cases h
  | _ => rfl

/-- Leaves and components. -/
def isAnchor : Occupant → Bool
  | .element e => e.isLeaf
  | .component _ => true

end Occupant

namespace Spot

/-- The second spot lies on a longer path, or later on the same one. -/
def Before (q q' : Spot) : Prop :=
  q.path.depth < q'.path.depth ∨
    q.path.depth = q'.path.depth ∧ q.occupant.rank < q'.occupant.rank

end Spot

theorem Inner.depth_le {M : Memory} {q q' : Spot} (h : Inner M q q') :
    q.path.depth ≤ q'.path.depth := h.suffix.length_le

theorem Inner.before_of_isAnchor {M : Memory} {q q' : Spot} (h : Inner M q q')
    (hq : q.occupant.isAnchor = true) : q.Before q' := by
  cases h with
  | branch i h => exact .inl (Nat.lt_succ_self _)
  | @wrapped path chain e inner h =>
    cases e with
    | text shown => cases h
    | group children => cases h
    | tag site t c =>
      have hwraps : t.wraps = false := by
        cases t <;> simp [Occupant.isAnchor, Element.isLeaf, Tag.wraps] at hq ⊢
      simp [Element.wrapped?, hwraps] at h
  | content h => simp [Occupant.isAnchor, Element.isLeaf] at hq
  | reference => exact .inr ⟨rfl, Nat.zero_lt_one⟩
  | switch h => exact .inl (Nat.lt_succ_self _)
  | template h => exact .inr ⟨rfl, Nat.lt_succ_self 1⟩

theorem Spot.Before.inner {M : Memory} {q q' q'' : Spot} (h : q.Before q') (hi : Inner M q' q'') :
    q.Before q'' := by
  have hle := hi.depth_le
  rcases h with hdepth | ⟨hdepth, hrank⟩
  · exact .inl (Nat.lt_of_lt_of_le hdepth hle)
  -- On the same path only the template of a component follows, and then its children.
  cases hi with
  | branch i h => exact .inl (hdepth ▸ Nat.lt_succ_self _)
  | @wrapped path chain e inner h =>
    cases e with
    | text shown => cases h
    | group children => cases h
    | tag site t c => exact absurd hrank (Nat.not_lt_zero _)
  | content h => exact absurd hrank (Nat.not_lt_zero _)
  | reference => exact absurd hrank (Nat.not_lt_zero _)
  | switch h => exact absurd hrank (Nat.not_lt_zero _)
  | template h => exact .inr ⟨hdepth, Nat.lt_succ_of_lt hrank⟩

namespace Trail

variable {M : Memory} {root : Template} {q q' : Spot} {trail outer outer' : List Spot}

theorem before_of_suffix (h : Trail M root (q' :: outer')) (hs : q :: outer <:+ q' :: outer')
    (hq : q.occupant.isAnchor = true) : q :: outer = q' :: outer' ∨ q.Before q' := by
  generalize htrail : q' :: outer' = trail at h hs
  induction h generalizing q' outer' with
  | nil => cases htrail
  | page =>
    rcases List.suffix_cons_iff.1 hs with heq | hs
    · exact .inl heq
    · exact absurd (List.suffix_nil.1 hs) (by simp)
  | @inner q₀ q₁ outer₀ h hi ih =>
    cases htrail
    rcases List.suffix_cons_iff.1 hs with heq | hs
    · exact .inl heq
    · rcases ih rfl hs with heq | hbefore
      · cases heq
        exact .inr (hi.before_of_isAnchor hq)
      · exact .inr (hbefore.inner hi)

/-- Two anchors of one rank on one path are the same, and so is everything around them. -/
theorem eq_of_path_eq (h : Trail M root (q :: outer)) (h' : Trail M root (q' :: outer'))
    (hpath : q.path = q'.path) (hq : q.occupant.isAnchor = true)
    (hq' : q'.occupant.isAnchor = true) (hrank : q.occupant.rank = q'.occupant.rank) :
    q :: outer = q' :: outer' := by
  have hnot : ∀ {p p' : Spot}, p.path = p'.path → p.occupant.rank = p'.occupant.rank →
      ¬p.Before p' := by
    rintro p p' hpath hrank (hdepth | ⟨-, hlt⟩)
    · exact Nat.ne_of_lt hdepth (congrArg ElementPath.depth hpath)
    · exact Nat.ne_of_lt hlt hrank
  rcases h.suffix_or_suffix h' (hpath ▸ q.path.comparable_refl) with hs | hs
  · exact (h'.before_of_suffix hs hq).resolve_right (hnot hpath hrank)
  · exact ((h.before_of_suffix hs hq').resolve_right (hnot hpath.symm hrank.symm)).symm

end Trail

end PageEngine
