import Mathlib.Data.List.Forall2
import PageEngine.Proofs.Component.Address

/-! Two chains of components side by side. They are paired if their pages are related, and so are
the components entered one after another, each under one key, and the components set aside. What
happens to both chains in the same way keeps them paired, as far as the relation bears what
happens to the components. -/

namespace PageEngine

/-- Related components under one key. -/
def Frame.Paired (P : Instance → Instance → Prop) (f g : Frame) : Prop :=
  g.key = f.key ∧ P f.component g.component

/-- Chains of related components, under the same keys. -/
structure Scope.Paired (P : Instance → Instance → Prop) (s t : Scope) : Prop where
  page : P s.page t.page
  frames : List.Forall₂ (Frame.Paired P) s.frames t.frames
  suspended : List.Forall₂ (Frame.Paired P) s.suspended t.suspended

namespace Scope.Paired

variable {P Q : Instance → Instance → Prop} {s t u scope scope' : Scope} {key : String}
  {c d : Instance} {depth : Nat} {f g : Instance → Instance}

theorem refl (hP : ∀ c, P c c) (s : Scope) : s.Paired P s :=
  ⟨hP _, List.forall₂_same.2 fun _ _ => ⟨rfl, hP _⟩, List.forall₂_same.2 fun _ _ => ⟨rfl, hP _⟩⟩

theorem trans (hP : ∀ {c d e}, P c d → P d e → P c e) (h : s.Paired P t) (h' : t.Paired P u) :
    s.Paired P u := by
  have hframes : ∀ {before between after : List Frame},
      List.Forall₂ (Frame.Paired P) before between →
      List.Forall₂ (Frame.Paired P) between after → List.Forall₂ (Frame.Paired P) before after := by
    intro before between after hfirst hlater
    induction hfirst generalizing after with
    | nil =>
      cases hlater
      exact .nil
    | cons hfg _ ih =>
      cases hlater with
      | cons hgh hrest => exact .cons ⟨hgh.1.trans hfg.1, hP hfg.2 hgh.2⟩ (ih hrest)
  exact ⟨hP h.page h'.page, hframes h.frames h'.frames, hframes h.suspended h'.suspended⟩

theorem imp (hPQ : ∀ {c d}, P c d → Q c d) (h : s.Paired P t) : s.Paired Q t :=
  ⟨hPQ h.page, h.frames.imp fun _ _ hfg => ⟨hfg.1, hPQ hfg.2⟩,
    h.suspended.imp fun _ _ hfg => ⟨hfg.1, hPQ hfg.2⟩⟩

/-- Chains that differ in the values of components only. -/
theorem of_alike (hP : ∀ {c d}, c.Alike d → P c d) (h : s.Alike t) : s.Paired P t := by
  have hself : ∀ c, P c c := fun c => hP (.refl c)
  refine ⟨hP h.page, ?_, h.suspended ▸ List.forall₂_same.2 fun _ _ => ⟨rfl, hself _⟩⟩
  have hframes := h.frames
  generalize s.frames = before at hframes
  generalize t.frames = after at hframes
  induction before generalizing after with
  | nil =>
    rw [List.map_eq_nil_iff.1 hframes]
    exact .nil
  | cons f before ih =>
    obtain ⟨g, rest, rfl, hg, hrest⟩ := List.map_eq_cons_iff.1 hframes
    have hcomponent : f.component.Alike g.component := congrArg Frame.component hg
    exact .cons ⟨(congrArg Frame.key hg :), hP hcomponent⟩ (ih _ hrest)

theorem depth_eq (h : s.Paired P t) : t.depth = s.depth := h.frames.length_eq.symm

theorem keys_eq (h : s.Paired P t) : t.keys = s.keys := by
  have hkeys : List.Forall₂ Eq (s.frames.map Frame.key) (t.frames.map Frame.key) := by
    rw [List.forall₂_map_left_iff, List.forall₂_map_right_iff]
    exact h.frames.imp fun _ _ hfg => hfg.1.symm
  rw [List.forall₂_eq_eq_eq] at hkeys
  exact hkeys.symm

theorem current (h : s.Paired P t) : P s.current t.current := by
  obtain ⟨page, frames, suspended⟩ := s
  obtain ⟨page', frames', suspended'⟩ := t
  obtain ⟨hpage, hframes, -⟩ := h
  cases hframes with
  | nil => exact hpage
  | cons hfg _ => exact hfg.2

theorem get? (h : s.Paired P t) (hc : s.get? depth = some c) :
    ∃ d, t.get? depth = some d ∧ P c d := by
  have hdepth := h.depth_eq
  unfold Scope.get? at hc ⊢
  rw [hdepth]
  split at hc
  · obtain rfl := Option.some.inj hc
    rw [if_pos ‹_›]
    exact ⟨_, rfl, h.page⟩
  · split at hc
    · obtain ⟨f, hf, rfl⟩ := Option.map_eq_some_iff.1 hc
      rw [if_neg ‹_›, if_pos ‹_›]
      obtain ⟨hlt, rfl⟩ := List.getElem?_eq_some_iff.1 hf
      have hlt' := h.frames.length_eq ▸ hlt
      rw [List.getElem?_eq_getElem hlt']
      exact ⟨_, rfl, ((List.forall₂_iff_get.1 h.frames).2 _ hlt hlt').2⟩
    · cases hc

theorem get?_eq_none (h : s.Paired P t) (hs : s.get? depth = none) : t.get? depth = none := by
  rw [← Option.not_isSome_iff_eq_none, get?_isSome_iff, h.depth_eq, ← get?_isSome_iff, hs]
  exact Bool.false_ne_true

/-! ### Changes -/

/-- The component at a depth is changed in both chains. -/
theorem modify (h : s.Paired P t) (hfg : ∀ {c d}, P c d → P (f c) (g d)) (depth : Nat) :
    (s.modify depth f).Paired P (t.modify depth g) := by
  have hframes : ∀ (i : Nat) {before after : List Frame},
      List.Forall₂ (Frame.Paired P) before after → List.Forall₂ (Frame.Paired P)
        (before.modify i fun frame => { frame with component := f frame.component })
        (after.modify i fun frame => { frame with component := g frame.component }) := by
    intro i before after hpaired
    induction hpaired generalizing i with
    | nil =>
      rw [List.modify_nil, List.modify_nil]
      exact .nil
    | cons hxy hrest ih =>
      cases i with
      | zero => exact .cons ⟨hxy.1, hfg hxy.2⟩ hrest
      | succ i => exact .cons hxy (ih i)
  unfold Scope.modify
  rw [h.depth_eq]
  split
  · exact ⟨hfg h.page, h.frames, h.suspended⟩
  · split
    · exact ⟨h.page, hframes _ h.frames, h.suspended⟩
    · exact h

theorem modifyCurrent (h : s.Paired P t)
    (hfg : P s.current t.current → P (f s.current) (g t.current)) :
    (s.modifyCurrent f).Paired P (t.modifyCurrent g) := by
  obtain ⟨page, frames, suspended⟩ := s
  obtain ⟨page', frames', suspended'⟩ := t
  obtain ⟨hpage, hframes, hsuspended⟩ := h
  cases hframes with
  | nil => exact ⟨hfg hpage, .nil, hsuspended⟩
  | cons hxy hrest => exact ⟨hpage, .cons ⟨hxy.1, hfg hxy.2⟩ hrest, hsuspended⟩

/-- Only the current component is changed. -/
theorem of_modifyCurrent_self (hP : ∀ c, P c c) (hf : P s.current (f s.current)) :
    s.Paired P (s.modifyCurrent f) := by
  have hself : s.Paired P s := .refl hP s
  obtain ⟨page, frames, suspended⟩ := s
  obtain ⟨hpage, hframes, hsuspended⟩ := hself
  cases hframes with
  | nil => exact ⟨hf, .nil, hsuspended⟩
  | cons _ hrest => exact ⟨hpage, .cons ⟨rfl, hf⟩ hrest, hsuspended⟩

/-- A change of the current component is made up for by a later one. -/
theorem of_modifyCurrent (h : (s.modifyCurrent f).Paired P t)
    (hfg : ∀ d, P (f s.current) d → P s.current (g d)) : s.Paired P (t.modifyCurrent g) := by
  obtain ⟨page, frames, suspended⟩ := s
  obtain ⟨page', frames', suspended'⟩ := t
  obtain ⟨hpage, hframes, hsuspended⟩ := h
  cases frames with
  | nil =>
    cases hframes
    exact ⟨hfg page' hpage, .nil, hsuspended⟩
  | cons f₀ outer =>
    cases hframes with
    | cons hf hrest => exact ⟨hpage, .cons ⟨hf.1, hfg _ hf.2⟩ hrest, hsuspended⟩

/-! ### Entering and leaving -/

theorem enter (h : s.Paired P t) (hcd : P c d) (key : String) :
    (s.enter key c).Paired P (t.enter key d) :=
  ⟨h.page, .cons ⟨rfl, hcd⟩ h.frames, h.suspended⟩

/-- What is paired with an entered component was entered too. -/
theorem exists_enter (h : (s.enter key c).Paired P t) :
    ∃ t' d, t = t'.enter key d ∧ s.Paired P t' ∧ P c d := by
  obtain ⟨page, frames, suspended⟩ := t
  obtain ⟨hpage, hframes, hsuspended⟩ := h
  cases hframes with
  | @cons _ f _ outer hf hrest =>
    obtain ⟨key', d⟩ := f
    obtain ⟨rfl, hd⟩ := hf
    exact ⟨⟨page, outer, suspended⟩, d, rfl, ⟨hpage, hrest, hsuspended⟩, hd⟩

theorem takeChild (h : s.Paired P t)
    (hremove : ∀ {c d}, P c d → P (c.removeChild key) (d.removeChild key)) :
    (s.takeChild key).2.Paired P (t.takeChild key).2 :=
  h.modifyCurrent (f := (·.removeChild key)) (g := (·.removeChild key)) hremove

theorem leave (h : s.Paired P t)
    (hadd : ∀ key {c d child child'}, P c d → P child child' →
      P (c.addChild key child) (d.addChild key child'))
    (hleave : s.leave? = some scope) (hleave' : t.leave? = some scope') :
    scope.Paired P scope' := by
  obtain ⟨page, frames, suspended⟩ := s
  cases frames with
  | nil => cases hleave
  | cons f outer =>
    obtain ⟨key, component⟩ := f
    obtain ⟨t', child, rfl, houter, hchild⟩ := exists_enter (s := ⟨page, outer, suspended⟩) h
    obtain rfl := Option.some.inj hleave
    obtain rfl := Option.some.inj hleave'
    exact houter.modifyCurrent fun hcd => hadd key hcd hchild

theorem suspend (h : s.Paired P t) (hs : s.suspend? = some scope) (ht : t.suspend? = some scope') :
    scope.Paired P scope' := by
  obtain ⟨page, frames, suspended⟩ := s
  obtain ⟨page', frames', suspended'⟩ := t
  obtain ⟨hpage, hframes, hsuspended⟩ := h
  cases hframes with
  | nil => cases hs
  | cons hxy hrest =>
    obtain rfl := Option.some.inj hs
    obtain rfl := Option.some.inj ht
    exact ⟨hpage, hrest, .cons hxy hsuspended⟩

theorem resume (h : s.Paired P t) (hs : s.resume? = some scope) (ht : t.resume? = some scope') :
    scope.Paired P scope' := by
  obtain ⟨page, frames, suspended⟩ := s
  obtain ⟨page', frames', suspended'⟩ := t
  obtain ⟨hpage, hframes, hsuspended⟩ := h
  cases hsuspended with
  | nil => cases hs
  | cons hxy hrest =>
    obtain rfl := Option.some.inj hs
    obtain rfl := Option.some.inj ht
    exact ⟨hpage, .cons hxy hframes, hrest⟩

/-- A component was taken out of the current one, or made, then entered, and was left again. -/
theorem entered_left (h : ((s.takeChild key).2.enter key c).Paired P t)
    (hadd : ∀ d child, P (s.current.removeChild key) d → P c child →
      P s.current (d.addChild key child)) (hleave : t.leave? = some scope) : s.Paired P scope := by
  obtain ⟨t', child, rfl, houter, hchild⟩ := h.exists_enter
  obtain rfl := Option.some.inj hleave
  exact of_modifyCurrent (f := (·.removeChild key)) houter fun d hd => hadd d child hd hchild

end Scope.Paired

end PageEngine
