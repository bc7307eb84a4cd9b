import PageEngine.Engine
import PageEngine.Proofs.Component.Paired
import PageEngine.Proofs.Dictionary

/-! Components over time. A later state of a component retains an earlier one if everything that
was kept in it, at any depth, is still kept there under the same keys, and everything that came
later was made by the engine. Entering a component takes it out of its caller; what retains both
halves retains the whole again once the component is handed back. -/

namespace PageEngine

namespace Instance

/-- The same component at a later time: its class, what placed it and its template stay. -/
structure Persists (c d : Instance) : Prop where
  kind : d.kind = c.kind
  reference : d.reference = c.reference
  template : d.template = c.template

namespace Persists

variable {c d e : Instance}

theorem refl (c : Instance) : c.Persists c := ⟨rfl, rfl, rfl⟩

theorem trans (h : c.Persists d) (h' : d.Persists e) : c.Persists e :=
  ⟨h'.kind.trans h.kind, h'.reference.trans h.reference, h'.template.trans h.template⟩

theorem name (h : c.Persists d) : d.name = c.name :=
  congrArg Reference.name h.reference

theorem of_alike (h : c.Alike d) : c.Persists d :=
  ⟨(congrArg Instance.kind h :), (congrArg Instance.reference h :), h.template⟩

end Persists

/-- Every component keeps others under keys that differ, so that it has one address only. -/
inductive Orderly : Instance → Prop
  | intro {c : Instance} (ordered : Dictionary.Ordered c.children)
    (inside : ∀ key child, (key, child) ∈ c.children → Orderly child) : Orderly c

namespace Orderly

variable {c d child : Instance} {key : String}

theorem of_children_nil (h : c.children = []) : c.Orderly :=
  .intro (by simp [h, Dictionary.Ordered]) fun _ _ hc => by simp [h] at hc

theorem of_children_eq (h : c.Orderly) (hd : d.children = c.children) : d.Orderly := by
  cases h with
  | intro ordered inside => exact .intro (hd ▸ ordered) (hd ▸ inside)

theorem child? (h : c.Orderly) (hc : c.child? key = some child) : child.Orderly := by
  cases h with
  | intro ordered inside => exact inside _ _ (Dictionary.mem_of_get? hc)

theorem removeChild (h : c.Orderly) (key : String) : (c.removeChild key).Orderly := by
  cases h with
  | intro ordered inside =>
    exact .intro (ordered.erase key) fun k d hd => inside k d (Dictionary.mem_of_mem_erase hd)

theorem addChild (h : c.Orderly) (key : String) (hchild : child.Orderly) :
    (c.addChild key child).Orderly := by
  cases h with
  | intro ordered inside =>
    refine .intro (ordered.insert key child) fun k d hd => ?_
    rcases Dictionary.mem_insert hd with heq | hd
    · cases heq
      exact hchild
    · exact inside k d hd

end Orderly

end Instance

/-- What was kept somewhere, if anything, against what is kept there later. -/
structure Retained (engine : Engine) (old new : Option Instance) : Prop where
  kept : ∀ keys c, old.bind (·.at? keys) = some c →
    ∃ d, new.bind (·.at? keys) = some d ∧ c.Persists d
  added : ∀ keys d, new.bind (·.at? keys) = some d → old.bind (·.at? keys) = none →
    d.kind = engine.classOf d.name
  orderly : (∀ c, old = some c → c.Orderly) → ∀ d, new = some d → d.Orderly

namespace Retained

variable {engine : Engine} {old mid new : Option Instance}

theorem refl (c? : Option Instance) : Retained engine c? c? :=
  ⟨fun _ c hc => ⟨c, hc, .refl c⟩, fun _ _ hd hnone => by simp [hd] at hnone, fun h => h⟩

theorem trans (h : Retained engine old mid) (h' : Retained engine mid new) :
    Retained engine old new := by
  refine ⟨fun keys c hc => ?_, fun keys e he hnone => ?_,
    fun horderly => h'.orderly (h.orderly horderly)⟩
  · obtain ⟨d, hd, hcd⟩ := h.kept keys c hc
    obtain ⟨e, he, hde⟩ := h'.kept keys d hd
    exact ⟨e, he, hcd.trans hde⟩
  · cases hd : mid.bind (·.at? keys) with
    | none => exact h'.added keys e he hd
    | some d =>
      obtain ⟨e', he', hde⟩ := h'.kept keys d hd
      obtain rfl := Option.some.inj (he.symm.trans he')
      rw [hde.kind, hde.name]
      exact h.added keys d hd hnone

/-- A new component of a class of the engine. -/
theorem fresh {c : Instance} (hkind : c.kind = engine.classOf c.name) (h : c.children = []) :
    Retained engine none (some c) := by
  refine ⟨fun keys c hc => (nomatch hc), fun keys d hd _ => ?_, fun _ d hd => ?_⟩
  · rw [Option.bind_some] at hd
    rcases List.eq_nil_or_concat keys with rfl | ⟨inner, key, rfl⟩
    · obtain rfl := Option.some.inj hd
      exact hkind
    · have hchild : c.child? key = none := by rw [Instance.child?, h, Dictionary.get?_nil]
      rw [List.concat_eq_append, Instance.at?_concat, hchild] at hd
      cases hd
  · obtain rfl := Option.some.inj hd
    exact .of_children_nil h

end Retained

/-- A later state of a component retains everything that is kept in it. -/
def Instance.Retains (engine : Engine) (c d : Instance) : Prop :=
  Retained engine (some c) (some d)

namespace Instance.Retains

variable {engine : Engine} {c d e child : Instance} {key : String}

theorem refl (c : Instance) : c.Retains engine c := Retained.refl _

theorem trans (h : c.Retains engine d) (h' : d.Retains engine e) : c.Retains engine e :=
  Retained.trans h h'

theorem persists (h : c.Retains engine d) : c.Persists d := by
  obtain ⟨d', hd, hpersists⟩ := h.kept [] c rfl
  obtain rfl := Option.some.inj hd
  exact hpersists

theorem of_alike (h : c.Alike d) : c.Retains engine d := by
  have hinside : ∀ inner key, d.at? (inner ++ [key]) = c.at? (inner ++ [key]) := by
    intro inner key
    rw [at?_concat, at?_concat, child?, child?, h.children]
  refine ⟨fun keys x hx => ?_, fun keys y hy hnone => ?_, fun horderly y hy => ?_⟩
  · rcases List.eq_nil_or_concat keys with rfl | ⟨inner, key, rfl⟩
    · obtain rfl := Option.some.inj hx
      exact ⟨d, rfl, .of_alike h⟩
    · rw [List.concat_eq_append, Option.bind_some] at hx ⊢
      exact ⟨x, (hinside inner key).trans hx, .refl x⟩
  · rcases List.eq_nil_or_concat keys with rfl | ⟨inner, key, rfl⟩
    · cases hnone
    · rw [List.concat_eq_append, Option.bind_some] at hy hnone
      rw [hinside, hnone] at hy
      cases hy
  · obtain rfl := Option.some.inj hy
    exact (horderly c rfl).of_children_eq h.children

/-- A child comes back to its caller, each retaining what it was when the child was taken out. -/
theorem addChild (h : (c.removeChild key).Retains engine d)
    (hchild : Retained engine (c.child? key) (some child)) :
    c.Retains engine (d.addChild key child) := by
  have hother : ∀ inner key', key' ≠ key →
      (c.removeChild key).at? (inner ++ [key']) = c.at? (inner ++ [key']) ∧
        (d.addChild key child).at? (inner ++ [key']) = d.at? (inner ++ [key']) := by
    intro inner key' hne
    rw [at?_concat, at?_concat, child?_removeChild_of_ne hne, at?_concat, at?_concat,
      child?_addChild_of_ne hne]
    exact ⟨rfl, rfl⟩
  have hsame : ∀ inner, (d.addChild key child).at? (inner ++ [key]) = child.at? inner := by
    intro inner
    rw [at?_concat, child?_addChild_self, Option.bind_some]
  refine ⟨fun keys x hx => ?_, fun keys y hy hnone => ?_, fun horderly y hy => ?_⟩
  · rcases List.eq_nil_or_concat keys with rfl | ⟨inner, key', rfl⟩
    · obtain rfl := Option.some.inj hx
      exact ⟨_, rfl, h.persists.kind, h.persists.reference, h.persists.template⟩
    · rw [List.concat_eq_append, Option.bind_some] at hx ⊢
      by_cases hkey : key' = key
      · subst hkey
        rw [at?_concat] at hx
        obtain ⟨y, hy, hxy⟩ := hchild.kept inner x hx
        exact ⟨y, (hsame inner).trans hy, hxy⟩
      · obtain ⟨hc, hd⟩ := hother inner key' hkey
        obtain ⟨y, hy, hxy⟩ := h.kept (inner ++ [key']) x (hc.trans hx)
        exact ⟨y, hd.trans hy, hxy⟩
  · rcases List.eq_nil_or_concat keys with rfl | ⟨inner, key', rfl⟩
    · cases hnone
    · rw [List.concat_eq_append, Option.bind_some] at hy hnone
      by_cases hkey : key' = key
      · subst hkey
        rw [at?_concat] at hnone
        exact hchild.added inner y ((hsame inner).symm.trans hy) hnone
      · obtain ⟨hc, hd⟩ := hother inner key' hkey
        exact h.added (inner ++ [key']) y (hd.symm.trans hy) (hc.trans hnone)
  · obtain rfl := Option.some.inj hy
    have hc := horderly c rfl
    have hremoved : ∀ x, some (c.removeChild key) = some x → x.Orderly :=
      fun x hx => Option.some.inj hx ▸ hc.removeChild key
    exact (h.orderly hremoved d rfl).addChild key (hchild.orderly (fun x => hc.child?) child rfl)

end Instance.Retains

/-- The page and the entered components retain what they kept. -/
abbrev Scope.Retains (engine : Engine) : Scope → Scope → Prop :=
  Scope.Paired (Instance.Retains engine)

namespace Scope.Retains

variable {engine : Engine} {s t u scope : Scope} {key : String}

theorem refl (s : Scope) : s.Retains engine s := Paired.refl .refl s

theorem trans (h : s.Retains engine t) (h' : t.Retains engine u) : s.Retains engine u :=
  Paired.trans .trans h h'

theorem of_alike (h : s.Alike t) : s.Retains engine t := Paired.of_alike .of_alike h

/-- A component was taken out of the current one, or made, then entered, and was left again. -/
theorem leave {c : Instance} (h : ((s.takeChild key).2.enter key c).Retains engine t)
    (hc : Retained engine (s.current.child? key) (some c)) (hleave : t.leave? = some scope) :
    s.Retains engine scope :=
  Paired.entered_left h (fun _ _ hd hchild => hd.addChild (hc.trans hchild)) hleave

end Scope.Retains

end PageEngine
