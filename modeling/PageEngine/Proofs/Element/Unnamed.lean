import PageEngine.Element.Kind

/-! Controls without a name. Whatever is taken out of bindings that do not give a name leaves
bindings that give none, so that a control whose tag binds no name is left without one. -/

namespace PageEngine

/-- No binding has the name. -/
def Associations.Lacks (key : String) (bindings : Associations) : Prop :=
  ∀ binding ∈ bindings, binding.1 ≠ key

/-- The name and the other attributes that are bound at a control. A button has only
attributes. -/
def Element.control? : Element → Option (Option Association × Associations)
  | .tag _ (.textField b) _ => some (b.name, b.attributes)
  | .tag _ (.textArea b) _ => some (b.name, b.attributes)
  | .tag _ (.popUp b) _ => some (b.name, b.attributes)
  | .tag _ (.submitButton _ _ attributes) _ => some (none, attributes)
  | _ => none

/-- A control at which no name is bound. -/
def Element.isUnnamed (e : Element) : Bool :=
  match e.control? with
  | some (none, attributes) => attributes.all (·.1 != "name")
  | _ => false

theorem Element.isUnnamed_iff {e : Element} : e.isUnnamed = true ↔
    ∃ attributes, e.control? = some (none, attributes) ∧ attributes.Lacks "name" := by
  unfold isUnnamed
  split
  · rename_i attributes hcontrol
    rw [hcontrol]
    simp [Associations.Lacks]
  · rename_i hnone
    constructor
    · intro h
      cases h
    · rintro ⟨attributes, hcontrol, -⟩
      exact absurd hcontrol (hnone attributes)

namespace BindingReader

variable {α β : Type} {key : String}

/-- From bindings without the name, what is taken has a property, and the rest is without the
name. -/
def Lacking (key : String) (x : BindingReader α) (P : α → Prop) : Prop :=
  ∀ bindings rest a, bindings.Lacks key → x.run bindings = .ok (a, rest) → P a ∧ rest.Lacks key

theorem lacking_pure {a : α} {P : α → Prop} (h : P a) : Lacking key (pure a) P := by
  intro bindings rest a' hlacks hrun
  cases hrun
  exact ⟨h, hlacks⟩

theorem lacking_bind {x : BindingReader α} {f : α → BindingReader β} {P : α → Prop}
    {Q : β → Prop} (hx : Lacking key x P) (hf : ∀ a, P a → Lacking key (f a) Q) :
    Lacking key (x >>= f) Q := by
  intro bindings rest b hlacks hrun
  rw [StateT.run_bind] at hrun
  cases h : x.run bindings with
  | error e =>
    rw [h] at hrun
    cases hrun
  | ok taken =>
    rw [h] at hrun
    obtain ⟨hp, hlacks'⟩ := hx bindings taken.2 taken.1 hlacks h
    exact hf taken.1 hp taken.2 rest b hlacks' hrun

theorem lacking_optional (key binding : String) :
    Lacking key (optional binding) fun a => binding = key → a = none := by
  intro bindings rest a hlacks hrun
  cases hrun
  refine ⟨fun heq => ?_, fun entry hentry => hlacks entry (Dictionary.mem_of_mem_erase hentry)⟩
  refine Option.eq_none_iff_forall_ne_some.2 fun a hget => ?_
  exact hlacks (binding, a) (Dictionary.mem_of_get? hget) heq

theorem lacking_required (key element binding : String) :
    Lacking key (required element binding) fun _ => True := by
  refine lacking_bind (lacking_optional key binding) fun a _ => ?_
  cases a with
  | some a => exact lacking_pure trivial
  | none =>
    intro bindings rest a _ hrun
    cases hrun

theorem lacking_rest (key : String) : Lacking key rest (Associations.Lacks key) := by
  intro bindings rest a hlacks hrun
  cases hrun
  exact ⟨hlacks, hlacks⟩

theorem lacking_field (element : String) :
    Lacking "name" (BindingReader.field element) fun b =>
      b.name = none ∧ b.attributes.Lacks "name" := by
  refine lacking_bind (lacking_required _ _ _) fun value _ => ?_
  refine lacking_bind (lacking_optional _ _) fun bound hname => ?_
  refine lacking_bind (lacking_optional _ _) fun disabled _ => ?_
  refine lacking_bind (lacking_rest _) fun attributes hrest => ?_
  exact lacking_pure ⟨hname rfl, hrest⟩

theorem lacking_popUp (element : String) :
    Lacking "name" (BindingReader.popUp element) fun b =>
      b.name = none ∧ b.attributes.Lacks "name" := by
  refine lacking_bind (lacking_required _ _ _) fun list _ => ?_
  refine lacking_bind (lacking_optional _ _) fun item _ => ?_
  refine lacking_bind (lacking_optional _ _) fun index _ => ?_
  refine lacking_bind (lacking_optional _ _) fun displayString _ => ?_
  refine lacking_bind (lacking_optional _ _) fun noSelection _ => ?_
  refine lacking_bind (lacking_optional _ _) fun selection _ => ?_
  refine lacking_bind (lacking_optional _ _) fun selections _ => ?_
  refine lacking_bind (lacking_optional _ _) fun multiple _ => ?_
  refine lacking_bind (lacking_optional _ _) fun bound hname => ?_
  refine lacking_bind (lacking_optional _ _) fun disabled _ => ?_
  refine lacking_bind (lacking_rest _) fun attributes hrest => ?_
  exact lacking_pure ⟨hname rfl, hrest⟩

end BindingReader

namespace Kind

/-- The kinds of controls. -/
def isControl : Kind → Bool
  | .textField => true
  | .textArea => true
  | .popUp => true
  | .submitButton => true
  | _ => false

open BindingReader in
theorem lacking_readTag {kind : Kind} (hkind : kind.isControl = true) (element : String)
    (site : Site) (content : Option Element) :
    Lacking "name" (readTag element kind) fun t =>
      (Element.tag site t content).isUnnamed = true := by
  cases kind with
  | textField =>
    refine lacking_bind (lacking_field element) fun b hb => lacking_pure ?_
    exact Element.isUnnamed_iff.2 ⟨b.attributes, by rw [Element.control?, hb.1], hb.2⟩
  | textArea =>
    refine lacking_bind (lacking_field element) fun b hb => lacking_pure ?_
    exact Element.isUnnamed_iff.2 ⟨b.attributes, by rw [Element.control?, hb.1], hb.2⟩
  | popUp =>
    refine lacking_bind (lacking_popUp element) fun b hb => lacking_pure ?_
    exact Element.isUnnamed_iff.2 ⟨b.attributes, by rw [Element.control?, hb.1], hb.2⟩
  | submitButton =>
    refine lacking_bind (lacking_required _ _ _) fun action _ => ?_
    refine lacking_bind (lacking_optional _ _) fun value _ => ?_
    refine lacking_bind (lacking_rest _) fun attributes hrest => lacking_pure ?_
    exact Element.isUnnamed_iff.2 ⟨attributes, rfl, hrest⟩
  | _ => cases hkind

/-- A control whose tag binds no name is without a name. -/
theorem isUnnamed_of_element {kind : Kind} (hkind : kind.isControl = true) {site : Site}
    {name : String} {bindings : Associations} {content : Option Element} {e : Element}
    (hname : bindings.Lacks "name") (h : kind.element site name bindings content = .ok e) :
    e.isUnnamed = true := by
  unfold Kind.element at h
  rw [StateT.run'_eq] at h
  cases hrun : (readTag name kind).run bindings with
  | error e =>
    rw [hrun] at h
    cases h
  | ok taken =>
    rw [hrun] at h
    cases h
    exact (lacking_readTag hkind name site _ bindings taken.2 taken.1 hname hrun).1

end Kind

end PageEngine
