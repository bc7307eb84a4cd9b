import PageEngine.Walk.State

/-! What walks remember for all pages only grows. A template that was resolved stays, and so
does the number of a name at a switch. -/

namespace PageEngine

namespace SwitchNumbers

theorem fst_number (site : Site) (name : String) (numbers : SwitchNumbers) :
    (number site name numbers).1 = (numberName name (namesAt site numbers)).1 := by
  induction numbers with
  | nil => rfl
  | cons entry rest ih =>
    obtain ⟨s, names⟩ := entry
    by_cases h : s = site
    · subst h
      simp [number, namesAt]
    · have hbeq : (site == s) = false := beq_eq_false_iff_ne.2 (Ne.symm h)
      rw [number, if_neg h, ih]
      simp [namesAt, List.lookup_cons, hbeq]

theorem namesAt_number_self (site : Site) (name : String) (numbers : SwitchNumbers) :
    namesAt site (number site name numbers).2 = (numberName name (namesAt site numbers)).2 := by
  induction numbers with
  | nil => simp [number, namesAt, numberName]
  | cons entry rest ih =>
    obtain ⟨s, names⟩ := entry
    by_cases h : s = site
    · subst h
      simp [number, namesAt]
    · have hbeq : (site == s) = false := beq_eq_false_iff_ne.2 (Ne.symm h)
      rw [number, if_neg h]
      simpa [namesAt, List.lookup_cons, hbeq] using ih

theorem namesAt_number_of_ne {site site' : Site} (hne : site' ≠ site) (name : String)
    (numbers : SwitchNumbers) :
    namesAt site' (number site name numbers).2 = namesAt site' numbers := by
  induction numbers with
  | nil =>
    have hbeq : (site' == site) = false := beq_eq_false_iff_ne.2 hne
    simp [number, namesAt, List.lookup_cons, hbeq]
  | cons entry rest ih =>
    obtain ⟨s, names⟩ := entry
    by_cases h : s = site
    · subst h
      have hbeq : (site' == s) = false := beq_eq_false_iff_ne.2 hne
      simp [number, namesAt, List.lookup_cons, hbeq]
    · rw [number, if_neg h]
      by_cases h' : site' = s
      · simp [namesAt, h']
      · have hbeq : (site' == s) = false := beq_eq_false_iff_ne.2 h'
        simpa [namesAt, List.lookup_cons, hbeq] using ih

end SwitchNumbers

namespace Memory

/-- Everything that `M` remembers is remembered by `N`. -/
structure Le (M N : Memory) : Prop where
  templates : ∀ name result, Dictionary.get? name M.templates = some result →
    Dictionary.get? name N.templates = some result
  names : ∀ site, M.switches.namesAt site <+: N.switches.namesAt site

variable {M N : Memory}

theorem Le.refl (M : Memory) : M.Le M :=
  ⟨fun _ _ h => h, fun _ => List.prefix_refl _⟩

theorem Le.trans {K : Memory} (h : M.Le N) (h' : N.Le K) : M.Le K :=
  ⟨fun name result ht => h'.templates name result (h.templates name result ht),
    fun site => (h.names site).trans (h'.names site)⟩

/-- A name keeps its number. -/
theorem Le.getElem? (h : M.Le N) {site : Site} {n : Nat} {name : String}
    (hn : (M.switches.namesAt site)[n]? = some name) :
    (N.switches.namesAt site)[n]? = some name := by
  obtain ⟨more, hmore⟩ := h.names site
  have hlt := (List.getElem?_eq_some_iff.1 hn).1
  rw [← hmore, List.getElem?_append_left hlt]
  exact hn

/-- Ask for the template of a component. -/
def load (engine : Engine) (name : String) (M : Memory) : Memory :=
  { M with templates := (TemplateCache.get engine name M.templates).2 }

/-- Ask for the number of a name at a switch. -/
def number (site : Site) (name : String) (M : Memory) : Memory :=
  { M with switches := (M.switches.number site name).2 }

theorem get?_load (engine : Engine) (name : String) (M : Memory) :
    Dictionary.get? name (M.load engine name).templates =
      some (TemplateCache.get engine name M.templates).1 := by
  unfold load TemplateCache.get
  cases h : Dictionary.get? name M.templates with
  | some result => exact h
  | none => exact Dictionary.get?_insert_self ..

theorem le_load (engine : Engine) (name : String) (M : Memory) : M.Le (M.load engine name) := by
  refine ⟨fun other result h => ?_, fun _ => List.prefix_refl _⟩
  unfold load TemplateCache.get
  cases hname : Dictionary.get? name M.templates with
  | some _ => exact h
  | none =>
    have hne : other ≠ name := by
      rintro rfl
      rw [hname] at h
      cases h
    exact (Dictionary.get?_insert_of_ne hne ..).trans h

theorem getElem?_namesAt_number (site : Site) (name : String) (M : Memory) :
    ((M.number site name).switches.namesAt site)[(M.switches.number site name).1]? =
      some name := by
  rw [number, SwitchNumbers.namesAt_number_self, SwitchNumbers.fst_number]
  exact getElem?_numberName ..

theorem le_number (site : Site) (name : String) (M : Memory) : M.Le (M.number site name) := by
  refine ⟨fun _ _ h => h, fun site' => ?_⟩
  by_cases h : site' = site
  · subst h
    rw [number, SwitchNumbers.namesAt_number_self]
    exact isPrefix_numberName ..
  · have hsame := SwitchNumbers.namesAt_number_of_ne h name M.switches
    exact hsame ▸ List.prefix_refl _

/-- What an engine can have remembered. -/
inductive Reachable (engine : Engine) : Memory → Prop
  | empty : Reachable engine .empty
  | load {M : Memory} (name : String) (h : Reachable engine M) :
    Reachable engine (M.load engine name)
  | number {M : Memory} (site : Site) (name : String) (h : Reachable engine M) :
    Reachable engine (M.number site name)

end Memory

end PageEngine
