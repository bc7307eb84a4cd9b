import PageEngine.Proofs.Component.Handover
import PageEngine.Proofs.Component.Retained

/-! Components that come back as they were. A component echoes another one if it shows the same,
keeps everything that the other one keeps, and keeps only what echoes that, or else what echoes
a new component. Values under the names of bindings may differ in what is kept, for they are
pulled before they are looked at. -/

namespace PageEngine

namespace Instance

/-- The names of the bindings on the tag that placed a component. -/
def boundNames (c : Instance) : List String := c.bindings.map Prod.fst

/-- A component as it was when it was made. -/
def renewed (engine : Engine) (c : Instance) : Instance :=
  { ofClass c.name (engine.classOf c.name) c.template with
    bindings := c.bindings
    content := c.content }

/-- The second component echoes the first, apart from the values under some names. -/
inductive Echoes (engine : Engine) : List String → Instance → Instance → Prop
  | intro {names : List String} {c d : Instance} (persists : c.Persists d)
    (get : ∀ key, key ∉ names → d.values.get key = c.values.get key)
    (kept : ∀ key, d.child? key = none → c.child? key = none)
    (compiled : ∀ key y, c.child? key = none → d.child? key = some y →
      engine.compile y.name = .ok y.template)
    (inside : ∀ key y, d.child? key = some y →
      Echoes engine y.boundNames ((c.child? key).getD (y.renewed engine)) y) :
    Echoes engine names c d

theorem Persists.renewed {c d : Instance} (h : c.Persists d) (engine : Engine) :
    d.renewed engine = c.renewed engine := by
  have hname := h.name
  have hbindings : d.bindings = c.bindings := congrArg Reference.bindings h.reference
  have hcontent : d.content = c.content := congrArg Reference.content h.reference
  unfold Instance.renewed
  rw [hname, h.template, hbindings, hcontent]

theorem Persists.boundNames {c d : Instance} (h : c.Persists d) : d.boundNames = c.boundNames :=
  congrArg (fun r => r.bindings.map Prod.fst) h.reference

theorem sizeOf_lt_of_child? {c child : Instance} {key : String} (h : c.child? key = some child) :
    sizeOf child < sizeOf c := by
  have hmem := List.sizeOf_lt_of_mem (Dictionary.mem_of_get? h)
  obtain ⟨name, kind, values, template, children, bindings, content⟩ := c
  simp only [Prod.mk.sizeOf_spec, Instance.mk.sizeOf_spec] at hmem ⊢
  omega

namespace Echoes

variable {engine : Engine} {names names' : List String} {c d e x y : Instance} {key : String}

theorem refl (engine : Engine) (names : List String) (c : Instance) : Echoes engine names c c := by
  refine .intro (.refl c) (fun _ _ => rfl) (fun _ => id) (fun key y hnone hy => ?_)
    fun key y hy => ?_
  · exact nomatch hnone.symm.trans hy
  · have hlt := sizeOf_lt_of_child? hy
    rw [hy, Option.getD_some]
    exact refl engine _ y
termination_by sizeOf c

theorem persists (h : Echoes engine names c d) : c.Persists d := by
  cases h with
  | intro persists => exact persists

theorem get (h : Echoes engine names c d) (hkey : key ∉ names) :
    d.values.get key = c.values.get key := by
  cases h with
  | intro _ get => exact get key hkey

theorem child?_eq_none (h : Echoes engine names c d) (hd : d.child? key = none) :
    c.child? key = none := by
  cases h with
  | intro _ _ kept => exact kept key hd

theorem compile_eq (h : Echoes engine names c d) (hc : c.child? key = none)
    (hd : d.child? key = some y) : engine.compile y.name = .ok y.template := by
  cases h with
  | intro _ _ _ compiled => exact compiled key y hc hd

theorem child? (h : Echoes engine names c d) (hd : d.child? key = some y) :
    Echoes engine y.boundNames ((c.child? key).getD (y.renewed engine)) y := by
  cases h with
  | intro _ _ _ _ inside => exact inside key y hd

theorem trans (h : Echoes engine names c d) (h' : Echoes engine names d e) :
    Echoes engine names c e := by
  induction h' generalizing c with
  | @intro names d e persists get kept compiled inside ih =>
    refine .intro (h.persists.trans persists) (fun key hkey => (get key hkey).trans (h.get hkey))
      (fun key hkey => h.child?_eq_none (kept key hkey)) (fun key z hc hz => ?_) fun key z hz => ?_
    · cases hd : d.child? key with
      | none => exact compiled key z hd hz
      | some y =>
        have hyz := inside key z hz
        rw [hd, Option.getD_some] at hyz
        rw [hyz.persists.name, hyz.persists.template]
        exact h.compile_eq hc hd
    · have hyz := inside key z hz
      cases hd : d.child? key with
      | none =>
        rw [hd, Option.getD_none] at hyz
        rw [h.child?_eq_none hd, Option.getD_none]
        exact hyz
      | some y =>
        rw [hd, Option.getD_some] at hyz
        have hxy := h.child? hd
        rw [← hyz.persists.renewed, ← hyz.persists.boundNames] at hxy
        refine ih key z hz ?_
        rwa [hd, Option.getD_some]

/-- The values may change in the same way in both components. -/
theorem revalued (h : Echoes engine names c d) {values values' : Entries}
    (hvalues : ∀ key, key ∉ names' → values'.get key = values.get key) :
    Echoes engine names' { c with values } { d with values := values' } := by
  cases h with
  | intro persists get kept compiled inside =>
    exact .intro ⟨persists.kind, persists.reference, persists.template⟩ hvalues kept compiled inside

theorem of_alike (h : c.Alike d) (hget : ∀ key, key ∉ names → d.values.get key = c.values.get key) :
    Echoes engine names c d := by
  obtain ⟨name, kind, values, template, children, bindings, content⟩ := c
  obtain ⟨name', kind', values', template', children', bindings', content'⟩ := d
  cases h
  exact (refl engine [] ⟨name, kind, values, template, children, bindings, content⟩).revalued hget

theorem mono (h : Echoes engine names c d) (hnames : names ⊆ names') :
    Echoes engine names' c d := by
  cases h with
  | intro persists get kept compiled inside =>
    exact .intro persists (fun key hkey => get key fun hmem => hkey (hnames hmem)) kept compiled
      inside

theorem sameReading (h : Echoes engine [] c d) : c.SameReading d :=
  ⟨congrArg Reference.bindings h.persists.reference, fun _ => h.get List.not_mem_nil⟩

theorem write (h : Echoes engine [] c d) (path : String) (v : Value) :
    Echoes engine [] (c.write path v) (d.write path v) := by
  refine h.revalued fun key _ => ?_
  rw [Entries.get_write, Entries.get_write, h.get List.not_mem_nil]

/-! ### What is kept -/

/-- What is kept under one key changes. -/
theorem rekept {c' d' : Instance} (h : Echoes engine names c d) (persists : c'.Persists d')
    (get : ∀ key, key ∉ names → d'.values.get key = c'.values.get key) (key : String)
    (hother : ∀ key', key' ≠ key →
      c'.child? key' = c.child? key' ∧ d'.child? key' = d.child? key')
    (kept : d'.child? key = none → c'.child? key = none)
    (hinside : ∀ y, d'.child? key = some y →
      (c'.child? key = none → engine.compile y.name = .ok y.template) ∧
        Echoes engine y.boundNames ((c'.child? key).getD (y.renewed engine)) y) :
    Echoes engine names c' d' := by
  refine .intro persists get (fun key' hnone => ?_) (fun key' y hnone hy => ?_) fun key' y hy => ?_
  · by_cases hkey : key' = key
    · subst hkey
      exact kept hnone
    · obtain ⟨hc, hd⟩ := hother key' hkey
      rw [hc]
      exact h.child?_eq_none (hd.symm.trans hnone)
  · by_cases hkey : key' = key
    · subst hkey
      exact (hinside y hy).1 hnone
    · obtain ⟨hc, hd⟩ := hother key' hkey
      exact h.compile_eq (hc.symm.trans hnone) (hd.symm.trans hy)
  · by_cases hkey : key' = key
    · subst hkey
      exact (hinside y hy).2
    · obtain ⟨hc, hd⟩ := hother key' hkey
      rw [hc]
      exact h.child? (hd.symm.trans hy)

theorem removeChild (h : Echoes engine names c d) (hc : c.Orderly) (hd : d.Orderly) (key : String) :
    Echoes engine names (c.removeChild key) (d.removeChild key) := by
  have hnone : ∀ {c : Instance}, c.Orderly → (c.removeChild key).child? key = none := by
    intro c hc
    cases hc with
    | intro ordered _ => exact Dictionary.get?_erase_self ordered key
  have hpersists := h.persists
  refine h.rekept ⟨hpersists.kind, hpersists.reference, hpersists.template⟩ (fun _ => h.get) key
    (fun key' hkey => ?_) (fun _ => hnone hc) fun y hy => nomatch (hnone hd).symm.trans hy
  exact ⟨child?_removeChild_of_ne hkey c, child?_removeChild_of_ne hkey d⟩

/-- A component is kept in both. -/
theorem addChild (h : Echoes engine names c d) (hxy : Echoes engine [] x y) (key : String) :
    Echoes engine names (c.addChild key x) (d.addChild key y) := by
  have hpersists := h.persists
  refine h.rekept ⟨hpersists.kind, hpersists.reference, hpersists.template⟩ (fun _ => h.get) key
    (fun key' hkey => ?_) (fun hnone => ?_) fun z hz => ?_
  · exact ⟨child?_addChild_of_ne hkey c x, child?_addChild_of_ne hkey d y⟩
  · exact nomatch (child?_addChild_self d y key).symm.trans hnone
  · obtain rfl := Option.some.inj ((child?_addChild_self d y key).symm.trans hz)
    rw [child?_addChild_self, Option.getD_some]
    exact ⟨(nomatch ·), hxy.mono (List.nil_subset _)⟩

/-- A component comes back to its caller. -/
theorem addChild_later (h : Echoes engine names (c.removeChild key) d)
    (hcompiled : c.child? key = none → engine.compile y.name = .ok y.template)
    (hy : Echoes engine y.boundNames ((c.child? key).getD (y.renewed engine)) y) :
    Echoes engine names c (d.addChild key y) := by
  have hpersists := h.persists
  refine h.rekept ⟨hpersists.kind, hpersists.reference, hpersists.template⟩ (fun _ => h.get) key
    (fun key' hkey => ?_) (fun hnone => ?_) fun z hz => ?_
  · exact ⟨(child?_removeChild_of_ne hkey c).symm, child?_addChild_of_ne hkey d y⟩
  · exact nomatch (child?_addChild_self d y key).symm.trans hnone
  · obtain rfl := Option.some.inj ((child?_addChild_self d y key).symm.trans hz)
    exact ⟨hcompiled, hy⟩

end Echoes

end Instance

namespace Scope

open Instance

variable {engine : Engine} {s t : Scope} {c d : Instance} {path : String}

/-- A component that echoes what it was after it took over its values gives back the same, if
all of it stands at its caller where key paths lead. -/
theorem Paired.given_back (h : s.Paired (Echoes engine []) t)
    (hcd : Echoes engine [] { c with values := s.handedOver c.bindings c.values } d)
    (hnames : c.boundNames.Nodup)
    (hbound : ∀ name a, (name, a) ∈ c.bindings → a.isSettable = true →
      ∃ path, a = .keyPath path ∧ s.current.values.leads path = true) :
    s.Paired (Echoes engine []) (t.handedBack d.bindings d.values) := by
  have hbindings : d.bindings = c.bindings := hcd.sameReading.bindings
  have hcurrent := h.current.sameReading.get
  have hsame : t.Paired Unaltered (t.handedBack d.bindings d.values) := by
    refine unaltered_handedBack fun name a hmem hsettable => ?_
    rw [hbindings] at hmem
    obtain ⟨path, rfl, hleads⟩ := hbound name a hmem hsettable
    refine ⟨path, rfl, ?_, (Entries.leads_congr hcurrent path).trans hleads⟩
    rw [hcd.sameReading.get name, get_handedOver hnames hmem, read_keyPath,
      Entries.read_congr hcurrent]
  exact h.trans .trans (hsame.imp fun hxy => .of_alike hxy.alike fun key _ => hxy.get key)

end Scope

end PageEngine
