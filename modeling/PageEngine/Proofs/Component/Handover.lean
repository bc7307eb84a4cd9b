import PageEngine.Proofs.Component.Paired
import PageEngine.Proofs.Value.KeyPath

/-! Values on their way between a component and its caller. What an association means at the
caller does not depend on the component that was entered from there: so the values that are
pulled are told by the scope of the caller, and pushing changes that scope only. What was pulled
through a key path that leads to a value changes nothing when it is pushed. -/

namespace PageEngine

/-- The same bindings, and the same value under every key. -/
structure Instance.SameReading (c d : Instance) : Prop where
  bindings : d.bindings = c.bindings
  get : ∀ key, d.values.get key = c.values.get key

/-- A component that may be stored differently, but is the same in every respect. -/
structure Instance.Unaltered (c d : Instance) : Prop where
  alike : c.Alike d
  get : ∀ key, d.values.get key = c.values.get key

namespace Instance.Unaltered

variable {c d e : Instance}

theorem refl (c : Instance) : c.Unaltered c := ⟨.refl c, fun _ => rfl⟩

theorem trans (h : c.Unaltered d) (h' : d.Unaltered e) : c.Unaltered e :=
  ⟨Eq.trans h'.alike h.alike, fun key => (h'.get key).trans (h.get key)⟩

end Instance.Unaltered

namespace Scope

variable {s t : Scope} {depth : Nat} {bindings : Associations} {values values' : Entries}

/-! ### At the caller -/

theorem get?_enter (key : String) (c : Instance) (h : depth ≤ s.depth) :
    (s.enter key c).get? depth = s.get? depth := by
  obtain ⟨page, frames, suspended⟩ := s
  exact get?_cons h

theorem target_enter (key : String) (c : Instance) (a : Association) (h : depth ≤ s.depth) :
    (s.enter key c).target a depth = s.target a depth := by
  have hkeyPath : ∀ {depth} (path : String), depth ≤ s.depth →
      (s.enter key c).target (.keyPath path) depth = s.target (.keyPath path) depth := by
    intro depth path h
    have hinside : depth ≤ (s.enter key c).depth := Nat.le_succ_of_le h
    rw [target, target, if_pos h, if_pos hinside]
  induction depth generalizing a with
  | zero =>
    cases a with
    | keyPath path => exact hkeyPath path h
    | _ => rfl
  | succ outer ih =>
    cases a with
    | constant v => rfl
    | keyPath path => exact hkeyPath path h
    | reference name =>
      simp only [target, get?_enter key c h, ih _ (Nat.le_of_succ_le h)]

theorem read_enter (key : String) (c : Instance) (a : Association) (h : depth ≤ s.depth) :
    (s.enter key c).read a depth = s.read a depth := by
  unfold read
  rw [target_enter key c a h]
  split
  · rfl
  · rename_i d path htarget
    unfold readAt
    rw [get?_enter key c (Nat.le_trans (target_le htarget) h)]
  · rfl
  · rfl

theorem written_enter (key : String) (c : Instance) (a : Association) (v : Value)
    (h : depth ≤ s.depth) :
    (s.enter key c).written a depth v = (s.written a depth v).enter key c := by
  unfold written
  rw [target_enter key c a h]
  split
  · rename_i d path htarget
    obtain ⟨page, frames, suspended⟩ := s
    have hd : d ≤ frames.length := Nat.le_trans (target_le htarget) h
    refine (modify_cons hd fun c => c.write path v).trans ?_
    unfold modify
    split
    · rfl
    · split <;> rfl
  · rfl

/-! ### Pulling and pushing -/

/-- The values of a component after it took over what its bindings read at its caller. -/
def handedOver (s : Scope) (bindings : Associations) (values : Entries) : Entries :=
  bindings.foldl (fun values (name, a) => Dictionary.insert name (s.read a s.depth) values) values

/-- The scope of the caller after a component gave its values back. -/
def handedBack (s : Scope) (bindings : Associations) (values : Entries) : Scope :=
  (bindings.filter fun (_, a) => a.isSettable).foldl
    (fun s (name, a) => s.written a s.depth (values.get name)) s

theorem pulled_enter (s : Scope) (key : String) (c : Instance) :
    (s.enter key c).pulled =
      s.enter key { c with values := s.handedOver c.bindings c.values } := by
  have hfold : ∀ (l : Associations) (values : Entries),
      l.foldl (pulledBinding s.depth) (s.enter key { c with values }) =
        s.enter key { c with values := s.handedOver l values } := by
    intro l
    induction l with
    | nil => exact fun _ => rfl
    | cons b l ih =>
      intro values
      have hread := read_enter key { c with values } b.2 (Nat.le_refl s.depth)
      have hpulled : pulledBinding s.depth (s.enter key { c with values }) b =
          s.enter key { c with values := Dictionary.insert b.1 (s.read b.2 s.depth) values } := by
        rw [← hread]
        rfl
      rw [List.foldl_cons, hpulled, ih]
      rfl
  obtain ⟨name, kind, values, template, children, bindings, content⟩ := c
  exact hfold bindings values

theorem pushed_enter (s : Scope) (key : String) (c : Instance) :
    (s.enter key c).pushed = (s.handedBack c.bindings c.values).enter key c := by
  have hfold : ∀ (l : Associations) (t : Scope), t.depth = s.depth →
      l.foldl (pushedBinding s.depth) (t.enter key c) =
        (l.foldl (fun t (name, a) => t.written a t.depth (c.values.get name)) t).enter key c := by
    intro l
    induction l with
    | nil => exact fun _ _ => rfl
    | cons b l ih =>
      intro t ht
      have hdepth := (alike_written t b.2 t.depth (c.values.get b.1)).depth.trans ht
      rw [List.foldl_cons, List.foldl_cons, ← ih _ hdepth, pushedBinding,
        written_enter key c b.2 _ (Nat.le_of_eq ht.symm), ht]
      rfl
  exact hfold _ s rfl

theorem get_handedOver_of_not_mem {key : String} (h : key ∉ bindings.map Prod.fst) :
    (s.handedOver bindings values).get key = values.get key := by
  induction bindings generalizing values with
  | nil => rfl
  | cons b rest ih =>
    rw [List.map_cons, List.mem_cons, not_or] at h
    have hrest : s.handedOver (b :: rest) values =
        s.handedOver rest (Dictionary.insert b.1 (s.read b.2 s.depth) values) := rfl
    rw [hrest, ih h.2, Entries.get, Dictionary.get?_insert_of_ne h.1]
    rfl

/-- Every binding has the value that it reads at the caller. -/
theorem get_handedOver {name : String} {a : Association} (hnames : (bindings.map Prod.fst).Nodup)
    (hmem : (name, a) ∈ bindings) :
    (s.handedOver bindings values).get name = s.read a s.depth := by
  induction bindings generalizing values with
  | nil => cases hmem
  | cons b rest ih =>
    obtain ⟨hfirst, hnames⟩ := List.nodup_cons.1 hnames
    have hrest : s.handedOver (b :: rest) values =
        s.handedOver rest (Dictionary.insert b.1 (s.read b.2 s.depth) values) := rfl
    rw [hrest]
    rcases List.mem_cons.1 hmem with rfl | hmem
    · rw [get_handedOver_of_not_mem hfirst]
      exact Entries.get_insert_self ..
    · exact ih hnames hmem

/-- A key path is read in the current component. -/
theorem read_keyPath (s : Scope) (path : String) :
    s.read (.keyPath path) s.depth = s.current.values.read path := by
  simp only [read, target, Nat.le_refl, if_true, readAt, get?_depth]

/-- A key path is written in the current component. -/
theorem written_keyPath (s : Scope) (path : String) (v : Value) :
    s.written (.keyPath path) s.depth v = s.modifyCurrent (·.write path v) := by
  rw [modifyCurrent_eq]
  simp only [written, target, Nat.le_refl, if_true]

/-- Values pass between the current component and the caller: the component takes over what its
bindings read in the scope of the caller, and gives its values back to that scope, while it is left
as it is itself. In that scope a key path is one of the caller. -/
structure HandsOver (s around : Scope) (key : String) (bindings : Associations)
    (caller : Instance) : Prop where
  entered : s = around.enter key s.current
  pull : s.pull =
    .ok (around.enter key { s.current with values := around.handedOver bindings s.current.values })
  push : s.push = .ok ((around.handedBack bindings s.current.values).enter key s.current)
  current : around.current = caller
  read : ∀ path, around.read (.keyPath path) around.depth = caller.values.read path
  written : ∀ path v, around.written (.keyPath path) around.depth v =
    around.modifyCurrent fun _ => caller.write path v

theorem handsOver_enter (s : Scope) (key : String) (c : Instance) :
    (s.enter key c).HandsOver s key c.bindings s.current := by
  have hinside : 0 < (s.enter key c).depth := Nat.succ_pos _
  refine ⟨rfl, ?_, ?_, rfl, s.read_keyPath, fun path v => ?_⟩
  · rw [pull_eq hinside, pulled_enter]
    rfl
  · rw [push_eq hinside, pushed_enter]
    rfl
  · rw [written_keyPath]
    obtain ⟨page, frames, suspended⟩ := s
    cases frames <;> rfl

/-- What was read through a key path that leads to a value changes nothing when it is written
back. -/
theorem unaltered_written {path : String} {v : Value} (hleads : s.current.values.leads path = true)
    (hv : v = s.current.values.read path) :
    s.Paired Instance.Unaltered (s.written (.keyPath path) s.depth v) := by
  rw [written_keyPath, hv]
  exact Paired.of_modifyCurrent_self .refl
    ⟨s.current.alike_write .., Entries.get_write_read hleads⟩

theorem unaltered_handedBack
    (h : ∀ name a, (name, a) ∈ bindings → a.isSettable = true → ∃ path, a = .keyPath path ∧
      values.get name = s.current.values.read path ∧ s.current.values.leads path = true) :
    s.Paired Instance.Unaltered (s.handedBack bindings values) := by
  have hfold : ∀ (l : Associations) (t : Scope), s.Paired Instance.Unaltered t →
      (∀ b ∈ l, ∃ path, b.2 = .keyPath path ∧ values.get b.1 = s.current.values.read path ∧
        s.current.values.leads path = true) →
      s.Paired Instance.Unaltered
        (l.foldl (fun t (name, a) => t.written a t.depth (values.get name)) t) := by
    intro l
    induction l with
    | nil => exact fun t ht _ => ht
    | cons b rest ih =>
      intro t ht hl
      obtain ⟨path, hpath, hvalue, hleads⟩ := hl b (List.mem_cons_self ..)
      have hsame := ht.current.get
      have hstep : t.Paired Instance.Unaltered (t.written b.2 t.depth (values.get b.1)) := by
        rw [hpath]
        refine unaltered_written ((Entries.leads_congr hsame path).trans hleads) ?_
        rw [hvalue, Entries.read_congr hsame]
      exact ih _ (ht.trans .trans hstep) fun c hc => hl c (List.mem_cons_of_mem _ hc)
  refine hfold _ s (.refl .refl s) fun b hb => ?_
  obtain ⟨hmem, hsettable⟩ := List.mem_filter.1 hb
  exact h b.1 b.2 hmem hsettable

/-! ### Paired chains -/

namespace Paired

variable {P : Instance → Instance → Prop}

/-- In chains that show the same, an association leads to the same place. -/
theorem target_eq (h : s.Paired Instance.SameReading t) (a : Association) (depth : Nat) :
    t.target a depth = s.target a depth := by
  have hdepth := h.depth_eq
  induction depth generalizing a with
  | zero => cases a <;> simp only [target, hdepth]
  | succ outer ih =>
    cases a with
    | constant v => rfl
    | keyPath path => simp only [target, hdepth]
    | reference name =>
      simp only [target]
      cases hc : s.get? (outer + 1) with
      | none => rw [h.get?_eq_none hc]
      | some c =>
        obtain ⟨d, hd, hcd⟩ := h.get? hc
        simp only [hd, Instance.binding?, hcd.bindings, ih]

theorem readAt_eq (h : s.Paired Instance.SameReading t) (depth : Nat) (path : String) :
    t.readAt depth path = s.readAt depth path := by
  unfold readAt
  cases hc : s.get? depth with
  | none => rw [h.get?_eq_none hc]
  | some c =>
    obtain ⟨d, hd, hcd⟩ := h.get? hc
    rw [hd]
    exact Entries.read_congr hcd.get path

theorem read_eq (h : s.Paired Instance.SameReading t) (a : Association) (depth : Nat) :
    t.read a depth = s.read a depth := by
  unfold read
  rw [h.target_eq]
  split
  · rfl
  · exact h.readAt_eq ..
  · rfl
  · rfl

theorem written (h : s.Paired P t) (hsame : ∀ {c d}, P c d → c.SameReading d)
    (hwrite : ∀ path v {c d}, P c d → P (c.write path v) (d.write path v)) (a : Association)
    (depth : Nat) (v : Value) : (s.written a depth v).Paired P (t.written a depth v) := by
  unfold Scope.written
  rw [(h.imp hsame).target_eq]
  split
  · exact h.modify (hwrite _ _) _
  · exact h

/-- Components take over the same. -/
theorem get_handedOver_eq (h : s.Paired Instance.SameReading t) (bindings : Associations)
    {key : String}
    (hvalues : key ∉ bindings.map Prod.fst → values'.get key = values.get key) :
    (t.handedOver bindings values').get key = (s.handedOver bindings values).get key := by
  induction bindings generalizing values values' with
  | nil => exact hvalues (List.not_mem_nil)
  | cons b rest ih =>
    refine ih fun hrest => ?_
    dsimp only
    rw [h.depth_eq, h.read_eq]
    by_cases hkey : key = b.1
    · simp only [hkey, Entries.get_insert_self]
    · simp only [Entries.get, Dictionary.get?_insert_of_ne hkey]
      exact hvalues (List.not_mem_cons_of_ne_of_not_mem hkey hrest)

/-- Callers get the same back. -/
theorem pushed (h : s.Paired P t) (hsame : ∀ {c d}, P c d → c.SameReading d)
    (hwrite : ∀ path v {c d}, P c d → P (c.write path v) (d.write path v)) :
    s.pushed.Paired P t.pushed := by
  have hfold : ∀ (l : Associations) (caller : Nat) {s t : Scope}, s.Paired P t →
      (l.foldl (pushedBinding caller) s).Paired P (l.foldl (pushedBinding caller) t) := by
    intro l caller
    induction l with
    | nil => exact id
    | cons b rest ih =>
      intro s t h
      refine ih ?_
      rw [pushedBinding, pushedBinding, (hsame h.current).get]
      exact h.written hsame hwrite ..
  unfold Scope.pushed
  rw [(hsame h.current).bindings, h.depth_eq]
  exact hfold _ _ h

end Paired

end Scope

end PageEngine
