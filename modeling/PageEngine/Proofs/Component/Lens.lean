import PageEngine.Proofs.Walk.Stores

/-! Associations as lenses on the chain of entered components. Reading, writing and performing
are told here by three recursions, each asking a component for its binding and going on at its
caller. All three end where the references lead. At a key path, what was written is read
again, no other component is changed, and the action of that name is performed there;
anywhere else writing changes nothing. -/

namespace PageEngine

namespace Association

/-- Read an association against the component at a depth. -/
def value (s : Scope) : Association → Nat → Value
  | .constant v, _ => v
  | .keyPath path, depth =>
    match s.get? depth with
    | none => .null
    | some c => c.values.read path
  | .reference _, 0 => .null
  | .reference name, caller + 1 =>
    match s.get? (caller + 1) with
    | none => .null
    | some c =>
      match c.binding? name with
      | none => .null
      | some a => value s a caller

/-- Write through an association. Constants take no notice. -/
def setValue (s : Scope) (v : Value) : Association → Nat → Except StateError Scope
  | .constant _, _ => .ok s
  | .keyPath path, depth =>
    match s.get? depth with
    | none => .error .scopeUnderflow
    | some _ => .ok (s.modify depth fun c => c.write path v)
  | .reference _, 0 => .ok s
  | .reference name, caller + 1 =>
    match s.get? (caller + 1) with
    | none => .error .scopeUnderflow
    | some c =>
      match c.binding? name with
      | none => .ok s
      | some a => setValue s v a caller

/-- Treat an association as an action and perform it. -/
def invoke (s : Scope) : Association → Nat → Except EngineError Outcome × Scope
  | .constant (.text name), _ => (.ok (.pageNamed name), s)
  | .constant _, _ => (.ok .stay, s)
  | .keyPath path, depth =>
    match s.get? depth with
    | none => (.error (.state .scopeUnderflow), s)
    | some c =>
      ((c.perform path).1.mapError EngineError.lookup, s.modify depth fun _ => (c.perform path).2)
  | .reference _, 0 => (.ok .stay, s)
  | .reference name, caller + 1 =>
    match s.get? (caller + 1) with
    | none => (.error (.state .scopeUnderflow), s)
    | some c =>
      match c.binding? name with
      | none => (.ok .stay, s)
      | some a => invoke s a caller

end Association

namespace Scope

variable {s after : Scope} {a : Association} {depth i : Nat} {path : String} {t : Target}

theorem get?_eq_none (h : ¬depth ≤ s.depth) : s.get? depth = none := by
  have hsome := mt (get?_isSome_iff s depth).1 h
  simpa using hsome

theorem exists_get? (h : depth ≤ s.depth) : ∃ c, s.get? depth = some c :=
  Option.isSome_iff_exists.1 ((get?_isSome_iff s depth).2 h)

/-! ### The three recursions -/

/-- The value of a target. -/
def readTarget (s : Scope) : Target → Value
  | .constant v => v
  | .entry depth path => s.readAt depth path
  | .nothing => .null
  | .outside => .null

/-- Store a value at a target. -/
def writeTarget (s : Scope) (v : Value) : Target → Except StateError Scope
  | .constant _ => .ok s
  | .entry depth path => .ok (s.modify depth fun c => c.write path v)
  | .nothing => .ok s
  | .outside => .error .scopeUnderflow

/-- Perform what a target names. -/
def performTarget (s : Scope) : Target → Except EngineError Outcome × Scope
  | .constant (.text name) => (.ok (.pageNamed name), s)
  | .constant _ => (.ok .stay, s)
  | .entry depth name => s.performAt depth name
  | .nothing => (.ok .stay, s)
  | .outside => (.error (.state .scopeUnderflow), s)

/-- A recursion that treats constants and key paths as their targets, and asks the caller for
what a reference names, treats every association as its target. -/
theorem eq_of_target {β : Type} (s : Scope) (f : Association → Nat → β) (g : Target → β)
    (hconstant : ∀ v depth, f (.constant v) depth = g (.constant v))
    (hkeyPath : ∀ path depth, f (.keyPath path) depth = g (s.target (.keyPath path) depth))
    (hpage : ∀ name, f (.reference name) 0 = g .nothing)
    (hreference : ∀ name caller, f (.reference name) (caller + 1) =
      match s.get? (caller + 1) with
      | none => g .outside
      | some c =>
        match c.binding? name with
        | none => g .nothing
        | some a => f a caller)
    (a : Association) (depth : Nat) : f a depth = g (s.target a depth) := by
  induction depth generalizing a with
  | zero =>
    cases a with
    | constant v => exact hconstant v 0
    | keyPath path => exact hkeyPath path 0
    | reference name => exact hpage name
  | succ caller ih =>
    cases a with
    | constant v => exact hconstant v _
    | keyPath path => exact hkeyPath path _
    | reference name =>
      rw [hreference]
      cases hc : s.get? (caller + 1) with
      | none => simp only [target, hc]
      | some c =>
        cases hb : c.binding? name with
        | none => simp only [target, hc, hb]
        | some a => simpa only [target, hc, hb] using ih a

/-- Reading by recursion is reading at the target. -/
theorem value_eq (s : Scope) (a : Association) (depth : Nat) :
    a.value s depth = s.read a depth := by
  refine s.eq_of_target (Association.value s) s.readTarget
    (fun _ _ => by rw [Association.value, readTarget]) (fun path depth => ?_) (fun _ => rfl)
    (fun _ _ => rfl) a depth
  by_cases h : depth ≤ s.depth
  · obtain ⟨c, hc⟩ := exists_get? h
    simp only [Association.value, target, if_pos h, readTarget, readAt, hc]
  · simp only [Association.value, target, if_neg h, readTarget, get?_eq_none h]

/-- Writing by recursion is writing at the target. -/
theorem setValue_eq (s : Scope) (v : Value) (a : Association) (depth : Nat) :
    a.setValue s v depth = s.write a depth v := by
  refine s.eq_of_target (Association.setValue s v) (s.writeTarget v)
    (fun _ _ => by rw [Association.setValue, writeTarget]) (fun path depth => ?_) (fun _ => rfl)
    (fun _ _ => rfl) a depth
  by_cases h : depth ≤ s.depth
  · obtain ⟨c, hc⟩ := exists_get? h
    simp only [Association.setValue, target, if_pos h, writeTarget, hc]
  · simp only [Association.setValue, target, if_neg h, writeTarget, get?_eq_none h]

/-- Performing by recursion is performing at the target. -/
theorem invoke_eq (s : Scope) (a : Association) (depth : Nat) :
    a.invoke s depth = s.invoke a depth := by
  refine s.eq_of_target (Association.invoke s) s.performTarget (fun v _ => ?_)
    (fun path depth => ?_) (fun _ => rfl) (fun _ _ => rfl) a depth
  · cases v <;> simp only [Association.invoke, performTarget]
  · by_cases h : depth ≤ s.depth
    · obtain ⟨c, hc⟩ := exists_get? h
      simp only [Association.invoke, target, if_pos h, performTarget, performAt, hc]
    · simp only [Association.invoke, target, if_neg h, performTarget, get?_eq_none h]

/-! ### Where an association leads -/

/-- References are followed from the component at a depth to the binding that its caller gave
it, until a constant, a key path, a binding not given or the page is reached. -/
inductive LeadsTo (s : Scope) : Association → Nat → Target → Prop where
  | constant (v : Value) (depth : Nat) : LeadsTo s (.constant v) depth (.constant v)
  | keyPath (path : String) (depth : Nat) : LeadsTo s (.keyPath path) depth (.entry depth path)
  | page (name : String) : LeadsTo s (.reference name) 0 .nothing
  | missing {name : String} {caller : Nat} {c : Instance} (hc : s.get? (caller + 1) = some c)
      (hb : c.binding? name = none) : LeadsTo s (.reference name) (caller + 1) .nothing
  | binding {name : String} {caller : Nat} {c : Instance} {a : Association} {t : Target}
      (hc : s.get? (caller + 1) = some c) (hb : c.binding? name = some a)
      (h : LeadsTo s a caller t) : LeadsTo s (.reference name) (caller + 1) t

theorem LeadsTo.target_eq (h : s.LeadsTo a depth t) (hdepth : depth ≤ s.depth) :
    s.target a depth = t := by
  induction h with
  | constant v depth => rw [target]
  | keyPath path depth => rw [target, if_pos hdepth]
  | page name => rw [target]
  | missing hc hb => simp only [target, hc, hb]
  | binding hc hb _ ih =>
    simp only [target, hc, hb]
    exact ih (Nat.le_of_succ_le hdepth)

theorem leadsTo_target (a : Association) (hdepth : depth ≤ s.depth) :
    s.LeadsTo a depth (s.target a depth) := by
  induction depth generalizing a with
  | zero =>
    cases a with
    | constant v =>
      rw [target]
      exact .constant v 0
    | keyPath path =>
      rw [target, if_pos hdepth]
      exact .keyPath path 0
    | reference name =>
      rw [target]
      exact .page name
  | succ caller ih =>
    cases a with
    | constant v =>
      rw [target]
      exact .constant v _
    | keyPath path =>
      rw [target, if_pos hdepth]
      exact .keyPath path _
    | reference name =>
      obtain ⟨c, hc⟩ := exists_get? hdepth
      cases hb : c.binding? name with
      | none =>
        simp only [target, hc, hb]
        exact .missing hc hb
      | some a =>
        simp only [target, hc, hb]
        exact .binding hc hb (ih a (Nat.le_of_succ_le hdepth))

/-! ### What is changed -/

/-- The chain with another component at one depth, and all others as they were. -/
structure ChangedAt (s : Scope) (i : Nat) (c : Instance) (after : Scope) : Prop where
  changed : after.get? i = some c
  others : ∀ j, j ≠ i → after.get? j = s.get? j
  keys : after.keys = s.keys
  suspended : after.suspended = s.suspended

theorem Alike.changedAt {f : Instance → Instance} {c : Instance} (h : s.Alike (s.modify i f))
    (hi : i ≤ s.depth) (hc : s.get? i = some c) : s.ChangedAt i (f c) (s.modify i f) where
  changed := by rw [get?_modify_self hi, hc, Option.map_some]
  others := fun _ hj => get?_modify_of_ne s hj f
  keys := h.keys
  suspended := h.suspended

/-- An association that is a key path of the component at depth `i`. -/
structure Focuses (s : Scope) (a : Association) (depth i : Nat) (path : String) : Prop where
  within : i ≤ depth
  reads : ∃ c, s.get? i = some c ∧ s.read a depth = c.values.read path
  writes : ∀ v, ∃ after c, s.get? i = some c ∧ s.write a depth v = .ok after ∧
    s.ChangedAt i (c.write path v) after ∧ after.read a depth = v
  performs : ∃ after c, s.get? i = some c ∧
    s.invoke a depth = ((c.perform path).1.mapError EngineError.lookup, after) ∧
    s.ChangedAt i (c.perform path).2 after

/-- An association that reads as a value and can neither be written nor lead to an action. -/
structure Fixed (s : Scope) (a : Association) (depth : Nat) (v : Value) (outcome : Outcome) :
    Prop where
  reads : s.read a depth = v
  ignores : ∀ new, s.write a depth new = .ok s
  performs : s.invoke a depth = (.ok outcome, s)

/-- A constant text names a page. -/
def outcomeOf : Value → Outcome
  | .text name => .pageNamed name
  | _ => .stay

/-- How an association behaves that leads to a target. -/
def Behaves (s : Scope) (a : Association) (depth : Nat) : Target → Prop
  | .constant v => s.Fixed a depth v (outcomeOf v)
  | .entry i path => s.Focuses a depth i path
  | .nothing => s.Fixed a depth .null .stay
  | .outside => False

theorem read_of_entry (h : s.target a depth = .entry i path) {c : Instance}
    (hc : s.get? i = some c) : s.read a depth = c.values.read path := by
  simp only [read, h, readAt, hc]

theorem focuses (hdepth : depth ≤ s.depth) (h : s.target a depth = .entry i path) :
    s.Focuses a depth i path := by
  have hi : i ≤ s.depth := Nat.le_trans (target_le h) hdepth
  obtain ⟨c, hc⟩ := exists_get? hi
  refine ⟨target_le h, ⟨c, hc, read_of_entry h hc⟩, fun v => ?_, ?_⟩
  · have halike : s.Alike (s.modify i fun c => c.write path v) :=
      alike_modify fun c _ => c.alike_write path v
    have hchanged := halike.changedAt hi hc
    refine ⟨_, c, hc, by simp only [write, h], hchanged, ?_⟩
    -- bindings are as they were, so the association still leads to the written key path
    rw [read_of_entry ((halike.target a depth).trans h) hchanged.changed]
    exact Entries.read_write c.values path v
  · have hinvoke : s.invoke a depth =
        ((c.perform path).1.mapError EngineError.lookup, s.modify i fun _ => (c.perform path).2) := by
      simp only [invoke, h, performAt, hc]
    have halike := s.alike_invoke a depth
    rw [hinvoke] at halike
    exact ⟨_, c, hc, hinvoke, halike.changedAt hi hc⟩

theorem behaves (hdepth : depth ≤ s.depth) (a : Association) :
    s.Behaves a depth (s.target a depth) := by
  cases h : s.target a depth with
  | constant v =>
    refine ⟨by simp only [read, h], fun new => by simp only [write, h], ?_⟩
    cases v <;> simp only [invoke, h, outcomeOf]
  | entry i path => exact focuses hdepth h
  | nothing =>
    exact ⟨by simp only [read, h], fun new => by simp only [write, h], by simp only [invoke, h]⟩
  | outside => exact target_ne_outside hdepth a h

/-- Reading, writing and performing meet at the one end of the references: they focus on a key
path of one component, or nothing can be changed through the association. -/
theorem associations_are_lenses (hdepth : depth ≤ s.depth) (a : Association) :
    (s.read a depth = a.value s depth ∧ (∀ v, s.write a depth v = a.setValue s v depth) ∧
      s.invoke a depth = a.invoke s depth) ∧
    ∃ t, (∀ t', s.LeadsTo a depth t' ↔ t' = t) ∧ s.Behaves a depth t := by
  refine ⟨⟨(s.value_eq a depth).symm, fun v => (s.setValue_eq v a depth).symm,
    (s.invoke_eq a depth).symm⟩, s.target a depth, fun t' => ⟨?_, ?_⟩, behaves hdepth a⟩
  · intro h
    exact (h.target_eq hdepth).symm
  · rintro rfl
    exact leadsTo_target a hdepth

/-- A page with a user, a component that is given the name of the user as its title, and a
component in that one that is given the title as its label. -/
def labelledScope : Scope :=
  let page := Instance.ofClass "Page" (.plain [("user", .object [("name", .text "Kai")])]) default
  let heading := Instance.ofClass "Heading" (.plain []) default
  let label := Instance.ofClass "Label" (.plain []) default
  ((ofPage page).enter "0" { heading with bindings := [("title", .keyPath "user.name")] }).enter "0"
    { label with bindings := [("label", .reference "title")] }

theorem leadsTo_labelledScope :
    labelledScope.LeadsTo (.reference "label") 2 (.entry 0 "user.name") :=
  .binding rfl rfl (.binding rfl rfl (.keyPath "user.name" 0))

/-- The label is the name of the user on the page. -/
theorem associations_are_lenses_labelledScope :
    2 ≤ labelledScope.depth ∧ labelledScope.Focuses (.reference "label") 2 0 "user.name" := by
  have hdepth : 2 ≤ labelledScope.depth := by decide
  obtain ⟨-, t, ht, hbehaves⟩ :=
    associations_are_lenses hdepth (.reference "label")
  obtain rfl := (ht _).1 leadsTo_labelledScope
  exact ⟨hdepth, hbehaves⟩

end Scope

end PageEngine
