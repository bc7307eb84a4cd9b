import PageEngine.Proofs.Component.Address
import PageEngine.Proofs.Value.KeyPath
import PageEngine.Walk.State

/-! What the events of a walk store. A write stores a value where its association leads, a
component stores what its bindings read when it is entered, and gives the values of its
bindings back when it is left. Everything that is stored is told by an address and by a key
path there. -/

namespace PageEngine

/-- A value stored in the component at an address. -/
structure Store where
  address : List String
  path : KeyPath
  value : Value

/-- The values at an address after something was stored. -/
def Store.applied (address : List String) (values : Entries) (store : Store) : Entries :=
  if store.address = address then values.place store.path store.value else values

namespace Scope

/-- What a write through an association stores. -/
def storesOf (s : Scope) (a : Association) (depth : Nat) (v : Value) : List Store :=
  match s.target a depth with
  | .entry d path => [⟨s.address d, .ofString path, v⟩]
  | _ => []

/-- What the bindings store in the current component. -/
def pulls (s : Scope) : List Store :=
  s.current.bindings.map fun (name, a) => ⟨s.keys, ⟨name, []⟩, s.read a (s.depth - 1)⟩

/-- What the bindings store at the callers of the current component. -/
def pushes (s : Scope) : List Store :=
  (s.current.bindings.filter fun (_, a) => a.isSettable).flatMap fun (name, a) =>
    s.storesOf a (s.depth - 1) (s.current.values.get name)

end Scope

namespace Step

/-- The scope that was kept with an event. -/
def scope? : Step → Option Scope
  | .enter _ _ scope => some scope
  | .place _ _ scope _ => some scope
  | .write _ _ scope => some scope
  | .pull scope => some scope
  | .push scope => some scope
  | _ => none

def stores : Step → List Store
  | .write a v scope => scope.storesOf a scope.depth v
  | .pull scope => scope.pulls
  | .push scope => scope.pushes
  | _ => []

end Step

/-- Everything that was stored during some events, the earliest first. -/
def storesIn (journal : List Step) : List Store :=
  journal.reverse.flatMap Step.stores

/-- The values at an address after some events. -/
def replay (address : List String) (journal : List Step) (values : Entries) : Entries :=
  (storesIn journal).foldl (Store.applied address) values

theorem storesIn_append (later earlier : List Step) :
    storesIn (later ++ earlier) = storesIn earlier ++ storesIn later := by
  simp [storesIn]

theorem replay_append (address : List String) (later earlier : List Step) (values : Entries) :
    replay address (later ++ earlier) values =
      replay address later (replay address earlier values) := by
  rw [replay, storesIn_append, List.foldl_append]
  rfl

theorem replay_singleton (address : List String) (step : Step) (values : Entries) :
    replay address [step] values = step.stores.foldl (Store.applied address) values := by
  simp [replay, storesIn]

/-- Events that store nothing at an address leave its values. -/
theorem replay_of_not_mem {address : List String} {journal : List Step} (values : Entries)
    (h : ∀ store ∈ storesIn journal, store.address ≠ address) :
    replay address journal values = values := by
  unfold replay
  generalize storesIn journal = stores at h
  induction stores with
  | nil => rfl
  | cons store rest ih =>
    rw [List.foldl_cons, Store.applied, if_neg (h store (List.mem_cons_self ..))]
    exact ih fun store hmem => h store (List.mem_cons_of_mem _ hmem)

namespace Scope

variable {s t : Scope} {address : List String} {values : Entries}

theorem address_of_mem_storesOf {a : Association} {depth : Nat} {v : Value} {store : Store}
    (h : store ∈ s.storesOf a depth v) : ∃ d ≤ depth, store.address = s.address d := by
  unfold storesOf at h
  split at h
  · rename_i d path htarget
    obtain rfl := List.mem_singleton.1 h
    exact ⟨d, target_le htarget, rfl⟩
  · cases h

/-! ### Writes -/

theorem get?_blank (s : Scope) (depth : Nat) :
    s.blank.get? depth = (s.get? depth).map Instance.blank := by
  unfold get?
  by_cases h0 : depth = 0
  · rw [if_pos h0, if_pos h0]
    rfl
  · rw [if_neg h0, if_neg h0]
    have hdepth : s.blank.depth = s.depth := List.length_map ..
    rw [hdepth]
    split
    · simp [blank, Function.comp_def, Frame.blank]
    · rfl

theorem Alike.binding?_get? (h : s.Alike t) (depth : Nat) (name : String) :
    (t.get? depth).map (·.binding? name) = (s.get? depth).map (·.binding? name) := by
  have hblank := congrArg (fun s => (s.get? depth).map (·.binding? name)) h
  simp only [get?_blank, Option.map_map] at hblank
  exact hblank

/-- Where an association leads does not depend on values. -/
theorem Alike.target (h : s.Alike t) (a : Association) (depth : Nat) :
    t.target a depth = s.target a depth := by
  induction depth generalizing a with
  | zero => cases a <;> simp only [Scope.target, h.depth]
  | succ outer ih =>
    cases a with
    | constant v => rfl
    | keyPath path => simp only [Scope.target, h.depth]
    | reference name =>
      have hbinding := h.binding?_get? (outer + 1) name
      simp only [Scope.target]
      cases hs : s.get? (outer + 1) with
      | none =>
        rw [hs, Option.map_none, Option.map_eq_none_iff] at hbinding
        rw [hbinding]
      | some c =>
        rw [hs, Option.map_some, Option.map_eq_some_iff] at hbinding
        obtain ⟨d, ht, hd⟩ := hbinding
        rw [ht]
        dsimp only
        rw [hd]
        cases c.binding? name with
        | none => rfl
        | some a => exact ih a

theorem Alike.storesOf (h : s.Alike t) (a : Association) (depth : Nat) (v : Value) :
    t.storesOf a depth v = s.storesOf a depth v := by
  unfold Scope.storesOf
  rw [h.target]
  split
  · rw [h.address]
  · rfl

theorem Holds.written (h : s.Holds address values) {depth : Nat} (hdepth : depth ≤ s.depth)
    (a : Association) (v : Value) : (s.written a depth v).Holds address
      ((s.storesOf a depth v).foldl (Store.applied address) values) := by
  unfold Scope.written Scope.storesOf
  cases htarget : s.target a depth with
  | entry d path =>
    exact h.modify (Nat.le_trans (target_le htarget) hdepth) fun values => values.write path v
  | _ => exact h

/-! ### Giving values back -/

theorem current_written (s : Scope) (a : Association) {depth : Nat} (hdepth : depth < s.depth)
    (v : Value) : (s.written a depth v).current = s.current := by
  have hget : (s.written a depth v).get? s.depth = s.get? s.depth := by
    unfold written
    split
    · rename_i d path htarget
      refine get?_modify_of_ne s (Nat.ne_of_gt ?_) _
      exact Nat.lt_of_le_of_lt (target_le htarget) hdepth
    · rfl
  have hcurrent := (s.written a depth v).get?_depth
  rw [(s.alike_written a depth v).depth, hget, get?_depth] at hcurrent
  exact (Option.some.inj hcurrent).symm

theorem Holds.pushed (h : s.Holds address values) (hdepth : 0 < s.depth) :
    s.pushed.Holds address (s.pushes.foldl (Store.applied address) values) := by
  have hfold : ∀ (bindings : Associations) (t : Scope) (values : Entries), s.Alike t →
      t.current = s.current → t.Holds address values →
      (bindings.foldl (pushedBinding (s.depth - 1)) t).Holds address
        ((bindings.flatMap fun (name, a) =>
          s.storesOf a (s.depth - 1) (s.current.values.get name)).foldl
            (Store.applied address) values) := by
    intro bindings
    induction bindings with
    | nil => exact fun t values _ _ ht => ht
    | cons binding rest ih =>
      intro t values halike hcurrent ht
      obtain ⟨name, a⟩ := binding
      have hbelow : s.depth - 1 < t.depth := by
        rw [halike.depth]
        omega
      have hwritten := ht.written (Nat.le_of_lt hbelow) a (t.current.values.get name)
      rw [halike.storesOf, hcurrent] at hwritten
      rw [List.foldl_cons, List.flatMap_cons, List.foldl_append, pushedBinding]
      dsimp only
      rw [hcurrent]
      refine ih _ _ (halike.trans (alike_written t ..)) ?_ hwritten
      exact (current_written t a hbelow _).trans hcurrent
  exact hfold _ s values (.refl s) rfl h

/-! ### Taking values over -/

/-- What an association reads at a depth depends on the components up to there only. -/
theorem read_congr {depth : Nat} (hdepth : t.depth = s.depth)
    (h : ∀ d ≤ depth, t.get? d = s.get? d) (a : Association) : t.read a depth = s.read a depth := by
  have htarget : t.target a depth = s.target a depth := by
    induction depth generalizing a with
    | zero => cases a <;> simp only [target, hdepth]
    | succ outer ih =>
      cases a with
      | constant v => rfl
      | keyPath path => simp only [target, hdepth]
      | reference name =>
        simp only [target, h (outer + 1) (Nat.le_refl _)]
        split
        · rfl
        · split
          · rfl
          · exact ih (fun d hd => h d (Nat.le_succ_of_le hd)) _
  unfold read
  rw [htarget]
  split
  · rfl
  · rename_i d path hentry
    rw [readAt, readAt, h d (target_le hentry)]
  · rfl
  · rfl

theorem get?_modifyCurrent_of_lt {depth : Nat} (h : depth < s.depth) (f : Instance → Instance) :
    (s.modifyCurrent f).get? depth = s.get? depth := by
  rw [modifyCurrent_eq]
  exact get?_modify_of_ne s (Nat.ne_of_lt h) f

theorem Holds.put (h : s.Holds address values) (name : String) (v : Value) :
    (s.modifyCurrent fun c => c.put name v).Holds address
      (Store.applied address values ⟨s.keys, ⟨name, []⟩, v⟩) := by
  have hput := h.modify (Nat.le_refl _) (Dictionary.insert name v)
  rw [address_depth, ← modifyCurrent_eq] at hput
  exact hput

theorem Holds.pulled (h : s.Holds address values) (hdepth : 0 < s.depth) :
    s.pulled.Holds address (s.pulls.foldl (Store.applied address) values) := by
  have hfold : ∀ (bindings : Associations) (t : Scope) (values : Entries), t.keys = s.keys →
      (∀ d < s.depth, t.get? d = s.get? d) → t.Holds address values →
      (bindings.foldl (pulledBinding (s.depth - 1)) t).Holds address
        ((bindings.map fun (name, a) => (⟨s.keys, ⟨name, []⟩, s.read a (s.depth - 1)⟩ : Store)).foldl
          (Store.applied address) values) := by
    intro bindings
    induction bindings with
    | nil => exact fun t values _ _ ht => ht
    | cons binding rest ih =>
      intro t values hkeys hget ht
      obtain ⟨name, a⟩ := binding
      have hsame : t.depth = s.depth := by rw [← length_keys, hkeys, length_keys]
      have hread : t.read a (s.depth - 1) = s.read a (s.depth - 1) :=
        read_congr hsame (fun d hd => hget d (by omega)) a
      have hput := ht.put name (t.read a (s.depth - 1))
      rw [hkeys, hread] at hput
      rw [List.foldl_cons, List.map_cons, List.foldl_cons, pulledBinding]
      dsimp only
      rw [hread]
      refine ih _ _ ((keys_modifyCurrent t _).trans hkeys) (fun d hd => ?_) hput
      rw [get?_modifyCurrent_of_lt (hsame ▸ hd)]
      exact hget d hd
  exact hfold _ s values rfl (fun _ _ => rfl) h

end Scope

/-- What an event stores, it stores in components entered at that moment. -/
theorem Step.address_of_mem_stores {step : Step} {store : Store} (h : store ∈ step.stores) :
    ∃ scope, step.scope? = some scope ∧ store.address <:+ scope.keys := by
  cases step with
  | write a v scope =>
    obtain ⟨d, -, haddress⟩ := Scope.address_of_mem_storesOf h
    exact ⟨scope, rfl, haddress ▸ scope.address_suffix d⟩
  | pull scope =>
    obtain ⟨binding, -, rfl⟩ := List.mem_map.1 h
    exact ⟨scope, rfl, List.suffix_refl _⟩
  | push scope =>
    obtain ⟨binding, -, hmem⟩ := List.mem_flatMap.1 h
    obtain ⟨d, -, haddress⟩ := Scope.address_of_mem_storesOf hmem
    exact ⟨scope, rfl, haddress ▸ scope.address_suffix d⟩
  | _ => cases h

end PageEngine
