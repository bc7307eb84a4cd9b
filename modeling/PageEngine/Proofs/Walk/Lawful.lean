import PageEngine.Proofs.Page.History

/-! Failures that a request can meet. An internal error says that the engine has lost count of
its own paths, scopes or keys. No template fails to compile with such an error. -/

namespace PageEngine

variable {α β : Type}

/-- Whether an error says that an invariant of the engine is broken. -/
def EngineError.isInternal : EngineError → Bool
  | .state (.duplicateKey _) => true
  | .state (.missingKey _) => true
  | .state .pathUnderflow => true
  | .state .scopeUnderflow => true
  | _ => false

/-- Whether an error can come up before any page is walked. -/
def EngineError.isStatic : EngineError → Bool
  | .state _ => false
  | .tooDeep => false
  | _ => true

theorem EngineError.isInternal_of_isStatic {e : EngineError} (h : e.isStatic = true) :
    e.isInternal = false := by
  cases e with
  | state cause => cases h
  | _ => rfl

/-- A result, or an error with a property. -/
def FailsOnly (p : EngineError → Prop) (r : Except EngineError α) : Prop :=
  ∀ e, r = .error e → p e

section FailsOnly

variable {p : EngineError → Prop}

theorem failsOnly_ok (a : α) : FailsOnly p (.ok a) := fun _ h => nomatch h

theorem failsOnly_error {e : EngineError} (h : p e) :
    FailsOnly p (.error e : Except EngineError α) := by
  rintro e' ⟨⟩
  exact h

theorem failsOnly_bind {x : Except EngineError α} {f : α → Except EngineError β}
    (hx : FailsOnly p x) (hf : ∀ a, FailsOnly p (f a)) : FailsOnly p (x >>= f) := by
  cases x with
  | ok a => exact hf a
  | error e => exact failsOnly_error (hx e rfl)

theorem failsOnly_mapError {ε : Type} {f : ε → EngineError} (hf : ∀ e, p (f e))
    (x : Except ε α) : FailsOnly p (x.mapError f) := by
  cases x with
  | ok a => exact failsOnly_ok a
  | error e => exact failsOnly_error (hf e)

theorem failsOnly_map {x : Except EngineError α} (hx : FailsOnly p x) (f : α → β) :
    FailsOnly p (x.map f) := by
  cases x with
  | ok a => exact failsOnly_ok _
  | error e => exact failsOnly_error (hx e rfl)

end FailsOnly

/-- A result, or an error that is not internal. -/
def Lawful (r : Except EngineError α) : Prop :=
  ∀ e, r = .error e → e.isInternal = false

theorem lawful_ok (a : α) : Lawful (.ok a) := failsOnly_ok a

theorem lawful_error {e : EngineError} (h : e.isInternal = false) :
    Lawful (.error e : Except EngineError α) := failsOnly_error (p := fun e => e.isInternal = false) h

theorem lawful_mapError {ε : Type} {f : ε → EngineError} (hf : ∀ e, (f e).isInternal = false)
    (x : Except ε α) : Lawful (x.mapError f) := failsOnly_mapError hf x

theorem lawful_map {x : Except EngineError α} (hx : Lawful x) (f : α → β) : Lawful (x.map f) :=
  failsOnly_map hx f

/-! ### Templates -/

/-- A result, or an error of a template. -/
abbrev FailsStatically (r : Except EngineError α) : Prop := FailsOnly (fun e => e.isStatic = true) r

theorem failsStatically_binding (x : Except BindingError α) :
    FailsStatically (x.mapError EngineError.binding) :=
  failsOnly_mapError (p := fun e => e.isStatic = true) (fun _ => rfl) x

theorem Loader.failsStatically_search (tree : FileTree) (path : String) (roots : List String) :
    FailsStatically (search tree path roots) := by
  induction roots with
  | nil => exact failsOnly_ok none
  | cons root rest ih =>
    unfold search
    split
    · exact failsOnly_ok _
    · exact ih
    · exact failsOnly_error rfl

theorem Loader.failsStatically_load (l : Loader) (path : String) : FailsStatically (l.load path) := by
  cases l with
  | memory texts => exact failsOnly_ok _
  | directories tree roots => exact failsStatically_search tree path roots

namespace Engine

variable (engine : Engine)

theorem failsStatically_resolve (site : Site) (head : ElementHead) (bindings : Associations)
    (content : Option Element) : FailsStatically (engine.resolve site head bindings content) := by
  unfold resolve
  split
  · exact failsStatically_binding _
  · split
    · exact failsOnly_ok _
    · exact failsOnly_error rfl

mutual

theorem failsStatically_buildNode (template : String) : ∀ (node : Node) (address : List Nat),
    FailsStatically (engine.buildNode template address node)
  | .text shown _, _ => failsOnly_ok _
  | .raw shown _, _ => failsOnly_ok _
  | .comment shown _, _ => failsOnly_ok _
  | .element head children _, address => by
    rw [buildNode]
    refine failsOnly_bind (failsStatically_binding _) fun bindings => ?_
    refine failsOnly_bind (failsStatically_buildNodes template children address 0) fun inner => ?_
    exact engine.failsStatically_resolve _ _ _ _

theorem failsStatically_buildNodes (template : String) :
    ∀ (nodes : List Node) (address : List Nat) (i : Nat),
    FailsStatically (engine.buildNodes template address i nodes)
  | [], _, _ => failsOnly_ok _
  | node :: rest, address, i => by
    rw [buildNodes]
    refine failsOnly_bind (failsStatically_buildNode template node _) fun element => ?_
    refine failsOnly_bind (failsStatically_buildNodes template rest address (i + 1)) fun _ => ?_
    exact failsOnly_ok _

end

theorem failsStatically_compile (name : String) : FailsStatically (engine.compile name) := by
  unfold compile
  refine failsOnly_bind (engine.loader.failsStatically_load _) fun html => ?_
  split
  · exact failsOnly_error rfl
  · refine failsOnly_bind (engine.loader.failsStatically_load _) fun declarations => ?_
    split
    · exact failsOnly_error rfl
    · exact failsOnly_map (engine.failsStatically_buildNodes _ _ _ _) _

theorem lawful_compile (name : String) : Lawful (engine.compile name) :=
  fun e he => EngineError.isInternal_of_isStatic (engine.failsStatically_compile name e he)

theorem compile_ne_tooDeep (name : String) : engine.compile name ≠ .error .tooDeep :=
  fun he => nomatch engine.failsStatically_compile name _ he

end Engine

end PageEngine
