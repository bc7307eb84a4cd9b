import PageEngine.Component.Instance

/-! The chain of components from the page down to the one whose template is visited. An
entered component is out of its caller's children until it is left. Content of a caller is
visited with the inner component set aside. Depth zero is the page. -/

namespace PageEngine

/-- An entered component and the key it is kept under. -/
structure Frame where
  key : String
  component : Instance
  deriving Inhabited

structure Scope where
  page : Instance
  /-- The entered components, innermost first. -/
  frames : List Frame
  /-- Components set aside, the latest first. -/
  suspended : List Frame
  deriving Inhabited

namespace Scope

def ofPage (page : Instance) : Scope := ⟨page, [], []⟩

/-- The depth of the current component. -/
def depth (s : Scope) : Nat := s.frames.length

def current (s : Scope) : Instance :=
  match s.frames with
  | [] => s.page
  | f :: _ => f.component

/-- Change the current component. -/
def modifyCurrent (s : Scope) (f : Instance → Instance) : Scope :=
  match s.frames with
  | [] => { s with page := f s.page }
  | frame :: outer => { s with frames := { frame with component := f frame.component } :: outer }

/-- The component at a depth. -/
def get? (s : Scope) (depth : Nat) : Option Instance :=
  if depth = 0 then some s.page
  else if depth ≤ s.depth then s.frames[s.depth - depth]?.map Frame.component
  else none

/-- Change the component at a depth; beyond the current depth there is none. -/
def modify (s : Scope) (depth : Nat) (f : Instance → Instance) : Scope :=
  if depth = 0 then { s with page := f s.page }
  else if depth ≤ s.depth then
    { s with frames := s.frames.modify (s.depth - depth) fun frame =>
      { frame with component := f frame.component } }
  else s

def enter (s : Scope) (key : String) (component : Instance) : Scope :=
  { s with frames := ⟨key, component⟩ :: s.frames }

/-- Hand the current component back to its caller. -/
def leave? (s : Scope) : Option Scope :=
  match s.frames with
  | [] => none
  | f :: outer =>
    some ({ s with frames := outer }.modifyCurrent fun c => c.addChild f.key f.component)

/-- Set the current component aside. -/
def suspend? (s : Scope) : Option Scope :=
  match s.frames with
  | [] => none
  | f :: outer => some { s with frames := outer, suspended := f :: s.suspended }

/-- Take up the component set aside last. -/
def resume? (s : Scope) : Option Scope :=
  match s.suspended with
  | [] => none
  | f :: rest => some { s with frames := f :: s.frames, suspended := rest }

/-- Take the child under a key out of the current component. -/
def takeChild (s : Scope) (key : String) : Option Instance × Scope :=
  (s.current.child? key, s.modifyCurrent fun c => c.removeChild key)

/-! ### Where associations lead -/

/-- What an association leads to. -/
inductive Target where
  | constant (value : Value)
  /-- A key path of the component at a depth. -/
  | entry (depth : Nat) (path : String)
  /-- A binding that was not given. -/
  | nothing
  /-- A depth without a component. -/
  | outside
  deriving Repr

/-- Follow references from the component at a depth to the bindings of its callers. A page
has no caller. -/
def target (s : Scope) : Association → Nat → Target
  | .constant v, _ => .constant v
  | .keyPath path, depth => if depth ≤ s.depth then .entry depth path else .outside
  | .reference _, 0 => .nothing
  | .reference name, outer + 1 =>
    match s.get? (outer + 1) with
    | none => .outside
    | some c =>
      match c.binding? name with
      | none => .nothing
      | some a => s.target a outer

/-- Read at the component of a depth. -/
def readAt (s : Scope) (depth : Nat) (path : String) : Value :=
  match s.get? depth with
  | none => .null
  | some c => c.values.read path

/-- Read an association as the component at a depth sees it. -/
def read (s : Scope) (a : Association) (depth : Nat) : Value :=
  match s.target a depth with
  | .constant v => v
  | .entry depth path => s.readAt depth path
  | .nothing => .null
  | .outside => .null

/-- Write through an association. Constants and bindings not given take no notice. -/
def write (s : Scope) (a : Association) (depth : Nat) (v : Value) : Except StateError Scope :=
  match s.target a depth with
  | .constant _ => .ok s
  | .entry depth path => .ok (s.modify depth fun c => c.write path v)
  | .nothing => .ok s
  | .outside => .error .scopeUnderflow

/-- Perform an action of the component at a depth. -/
def performAt (s : Scope) (depth : Nat) (name : String) : Except EngineError Outcome × Scope :=
  match s.get? depth with
  | none => (.error (.state .scopeUnderflow), s)
  | some c =>
    let (outcome, changed) := c.perform name
    (outcome.mapError EngineError.lookup, s.modify depth fun _ => changed)

/-- Perform what an association leads to: a constant text names a page, a key path is the
name of an action. -/
def invoke (s : Scope) (a : Association) (depth : Nat) : Except EngineError Outcome × Scope :=
  match s.target a depth with
  | .constant (.text name) => (.ok (.pageNamed name), s)
  | .constant _ => (.ok .stay, s)
  | .entry depth name => s.performAt depth name
  | .nothing => (.ok .stay, s)
  | .outside => (.error (.state .scopeUnderflow), s)

/-! ### Laws -/

@[simp] theorem leave?_ofPage (page : Instance) : (ofPage page).leave? = none := rfl

@[simp] theorem current_enter (s : Scope) (key : String) (c : Instance) :
    (s.enter key c).current = c := rfl

@[simp] theorem depth_enter (s : Scope) (key : String) (c : Instance) :
    (s.enter key c).depth = s.depth + 1 := rfl

@[simp] theorem depth_modify (s : Scope) (depth : Nat) (f : Instance → Instance) :
    (s.modify depth f).depth = s.depth := by
  simp only [modify]
  split
  · rfl
  · split
    · simp [Scope.depth]
    · rfl

/-- What was set aside is taken up unchanged. -/
theorem resume?_of_suspend? {s t : Scope} (h : s.suspend? = some t) : t.resume? = some s := by
  obtain ⟨page, frames, suspended⟩ := s
  cases frames with
  | nil => simp [suspend?] at h
  | cons f outer =>
    obtain rfl := Option.some.inj h
    rfl

theorem get?_isSome_iff (s : Scope) (depth : Nat) : (s.get? depth).isSome ↔ depth ≤ s.depth := by
  simp only [get?]
  split
  · simp_all
  · split
    · rename_i h0 h
      have : s.depth - depth < s.frames.length := by
        rw [← Scope.depth]; omega
      simp [h, this]
    · simp_all

theorem get?_modify_self {s : Scope} {depth : Nat} (h : depth ≤ s.depth) (f : Instance → Instance) :
    (s.modify depth f).get? depth = (s.get? depth).map f := by
  unfold Scope.depth at h
  by_cases h0 : depth = 0
  · simp [modify, get?, h0]
  · have hlt : s.frames.length - depth < s.frames.length := by omega
    simp [modify, get?, h0, h, Scope.depth, hlt]

theorem get?_modify_of_ne (s : Scope) {depth depth' : Nat} (h : depth' ≠ depth)
    (f : Instance → Instance) : (s.modify depth f).get? depth' = s.get? depth' := by
  unfold get? modify Scope.depth
  by_cases h0 : depth = 0
  · subst h0
    simp [h]
  · by_cases hd : depth ≤ s.frames.length
    · by_cases h0' : depth' = 0
      · simp [h0, h0', hd]
      · by_cases hd' : depth' ≤ s.frames.length
        · have hne : s.frames.length - depth ≠ s.frames.length - depth' := by omega
          simp [h0, h0', hd, hd', hne]
        · simp [h0, h0', hd, hd']
    · simp [h0, hd]

end Scope

end PageEngine
