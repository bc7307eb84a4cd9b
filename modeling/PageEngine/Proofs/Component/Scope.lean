import PageEngine.Component.Synchronization

/-! What writing does to the chain of entered components. Inside a chain every write succeeds,
and it changes the values of one component only: keys, templates, bindings, contents and
placed components stay. The same holds when bindings are pulled and pushed. -/

namespace PageEngine

namespace Instance

/-- The component without its values. -/
def blank (c : Instance) : Instance := { c with values := [] }

/-- The same component with other values. -/
def Alike (c d : Instance) : Prop := d.blank = c.blank

namespace Alike

variable {c d : Instance}

@[refl] theorem refl (c : Instance) : c.Alike c := rfl

theorem name (h : c.Alike d) : d.name = c.name := (congrArg Instance.name h :)

theorem template (h : c.Alike d) : d.template = c.template := (congrArg Instance.template h :)

theorem children (h : c.Alike d) : d.children = c.children := (congrArg Instance.children h :)

end Alike

theorem alike_write (c : Instance) (path : String) (v : Value) : c.Alike (c.write path v) := rfl

theorem alike_put (c : Instance) (key : String) (v : Value) : c.Alike (c.put key v) := rfl

theorem alike_perform (c : Instance) (name : String) : c.Alike (c.perform name).2 := by
  unfold perform
  split
  · exact .refl c
  · rfl

end Instance

/-- What is fixed about an entered component: its key, what placed it, and its template. -/
structure Placement where
  key : String
  reference : Reference
  template : Template

namespace Frame

def placement (f : Frame) : Placement := ⟨f.key, f.component.reference, f.component.template⟩

def blank (f : Frame) : Frame := { f with component := f.component.blank }

@[simp] theorem placement_blank (f : Frame) : f.blank.placement = f.placement := rfl

@[simp] theorem key_blank (f : Frame) : f.blank.key = f.key := rfl

end Frame

namespace Scope

/-- The fixed data of the entered components, innermost first. -/
def placements (s : Scope) : List Placement := s.frames.map Frame.placement

/-- The keys of the entered components, innermost first. -/
def keys (s : Scope) : List String := s.frames.map Frame.key

/-- The chain without the values of the page and the entered components. -/
def blank (s : Scope) : Scope :=
  ⟨s.page.blank, s.frames.map Frame.blank, s.suspended⟩

/-- The same chain of components with other values. -/
def Alike (s t : Scope) : Prop := t.blank = s.blank

namespace Alike

variable {s t u : Scope}

@[refl] theorem refl (s : Scope) : s.Alike s := rfl

theorem trans (h : s.Alike t) (h' : t.Alike u) : s.Alike u := Eq.trans h' h

theorem page (h : s.Alike t) : s.page.Alike t.page := (congrArg Scope.page h :)

theorem suspended (h : s.Alike t) : t.suspended = s.suspended := (congrArg Scope.suspended h :)

theorem frames (h : s.Alike t) : t.frames.map Frame.blank = s.frames.map Frame.blank :=
  congrArg Scope.frames h

theorem depth (h : s.Alike t) : t.depth = s.depth := by
  simpa [Scope.depth] using congrArg List.length h.frames

theorem placements (h : s.Alike t) : t.placements = s.placements := by
  simpa [Scope.placements, Function.comp_def] using congrArg (List.map Frame.placement) h.frames

theorem keys (h : s.Alike t) : t.keys = s.keys := by
  simpa [Scope.keys, Function.comp_def] using congrArg (List.map Frame.key) h.frames

end Alike

theorem keys_eq (s : Scope) : s.keys = s.placements.map Placement.key := by
  simp [keys, placements, Frame.placement]

theorem length_keys (s : Scope) : s.keys.length = s.depth := by
  simp [keys, Scope.depth]

theorem length_placements (s : Scope) : s.placements.length = s.depth := by
  simp [placements, Scope.depth]

@[simp] theorem placements_enter (s : Scope) (key : String) (c : Instance) :
    (s.enter key c).placements = ⟨key, c.reference, c.template⟩ :: s.placements := rfl

@[simp] theorem keys_enter (s : Scope) (key : String) (c : Instance) :
    (s.enter key c).keys = key :: s.keys := rfl

@[simp] theorem suspended_enter (s : Scope) (key : String) (c : Instance) :
    (s.enter key c).suspended = s.suspended := rfl

/-- Changing one component without its fixed data changes no fixed data of the chain. -/
theorem alike_modify {s : Scope} {depth : Nat} {f : Instance → Instance}
    (hf : ∀ c, s.get? depth = some c → c.Alike (f c)) : s.Alike (s.modify depth f) := by
  unfold modify
  by_cases h0 : depth = 0
  · rw [if_pos h0]
    have hpage : s.page.Alike (f s.page) := hf _ (by rw [get?, if_pos h0])
    simp only [Alike, blank]
    rw [show (f s.page).blank = s.page.blank from hpage]
  · rw [if_neg h0]
    split
    · rename_i hle
      simp only [Alike, blank, Scope.mk.injEq, true_and, and_true]
      refine List.ext_getElem? fun i => ?_
      rw [List.getElem?_map, List.getElem?_map, List.getElem?_modify]
      cases hi : s.frames[i]? with
      | none => simp
      | some g =>
        by_cases hij : s.depth - depth = i
        · have hg : s.get? depth = some g.component := by
            rw [get?, if_neg h0, if_pos hle, hij, hi, Option.map_some]
          have hblank : (f g.component).blank = g.component.blank := hf _ hg
          simp [hij, Frame.blank, hblank]
        · simp [hij]
    · exact .refl s

theorem alike_modifyCurrent {s : Scope} {f : Instance → Instance}
    (hf : s.current.Alike (f s.current)) : s.Alike (s.modifyCurrent f) := by
  unfold modifyCurrent
  unfold current at hf
  split at hf
  · rename_i h
    simp only [Alike, blank, h]
    rw [show (f s.page).blank = s.page.blank from hf]
  · rename_i g rest h
    simp only [Alike, blank, h, List.map_cons, Frame.blank]
    rw [show (f g.component).blank = g.component.blank from hf]

/-! ### Entering and leaving -/

theorem placements_modifyCurrent (s : Scope) {f : Instance → Instance}
    (hr : ∀ c, (f c).reference = c.reference) (ht : ∀ c, (f c).template = c.template) :
    (s.modifyCurrent f).placements = s.placements := by
  unfold modifyCurrent placements
  cases h : s.frames with
  | nil => simp
  | cons g outer => simp [Frame.placement, hr, ht]

theorem suspended_modifyCurrent (s : Scope) (f : Instance → Instance) :
    (s.modifyCurrent f).suspended = s.suspended := by
  unfold modifyCurrent
  split <;> rfl

theorem placements_leave {s scope : Scope} {p : Placement} {outer : List Placement}
    (h : s.leave? = some scope) (hp : s.placements = p :: outer) : scope.placements = outer := by
  unfold leave? at h
  unfold placements at hp
  cases hs : s.frames with
  | nil => simp [hs] at hp
  | cons f rest =>
    rw [hs] at h hp
    rw [List.map_cons, List.cons.injEq] at hp
    rw [← Option.some.inj h, placements_modifyCurrent]
    · exact hp.2
    · exact fun _ => rfl
    · exact fun _ => rfl

theorem suspended_leave {s scope : Scope} (h : s.leave? = some scope) :
    scope.suspended = s.suspended := by
  unfold leave? at h
  cases hs : s.frames with
  | nil => simp [hs] at h
  | cons f rest =>
    rw [hs] at h
    rw [← Option.some.inj h, suspended_modifyCurrent]

theorem leave?_isSome {s : Scope} {p : Placement} {outer : List Placement}
    (h : s.placements = p :: outer) : ∃ scope, s.leave? = some scope := by
  unfold placements at h
  unfold leave?
  cases hs : s.frames with
  | nil => simp [hs] at h
  | cons f rest => exact ⟨_, rfl⟩

theorem placements_takeChild (s : Scope) (key : String) :
    (s.takeChild key).2.placements = s.placements :=
  placements_modifyCurrent s (fun _ => rfl) fun _ => rfl

theorem suspended_takeChild (s : Scope) (key : String) :
    (s.takeChild key).2.suspended = s.suspended :=
  suspended_modifyCurrent s _

theorem frames_of_suspend {s scope : Scope} (h : s.suspend? = some scope) :
    ∃ f, s.frames = f :: scope.frames ∧ scope = { s with
      frames := scope.frames
      suspended := f :: s.suspended } := by
  unfold suspend? at h
  cases hs : s.frames with
  | nil => simp [hs] at h
  | cons f outer =>
    rw [hs] at h
    obtain rfl := Option.some.inj h
    exact ⟨f, rfl, rfl⟩

theorem resume_of_suspended {s : Scope} {f : Frame} {rest : List Frame}
    (h : s.suspended = f :: rest) :
    s.resume? = some { s with frames := f :: s.frames, suspended := rest } := by
  unfold resume?
  rw [h]

/-! ### Writing -/

/-- The scope after a write. -/
def written (s : Scope) (a : Association) (depth : Nat) (v : Value) : Scope :=
  match s.target a depth with
  | .entry d path => s.modify d fun c => c.write path v
  | _ => s

@[simp] theorem read_constant (s : Scope) (v : Value) (depth : Nat) :
    s.read (.constant v) depth = v := by
  rw [read, target]

theorem target_le {s : Scope} {a : Association} {depth d : Nat} {path : String}
    (h : s.target a depth = .entry d path) : d ≤ depth := by
  induction depth generalizing a with
  | zero =>
    cases a with
    | constant v => simp [target] at h
    | keyPath p =>
      simp only [target] at h
      split at h <;> simp_all
    | reference name => simp [target] at h
  | succ outer ih =>
    cases a with
    | constant v => simp [target] at h
    | keyPath p =>
      simp only [target] at h
      split at h
      · simp only [Target.entry.injEq] at h
        omega
      · simp at h
    | reference name =>
      simp only [target] at h
      split at h
      · simp at h
      · split at h
        · simp at h
        · exact Nat.le_succ_of_le (ih h)

/-- Inside the chain an association never leads out of it. -/
theorem target_ne_outside {s : Scope} {depth : Nat} (h : depth ≤ s.depth) (a : Association) :
    s.target a depth ≠ .outside := by
  induction depth generalizing a with
  | zero => cases a <;> simp [target]
  | succ outer ih =>
    cases a with
    | constant v => simp [target]
    | keyPath p => simp [target, h]
    | reference name =>
      have hsome := (get?_isSome_iff s (outer + 1)).2 h
      simp only [target]
      split
      · rename_i hnone
        simp [hnone] at hsome
      · split
        · simp
        · exact ih (by omega) _

theorem write_eq {s : Scope} {depth : Nat} (h : depth ≤ s.depth) (a : Association) (v : Value) :
    s.write a depth v = .ok (s.written a depth v) := by
  have hne := target_ne_outside h a
  unfold write written
  cases ht : s.target a depth with
  | outside => exact absurd ht hne
  | _ => rfl

theorem alike_written (s : Scope) (a : Association) (depth : Nat) (v : Value) :
    s.Alike (s.written a depth v) := by
  unfold written
  split
  · exact alike_modify fun c _ => c.alike_write _ v
  · exact .refl s

theorem alike_invoke (s : Scope) (a : Association) (depth : Nat) :
    s.Alike (s.invoke a depth).2 := by
  unfold invoke performAt
  split
  · exact .refl s
  · exact .refl s
  · rename_i d name _
    split
    · exact .refl s
    · rename_i c hc
      refine alike_modify fun c' hc' => ?_
      rw [Option.some.inj (hc'.symm.trans hc)]
      exact c.alike_perform name
  · exact .refl s
  · exact .refl s

/-! ### Pulling and pushing -/

theorem alike_foldl {α : Type} {f : Scope → α → Scope} (hf : ∀ (s : Scope) a, s.Alike (f s a))
    (s : Scope) (l : List α) : s.Alike (l.foldl f s) := by
  induction l generalizing s with
  | nil => exact .refl s
  | cons a l ih => exact (hf s a).trans (ih (f s a))

/-- The scope after one binding is pulled. -/
def pulledBinding (caller : Nat) (s : Scope) (binding : String × Association) : Scope :=
  s.modifyCurrent fun c => c.put binding.1 (s.read binding.2 caller)

/-- The scope after all bindings are pulled. -/
def pulled (s : Scope) : Scope :=
  s.current.bindings.foldl (pulledBinding (s.depth - 1)) s

/-- The scope after one binding is pushed. -/
def pushedBinding (caller : Nat) (s : Scope) (binding : String × Association) : Scope :=
  s.written binding.2 caller (s.current.values.get binding.1)

/-- The scope after all bindings that can be written are pushed. -/
def pushed (s : Scope) : Scope :=
  (s.current.bindings.filter fun (_, a) => a.isSettable).foldl (pushedBinding (s.depth - 1)) s

theorem pull_eq {s : Scope} (h : 0 < s.depth) : s.pull = .ok s.pulled := by
  obtain ⟨caller, hc⟩ := Nat.exists_eq_succ_of_ne_zero (Nat.pos_iff_ne_zero.1 h)
  unfold pull pulled
  rw [hc]
  rfl

theorem push_eq {s : Scope} (h : 0 < s.depth) : s.push = .ok s.pushed := by
  obtain ⟨caller, hc⟩ := Nat.exists_eq_succ_of_ne_zero (Nat.pos_iff_ne_zero.1 h)
  have hfold : ∀ (l : Associations) (t : Scope), caller ≤ t.depth →
      l.foldlM (fun s (name, a) => s.write a caller (s.current.values.get name)) t =
        .ok (l.foldl (pushedBinding caller) t) := by
    intro l
    induction l with
    | nil => intro t _; rfl
    | cons b l ih =>
      intro t ht
      rw [List.foldlM_cons, List.foldl_cons]
      dsimp only
      rw [write_eq ht]
      refine ih _ ?_
      rw [(alike_written t _ _ _).depth]
      exact ht
  unfold push pushed
  rw [hc]
  exact hfold _ s (by omega)

theorem alike_pulled (s : Scope) : s.Alike s.pulled :=
  alike_foldl (fun t _ => alike_modifyCurrent (t.current.alike_put _ _)) s _

theorem alike_pushed (s : Scope) : s.Alike s.pushed :=
  alike_foldl (fun t _ => alike_written t ..) s _

end Scope

end PageEngine
