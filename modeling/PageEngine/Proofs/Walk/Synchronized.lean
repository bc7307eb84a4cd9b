import PageEngine.Proofs.Component.Handover
import PageEngine.Proofs.Component.Retained
import PageEngine.Proofs.Value.Writing
import PageEngine.Proofs.Walk.Adequacy

/-! Values between a component and its caller. A component that is entered holds under the name of
every binding what the caller reads through it. A component that synchronizes gives its values
back after a visit without error: if the bindings that can be written are key paths apart from
each other, the caller then reads through each of them what the component held in the end,
whatever was kept there before. Otherwise nothing is written when a component is left. -/

namespace PageEngine

/-- Bindings under different names. Those that can be written are key paths, and what is written
at one of them does not lie at, above or inside another one. -/
structure Associations.Separate (bindings : Associations) : Prop where
  names : (bindings.map Prod.fst).Nodup
  keyPaths : ∀ name a, (name, a) ∈ bindings → a.isSettable = true → ∃ path, a = .keyPath path
  apart : bindings.Pairwise fun b b' => ∀ path path', b.2 = .keyPath path →
    b'.2 = .keyPath path' → KeyPath.Apart path path'

namespace Scope

variable {t : Scope}

/-! ### Giving values back -/

/-- The scope of the caller after it was given back the value of one binding. -/
def giveBack (values : Entries) (t : Scope) (binding : String × Association) : Scope :=
  t.written binding.2 t.depth (values.get binding.1)

theorem current_giveBack (values : Entries) (t : Scope) (name path : String) :
    (t.giveBack values (name, .keyPath path)).current.values =
      t.current.values.write path (values.get name) := by
  rw [giveBack, written_keyPath, current_modifyCurrent]
  rfl

/-- What a key path leads to stays when values are given back through key paths apart from it. -/
theorem keeps_foldl_giveBack {values : Entries} {kept : Value} {path : String}
    {bindings : Associations} (h : t.current.values.Keeps kept (KeyPath.ofString path).segments)
    (hpaths : ∀ b ∈ bindings, ∃ path', b.2 = .keyPath path' ∧ KeyPath.Apart path path') :
    (bindings.foldl (giveBack values) t).current.values.Keeps kept
      (KeyPath.ofString path).segments := by
  induction bindings generalizing t with
  | nil => exact h
  | cons b rest ih =>
    obtain ⟨name, a⟩ := b
    obtain ⟨path', rfl, hapart⟩ := hpaths _ List.mem_cons_self
    rw [List.foldl_cons]
    refine ih ?_ fun b hb => hpaths b (List.mem_cons_of_mem _ hb)
    rw [current_giveBack]
    exact Value.Keeps.place_of_not_overlap h fun hover => hapart hover.symm

/-- After values were given back through key paths apart from each other, every one of them leads
to the value of its binding. -/
theorem keeps_given_back {values : Entries} {name path : String} {bindings : Associations}
    (hpaths : ∀ b ∈ bindings, ∃ path, b.2 = .keyPath path)
    (hapart : bindings.Pairwise fun b b' => ∀ path path', b.2 = .keyPath path →
      b'.2 = .keyPath path' → KeyPath.Apart path path')
    (hmem : (name, .keyPath path) ∈ bindings) :
    (bindings.foldl (giveBack values) t).current.values.Keeps (values.get name)
      (KeyPath.ofString path).segments := by
  induction bindings generalizing t with
  | nil => cases hmem
  | cons b rest ih =>
    obtain ⟨hfirst, hrest⟩ := List.pairwise_cons.1 hapart
    rw [List.foldl_cons]
    rcases List.mem_cons.1 hmem with rfl | hmem
    · refine keeps_foldl_giveBack ?_ fun b hb => ?_
      · rw [current_giveBack]
        exact Value.keeps_place (.object _) ..
      · obtain ⟨path', hpath'⟩ := hpaths b (List.mem_cons_of_mem _ hb)
        exact ⟨path', hpath', hfirst b hb path path' rfl hpath'⟩
    · exact ih (fun b hb => hpaths b (List.mem_cons_of_mem _ hb)) hrest hmem

/-- The caller reads through every binding that can be written what it was given back. -/
theorem read_handedBack (s : Scope) (values : Entries) {name : String} {a : Association}
    {bindings : Associations} (hbindings : bindings.Separate) (hmem : (name, a) ∈ bindings)
    (hsettable : a.isSettable = true) :
    ∃ path, a = .keyPath path ∧
      (s.handedBack bindings values).current.values.read path = values.get name := by
  obtain ⟨path, rfl⟩ := hbindings.keyPaths name a hmem hsettable
  refine ⟨path, rfl, ?_⟩
  have hkeeps : (s.handedBack bindings values).current.values.Keeps (values.get name)
      (KeyPath.ofString path).segments := by
    refine keeps_given_back (fun b hb => ?_) (hbindings.apart.filter _)
      (List.mem_filter.2 ⟨hmem, hsettable⟩)
    obtain ⟨hb, hb'⟩ := List.mem_filter.1 hb
    exact hbindings.keyPaths b.1 b.2 hb hb'
  exact hkeeps.read (List.append_nil _).symm

/-! ### Entering and leaving -/

theorem alike_handedBack (s : Scope) (bindings : Associations) (values : Entries) :
    s.Alike (s.handedBack bindings values) :=
  alike_foldl (fun t _ => alike_written t ..) s _

theorem depth_modifyCurrent (s : Scope) (f : Instance → Instance) :
    (s.modifyCurrent f).depth = s.depth := by
  rw [← length_keys, keys_modifyCurrent, length_keys]

theorem leave?_enter (s : Scope) (key : String) (c : Instance) :
    (s.enter key c).leave? = some (s.modifyCurrent (·.addChild key c)) := rfl

theorem paired_takeChild (s : Scope) (key : String) :
    s.Paired Instance.SameReading (s.takeChild key).2 :=
  Paired.of_modifyCurrent_self (f := (·.removeChild key)) (fun _ => ⟨rfl, fun _ => rfl⟩)
    ⟨rfl, fun _ => rfl⟩

end Scope

variable {task : Task} {s s₁ : WalkState} {reference : Reference} {c : Instance}

theorem Finds.scope {r : Except EngineError Instance} (h : Finds task reference s r s₁) :
    s₁.scope = (s.scope.takeChild s.path.text).2 := by
  cases h <;> rfl

/-- The page and the components that are entered before a visit are the same ones after it. -/
theorem Visits.persists {job : Job} {s s' : WalkState} {r : Except EngineError (Option Answer)}
    (h : Visits task job s r s') : s.scope.Paired Instance.Persists s'.scope := by
  have halike : ∀ {s t : Scope}, s.Alike t → s.Paired Instance.Persists t :=
    Scope.Paired.of_alike .of_alike
  have hacts : ∀ {w : Bool} {s s' : WalkState}, Acts task w s s' →
      s.scope.Paired Instance.Persists s'.scope := fun h => halike (acts_alike h)
  have htake : ∀ (s : Scope) (key : String), s.Paired Instance.Persists (s.takeChild key).2 :=
    fun s key => .of_modifyCurrent_self (f := (·.removeChild key)) .refl ⟨rfl, rfl, rfl⟩
  induction h with
  | tooDeep e s => exact halike (.refl _)
  | @entered e s s' r h ih =>
    rw [WalkState.scope_onResult rfl]
    exact ih
  | text h => exact hacts h
  | @group children s s' r h ih =>
    rw [WalkState.scope_onResult rfl]
    exact ih
  | own hrun h => exact hacts h
  | wrap ht hopens hbefore hbegins h hafter ih =>
    have hend := hacts hafter
    exact ((hacts hbefore).trans .trans ih).trans .trans hend
  | @repetition site source item index c s s' r h ih =>
    have hwrites := hacts (WalkState.acts_wrote task (s'.onResult r .climbed) (finalWrites r item))
    rw [WalkState.scope_onResult rfl] at hwrites
    exact ih.trans .trans hwrites
  | slot hcontent hsuspend h hresume ih =>
    exact ih.resume (Scope.resume?_of_suspend? hsuspend) hresume
  | reference h ih => exact ih
  | switch hname hindex h ih => exact ih
  | nothing s => exact halike (.refl _)
  | something h ih => exact ih
  | done s => exact halike (.refl _)
  | @stop t rest s s' r r' h hstop ih =>
    exact (hacts (WalkState.acts_wrote task s t.writes)).trans .trans ih
  | @next t rest s s₁ s₂ r path h hnext hrest ih ihrest =>
    exact ((hacts (WalkState.acts_wrote task s t.writes)).trans .trans ih).trans .trans ihrest
  | @unplaced reference s s' e h =>
    rw [h.scope]
    exact htake ..
  | @placed reference c s s₁ s₂ r scope hfinds h hleave ih =>
    have hentered : (s₁.scope.enter s.path.text c).Paired Instance.Persists
        (s₁.opened s.path.text c).scope := halike (Scope.alike_pulled _)
    have hsynchronized : s₂.scope.Paired Instance.Persists
        (s₂.onResult r .synchronized).scope := by
      cases r with
      | ok a => exact halike s₂.alike_synchronized
      | error e => exact halike (.refl _)
    have hinside := (hentered.trans .trans ih).trans .trans hsynchronized
    rw [hfinds.scope] at hinside
    rw [WalkState.scope_onResult rfl]
    exact hinside.entered_left (fun _ _ hd _ => ⟨hd.kind, hd.reference, hd.template⟩) hleave

/-- A component that was left without an error has given its values back, if it synchronizes. -/
theorem WalkState.scope_synchronized {α : Type} {t : Scope} {key : String} {d : Instance}
    (r : Except EngineError α) (h : s.scope = t.enter key d) :
    (s.onResult r .synchronized).scope =
      (if r.isOk && d.kind.synchronizes then t.handedBack d.bindings d.values else t).enter key d := by
  cases r with
  | error e => exact h
  | ok a =>
    show s.synchronized.scope = _
    unfold synchronized
    rw [h, Scope.current_enter, Except.isOk, Except.toBool, Bool.true_and]
    split
    · exact Scope.pushed_enter ..
    · exact h

/-! ### A stay in a component -/

namespace Scope

/-- Keeping a component changes the value of no caller. -/
theorem values_addChild (t : Scope) (key : String) (d : Instance) (depth : Nat) :
    ((t.modifyCurrent (·.addChild key d)).get? depth).map Instance.values =
      (t.get? depth).map Instance.values := by
  have hpaired : t.Paired (fun c d => d.values = c.values)
      (t.modifyCurrent (·.addChild key d)) :=
    .of_modifyCurrent_self (f := (·.addChild key d)) (fun _ => rfl) rfl
  cases hc : t.get? depth with
  | none => rw [hpaired.get?_eq_none hc]
  | some c =>
    obtain ⟨c', hc', hvalues⟩ := hpaired.get? hc
    rw [hc']
    exact congrArg some hvalues

end Scope

theorem WalkState.scope_opened (s : WalkState) (key : String) (c : Instance) :
    (s.opened key c).scope =
      s.scope.enter key { c with values := s.scope.handedOver c.bindings c.values } :=
  s.scope.pulled_enter key c

/-- Taking a component out of its caller changes nothing that is read there. -/
theorem Walk.paired_placed {r : Except EngineError Instance}
    (h : (placed task reference).runFrom s = (r, s₁)) :
    s.scope.Paired Instance.SameReading s₁.scope := by
  rw [(finds_of_placed h).scope]
  exact s.scope.paired_takeChild s.path.text

/-- Before its template is visited, a component holds under every bound name what its caller
reads there. -/
theorem WalkState.get_opened {name : String} {a : Association}
    (hplaced : (Walk.placed task reference).runFrom s = (.ok c, s₁))
    (hnames : (c.bindings.map Prod.fst).Nodup) (hmem : (name, a) ∈ c.bindings) :
    (s₁.opened s.path.text c).scope.current.values.get name = s.scope.read a s.scope.depth ∧
      (s₁.opened s.path.text c).scope.read a s.scope.depth = s.scope.read a s.scope.depth := by
  have hpaired := Walk.paired_placed hplaced
  have hdepth := hpaired.depth_eq
  have hcaller : s₁.scope.read a s₁.scope.depth = s.scope.read a s.scope.depth := by
    rw [hdepth]
    exact hpaired.read_eq a _
  rw [scope_opened]
  constructor
  · rw [Scope.current_enter, ← hcaller]
    exact Scope.get_handedOver hnames hmem
  · rw [← hdepth, Scope.read_enter _ _ _ (Nat.le_refl _), hcaller, hdepth]

namespace Walk

/-- A component that a reference placed is entered, visited and left. When the visit begins, the
component holds under every name what its caller reads through the binding. If the visit ends
without an error and the component synchronizes, its caller then reads the values of the component
through every binding that can be written. Otherwise no caller has other values than at the end of
the visit. -/
theorem inComponent_synchronizes {limit : Nat} {r : Except EngineError (Option Answer)}
    {stop : WalkState} (hplaced : (placed task reference).runFrom s = (.ok c, s₁))
    (hvisit : (c.template.root.visitWithin task limit).runFrom (s₁.opened s.path.text c) =
      (r, stop)) (hbindings : c.bindings.Separate) :
    (∀ name a, (name, a) ∈ c.bindings →
      (s₁.opened s.path.text c).scope.current.values.get name = s.scope.read a s.scope.depth ∧
      (s₁.opened s.path.text c).scope.read a s.scope.depth = s.scope.read a s.scope.depth) ∧
    ∃ after, (inComponent task (Element.visitWithin task limit) reference).runFrom s = (r, after) ∧
      after.scope.depth = s.scope.depth ∧ stop.scope.depth = s.scope.depth + 1 ∧
      (r.isOk = true → c.kind.synchronizes = true →
        ∀ name a, (name, a) ∈ c.bindings → a.isSettable = true →
          after.scope.read a s.scope.depth = stop.scope.current.values.get name) ∧
      (r.isOk = false ∨ c.kind.synchronizes = false → ∀ depth ≤ s.scope.depth,
        (after.scope.get? depth).map Instance.values =
          (stop.scope.get? depth).map Instance.values) := by
  refine ⟨fun name a hmem => WalkState.get_opened hplaced hbindings.names hmem, ?_⟩
  rcases runFrom_inComponent (Element.makes_visitWithin limit) reference s with
    ⟨e, s₂, hfailed, -⟩ | ⟨c', s₁', r', stop', scope, hplaced', hvisit', hleave, hrun⟩
  · cases hplaced.symm.trans hfailed
  cases hplaced.symm.trans hplaced'
  cases hvisit.symm.trans hvisit'
  have hpersists := (Element.makes_visitWithin limit _ _ _ _ hvisit).persists
  rw [WalkState.scope_opened] at hpersists
  obtain ⟨t, d, hstop, ht, hd⟩ := hpersists.exists_enter
  have hdepth : t.depth = s.scope.depth :=
    ht.depth_eq.trans (paired_placed hplaced).depth_eq
  have hkind : d.kind = c.kind := hd.kind
  have hgiven : d.bindings = c.bindings := congrArg Reference.bindings hd.reference
  rw [WalkState.scope_synchronized r hstop, Scope.leave?_enter, Option.some.injEq, hkind, hgiven]
    at hleave
  refine ⟨_, hrun, ?_⟩
  rw [WalkState.scope_onResult rfl, hstop, ← hdepth, Scope.current_enter]
  dsimp only
  have hscope : scope.depth = t.depth := by
    rw [← hleave, Scope.depth_modifyCurrent]
    split
    · exact (Scope.alike_handedBack ..).depth
    · rfl
  refine ⟨hscope, rfl, fun hok hsync name a hmem hsettable => ?back, fun hnot depth hle => ?kept⟩
  case back =>
    rw [hok, hsync, Bool.and_true, if_pos rfl] at hleave
    obtain ⟨path, rfl, hread⟩ := Scope.read_handedBack t d.values hbindings hmem hsettable
    rw [← hscope, Scope.read_keyPath, ← hleave, Scope.current_modifyCurrent]
    exact hread
  case kept =>
    have hneither : (r.isOk && c.kind.synchronizes) = false := by
      rw [Bool.and_eq_false_iff]
      exact hnot
    rw [hneither, if_neg Bool.false_ne_true] at hleave
    rw [← hleave, Scope.values_addChild, Scope.get?_enter _ _ hle]

end Walk

namespace Card

/-- A component with a field for the name of a person. -/
def engine : Engine := ⟨.standard, [], .memory [("Card.html", "<wo:textfield value=\"$name\"/>")]⟩

def tag : Reference :=
  ⟨"Card", [("age", .keyPath "user.age"), ("name", .keyPath "user.name"),
    ("title", .constant (.text "Dr"))], none⟩

/-- A page that keeps a list where the component expects a user. -/
def page : WalkState :=
  .ofPage .empty ⟨0⟩ (Instance.ofClass "Page" (.plain [("user", .list [.text "Ada"])]) default)

def take : Task := ⟨engine, (Request.ofPath "GET" "").addFormValue "0" "Eve", none, .takeValues⟩

def card : Instance :=
  match ((Walk.placed take tag).runFrom page).1 with
  | .ok c => c
  | .error _ => default

def placed : WalkState := ((Walk.placed take tag).runFrom page).2

def opened : WalkState := placed.opened page.path.text card

def visited : Except EngineError (Option Answer) × WalkState :=
  (card.template.root.visitWithin take nestingLimit).runFrom opened

theorem runFrom_placed : (Walk.placed take tag).runFrom page = (.ok card, placed) := by
  have hok : ((Walk.placed take tag).runFrom page).1.isOk = true := by decide +kernel
  unfold card placed
  generalize (Walk.placed take tag).runFrom page = run at hok ⊢
  obtain ⟨p, s₁⟩ := run
  cases p with
  | ok c => rfl
  | error e => cases hok

theorem bindings_card : card.bindings = tag.bindings := by
  have hfinds := Walk.finds_of_placed runFrom_placed
  generalize card = c at hfinds ⊢
  generalize placed = s₁ at hfinds
  cases hfinds with
  | kept h => cases h
  | fresh => rfl

theorem separate : tag.bindings.Separate where
  names := by decide
  keyPaths name a hmem hsettable := by
    simp only [tag, List.mem_cons, Prod.mk.injEq, List.not_mem_nil, or_false] at hmem
    rcases hmem with ⟨-, rfl⟩ | ⟨-, rfl⟩ | ⟨-, rfl⟩
    · exact ⟨_, rfl⟩
    · exact ⟨_, rfl⟩
    · cases hsettable
  apart := by
    have hapart : KeyPath.Apart "user.age" "user.name" := by decide +kernel
    simp [tag, hapart]

end Card

/-- The field takes another name, which is given back to the page: an object with that name takes
the place of the list. -/
theorem Walk.inComponent_synchronizes_card :
    (Card.opened.scope.current.values.get "title").display? = some "Dr" ∧
      Card.opened.scope.current.values.get "name" = .null ∧
      ∃ after, (inComponent Card.take (Element.visitWithin Card.take nestingLimit)
        Card.tag).runFrom Card.page = (Card.visited.1, after) ∧
        (after.scope.read (.keyPath "user.name") 0).display? = some "Eve" := by
  have hbindings : Card.card.bindings.Separate := Card.bindings_card ▸ Card.separate
  have htitle : ("title", .constant (.text "Dr")) ∈ Card.card.bindings := by
    simp [Card.bindings_card, Card.tag]
  have hkeyPath : ("name", .keyPath "user.name") ∈ Card.card.bindings := by
    simp [Card.bindings_card, Card.tag]
  have hvisited : (Card.card.template.root.visitWithin Card.take nestingLimit).runFrom
      (Card.placed.opened Card.page.path.text Card.card) = (Card.visited.1, Card.visited.2) := rfl
  have hok : Card.visited.1.isOk = true := by decide +kernel
  have hsync : Card.card.kind.synchronizes = true := by decide +kernel
  have hname : (Card.visited.2.scope.current.values.get "name").display? = some "Eve" := by
    decide +kernel
  obtain ⟨hpulled, after, hrun, -, -, hpushed, -⟩ :=
    inComponent_synchronizes Card.runFrom_placed hvisited hbindings
  refine ⟨?_, ?_, after, hrun, ?_⟩
  · rw [Card.opened, (hpulled _ _ htitle).1]
    rfl
  · rw [Card.opened, (hpulled _ _ hkeyPath).1]
    rfl
  · rw [← hname, ← hpushed hok hsync _ _ hkeyPath rfl]
    rfl

end PageEngine
