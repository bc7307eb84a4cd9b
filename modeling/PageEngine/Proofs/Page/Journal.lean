import PageEngine.Proofs.Page.Settled

/-! Where a walk is, told by its journal. The spots that were entered and not yet left form a
trail at every moment, whatever the walk writes, and components found on the page are those
that were asked for. This is kept by every rule of visiting, also up to a failure. -/

namespace PageEngine

/-- The spots that are open after some events, innermost first. -/
def openings : List Step → List Spot
  | [] => []
  | .enter e standing scope :: earlier =>
    ⟨standing.path, scope.placements, .element e⟩ :: openings earlier
  | .place reference path scope _ :: earlier =>
    ⟨path, scope.placements, .component reference⟩ :: openings earlier
  | .leave :: earlier => (openings earlier).tail
  | _ :: earlier => openings earlier

/-- The scope belongs to a page with that template. -/
def Scope.IsOn (root : Template) (s : Scope) : Prop :=
  s.page.template = root ∧ s.page.name = root.name

theorem Scope.IsOn.alike {root : Template} {s t : Scope} (h : s.IsOn root) (hst : s.Alike t) :
    t.IsOn root :=
  ⟨hst.page.template.trans h.1, hst.page.name.trans h.2⟩

theorem Scope.IsOn.modifyCurrent {root : Template} {s : Scope} (h : s.IsOn root)
    {f : Instance → Instance} (ht : ∀ c, (f c).template = c.template)
    (hn : ∀ c, (f c).name = c.name) : (s.modifyCurrent f).IsOn root := by
  obtain ⟨page, frames, suspended⟩ := s
  cases frames with
  | nil => exact ⟨(ht page).trans h.1, (hn page).trans h.2⟩
  | cons g outer => exact h

theorem Scope.IsOn.leave {root : Template} {s scope : Scope} (h : s.IsOn root)
    (hleave : s.leave? = some scope) : scope.IsOn root := by
  obtain ⟨page, frames, suspended⟩ := s
  cases frames with
  | nil => cases hleave
  | cons g outer =>
    rw [← Option.some.inj hleave]
    exact modifyCurrent (s := ⟨page, outer, suspended⟩) h (fun _ => rfl) fun _ => rfl

theorem Scope.IsOn.current_template {root : Template} {s : Scope} (h : s.IsOn root) :
    s.current.template = templateIn root s.placements := by
  unfold Scope.current placements
  cases s.frames with
  | nil => exact h.1
  | cons f outer => rfl

/-- Values pass between a component and the spot where it was asked for. -/
def Transfers (M : Memory) (trail : List Spot) (scope : Scope) : Prop :=
  ∃ path chain reference outer t, trail = ⟨path, chain, .component reference⟩ :: outer ∧
    Dictionary.get? reference.name M.templates = some (.ok t) ∧
    scope.placements = ⟨path.text, reference, t⟩ :: chain

/-- What an event says fits the open spots at that moment. -/
def Step.Fits (M : Memory) (root : Template) (trail : List Spot) : Step → Prop
  | .enter _ _ scope => scope.IsOn root
  | .place reference _ scope found =>
    scope.IsOn root ∧ ∀ c, found = some c → c.reference = reference
  | .pull scope => scope.IsOn root ∧ Transfers M trail scope
  | .push scope => scope.IsOn root ∧ Transfers M trail scope
  | _ => True

/-- All events of a journal fit, and the open spots form a trail at every moment. -/
def JournalFits (M : Memory) (root : Template) : List Step → Prop
  | [] => True
  | step :: earlier => Trail M root (openings (step :: earlier)) ∧
    step.Fits M root (openings earlier) ∧ JournalFits M root earlier

variable {M N : Memory} {root : Template}

theorem Step.Fits.mono {step : Step} {trail : List Spot} (h : step.Fits M root trail)
    (hle : M.Le N) : step.Fits N root trail := by
  have htransfers : ∀ {scope}, Transfers M trail scope → Transfers N trail scope := by
    rintro scope ⟨path, chain, reference, outer, t, htrail, ht, hscope⟩
    exact ⟨path, chain, reference, outer, t, htrail, hle.templates _ _ ht, hscope⟩
  cases step with
  | pull scope => exact ⟨h.1, htransfers h.2⟩
  | push scope => exact ⟨h.1, htransfers h.2⟩
  | _ => exact h

namespace JournalFits

variable {journal : List Step}

theorem mono (h : JournalFits M root journal) (hle : M.Le N) : JournalFits N root journal := by
  induction journal with
  | nil => trivial
  | cons step earlier ih => exact ⟨h.1.mono hle, h.2.1.mono hle, ih h.2.2⟩

theorem trail (h : JournalFits M root journal) : Trail M root (openings journal) := by
  cases journal with
  | nil => exact .nil
  | cons step earlier => exact h.1

theorem of_suffix {earlier : List Step} (h : JournalFits M root journal)
    (hs : earlier <:+ journal) : JournalFits M root earlier := by
  obtain ⟨later, rfl⟩ := hs
  induction later with
  | nil => exact h
  | cons step later ih => exact ih h.2.2

end JournalFits

/-- The journal fits, and everything on the page is kept where it was asked for. -/
structure WalkState.InOrder (root : Template) (s : WalkState) : Prop where
  journal : JournalFits s.memory root s.journal
  settled : s.scope.Settled s.memory root
  page : s.scope.IsOn root

/-- The job stands inside the open spots. -/
def Job.At (root : Template) (s : WalkState) : Job → Prop
  | .element e => Trail s.memory root (⟨s.path, s.scope.placements, .element e⟩ :: openings s.journal)
  | .body e => ∃ outer, openings s.journal = ⟨s.path, s.scope.placements, .element e⟩ :: outer
  | .content c => ∀ e, c = some e →
    Trail s.memory root (⟨s.path, s.scope.placements, .element e⟩ :: openings s.journal)
  | .row turns => ∃ path i, s.path = ElementPath.enter path i ∧
    ∀ j t e, i ≤ j → turns[j.toNat - i.toNat]? = some t → t.element = some e → Trail s.memory root
      (⟨path.enter j, s.scope.placements, .element e⟩ :: openings s.journal)
  | .component reference => Trail s.memory root
    (⟨s.path, s.scope.placements, .component reference⟩ :: openings s.journal)

variable {task : Task} {w : Bool} {s s' : WalkState}

/-! ### Acts -/

theorem Act.openings_eq (h : Act task w s s') : openings s'.journal = openings s.journal := by
  cases h <;> rfl

theorem acts_openings (h : Acts task w s s') : openings s'.journal = openings s.journal := by
  induction h with
  | refl => rfl
  | tail _ hact ih => exact hact.openings_eq.trans ih

theorem Act.inOrder (h : Act task w s s') (hs : s.InOrder root) : s'.InOrder root := by
  cases h with
  | print text h => exact ⟨hs.journal, hs.settled, hs.page⟩
  | identify h hid => exact ⟨hs.journal, hs.settled, hs.page⟩
  | write a v h =>
    have halike := s.scope.alike_written a s.scope.depth v
    exact ⟨⟨hs.journal.trail, trivial, hs.journal⟩, hs.settled.alike halike, hs.page.alike halike⟩
  | follow a h => exact ⟨⟨hs.journal.trail, trivial, hs.journal⟩, hs.settled, hs.page⟩
  | perform a h =>
    have halike := s.scope.alike_invoke a s.scope.depth
    exact ⟨⟨hs.journal.trail, trivial, hs.journal⟩, hs.settled.alike halike, hs.page.alike halike⟩
  | load name h =>
    have hle := s.memory.le_load task.engine name
    exact ⟨hs.journal.mono hle, hs.settled.mono hle, hs.page⟩

theorem acts_inOrder (h : Acts task w s s') (hs : s.InOrder root) : s'.InOrder root := by
  induction h with
  | refl => exact hs
  | tail _ hact ih => exact hact.inOrder ih

/-! ### Open spots -/

theorem WalkState.openings_synchronized (s : WalkState) :
    openings s.synchronized.journal = openings s.journal := by
  unfold synchronized
  split <;> rfl

theorem Finds.openings_eq {reference : Reference} {r : Except EngineError Instance}
    (h : Finds task reference s r s') : openings s'.journal =
      ⟨s.path, s.scope.placements, .component reference⟩ :: openings s.journal := by
  cases h <;> rfl

/-- A visit with a result leaves what it entered. -/
theorem Visits.openings_eq {job : Job} {r : Except EngineError (Option Answer)}
    (h : Visits task job s r s') (a : Option Answer) (hr : r = .ok a) :
    openings s'.journal = openings s.journal := by
  induction h generalizing a with
  | tooDeep e s => rfl
  | entered h ih =>
    subst hr
    exact (congrArg List.tail (ih a rfl) :)
  | text h => exact acts_openings h
  | group h ih =>
    subst hr
    exact ih a rfl
  | own hrun h => exact acts_openings h
  | wrap ht hopens hbefore hbegins h hafter ih =>
    have hbegin := acts_openings hbefore
    have hend := acts_openings hafter
    exact hend.trans ((ih a hr).trans hbegin)
  | repetition h ih =>
    subst hr
    exact (acts_openings (WalkState.acts_wrote task _ _)).trans (ih a rfl)
  | slot hcontent hsuspend h hresume ih => exact ih a hr
  | reference h ih => exact ih a hr
  | switch hname hindex h ih => exact ih a hr
  | nothing s => rfl
  | something h ih => exact ih a hr
  | done s => rfl
  | stop h hstop ih =>
    exact (ih a (hstop.eq_ok hr)).trans (acts_openings (WalkState.acts_wrote task _ _))
  | next h hnext hrest ih ihrest =>
    exact (ihrest a hr).trans
      ((ih none rfl).trans (acts_openings (WalkState.acts_wrote task _ _)))
  | unplaced h => cases hr
  | @placed reference c s s₁ s₂ r scope hfinds h hleave ih =>
    subst hr
    have hinside := s₂.openings_synchronized.trans ((ih a rfl).trans hfinds.openings_eq)
    exact (congrArg List.tail hinside :)

/-! ### Entering and leaving -/

namespace WalkState.InOrder

theorem moved (hs : s.InOrder root) (path : ElementPath) :
    InOrder root { s with path } := ⟨hs.journal, hs.settled, hs.page⟩

theorem entered (hs : s.InOrder root) {e : Element} (hat : (Job.element e).At root s) :
    (s.entered task e).InOrder root :=
  ⟨⟨hat, hs.page, hs.journal⟩, hs.settled, hs.page⟩

theorem left (hs : s.InOrder root) : s.left.InOrder root := by
  refine ⟨⟨?_, trivial, hs.journal⟩, hs.settled, hs.page⟩
  have htrail := hs.journal.trail
  unfold openings
  cases h : openings s.journal with
  | nil => exact .nil
  | cons q outer =>
    rw [h] at htrail
    exact htrail.of_cons

theorem onResult {α : Type} {r : Except EngineError α} {f : WalkState → WalkState}
    (hs : s.InOrder root) (hf : (f s).InOrder root) : (s.onResult r f).InOrder root := by
  cases r with
  | ok a => exact hf
  | error e => exact hs

theorem suspended (hs : s.InOrder root) {scope : Scope} (h : s.scope.suspend? = some scope) :
    InOrder root { s with scope } := by
  refine ⟨hs.journal, hs.settled.suspend h, ?_⟩
  obtain ⟨f, -, hscope⟩ := Scope.frames_of_suspend h
  rw [hscope]
  exact hs.page

end WalkState.InOrder

/-- A component found under a path is the one that was asked for there. -/
theorem WalkState.InOrder.reference_eq (hs : s.InOrder root) {reference : Reference}
    (hat : (Job.component reference).At root s) {c : Instance}
    (hc : s.scope.current.child? s.path.text = some c) : c.reference = reference := by
  obtain ⟨⟨path, outer, htext, htrail, -⟩, -⟩ := hs.settled.current.kept_of_child? hc
  have hpath := ElementPath.text_injective htext
  have heq := htrail.eq_of_path_eq hat hpath.symm rfl rfl rfl
  cases heq
  rfl

theorem WalkState.InOrder.asked (hs : s.InOrder root) {reference : Reference}
    (hat : (Job.component reference).At root s) : (s.asked reference).InOrder root := by
  refine ⟨⟨hat, ⟨hs.page, fun c hc => hs.reference_eq hat hc⟩, hs.journal⟩,
    hs.settled.takeChild _, ?_⟩
  exact hs.page.modifyCurrent (fun _ => rfl) fun _ => rfl

/-- The component for a reference is new or was placed by the same reference, and its template
is the one of its name. -/
theorem Finds.inOrder {reference : Reference} {r : Except EngineError Instance}
    (h : Finds task reference s r s') (hs : s.InOrder root)
    (hat : (Job.component reference).At root s) :
    s'.InOrder root ∧ ∀ c, r = .ok c → c.reference = reference ∧
      Dictionary.get? reference.name s'.memory.templates = some (.ok c.template) ∧
      Settled s'.memory root (⟨s.path.text, reference, c.template⟩ :: s.scope.placements) c := by
  have hasked := hs.asked hat
  have hle := s.memory.le_load task.engine reference.name
  have hloaded : WalkState.InOrder root
      { s.asked reference with memory := s.memory.load task.engine reference.name } :=
    ⟨hasked.journal.mono hle, hasked.settled.mono hle, hasked.page⟩
  cases h with
  | @kept c h hname =>
    refine ⟨hasked, fun d hd => ?_⟩
    cases hd
    obtain ⟨⟨path, outer, htext, htrail, ht⟩, hinside⟩ := hs.settled.current.kept_of_child? h
    have hreference := hs.reference_eq hat h
    rw [hreference] at hinside
    rw [hname] at ht
    exact ⟨hreference, ht, hinside⟩
  | @fresh t hnone h =>
    refine ⟨hloaded, fun d hd => ?_⟩
    cases hd
    have hget := Memory.get?_load task.engine reference.name s.memory
    rw [h] at hget
    exact ⟨rfl, hget, .of_children_nil rfl⟩
  | failed hnone h => exact ⟨hloaded, fun d hd => by cases hd⟩

/-- The current component was asked for at a spot. -/
structure WalkState.IsInside (root : Template) (q : Spot) (outer : List Spot)
    (reference : Reference) (t : Template) (s : WalkState) : Prop where
  inOrder : s.InOrder root
  occupant : q.occupant = .component reference
  trail : Trail s.memory root (q :: outer)
  template : Dictionary.get? reference.name s.memory.templates = some (.ok t)
  placements : s.scope.placements = ⟨q.path.text, reference, t⟩ :: q.chain

namespace WalkState.IsInside

variable {q : Spot} {outer : List Spot} {reference : Reference} {t : Template}

theorem transfers (h : s.IsInside root q outer reference t)
    (hopen : openings s.journal = q :: outer) :
    Transfers s.memory (openings s.journal) s.scope := by
  obtain ⟨path, chain, occupant⟩ := q
  obtain ⟨hin, rfl, htrail, ht, hplacements⟩ := h
  exact ⟨path, chain, reference, outer, t, hopen, ht, hplacements⟩

theorem keeps (h : s.IsInside root q outer reference t) (hin : s'.InOrder root)
    (hkeeps : s.Keeps s') : s'.IsInside root q outer reference t :=
  ⟨hin, h.occupant, h.trail.mono hkeeps.memory, hkeeps.memory.templates _ _ h.template,
    hkeeps.placements.trans h.placements⟩

theorem synchronized (h : s.IsInside root q outer reference t)
    (hopen : openings s.journal = q :: outer) : s.synchronized.InOrder root := by
  have hin := h.inOrder
  have halike := s.scope.alike_pushed
  unfold WalkState.synchronized
  split
  · exact ⟨⟨hin.journal.trail, ⟨hin.page, h.transfers hopen⟩, hin.journal⟩,
      hin.settled.alike halike, hin.page.alike halike⟩
  · exact hin

theorem leave (h : s.IsInside root q outer reference t) {scope : Scope}
    (hleave : s.scope.leave? = some scope) : InOrder root { s with scope } := by
  obtain ⟨path, chain, occupant⟩ := q
  obtain ⟨hin, rfl, htrail, ht, hplacements⟩ := h
  refine ⟨hin.journal, ?_, hin.page.leave hleave⟩
  obtain ⟨f, frames, hframes, hf, houter⟩ := List.map_eq_cons_iff.1 hplacements
  have hreference : f.component.reference = reference := congrArg Placement.reference hf
  have htemplate : f.component.template = t := congrArg Placement.template hf
  have hkey : f.key = path.text := congrArg Placement.key hf
  have hname : f.component.name = reference.name := congrArg Reference.name hreference
  refine hin.settled.leave hframes ⟨path, outer, hkey, ?_, ?_⟩ hleave
  · rw [hreference, houter]
    exact htrail
  · rw [hname, htemplate]
    exact ht

end WalkState.IsInside

theorem WalkState.InOrder.opened (hs : s.InOrder root) {q : Spot} {outer : List Spot}
    {c : Instance} (hocc : q.occupant = .component c.reference)
    (hopen : openings s.journal = q :: outer) (hchain : s.scope.placements = q.chain)
    (ht : Dictionary.get? c.name s.memory.templates = some (.ok c.template))
    (hc : Settled s.memory root (⟨q.path.text, c.reference, c.template⟩ :: q.chain) c) :
    (s.opened q.path.text c).IsInside root q outer c.reference c.template := by
  have halike := (s.scope.enter q.path.text c).alike_pulled
  have hentered : (s.scope.enter q.path.text c).Settled s.memory root :=
    hs.settled.enter (hchain ▸ hc)
  have hplacements : (s.scope.enter q.path.text c).placements =
      ⟨q.path.text, c.reference, c.template⟩ :: q.chain := by
    rw [Scope.placements_enter, hchain]
  have hon : (s.scope.enter q.path.text c).IsOn root := hs.page
  have htrail := hs.journal.trail
  have htransfers : Transfers s.memory (openings s.journal) (s.scope.enter q.path.text c) := by
    obtain ⟨path, chain, occupant⟩ := q
    obtain rfl := hocc
    exact ⟨path, chain, c.reference, outer, c.template, hopen, ht, hplacements⟩
  refine ⟨⟨⟨htrail, ⟨hon, htransfers⟩, hs.journal⟩, hentered.alike halike, hon.alike halike⟩,
    hocc, hopen ▸ htrail, ht, halike.placements.trans hplacements⟩

/-! ### All visits -/

/-- The same spot is reached after more was remembered. -/
theorem trail_of_keeps {path : ElementPath} {occupant : Occupant}
    (h : Trail s.memory root (⟨path, s.scope.placements, occupant⟩ :: openings s.journal))
    (hkeeps : s.Keeps s') (hopen : openings s'.journal = openings s.journal) :
    Trail s'.memory root (⟨path, s'.scope.placements, occupant⟩ :: openings s'.journal) := by
  rw [hkeeps.placements, hopen]
  exact h.mono hkeeps.memory

theorem trail_inner {e : Element} {path : ElementPath} {occupant : Occupant}
    (hs : s.InOrder root) (hat : (Job.body e).At root s)
    (hi : Inner s.memory ⟨s.path, s.scope.placements, .element e⟩
      ⟨path, s.scope.placements, occupant⟩) :
    Trail s.memory root (⟨path, s.scope.placements, occupant⟩ :: openings s.journal) := by
  obtain ⟨outer, hopen⟩ := hat
  have htrail := hs.journal.trail
  rw [hopen] at htrail ⊢
  exact .inner htrail hi

theorem getElem?_turns {scope : Scope} {source : RepetitionSource}
    {item index : Option Association} {c : Option Element} {j : Nat} {t : Turn}
    (h : (scope.turns source item index c)[j]? = some t) : t.element = c := by
  unfold Scope.turns at h
  split at h <;>
  · rw [List.getElem?_mapIdx, Option.map_eq_some_iff] at h
    obtain ⟨v, -, rfl⟩ := h
    rfl

namespace Job.At

/-- On a branch the turns stand where the element says. -/
theorem row {e : Element} {turns : List Turn} (hs : s.InOrder root) (hat : (Job.body e).At root s)
    (h : ∀ j t inner, turns[j]? = some t → t.element = some inner → e.onBranch? j = some inner) :
    (Job.row turns).At root { s with path := s.path.enter 0 } := by
  refine ⟨s.path, 0, rfl, fun j t inner _ ht he => ?_⟩
  exact trail_inner (s := s) hs hat (.branch j (h j.toNat t inner ht he))

/-- The current turn of a row stands where the row is, also after values were written. -/
theorem turn {t : Turn} {rest : List Turn} (h : (Job.row (t :: rest)).At root s)
    (hacts : Acts task w s s') : (Job.content t.element).At root s' := by
  obtain ⟨path, i, hpath, hrow⟩ := h
  intro e he
  rw [acts_path hacts, hpath]
  have hfirst : (t :: rest)[i.toNat - i.toNat]? = some t := by rw [Nat.sub_self]; rfl
  have htrail := hrow i t e UInt32.le_rfl hfirst he
  exact trail_of_keeps htrail (acts_keeps hacts) (acts_openings hacts)

/-- The other turns stand where they did after the first one came back. -/
theorem next {t : Turn} {rest : List Turn} {path : ElementPath}
    (h : (Job.row (t :: rest)).At root s) (hnext : s.path.next? = some path)
    (hkeeps : s.Keeps s') (hopen : openings s'.journal = openings s.journal) :
    (Job.row rest).At root { s' with path } := by
  obtain ⟨branch, i, hrow, hturns⟩ := h
  rw [hrow] at hnext
  obtain ⟨hlast, rfl⟩ := ElementPath.next?_enter_eq_some_iff.1 hnext
  have hsucc := ElementPath.toNat_next hlast
  refine ⟨branch, i + 1, rfl, fun j u e hj hu he => ?_⟩
  have hle := UInt32.le_iff_toNat_le.1 hj
  have hu' : (t :: rest)[j.toNat - i.toNat]? = some u := by
    rw [show j.toNat - i.toNat = j.toNat - (i + 1).toNat + 1 by omega]
    exact hu
  have hj' : i ≤ j := UInt32.le_iff_toNat_le.2 (by omega)
  have htrail := trail_of_keeps (hturns j u e hj' hu' he) hkeeps hopen
  exact htrail

theorem content {site : Site} {t : Tag} {c : Option Element} (hs : s.InOrder root)
    (hat : (Job.body (.tag site t c)).At root s) (ht : t.wraps = true)
    (hacts : Acts task w s s') : (Job.content c).At root s' := by
  intro e he
  rw [acts_path hacts]
  refine trail_of_keeps (trail_inner hs hat (.wrapped ?_)) (acts_keeps hacts) (acts_openings hacts)
  rw [Element.wrapped?, if_pos ht, he]

/-- The content of the current component stands at its caller. -/
theorem slot {site : Site} {c : Option Element} {e : Element} {f : Frame} {scope : Scope}
    (hs : s.InOrder root) (hat : (Job.body (.tag site .slot c)).At root s)
    (hframes : s.scope.frames = f :: scope.frames) (hcontent : f.component.content = some e) :
    (Job.element e).At root { s with scope } := by
  obtain ⟨outer, hopen⟩ := hat
  have htrail := hs.journal.trail
  have hchain : s.scope.placements = f.placement :: scope.placements := by
    rw [Scope.placements, hframes, List.map_cons, Scope.placements]
  unfold Job.At
  rw [hopen, hchain] at htrail ⊢
  exact .inner htrail (.content hcontent)

theorem switch {site : Site} {a : Association} {bindings : Associations} {c : Option Element}
    (hs : s.InOrder root) (hat : (Job.body (.tag site (.switch a bindings) c)).At root s)
    {name : String} {index : UInt32}
    (hindex : index.toNat = (s.memory.switches.number site name).1) :
    (Job.component ⟨name, bindings, c⟩).At root
      { s with memory := s.memory.number site name, path := s.path.enter index } := by
  obtain ⟨outer, hopen⟩ := hat
  have htrail := hs.journal.trail.mono (s.memory.le_number site name)
  unfold Job.At
  rw [hopen] at htrail ⊢
  exact .inner htrail (.switch (hindex ▸ s.memory.getElem?_namesAt_number site name))

/-- The template of an entered component stands where the component was asked for. -/
theorem template {c : Instance} {path : ElementPath} {chain : List Placement} {outer : List Spot}
    (hs : s.InOrder root)
    (hopen : openings s.journal = ⟨path, chain, .component c.reference⟩ :: outer)
    (hpath : s.path = path)
    (ht : Dictionary.get? c.name s.memory.templates = some (.ok c.template))
    (hplacements : (s.opened path.text c).scope.placements =
      ⟨path.text, c.reference, c.template⟩ :: chain) :
    (Job.element c.template.root).At root (s.opened path.text c) := by
  have htrail := hs.journal.trail
  have hopened : openings (s.opened path.text c).journal = openings s.journal := rfl
  have hpath' : (s.opened path.text c).path = path := hpath
  unfold Job.At
  rw [hopened, hopen, hpath', hplacements]
  rw [hopen] at htrail
  exact .inner htrail (.template ht)

end Job.At

/-- The component that was set aside for its content is entered again, untouched. -/
theorem WalkState.InOrder.resumed {f : Frame} {scope : Scope} (hs : s.InOrder root)
    (hframes : s.scope.frames = f :: scope.frames) (hin : s'.InOrder root)
    (hkeeps : WalkState.Keeps { s with scope } s') : WalkState.InOrder root { s' with
      scope := { s'.scope with
        frames := f :: s'.scope.frames
        suspended := s.scope.suspended } } := by
  have hcurrent := hs.settled.current
  rw [Scope.current, hframes] at hcurrent
  have hchain : s.scope.placements = f.placement :: scope.placements := by
    rw [Scope.placements, hframes, List.map_cons, Scope.placements]
  have hplacements : (s'.scope.frames).map Frame.placement = scope.placements := hkeeps.placements
  refine ⟨hin.journal, ⟨hin.settled.page, ?_, hin.settled.frames⟩, hin.page⟩
  rw [List.map_cons, hplacements, ← hchain]
  exact hcurrent.mono hkeeps.memory

theorem Visits.inOrder {job : Job} {r : Except EngineError (Option Answer)}
    (h : Visits task job s r s') (hs : s.InOrder root) (hat : job.At root s) :
    s'.InOrder root := by
  induction h with
  | tooDeep e s => exact hs
  | entered h ih =>
    have hin := ih (hs.entered hat) ⟨_, rfl⟩
    exact hin.onResult hin.left
  | text h => exact acts_inOrder h hs
  | @group children s s' r h ih =>
    have hrow : (Job.row (children.map .child)).At root { s with path := s.path.enter 0 } := by
      refine .row hs hat fun j t inner ht he => ?_
      rw [List.getElem?_map, Option.map_eq_some_iff] at ht
      obtain ⟨child, hchild, rfl⟩ := ht
      cases he
      exact hchild
    have hin := ih (hs.moved _) hrow
    exact hin.onResult (hin.moved _)
  | own hrun h => exact acts_inOrder h hs
  | wrap ht hopens hbefore hbegins h hafter ih =>
    have hbegin := acts_inOrder hbefore hs
    have hat' := Job.At.content hs hat ht hbefore
    have hin := ih ⟨hbegin.journal, hbegin.settled, hbegin.page⟩ hat'
    exact acts_inOrder hafter ⟨hin.journal, hin.settled, hin.page⟩
  | @repetition site source item index c s s' r h ih =>
    have hrow : (Job.row (s.scope.turns source item index c)).At root
        { s with path := s.path.enter 0 } := by
      refine .row hs hat fun j t inner ht he => ?_
      rw [getElem?_turns ht] at he
      exact he
    have hin := ih (hs.moved _) hrow
    have hclimbed : (s'.onResult r .climbed).InOrder root := hin.onResult (hin.moved _)
    exact acts_inOrder (WalkState.acts_wrote task _ _) hclimbed
  | slot hcontent hsuspend h hresume ih =>
    obtain ⟨f, hframes, hscope⟩ := Scope.frames_of_suspend hsuspend
    rw [Scope.current, hframes] at hcontent
    have hin := ih (hs.suspended hsuspend) (.slot hs hat hframes hcontent)
    rw [Scope.resume_of_suspended (h.keeps.suspended.trans (congrArg Scope.suspended hscope))]
      at hresume
    obtain rfl := Option.some.inj hresume
    exact hs.resumed hframes hin h.keeps
  | reference h ih => exact ih hs (trail_inner hs hat .reference)
  | @switch site a name bindings c index s s' r hname hindex h ih =>
    have hle := s.memory.le_number site name
    have hnumbered : WalkState.InOrder root
        { s with memory := s.memory.number site name, path := s.path.enter index } :=
      ⟨hs.journal.mono hle, hs.settled.mono hle, hs.page⟩
    exact (ih hnumbered (.switch hs hat hindex)).moved _
  | nothing s => exact hs
  | something h ih => exact ih hs (hat _ rfl)
  | done s => exact hs
  | @stop t rest s s' r r' h hstop ih =>
    have hwrote := WalkState.acts_wrote task s t.writes
    exact ih (acts_inOrder hwrote hs) (hat.turn hwrote)
  | @next t rest s s₁ s₂ r path h hnext hrest ih ihrest =>
    have hwrote := WalkState.acts_wrote task s t.writes
    have hin := ih (acts_inOrder hwrote hs) (hat.turn hwrote)
    have hback : s₁.path = s.path := (h.returns none rfl).trans (s.path_wrote _)
    have hopen := (h.openings_eq none rfl).trans (acts_openings hwrote)
    have hkeeps := (acts_keeps hwrote).trans h.keeps
    exact ihrest (hin.moved _) (hat.next (hback ▸ hnext) hkeeps hopen)
  | unplaced h => exact (h.inOrder hs hat).1
  | @placed reference c s s₁ s₂ r scope hfinds h hleave ih =>
    have hopen₁ := hfinds.openings_eq
    obtain ⟨hin₁, hfound⟩ := hfinds.inOrder hs hat
    obtain ⟨rfl, ht, hsettled⟩ := hfound c rfl
    have hinside := hin₁.opened (q := ⟨s.path, s.scope.placements, .component c.reference⟩)
      rfl hopen₁ hfinds.keeps.placements ht hsettled
    have hin₂ := ih hinside.inOrder (.template hin₁ hopen₁ hfinds.path ht hinside.placements)
    have hinside₂ := hinside.keeps hin₂ h.keeps
    cases r with
    | error e => exact hinside₂.leave hleave
    | ok a =>
      have hin₃ := hinside₂.synchronized ((h.openings_eq a rfl).trans hopen₁)
      have hinside₃ := hinside₂.keeps hin₃ s₂.keeps_synchronized
      exact (hinside₃.leave hleave).left

end PageEngine
