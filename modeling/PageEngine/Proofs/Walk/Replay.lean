import PageEngine.Proofs.Page.Journal
import PageEngine.Proofs.Walk.Avoids

/-! Values told by the journal. When values are taken, the journal tells what every component
holds at the end, from any event on where the component was entered, whether it is left
later, set aside, or kept somewhere on the page. -/

namespace PageEngine

variable {task : Task} {w : Bool} {s s' s'' : WalkState} {job : Job}
variable {r : Except EngineError (Option Answer)} {later : List Step}

/-! ### The keys above a visit -/

/-- All entered components have keys of paths from which a path leads on. -/
def Scope.KeysUpTo (s : Scope) (path : ElementPath) : Prop :=
  ∀ key ∈ s.keys, ∃ p : ElementPath, key = p.text ∧ p.indices <:+ path.indices

/-- The same, and no component has the key of the path itself. -/
def Scope.KeysAbove (s : Scope) (path : ElementPath) : Prop :=
  ∀ key ∈ s.keys, ∃ p : ElementPath, key = p.text ∧ p.indices <:+ path.indices ∧ p ≠ path

/-- What is visited lies below all entered components. A template is a group, which may stand
on the path of its component. -/
def Job.Below (s : WalkState) : Job → Prop
  | .element (.group _) => s.scope.KeysUpTo s.path
  | .body (.group _) => s.scope.KeysUpTo s.path
  | .row _ => ∃ path i, s.path = ElementPath.enter path i ∧ s.scope.KeysUpTo path
  | _ => s.scope.KeysAbove s.path

namespace Scope.KeysAbove

variable {scope : Scope} {path : ElementPath}

theorem upTo (h : scope.KeysAbove path) : scope.KeysUpTo path := by
  intro key hkey
  obtain ⟨p, htext, hp, -⟩ := h key hkey
  exact ⟨p, htext, hp⟩

theorem element {s : WalkState} (h : s.scope.KeysAbove s.path) (e : Element) :
    (Job.element e).Below s := by
  cases e with
  | group children => exact h.upTo
  | _ => exact h

end Scope.KeysAbove

theorem Scope.KeysUpTo.enter {scope : Scope} {path : ElementPath} (h : scope.KeysUpTo path)
    (i : UInt32) : scope.KeysAbove (path.enter i) := by
  intro key hkey
  obtain ⟨p, htext, hp⟩ := h key hkey
  refine ⟨p, htext, hp.trans (ElementPath.suffix_enter ..), ?_⟩
  rintro rfl
  exact absurd hp.length_le (Nat.not_succ_le_self _)

/-! ### Replaying -/

/-- The events from one state to another tell the values at every address: those that had
values before, and those of components that were entered on the way. -/
structure WalkState.Replays (s : WalkState) (later : List Step) (s' : WalkState) : Prop where
  journal : s'.journal = later ++ s.journal
  holds : ∀ address values, s.scope.Holds address values →
    s'.scope.Holds address (replay address later values)
  entered : ∀ after step before scope depth c, later = after ++ step :: before →
    step.scope? = some scope → scope.get? depth = some c →
    s'.scope.Holds (scope.address depth)
      (replay (scope.address depth) (after ++ [step]) c.values)

namespace WalkState.Replays

theorem of_journal_eq (hjournal : s'.journal = s.journal)
    (h : ∀ address values, s.scope.Holds address values → s'.scope.Holds address values) :
    s.Replays [] s' :=
  ⟨hjournal, h, fun after step before scope depth c hlater => by simp at hlater⟩

theorem refl (s : WalkState) : s.Replays [] s := .of_journal_eq rfl fun _ _ h => h

theorem of_step {step : Step} (hjournal : s'.journal = step :: s.journal)
    (hscope : ∀ scope, step.scope? = some scope → scope = s.scope)
    (h : ∀ address values, s.scope.Holds address values →
      s'.scope.Holds address (step.stores.foldl (Store.applied address) values)) :
    s.Replays [step] s' := by
  refine ⟨hjournal, fun address values hholds => ?_, ?_⟩
  · rw [replay_singleton]
    exact h _ _ hholds
  · intro after step' before scope depth c hlater hstep hc
    obtain ⟨rfl, rfl, rfl⟩ : after = [] ∧ step' = step ∧ before = [] := by
      cases after with
      | nil => simpa [eq_comm] using hlater
      | cons _ _ => simp at hlater
    obtain rfl := hscope scope hstep
    rw [List.nil_append, replay_singleton]
    exact h _ _ (Scope.holds_address hc)

theorem trans {later' : List Step} (h : s.Replays later s') (h' : s'.Replays later' s'') :
    s.Replays (later' ++ later) s'' := by
  refine ⟨by rw [h'.journal, h.journal, List.append_assoc], fun address values hholds => ?_, ?_⟩
  · rw [replay_append]
    exact h'.holds _ _ (h.holds _ _ hholds)
  · intro after step before scope depth c hlater hscope hc
    rcases List.append_eq_append_iff.1 hlater with ⟨rest, rfl, hrest⟩ | ⟨rest, hrest, hstep⟩
    · rw [List.append_assoc, replay_append]
      exact h'.holds _ _ (h.entered rest step before scope depth c hrest hscope hc)
    · cases rest with
      | nil =>
        rw [List.append_nil] at hrest
        subst hrest
        rw [replay_append]
        exact h'.holds _ _ (h.entered [] step before scope depth c hstep.symm hscope hc)
      | cons first rest =>
        obtain ⟨rfl, -⟩ := List.cons.inj hstep
        exact h'.entered after step rest scope depth c hrest hscope hc

theorem onResult {α : Type} {r : Except EngineError α} {f : WalkState → WalkState}
    (h : s.Replays later (f s)) : ∃ later, s.Replays later (s.onResult r f) := by
  cases r with
  | ok a => exact ⟨later, h⟩
  | error e => exact ⟨[], .refl s⟩

theorem left (s : WalkState) : s.Replays [.leave] s.left :=
  .of_step rfl (fun scope hscope => by cases hscope) fun _ _ h => h

end WalkState.Replays

theorem Act.replays (h : Act task w s s') (hphase : task.phase = .takeValues) :
    ∃ later, s.Replays later s' := by
  cases h with
  | print text h => exact absurd (hphase.symm.trans h) (by decide)
  | identify h hid => exact absurd (hphase.symm.trans h) (by decide)
  | write a v h =>
    refine ⟨_, .of_step rfl (fun scope hscope => (Option.some.inj hscope).symm) ?_⟩
    exact fun address values hholds => hholds.written (Nat.le_refl _) a v
  | follow a h => exact absurd (hphase.symm.trans h) (by decide)
  | perform a h => exact absurd (hphase.symm.trans h) (by decide)
  | load name h => exact absurd (hphase.symm.trans h) (by decide)

theorem acts_replays (h : Acts task w s s') (hphase : task.phase = .takeValues) :
    ∃ later, s.Replays later s' := by
  induction h with
  | refl => exact ⟨[], .refl s⟩
  | tail hacts hact ih =>
    obtain ⟨later, hlater⟩ := ih
    obtain ⟨later', hlater'⟩ := hact.replays hphase
    exact ⟨_, hlater.trans hlater'⟩

theorem WalkState.replays_synchronized (h : 0 < s.scope.depth) :
    ∃ later, s.Replays later s.synchronized := by
  unfold synchronized
  split
  · refine ⟨_, .of_step rfl (fun scope hscope => (Option.some.inj hscope).symm) ?_⟩
    exact fun address values hholds => hholds.pushed h
  · exact ⟨[], .refl s⟩

/-! ### Components -/

variable {M : Memory} {root : Template} {reference : Reference}

/-- Where a component is made anew, none was kept. -/
theorem child?_eq_none (hfits : JournalFits M root s'.journal)
    (hs : .place reference s.path s.scope (s.scope.current.child? s.path.text) :: s.journal <:+
      s'.journal)
    (hnone : ∀ c, s.scope.current.child? s.path.text = some c → c.name ≠ reference.name) :
    s.scope.current.child? s.path.text = none := by
  obtain ⟨-, ⟨-, hfound⟩, -⟩ := hfits.of_suffix hs
  refine Option.eq_none_iff_forall_ne_some.2 fun c hc => hnone c hc ?_
  exact congrArg Reference.name (hfound c hc)

theorem Finds.replays {c : Instance} (h : Finds task reference s (.ok c) s')
    (hfits : JournalFits M root s'.journal) :
    ∃ later, s.Replays later { s' with scope := s'.scope.enter s.path.text c } := by
  cases h with
  | kept h hname =>
    refine ⟨_, .of_step rfl (fun scope hscope => (Option.some.inj hscope).symm) ?_⟩
    exact fun address values hholds => hholds.enter_kept h
  | fresh hnone h =>
    have hchild := child?_eq_none hfits (List.suffix_refl _) hnone
    refine ⟨_, .of_step rfl (fun scope hscope => (Option.some.inj hscope).symm) ?_⟩
    intro address values hholds
    have hentered := hholds.enter_fresh hchild
    rw [← Scope.takeChild_of_none hchild] at hentered
    exact hentered _

theorem Finds.replays_error {e : EngineError} (h : Finds task reference s (.error e) s')
    (hfits : JournalFits M root s'.journal) : ∃ later, s.Replays later s' := by
  cases h with
  | failed hnone h =>
    have hchild := child?_eq_none hfits (List.suffix_refl _) hnone
    refine ⟨_, .of_step rfl (fun scope hscope => (Option.some.inj hscope).symm) ?_⟩
    intro address values hholds
    rw [← Scope.takeChild_of_none hchild] at hholds
    exact hholds

/-- A component is set aside while the content of its caller is visited. What is stored
meanwhile is stored elsewhere. -/
theorem WalkState.Replays.resumed {f : Frame} {scope : Scope} (hframes : s.scope.frames = f :: scope.frames)
    (hsuspend : s.scope.suspend? = some scope) (h : WalkState.Replays { s with scope } later s')
    (hkeys : s'.scope.keys = scope.keys)
    (havoids : ∀ step ∈ later, ∀ scope', step.scope? = some scope' → ¬s.scope.keys <:+ scope'.keys) :
    s.Replays later { s' with scope := { s'.scope with
      frames := f :: s'.scope.frames
      suspended := s.scope.suspended } } := by
  have hchain : s.scope.keys = f.key :: s'.scope.keys := by
    rw [hkeys, Scope.keys, hframes, List.map_cons, Scope.keys]
  have haway : ∀ step ∈ later, ∀ scope' address, step.scope? = some scope' →
      address <:+ scope'.keys → ¬s.scope.keys <:+ address := fun step hstep scope' address hscope hs hs' =>
    havoids step hstep scope' hscope (hs'.trans hs)
  refine ⟨h.journal, fun address values hholds => ?_, ?_⟩
  · by_cases hs : s.scope.keys <:+ address
    · have hnothing : ∀ store ∈ storesIn later, store.address ≠ address := by
        rintro store hstore rfl
        obtain ⟨step, hstep, hmem⟩ := List.mem_flatMap.1 hstore
        obtain ⟨scope', hscope, hsuffix⟩ := Step.address_of_mem_stores hmem
        exact haway step (List.mem_reverse.1 hstep) scope' _ hscope hsuffix hs
      obtain ⟨inner, rfl⟩ := hs
      obtain ⟨c, hfound, rfl⟩ := (Scope.holds_append_keys ..).1 hholds
      have hcurrent : s.scope.current = f.component := by
        rw [Scope.current, hframes]
      rw [hcurrent] at hfound
      rw [replay_of_not_mem _ hnothing, hchain]
      exact Scope.holds_resumed hfound
    · have hsuspended := hholds.suspend hsuspend hs
      exact (h.holds _ _ hsuspended).resume (hchain ▸ hs)
  · intro after step before scope' depth c hlater hscope hc
    have hmem : step ∈ later := by
      rw [hlater]
      exact List.mem_append_right _ (List.mem_cons_self ..)
    have hs := haway step hmem scope' _ hscope (scope'.address_suffix depth)
    exact (h.entered _ _ _ _ _ _ hlater hscope hc).resume (hchain ▸ hs)

namespace WalkState.Replays

/-- The same from a state that differs only in its path. -/
theorem moved {path : ElementPath} (h : WalkState.Replays { s with path } later s') :
    s.Replays later s' :=
  ⟨h.journal, h.holds, h.entered⟩

/-- The content of the current component was visited at its caller. -/
theorem slot {f : Frame} {scope scope' : Scope}
    (hframes : s.scope.frames = f :: scope.frames) (hsuspend : s.scope.suspend? = some scope)
    (hscope : scope.suspended = f :: s.scope.suspended)
    (h : WalkState.Replays { s with scope } later s') (hkeeps : WalkState.Keeps { s with scope } s')
    (havoids : WalkState.Avoids s.scope.keys { s with scope } s')
    (hresume : s'.scope.resume? = some scope') : s.Replays later { s' with scope := scope' } := by
  obtain ⟨later', hjournal, haway⟩ := havoids
  obtain rfl := List.append_cancel_right (hjournal.symm.trans h.journal)
  rw [Scope.resume_of_suspended (hkeeps.suspended.trans hscope)] at hresume
  obtain rfl := Option.some.inj hresume
  exact .resumed hframes hsuspend h hkeeps.keys haway

/-- A component was placed, entered, visited and left again. -/
theorem placed {c : Instance} {s₁ s₂ : WalkState} {scope : Scope}
    (hfinds : Finds task reference s (.ok c) s₁) (hfits : JournalFits M root s₁.journal)
    (h : (s₁.opened s.path.text c).Replays later s₂) (hdepth : 0 < s₂.scope.depth)
    (hleave : (s₂.onResult r .synchronized).scope.leave? = some scope) :
    ∃ later, s.Replays later
      (WalkState.onResult r .left { s₂.onResult r .synchronized with scope }) := by
  obtain ⟨before, hplaced⟩ := hfinds.replays hfits
  have hpulled : WalkState.Replays { s₁ with scope := s₁.scope.enter s.path.text c } [_]
      (s₁.opened s.path.text c) :=
    .of_step rfl (fun scope hscope => (Option.some.inj hscope).symm)
      fun address values hholds => hholds.pulled (Nat.succ_pos _)
  obtain ⟨pushed, hpush⟩ := s₂.replays_synchronized hdepth
  obtain ⟨pushed, hsync⟩ := hpush.onResult (r := r)
  have hleft : (s₂.onResult r .synchronized).Replays []
      { s₂.onResult r .synchronized with scope } :=
    .of_journal_eq rfl fun address values hholds => hholds.leave hleave
  obtain ⟨after, hend⟩ := WalkState.Replays.onResult (r := r)
    (.left { s₂.onResult r .synchronized with scope })
  exact ⟨_, (((hplaced.trans hpulled).trans h).trans hsync).trans (hleft.trans hend)⟩

end WalkState.Replays

/-! ### All visits -/

namespace Job.Below

theorem body {e : Element} (h : (Job.element e).Below s) : (Job.body e).Below (s.entered task e) := by
  cases e <;> exact h

/-- What stands where a tag stands lies below, also after the tag acted. -/
theorem content {site : Site} {t : Tag} {c : Option Element}
    (h : (Job.body (.tag site t c)).Below s) (hacts : Acts task w s s') :
    (Job.content c).Below s' := by
  unfold Job.Below Scope.KeysAbove
  rw [(acts_keeps hacts).keys, acts_path hacts]
  exact h

/-- The content of the current component lies below its caller. -/
theorem slot {site : Site} {c : Option Element} {f : Frame} {scope : Scope}
    (h : (Job.body (.tag site .slot c)).Below s) (hkeys : s.scope.keys = f.key :: scope.keys)
    (e : Element) : (Job.element e).Below { s with scope } := by
  refine Scope.KeysAbove.element (s := { s with scope }) (fun key hkey => ?_) e
  exact h key (hkeys ▸ List.mem_cons_of_mem _ hkey)

theorem turn {t : Turn} {rest : List Turn} (h : (Job.row (t :: rest)).Below s)
    (hacts : Acts task w s s') : (Job.content t.element).Below s' := by
  obtain ⟨path, i, hpath, hkeys⟩ := h
  have habove : s.scope.KeysAbove s.path := hpath ▸ hkeys.enter i
  unfold Job.Below Scope.KeysAbove
  rw [(acts_keeps hacts).keys, acts_path hacts]
  exact habove

theorem next {t : Turn} {rest : List Turn} {next : ElementPath}
    (h : (Job.row (t :: rest)).Below s) (hnext : s.path.next? = some next)
    (hkeys : s'.scope.keys = s.scope.keys) : (Job.row rest).Below { s' with path := next } := by
  obtain ⟨path, i, hrow, hupTo⟩ := h
  rw [hrow] at hnext
  refine ⟨path, i + 1, (ElementPath.next?_enter_eq_some_iff.1 hnext).2, ?_⟩
  unfold Scope.KeysUpTo
  rw [hkeys]
  exact hupTo

/-- The template of a component may stand where the component stands. -/
theorem template {c : Instance} {path : ElementPath} {scope : Scope}
    (h : scope.KeysAbove path) (hpath : s.path = path)
    (hkeys : s.scope.keys = path.text :: scope.keys) : (Job.element c.template.root).Below s := by
  intro key hkey
  rw [hkeys] at hkey
  rw [hpath]
  rcases List.mem_cons.1 hkey with rfl | hkey
  · exact ⟨path, rfl, List.suffix_refl _⟩
  · exact h.upTo key hkey

end Job.Below

/-- While its content is visited a component is not come to. -/
theorem Visits.avoids_current {e : Element} {f : Frame} {scope : Scope}
    (h : Visits task (.element e) { s with scope } r s') (hbelow : s.scope.KeysAbove s.path)
    (hkeys : s.scope.keys = f.key :: scope.keys) :
    WalkState.Avoids s.scope.keys { s with scope } s' := by
  obtain ⟨p, htext, hp, hne⟩ := hbelow f.key (hkeys ▸ List.mem_cons_self ..)
  refine h.avoids (Scope.not_suffix_of_length_lt (by simp [hkeys])) fun q hq hkey => hne ?_
  rw [hkeys, List.head?_cons, htext] at hkey
  obtain rfl := ElementPath.text_injective (Option.some.inj hkey)
  have heq := hp.eq_of_length (Nat.le_antisymm hp.length_le hq.length_le)
  exact congrArg ElementPath.mk heq

/-- A visit that takes values is told by the events that it adds to the journal. -/
theorem Visits.replays (h : Visits task job s r s') (hphase : task.phase = .takeValues)
    (hbelow : job.Below s) (hfits : JournalFits M root s'.journal) :
    ∃ later, s.Replays later s' := by
  induction h with
  | tooDeep e s => exact ⟨[], .refl s⟩
  | @entered e s s' r h ih =>
    have hleft : s'.journal <:+ (s'.onResult r .left).journal :=
      WalkState.journal_onResult (List.suffix_cons ..)
    obtain ⟨later, hvisit⟩ := ih hbelow.body (hfits.of_suffix hleft)
    obtain ⟨later', hend⟩ := WalkState.Replays.onResult (r := r) (.left s')
    have hentered : s.Replays [_] (s.entered task e) :=
      .of_step rfl (fun scope hscope => (Option.some.inj hscope).symm) fun _ _ h => h
    exact ⟨_, (hentered.trans hvisit).trans hend⟩
  | text h => exact acts_replays h hphase
  | @group children s s' r h ih =>
    have hclimbed : s'.journal <:+ (s'.onResult r .climbed).journal :=
      WalkState.journal_onResult (List.suffix_refl _)
    obtain ⟨later, hvisit⟩ := ih ⟨s.path, 0, rfl, hbelow⟩ (hfits.of_suffix hclimbed)
    obtain ⟨later', hend⟩ := WalkState.Replays.onResult (s := s') (f := .climbed) (r := r)
      (.of_journal_eq rfl fun _ _ h => h)
    exact ⟨_, hvisit.moved.trans hend⟩
  | own hrun h => exact acts_replays h hphase
  | wrap ht hopens hbefore hbegins h hafter ih =>
    obtain ⟨before, hbefore'⟩ := acts_replays hbefore hphase
    obtain ⟨after, hafter'⟩ := acts_replays hafter hphase
    have hbegin := hbelow.content hbefore
    have hjournal := acts_journal hafter
    obtain ⟨later, hvisit⟩ := ih hbegin (hfits.of_suffix hjournal)
    have hinside := hbefore'.trans ⟨hvisit.journal, hvisit.holds, hvisit.entered⟩
    exact ⟨_, hinside.trans ⟨hafter'.journal, hafter'.holds, hafter'.entered⟩⟩
  | @repetition site source item index c s s' r h ih =>
    have hwrote := WalkState.acts_wrote task (s'.onResult r .climbed) (finalWrites r item)
    have hclimbed : s'.journal <:+ (s'.onResult r .climbed).journal :=
      WalkState.journal_onResult (List.suffix_refl _)
    obtain ⟨later, hvisit⟩ := ih ⟨s.path, 0, rfl, hbelow.upTo⟩
      (hfits.of_suffix (hclimbed.trans (acts_journal hwrote)))
    obtain ⟨later', hend⟩ := WalkState.Replays.onResult (s := s') (f := .climbed) (r := r)
      (.of_journal_eq rfl fun _ _ h => h)
    obtain ⟨later'', hwrites⟩ := acts_replays hwrote hphase
    exact ⟨_, (hvisit.moved.trans hend).trans hwrites⟩
  | slot hcontent hsuspend h hresume ih =>
    obtain ⟨f, hframes, hscope⟩ := Scope.frames_of_suspend hsuspend
    have hkeys := congrArg (List.map Frame.key) hframes
    obtain ⟨later, hvisit⟩ := ih (hbelow.slot hkeys _) hfits
    have havoids := h.avoids_current hbelow hkeys
    exact ⟨later, hvisit.slot hframes hsuspend (congrArg Scope.suspended hscope) h.keeps havoids
      hresume⟩
  | reference h ih => exact ih hbelow hfits
  | switch hname hindex h ih =>
    obtain ⟨later, hvisit⟩ := ih (hbelow.upTo.enter _) hfits
    exact ⟨later, hvisit.journal, hvisit.holds, hvisit.entered⟩
  | nothing s => exact ⟨[], .refl s⟩
  | something h ih => exact ih (Scope.KeysAbove.element hbelow _) hfits
  | done s => exact ⟨[], .refl s⟩
  | @stop t rest s s' r r' h hstop ih =>
    have hwrote := WalkState.acts_wrote task s t.writes
    obtain ⟨before, hwrites⟩ := acts_replays hwrote hphase
    obtain ⟨later, hturn⟩ := ih (hbelow.turn hwrote) hfits
    exact ⟨_, hwrites.trans hturn⟩
  | @next t rest s s₁ s₂ r path h hnext hrest ih ihrest =>
    have hwrote := WalkState.acts_wrote task s t.writes
    obtain ⟨before, hwrites⟩ := acts_replays hwrote hphase
    obtain ⟨later, hturn⟩ := ih (hbelow.turn hwrote) (hfits.of_suffix hrest.journal)
    have hkeys : s₁.scope.keys = s.scope.keys := h.keeps.keys.trans (acts_keeps hwrote).keys
    have hback : s₁.path = s.path := (h.returns none rfl).trans (s.path_wrote _)
    obtain ⟨after, hvisit⟩ := ihrest (hbelow.next (hback ▸ hnext) hkeys) hfits
    exact ⟨_, (hwrites.trans hturn).trans hvisit.moved⟩
  | unplaced h => exact h.replays_error hfits
  | @placed reference c s s₁ s₂ r scope hfinds h hleave ih =>
    have hend : s₂.journal <:+ (s₂.closed r scope).journal := (s₂.extends_closed r scope).journal
    have hopened := (List.suffix_cons ..).trans h.journal
    have hkeys : (s₁.opened s.path.text c).scope.keys = s.path.text :: s.scope.keys := by
      rw [Scope.keys_eq, s₁.placements_opened, List.map_cons, ← hfinds.keeps.keys, Scope.keys_eq]
    obtain ⟨later, hvisit⟩ := ih (.template hbelow hfinds.path hkeys) (hfits.of_suffix hend)
    have hdepth : 0 < s₂.scope.depth := by
      rw [← Scope.length_keys, h.keeps.keys, hkeys]
      exact Nat.succ_pos _
    exact WalkState.Replays.placed hfinds (hfits.of_suffix (hopened.trans hend)) hvisit hdepth hleave

end PageEngine
