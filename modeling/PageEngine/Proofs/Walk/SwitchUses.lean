import Mathlib.Data.List.Dedup
import PageEngine.Proofs.Page.Journal

/-! What a switch asks for, told by the journal. A switch numbers a name on entering the branch
of it, and then asks for the component. So the names it has numbered are those of the components
it asked for, in order of their first use, and each component is asked for on the branch of its
name. -/

namespace PageEngine

/-! ### Asking -/

/-- A component that was asked for, and what was found in its place. -/
@[ext]
structure Ask where
  reference : Reference
  path : ElementPath
  scope : Scope
  found : Option Instance

namespace Ask

def name (ask : Ask) : String := ask.reference.name

/-- The keys on the way to the component from the page, the innermost first. -/
def address (ask : Ask) : List String := ask.path.text :: ask.scope.keys

def step (ask : Ask) : Step := .place ask.reference ask.path ask.scope ask.found

end Ask

def Step.ask? : Step → Option Ask
  | .place reference path scope found => some ⟨reference, path, scope, found⟩
  | _ => none

theorem Step.ask?_eq_some_iff {step : Step} {ask : Ask} :
    step.ask? = some ask ↔ step = ask.step := by
  cases step <;> simp [Step.ask?, Ask.step, Ask.ext_iff, eq_comm]

/-- The components that were asked for, the latest first. -/
def asksIn (journal : List Step) : List Ask := journal.filterMap Step.ask?

theorem asksIn_append (later earlier : List Step) :
    asksIn (later ++ earlier) = asksIn later ++ asksIn earlier := List.filterMap_append

theorem mem_asksIn {journal : List Step} {ask : Ask} :
    ask ∈ asksIn journal ↔ ask.step ∈ journal := by
  simp [asksIn, Step.ask?_eq_some_iff]

/-! ### Asking for the component of a switch -/

/-- A component that a switch asked for. -/
structure SwitchUse extends Ask where
  /-- Where the switch stands. -/
  standing : ElementPath

namespace SwitchUse

def name (u : SwitchUse) : String := u.toAsk.name

/-- The component is asked for on the branch with that number. -/
def HasNumber (u : SwitchUse) (n : Nat) : Prop :=
  ∃ index : UInt32, index.toNat = n ∧ u.path = u.standing.enter index

theorem HasNumber.unique {u : SwitchUse} {m n : Nat} (hm : u.HasNumber m) (hn : u.HasNumber n) :
    m = n := by
  obtain ⟨i, rfl, hi⟩ := hm
  obtain ⟨j, rfl, hj⟩ := hn
  have hindices := congrArg ElementPath.indices (hi.symm.trans hj)
  exact congrArg UInt32.toNat (List.cons.inj hindices).1

end SwitchUse

/-- What a switch asks for in an event after it was entered. -/
def Step.switchUse? (site : Site) (step before : Step) : Option SwitchUse :=
  match step, before with
  | .place reference path scope found, .enter (.tag site' (.switch _ _) _) standing _ =>
    if site' = site then some ⟨⟨reference, path, scope, found⟩, standing.path⟩ else none
  | _, _ => none

/-- The components that a switch asked for, the latest first. -/
def switchUses (site : Site) (journal : List Step) : List SwitchUse :=
  (journal.zip journal.tail).filterMap fun (step, before) => step.switchUse? site before

section SwitchUses

variable {site : Site} {step : Step} {journal : List Step} {u : SwitchUse}

theorem switchUses_cons_cons (site : Site) (step before : Step) (earlier : List Step) :
    switchUses site (step :: before :: earlier) =
      (step.switchUse? site before).toList ++ switchUses site (before :: earlier) := by
  cases h : step.switchUse? site before with
  | none => exact List.filterMap_cons_none h
  | some u => exact List.filterMap_cons_some h

/-- Only asking for components matters. -/
theorem switchUses_cons (h : step.ask? = none) (journal : List Step) :
    switchUses site (step :: journal) = switchUses site journal := by
  cases journal with
  | nil => rfl
  | cons before earlier =>
    have hnone : step.switchUse? site before = none := by
      cases step <;> first | rfl | cases h
    rw [switchUses_cons_cons, hnone]
    rfl

theorem exists_of_switchUse? {before : Step} (h : step.switchUse? site before = some u) :
    step = u.step ∧ ∃ a bindings content standing scope,
      before = .enter (.tag site (.switch a bindings) content) standing scope ∧
        u.standing = standing.path := by
  unfold Step.switchUse? at h
  split at h
  · split at h
    · rename_i hsite
      subst hsite
      cases h
      exact ⟨rfl, _, _, _, _, _, rfl, rfl⟩
    · cases h
  · cases h

/-- Right before a switch asks for a component it is entered. -/
theorem exists_of_mem_switchUses (h : u ∈ switchUses site journal) :
    ∃ a bindings content standing scope earlier,
      u.step :: .enter (.tag site (.switch a bindings) content) standing scope :: earlier <:+
        journal ∧ u.standing = standing.path := by
  induction journal with
  | nil => cases h
  | cons step journal ih =>
    cases journal with
    | nil => cases h
    | cons before earlier =>
      rw [switchUses_cons_cons, List.mem_append] at h
      rcases h with h | h
      · obtain ⟨rfl, a, bindings, content, standing, scope, rfl, hstanding⟩ :=
          exists_of_switchUse? (Option.mem_toList.1 h)
        exact ⟨a, bindings, content, standing, scope, earlier, List.suffix_refl _, hstanding⟩
      · obtain ⟨a, bindings, content, standing, scope, events, hs, hstanding⟩ := ih h
        exact ⟨a, bindings, content, standing, scope, events, hs.trans (List.suffix_cons ..),
          hstanding⟩

theorem toAsk_mem_asksIn (h : u ∈ switchUses site journal) : u.toAsk ∈ asksIn journal := by
  obtain ⟨a, bindings, content, standing, scope, earlier, hs, -⟩ := exists_of_mem_switchUses h
  exact mem_asksIn.2 (hs.subset (List.mem_cons_self ..))

section Fits

variable {M : Memory} {root : Template} {q q' : Spot} {outer : List Spot}

theorem Trail.inner_of_cons (h : Trail M root (q' :: q :: outer)) : Inner M q q' := by
  cases h with
  | inner h hi => exact hi

/-- The component of a switch is on the branch that has its name. -/
theorem Inner.on_switch {a : Association} {bindings : Associations} {content : Option Element}
    {reference : Reference} (h : Inner M q q')
    (hq : q.occupant = .element (.tag site (.switch a bindings) content))
    (hq' : q'.occupant = .component reference) :
    ∃ index : UInt32, (M.switches.namesAt site)[index.toNat]? = some reference.name ∧
      q'.path = q.path.enter index := by
  cases h with
  | switch h =>
    cases hq
    cases hq'
    exact ⟨_, h, rfl⟩
  | reference => cases hq
  | _ => cases hq'

/-- A switch asks for a component on the branch that belongs to its name. -/
theorem JournalFits.hasNumber (h : JournalFits M root journal) (hu : u ∈ switchUses site journal) :
    ∃ n, (M.switches.namesAt site)[n]? = some u.name ∧ u.HasNumber n := by
  obtain ⟨a, bindings, content, standing, scope, earlier, hs, hstanding⟩ :=
    exists_of_mem_switchUses hu
  have htrail : Trail M root (⟨u.path, u.scope.placements, .component u.reference⟩ ::
      ⟨standing.path, scope.placements, .element (.tag site (.switch a bindings) content)⟩ ::
        openings earlier) := (h.of_suffix hs).trail
  obtain ⟨index, hname, hpath⟩ := htrail.inner_of_cons.on_switch rfl rfl
  exact ⟨index.toNat, hname, index, rfl, by rw [hstanding]; exact hpath⟩

end Fits

end SwitchUses

/-! ### Names in order of their first use -/

/-- The names in the order in which each of them was used first. The latest use stands first. -/
def firstUses (names : List String) : List String := names.dedup.reverse

theorem mem_firstUses {name : String} {names : List String} :
    name ∈ firstUses names ↔ name ∈ names := by
  rw [firstUses, List.mem_reverse, List.mem_dedup]

theorem nodup_firstUses (names : List String) : (firstUses names).Nodup :=
  List.nodup_reverse.2 (List.nodup_dedup names)

theorem snd_numberName_of_mem {name : String} {names : List String} (h : name ∈ names) :
    (numberName name names).2 = names := by
  induction names with
  | nil => cases h
  | cons n rest ih =>
    rw [numberName]
    split
    · rfl
    · rename_i hne
      have hrest := (List.mem_cons.1 h).resolve_left (Ne.symm hne)
      exact congrArg (n :: ·) (ih hrest)

theorem snd_numberName_of_not_mem {name : String} {names : List String} (h : name ∉ names) :
    (numberName name names).2 = names ++ [name] := by
  induction names with
  | nil => rfl
  | cons n rest ih =>
    obtain ⟨hne, hrest⟩ := List.ne_and_not_mem_of_not_mem_cons h
    rw [numberName, if_neg (Ne.symm hne)]
    exact congrArg (n :: ·) (ih hrest)

/-- Numbering a name is using it once more. -/
theorem firstUses_cons (name : String) (names : List String) :
    firstUses (name :: names) = (numberName name (firstUses names)).2 := by
  by_cases h : name ∈ names
  · rw [snd_numberName_of_mem (mem_firstUses.2 h), firstUses, List.dedup_cons_of_mem h, firstUses]
  · rw [snd_numberName_of_not_mem (mt mem_firstUses.1 h), firstUses, List.dedup_cons_of_notMem h,
      List.reverse_cons, firstUses]

/-! ### Names that a visit numbers -/

/-- The names that a switch asked for, the latest first. -/
def namesUsed (site : Site) (journal : List Step) : List String :=
  (switchUses site journal).map SwitchUse.name

/-- Every switch has numbered the names that it asked for, in this walk or before. -/
def WalkState.Numbers (before : Site → List String) (s : WalkState) : Prop :=
  ∀ site, s.memory.switches.namesAt site = firstUses (namesUsed site s.journal ++ before site)

/-- The same at the beginning of a job. The tag of a switch has numbered the name when it asks for
the component, which is not in the journal yet. -/
def Job.Numbered (before : Site → List String) (s : WalkState) : Job → Prop
  | .body e => s.Numbers before ∧
    ∃ standing scope earlier, s.journal = .enter e standing scope :: earlier
  | .component reference => (s.asked reference).Numbers before
  | _ => s.Numbers before

variable {before : Site → List String} {task : Task} {s s' : WalkState}

namespace WalkState.Numbers

/-- Nothing was numbered or asked for. -/
theorem of_eq (h : s.Numbers before) (hm : s'.memory.switches = s.memory.switches)
    (hj : s'.journal = s.journal) : s'.Numbers before := by
  intro site
  rw [hm, hj]
  exact h site

theorem of_step {step : Step} (h : s.Numbers before) (hstep : step.ask? = none)
    (hm : s'.memory.switches = s.memory.switches) (hj : s'.journal = step :: s.journal) :
    s'.Numbers before := by
  intro site
  rw [hm, hj, namesUsed, switchUses_cons hstep]
  exact h site

theorem act {w : Bool} (h : s.Numbers before) (hact : Act task w s s') : s'.Numbers before := by
  cases hact with
  | print text _ => exact h.of_eq rfl rfl
  | identify _ _ => exact h.of_eq rfl rfl
  | write a v _ => exact h.of_step rfl rfl rfl
  | follow a _ => exact h.of_step rfl rfl rfl
  | perform a _ => exact h.of_step rfl rfl rfl
  | load name _ => exact h.of_eq rfl rfl

theorem acts {w : Bool} (h : s.Numbers before) (hacts : Acts task w s s') : s'.Numbers before := by
  induction hacts with
  | refl => exact h
  | tail _ hact ih => exact ih.act hact

theorem onResult {α : Type} {r : Except EngineError α} {f : WalkState → WalkState}
    (h : s.Numbers before) (hf : (f s).Numbers before) : (s.onResult r f).Numbers before := by
  cases r with
  | ok a => exact hf
  | error e => exact h

theorem left (h : s.Numbers before) : s.left.Numbers before := h.of_step rfl rfl rfl

theorem synchronized (h : s.Numbers before) : s.synchronized.Numbers before := by
  unfold WalkState.synchronized
  split
  · exact h.of_step rfl rfl rfl
  · exact h

/-- The tag of a component numbers nothing. -/
theorem asked {site : Site} {name : String} {bindings : Associations} {content : Option Element}
    {standing : Standing} {scope : Scope} {earlier : List Step} (h : s.Numbers before)
    (hj : s.journal =
      .enter (.tag site (.component name bindings) content) standing scope :: earlier)
    (reference : Reference) : (s.asked reference).Numbers before := by
  intro site'
  have hjournal : (s.asked reference).journal =
      .place reference s.path s.scope (s.scope.takeChild s.path.text).1 :: s.journal := rfl
  have hsame : switchUses site' (s.asked reference).journal = switchUses site' s.journal := by
    rw [hjournal, hj, switchUses_cons_cons]
    rfl
  rw [namesUsed, hsame]
  exact h site'

/-- A switch numbers the name of the component that it asks for. -/
theorem asked_switch {site : Site} {a : Association} {bindings : Associations}
    {content : Option Element} {standing : Standing} {scope : Scope} {earlier : List Step}
    (h : s.Numbers before)
    (hj : s.journal = .enter (.tag site (.switch a bindings) content) standing scope :: earlier)
    (reference : Reference) (path : ElementPath) :
    (WalkState.asked reference { s with
      memory := s.memory.number site reference.name, path }).Numbers before := by
  intro site'
  have hjournal : (WalkState.asked reference { s with
      memory := s.memory.number site reference.name, path }).journal =
      .place reference path s.scope (s.scope.takeChild path.text).1 :: s.journal := rfl
  have huse := switchUses_cons_cons site'
    (.place reference path s.scope (s.scope.takeChild path.text).1)
    (.enter (.tag site (.switch a bindings) content) standing scope) earlier
  rw [← hj, ← hjournal] at huse
  have hmemory : (WalkState.asked reference { s with
      memory := s.memory.number site reference.name, path }).memory.switches =
      (s.memory.switches.number site reference.name).2 := rfl
  rw [hmemory, namesUsed, huse]
  by_cases hsite : site = site'
  · subst hsite
    rw [SwitchNumbers.namesAt_number_self, h site]
    simp only [Step.switchUse?, if_pos, Option.toList_some, List.map_cons, List.nil_append,
      List.cons_append, firstUses_cons, SwitchUse.name, Ask.name, namesUsed]
  · rw [SwitchNumbers.namesAt_number_of_ne (Ne.symm hsite), h site']
    simp only [Step.switchUse?, if_neg hsite, Option.toList_none, List.nil_append, namesUsed]

end WalkState.Numbers

theorem Finds.numbers {reference : Reference} {r : Except EngineError Instance}
    (h : Finds task reference s r s') (hs : (s.asked reference).Numbers before) :
    s'.Numbers before := by
  cases h with
  | kept h hname => exact hs
  | fresh hnone h => exact hs.of_eq rfl rfl
  | failed hnone h => exact hs.of_eq rfl rfl

/-- After a visit every switch has numbered the names that it asked for, and no others. -/
theorem Visits.numbers {job : Job} {r : Except EngineError (Option Answer)}
    (h : Visits task job s r s') (hs : job.Numbered before s) : s'.Numbers before := by
  induction h with
  | tooDeep e s => exact hs
  | @entered e s s' r h ih =>
    have hentered : (s.entered task e).Numbers before := WalkState.Numbers.of_step hs rfl rfl rfl
    have hbody := ih ⟨hentered, _, _, _, rfl⟩
    exact hbody.onResult hbody.left
  | text h => exact hs.1.acts h
  | group h ih =>
    have hrow := ih (hs.1.of_eq rfl rfl)
    exact hrow.onResult (hrow.of_eq rfl rfl)
  | own hrun h => exact hs.1.acts h
  | wrap ht hopens hbefore hbegins h hafter ih =>
    have hcontent := ih ((hs.1.acts hbefore).of_eq rfl rfl)
    exact (hcontent.of_eq rfl rfl : WalkState.Numbers before (WalkState.past _ _)).acts hafter
  | @repetition site source item index c s s' r h ih =>
    have hrow := ih (hs.1.of_eq rfl rfl)
    have hclimbed := hrow.onResult (r := r) (f := .climbed) (hrow.of_eq rfl rfl)
    exact hclimbed.acts (WalkState.acts_wrote task _ _)
  | slot hcontent hsuspend h hresume ih =>
    have hinside := ih (hs.1.of_eq rfl rfl)
    exact hinside.of_eq rfl rfl
  | reference h ih =>
    obtain ⟨hnumbers, standing, scope, earlier, hj⟩ := hs
    exact ih (hnumbers.asked hj _)
  | switch hname hindex h ih =>
    obtain ⟨hnumbers, standing, scope, earlier, hj⟩ := hs
    exact (ih (hnumbers.asked_switch hj _ _)).of_eq rfl rfl
  | nothing s => exact hs
  | something h ih => exact ih hs
  | done s => exact hs
  | stop h hstop ih => exact ih (WalkState.Numbers.acts hs (WalkState.acts_wrote task _ _))
  | next h hnext hrest ih ihrest =>
    have hturn := ih (WalkState.Numbers.acts hs (WalkState.acts_wrote task _ _))
    exact ihrest (hturn.of_eq rfl rfl)
  | unplaced h => exact h.numbers hs
  | @placed reference c s s₁ s₂ r scope hfinds h hleave ih =>
    have hopened : (s₁.opened s.path.text c).Numbers before :=
      (hfinds.numbers hs).of_step rfl rfl rfl
    have hbody := ih hopened
    have hsync := hbody.onResult (r := r) hbody.synchronized
    have houtside : WalkState.Numbers before { s₂.onResult r .synchronized with scope } :=
      hsync.of_eq rfl rfl
    exact houtside.onResult houtside.left

end PageEngine
