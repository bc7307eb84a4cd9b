import PageEngine.Proofs.Page.Beside
import PageEngine.Proofs.Page.Submitted
import PageEngine.Proofs.Walk.Asked
import PageEngine.Session.Serving

/-! An engine over time. Pages are made and walked over in any order, by any requests of any
sessions, in any phase and with any result. All of them share the numbers of switches, so that a
switch keeps to the order in which names were first used anywhere; and a component is found again
as the last walk left it that came to its place. -/

namespace PageEngine

/-- A walk over a page: which page, the events of the walk, and the page after it. -/
structure PageWalk where
  page : PageId
  journal : List Step
  after : Instance

/-- An engine after some walks: what it remembers, its pages, and the walks, the latest first.
Between walks the values of a page may change. -/
inductive EngineHistory (engine : Engine) : Memory → Pages → List PageWalk → Prop
  | new : EngineHistory engine .empty [] []
  | remembered {M : Memory} {pages : Pages} {walks : List PageWalk} (name : String)
    (h : EngineHistory engine M pages walks) : EngineHistory engine (M.load engine name) pages walks
  | made {M : Memory} {pages : Pages} {walks : List PageWalk} {name : String} {t : Template}
    (kind : ComponentClass) (h : EngineHistory engine M pages walks)
    (ht : engine.compile name = .ok t) :
    EngineHistory engine M (pages ++ [.ofClass name kind t]) walks
  | revalued {M : Memory} {pages : Pages} {walks : List PageWalk} {i : PageId} {page : Instance}
    (values : Entries) (h : EngineHistory engine M pages walks) (hi : pages[i]? = some page) :
    EngineHistory engine M (pages.set i { page with values }) walks
  | walked {pages : Pages} {walks : List PageWalk} {i : PageId} {page : Instance} {task : Task}
    {limit : Nat} {start stop : WalkState} {r : Except EngineError (Option Answer)}
    (h : EngineHistory engine start.memory pages walks) (htask : task.engine = engine)
    (hi : pages[i]? = some page) (hstart : start.scope = .ofPage page)
    (hrun : (Walk.wholePage task limit).runFrom start = (r, stop)) :
    EngineHistory engine stop.memory (pages.set i stop.scope.page)
      (⟨i, stop.journal, stop.scope.page⟩ :: walks)

/-- The components that a switch asked for in some walks, the latest first. -/
def usesOf (site : Site) (walks : List PageWalk) : List SwitchUse :=
  walks.flatMap fun w => switchUses site w.journal

/-- The names that a switch asked for, in order of their first use. -/
def namesOf (site : Site) (walks : List PageWalk) : List String :=
  firstUses ((usesOf site walks).map SwitchUse.name)

/-- The component that was left at an address of a page by the last walk that asked for one
there. -/
def leftAt (page : PageId) (address : List String) : List PageWalk → Option Instance
  | [] => none
  | w :: earlier =>
    if w.page = page ∧ ∃ ask ∈ asksIn w.journal, ask.address = address then w.after.at? address
    else leftAt page address earlier

theorem leftAt_eq_none {i : PageId} {walks : List PageWalk} (h : ∀ w ∈ walks, w.page ≠ i)
    (address : List String) : leftAt i address walks = none := by
  induction walks with
  | nil => rfl
  | cons w earlier ih =>
    obtain ⟨hw, hearlier⟩ := List.forall_mem_cons.1 h
    rw [leftAt, if_neg fun hif => hw hif.1]
    exact ih hearlier

/-- If there was asked for a component, the last such walk tells what was left. -/
theorem exists_of_asked {i : PageId} {walks : List PageWalk} {address : List String}
    (h : ∃ w ∈ walks, w.page = i ∧ ∃ ask ∈ asksIn w.journal, ask.address = address) :
    ∃ later w earlier, walks = later ++ w :: earlier ∧ w.page = i ∧
      (∃ ask ∈ asksIn w.journal, ask.address = address) ∧
        leftAt i address walks = w.after.at? address := by
  induction walks with
  | nil =>
    obtain ⟨w, hw, -⟩ := h
    cases hw
  | cons w earlier ih =>
    rw [leftAt]
    split
    · rename_i hif
      exact ⟨[], w, earlier, rfl, hif.1, hif.2, rfl⟩
    · rename_i hif
      obtain ⟨w', hw', hasked⟩ := h
      obtain ⟨later, last, before, rfl, hlast⟩ := ih ⟨w', (List.mem_cons.1 hw').resolve_left
        (fun heq => hif (heq ▸ hasked)), hasked⟩
      exact ⟨w :: later, last, before, rfl, hlast⟩

theorem mem_usesOf {site : Site} {walks : List PageWalk} {u : SwitchUse} :
    u ∈ usesOf site walks ↔ ∃ w ∈ walks, u ∈ switchUses site w.journal := List.mem_flatMap

/-! ### Places on a page -/

section Places

variable {M : Memory} {root : Template} {chain : List Placement} {c d page : Instance}
  {journal journal' : List Step} {ask ask' : Ask}

theorem Settled.at? (h : Settled M root chain c) {keys : List String} (hd : c.at? keys = some d) :
    ∃ chain', Settled M root chain' d := by
  induction keys generalizing d with
  | nil =>
    obtain rfl := Option.some.inj hd
    exact ⟨chain, h⟩
  | cons key outer ih =>
    obtain ⟨caller, hcaller, hchild⟩ := Option.bind_eq_some_iff.1 hd
    obtain ⟨chain', hsettled⟩ := ih hcaller
    exact ⟨_, (hsettled.kept_of_child? hchild).2⟩

theorem JournalFits.trail_ask (h : JournalFits M root journal) (hask : ask ∈ asksIn journal) :
    ∃ outer,
      Trail M root (⟨ask.path, ask.scope.placements, .component ask.reference⟩ :: outer) := by
  obtain ⟨later, earlier, rfl⟩ := List.append_of_mem (mem_asksIn.1 hask)
  exact ⟨_, (h.of_suffix (List.suffix_append ..)).trail⟩

/-- What is kept where there was asked for a component is kept for the same reference. -/
theorem Settled.reference_eq (h : Settled M root chain page) (hfits : JournalFits M root journal)
    (hask : ask ∈ asksIn journal) (hc : page.at? ask.address = some c) :
    c.reference = ask.reference := by
  obtain ⟨caller, hcaller, hchild⟩ := Option.bind_eq_some_iff.1 hc
  obtain ⟨chain', hsettled⟩ := h.at? hcaller
  obtain ⟨⟨path, outer, htext, htrail, -⟩, -⟩ := hsettled.kept_of_child? hchild
  obtain ⟨outer', htrail'⟩ := hfits.trail_ask hask
  have hpath := ElementPath.text_injective htext
  have heq := htrail.eq_of_path_eq htrail' hpath.symm rfl rfl rfl
  have hoccupant := congrArg Spot.occupant (List.cons.inj heq).1
  exact Occupant.component.inj hoccupant

/-- In one place there is always asked for the same component. -/
theorem JournalFits.reference_eq (h : JournalFits M root journal)
    (h' : JournalFits M root journal') (hask : ask ∈ asksIn journal)
    (hask' : ask' ∈ asksIn journal') (haddress : ask'.address = ask.address) :
    ask'.reference = ask.reference := by
  obtain ⟨outer, htrail⟩ := h.trail_ask hask
  obtain ⟨outer', htrail'⟩ := h'.trail_ask hask'
  have hpath := ElementPath.text_injective (List.cons.inj haddress).1
  have heq := htrail'.eq_of_path_eq htrail hpath rfl rfl rfl
  have hoccupant := congrArg Spot.occupant (List.cons.inj heq).1
  exact Occupant.component.inj hoccupant

end Places

/-! ### One walk -/

section OneWalk

variable {task : Task} {limit : Nat} {start stop : WalkState} {page : Instance}
  {r : Except EngineError (Option Answer)}

/-- A walk asks for one component at most on every path. -/
theorem nodup_asks_wholePage (hrun : (Walk.wholePage task limit).runFrom start = (r, stop)) :
    ((asksIn stop.journal).map Ask.path).Nodup := by
  obtain ⟨new, hnew, -, hnodup⟩ := (visits_wholePage hrun).asksApart trivial
  have hall : asksIn stop.journal = new := hnew.trans (List.append_nil new)
  exact hall ▸ hnodup

/-- What becomes of the components of a page in a walk. -/
theorem fate_wholePage (hpage : page.IsPage task.engine start.memory)
    (hM : start.memory.Reachable task.engine) (hstart : start.scope = .ofPage page)
    (hrun : (Walk.wholePage task limit).runFrom start = (r, stop)) {address : List String}
    (haddress : address ≠ []) :
    Fate task.engine (page.at? address)
      ((asksIn stop.journal).filter (·.address = address)) (stop.scope.page.at? address) := by
  have hfits := (WalkState.inOrder_wholePage hstart hpage.settled hpage.name hrun).journal
  have hbelow := below_ofPage (s := { start with path := .empty, journal := [] }) hstart
    start.scope.page.template.root
  have hout : ¬address <:+ start.scope.keys := by
    rw [hstart]
    exact fun hs => haddress (List.suffix_nil.1 hs)
  obtain ⟨new, hnew, hfate⟩ := (visits_wholePage hrun).tracks hbelow hfits hM hout
  have hall : asksIn stop.journal = new := hnew.trans (List.append_nil new)
  rw [hall]
  have hstop := WalkState.scope_wholePage hstart hrun
  rw [hstop] at hfate
  dsimp only at hfate
  rwa [hstart, Scope.kept?_ofPage, Scope.kept?_ofPage] at hfate

/-- Every component that a walk asks for is the one that the page kept. It is left in the same
place. -/
theorem found_wholePage (hpage : page.IsPage task.engine start.memory)
    (hM : start.memory.Reachable task.engine) (hstart : start.scope = .ofPage page)
    (hrun : (Walk.wholePage task limit).runFrom start = (r, stop)) {ask : Ask}
    (hask : ask ∈ asksIn stop.journal) :
    ask.found = page.at? ask.address ∧ ((task.engine.compile ask.name).isOk = true →
      ∃ d, stop.scope.page.at? ask.address = some d ∧ d.reference = ask.reference) := by
  have hfate := fate_wholePage hpage hM hstart hrun (List.cons_ne_nil ask.path.text ask.scope.keys)
  refine hfate.asked ask ?_
  have hmem : ask ∈ (asksIn stop.journal).filter (·.address = ask.address) :=
    List.mem_filter.2 ⟨hask, decide_eq_true rfl⟩
  cases hlast : ((asksIn stop.journal).filter (·.address = ask.address)).getLast? with
  | none =>
    rw [List.getLast?_eq_none_iff.1 hlast] at hmem
    cases hmem
  | some other =>
    obtain ⟨hother, haddress⟩ := List.mem_filter.1 (List.mem_of_getLast? hlast)
    have hpath : other.path = ask.path :=
      ElementPath.text_injective (List.cons.inj (of_decide_eq_true haddress)).1
    obtain rfl := List.inj_on_of_nodup_map (nodup_asks_wholePage hrun) hother hask hpath
    exact hlast

end OneWalk

/-! ### All walks -/

/-- A page that is put in the place of another one with the same template. -/
theorem getElem?_set_template {pages : Pages} {i j : PageId} {page page' c : Instance}
    (hi : pages[i]? = some page) (ht : page'.template = page.template) (hj : pages[j]? = some c) :
    ∃ c', (pages.set i page')[j]? = some c' ∧ c'.template = c.template := by
  rw [List.getElem?_set]
  by_cases heq : i = j
  · subst heq
    obtain rfl := Option.some.inj (hi.symm.trans hj)
    rw [if_pos rfl, if_pos (List.getElem?_eq_some_iff.1 hi).1]
    exact ⟨page', rfl, ht⟩
  · rw [if_neg heq]
    exact ⟨c, hj, rfl⟩

namespace EngineHistory

variable {engine : Engine} {M : Memory} {pages : Pages} {walks : List PageWalk} {site : Site}

/-- The journals of walks fit the templates of their pages. -/
def WalksFit (M : Memory) (pages : Pages) (walks : List PageWalk) : Prop :=
  ∀ w ∈ walks, ∃ page, pages[w.page]? = some page ∧ JournalFits M page.template w.journal

theorem WalksFit.set {i : PageId} {page page' : Instance} (h : WalksFit M pages walks)
    (hi : pages[i]? = some page) (ht : page'.template = page.template) :
    WalksFit M (pages.set i page') walks := by
  intro w hw
  obtain ⟨c, hc, hfits⟩ := h w hw
  obtain ⟨c', hc', htemplate⟩ := getElem?_set_template hi ht hc
  exact ⟨c', hc', htemplate ▸ hfits⟩

theorem WalksFit.mono {N : Memory} (h : WalksFit M pages walks) (hle : M.Le N) :
    WalksFit N pages walks := by
  intro w hw
  obtain ⟨page, hi, hfits⟩ := h w hw
  exact ⟨page, hi, hfits.mono hle⟩

/-- All pages are pages of the engine, and the journals of their walks fit. -/
theorem sound (h : EngineHistory engine M pages walks) :
    M.Reachable engine ∧ (∀ page ∈ pages, page.IsPage engine M) ∧ WalksFit M pages walks := by
  induction h with
  | new => exact ⟨.empty, by simp, by simp [WalksFit]⟩
  | @remembered M pages walks name h ih =>
    obtain ⟨hM, hpages, hwalks⟩ := ih
    have hle := M.le_load engine name
    exact ⟨hM.load name, fun page hpage => (hpages page hpage).mono hle, hwalks.mono hle⟩
  | @made M pages walks name t kind h ht ih =>
    obtain ⟨hM, hpages, hwalks⟩ := ih
    refine ⟨hM, fun page hpage => ?_, fun w hw => ?_⟩
    · rcases List.mem_append.1 hpage with hpage | hpage
      · exact hpages page hpage
      · rw [List.mem_singleton.1 hpage]
        exact .ofClass kind ht
    · obtain ⟨page, hi, hfits⟩ := hwalks w hw
      have hlt := (List.getElem?_eq_some_iff.1 hi).1
      exact ⟨page, (List.getElem?_append_left hlt).trans hi, hfits⟩
  | @revalued M pages walks i page values h hi ih =>
    obtain ⟨hM, hpages, hwalks⟩ := ih
    refine ⟨hM, fun c hc => ?_, hwalks.set hi rfl⟩
    rcases List.mem_or_eq_of_mem_set hc with hc | rfl
    · exact hpages c hc
    · obtain ⟨hsettled, hcompiled, hname⟩ := hpages page (List.mem_of_getElem? hi)
      exact ⟨hsettled.of_subset fun _ hmem => hmem, hcompiled, hname⟩
  | @walked pages walks i page task limit start stop r h htask hi hstart hrun ih =>
    obtain ⟨hM, hpages, hwalks⟩ := ih
    subst htask
    have hpage := hpages page (List.mem_of_getElem? hi)
    have hend := WalkState.inOrder_wholePage hstart hpage.settled hpage.name hrun
    have hle := (visits_wholePage hrun).keeps.memory
    have hscope : start.scope.page = page := by rw [hstart]; rfl
    obtain ⟨hstop, hreachable, -⟩ := Instance.IsPage.walked (s := start)
      (by rw [hscope]; exact hpage) hM (by rw [hscope]; exact hstart) hrun
    refine ⟨hreachable, fun c hc => ?_, fun w hw => ?_⟩
    · rcases List.mem_or_eq_of_mem_set hc with hc | rfl
      · exact (hpages c hc).mono hle
      · exact hstop
    · rcases List.mem_cons.1 hw with rfl | hw
      · refine ⟨stop.scope.page, List.getElem?_set_self (List.getElem?_eq_some_iff.1 hi).1, ?_⟩
        rw [hend.page.1]
        exact hend.journal
      · exact (hwalks.mono hle).set hi hend.page.1 w hw

/-- A switch has numbered the names that it was used with, in order of their first use. -/
theorem namesAt_eq (h : EngineHistory engine M pages walks) (site : Site) :
    M.switches.namesAt site = namesOf site walks := by
  induction h generalizing site with
  | new => rfl
  | remembered name h ih => exact ih site
  | made kind h ht ih => exact ih site
  | revalued values h hi ih => exact ih site
  | @walked pages walks i page task limit start stop r h htask hi hstart hrun ih =>
    have hbefore : WalkState.Numbers (fun site => (usesOf site walks).map SwitchUse.name)
        { start with path := .empty, journal := [] } := ih
    have hnumbers := (visits_wholePage hrun).numbers hbefore
    rw [hnumbers site, namesOf, usesOf, List.flatMap_cons, List.map_append]
    rfl

/-- What a page keeps in a place is what the last walk left there that asked for it. -/
theorem at?_eq_leftAt (h : EngineHistory engine M pages walks) {i : PageId} {page : Instance}
    (hi : pages[i]? = some page) {address : List String} (haddress : address ≠ []) :
    page.at? address = leftAt i address walks := by
  induction h generalizing i page with
  | new => simp at hi
  | remembered name h ih => exact ih hi
  | @made M pages walks name t kind h ht ih =>
    rcases Nat.lt_or_ge i pages.length with hlt | hge
    · rw [List.getElem?_append_left hlt] at hi
      exact ih hi
    · obtain ⟨-, -, hwalks⟩ := h.sound
      have hnew : ∀ w ∈ walks, w.page ≠ i := by
        rintro w hw rfl
        obtain ⟨c, hc, -⟩ := hwalks w hw
        exact Nat.not_lt_of_ge hge (List.getElem?_eq_some_iff.1 hc).1
      rw [List.getElem?_append_right hge, List.getElem?_singleton] at hi
      split at hi
      · obtain rfl := Option.some.inj hi
        rw [leftAt_eq_none hnew, Instance.at?_eq_none_of_children_nil rfl haddress]
      · cases hi
  | @revalued M pages walks j old values h hj ih =>
    rw [List.getElem?_set] at hi
    split at hi
    · rename_i heq
      subst heq
      rw [if_pos (List.getElem?_eq_some_iff.1 hj).1] at hi
      obtain rfl := Option.some.inj hi
      have hsame : Instance.at? { old with values } address = old.at? address :=
        Instance.at?_congr haddress fun _ _ => rfl
      exact hsame.trans (ih hj)
    · exact ih hi
  | @walked pages walks j old task limit start stop r h htask hj hstart hrun ih =>
    subst htask
    obtain ⟨hM, hpages, -⟩ := h.sound
    have hpage := hpages old (List.mem_of_getElem? hj)
    rw [List.getElem?_set] at hi
    split at hi
    · rename_i heq
      subst heq
      rw [if_pos (List.getElem?_eq_some_iff.1 hj).1] at hi
      obtain rfl := Option.some.inj hi
      rw [leftAt]
      split
      · rfl
      · rename_i hif
        have hnone : (asksIn stop.journal).filter (·.address = address) = [] :=
          List.filter_eq_nil_iff.2 fun ask hask heq =>
            hif ⟨rfl, ask, hask, of_decide_eq_true heq⟩
        have hfate := fate_wholePage hpage hM hstart hrun haddress
        exact (hfate.untouched hnone).trans (ih hj)
    · rename_i hne
      rw [leftAt, if_neg fun hif => hne hif.1]
      exact ih hi

/-- Every walk began with the engine as the walks before it left it. -/
theorem exists_walk (h : EngineHistory engine M pages walks) {later earlier : List PageWalk}
    {w : PageWalk} (hwalks : walks = later ++ w :: earlier) :
    ∃ (pages' : Pages) (page : Instance) (task : Task) (limit : Nat) (start stop : WalkState)
      (r : Except EngineError (Option Answer)),
      EngineHistory engine start.memory pages' earlier ∧ task.engine = engine ∧
        pages'[w.page]? = some page ∧ start.scope = .ofPage page ∧
        (Walk.wholePage task limit).runFrom start = (r, stop) ∧
        w = ⟨w.page, stop.journal, stop.scope.page⟩ := by
  induction h generalizing later with
  | new => simp at hwalks
  | remembered name h ih => exact ih hwalks
  | made kind h ht ih => exact ih hwalks
  | revalued values h hi ih => exact ih hwalks
  | @walked pages walks i page task limit start stop r h htask hi hstart hrun ih =>
    cases later with
    | nil =>
      obtain ⟨rfl, rfl⟩ := List.cons.inj hwalks
      exact ⟨pages, page, task, limit, start, stop, r, h, htask, hi, hstart, hrun, rfl⟩
    | cons last later => exact ih (List.cons.inj hwalks).2

/-! ### Switches -/

theorem namesOf_getElem? (h : EngineHistory engine M pages walks) {u : SwitchUse}
    (hu : u ∈ usesOf site walks) :
    ∃ n, (namesOf site walks)[n]? = some u.name ∧ u.HasNumber n := by
  obtain ⟨w, hw, hu⟩ := mem_usesOf.1 hu
  obtain ⟨-, -, hwalks⟩ := h.sound
  obtain ⟨page, -, hfits⟩ := hwalks w hw
  rw [← h.namesAt_eq site]
  exact hfits.hasNumber hu

/-- The number of a name is its position among the names in order of their first use. -/
theorem hasNumber_iff (h : EngineHistory engine M pages walks) {u : SwitchUse}
    (hu : u ∈ usesOf site walks) {n : Nat} :
    u.HasNumber n ↔ (namesOf site walks)[n]? = some u.name := by
  obtain ⟨m, hm, hnumber⟩ := h.namesOf_getElem? hu
  constructor
  · intro hn
    rwa [hn.unique hnumber]
  · intro hn
    have hlt := (List.getElem?_eq_some_iff.1 hn).1
    rwa [(List.getElem?_inj hlt (nodup_firstUses _)).1 (hn.trans hm.symm)]

/-- A component is found where the last walk left it that came to its place. -/
theorem found_eq_leftAt (h : EngineHistory engine M pages walks) {later earlier : List PageWalk}
    {w : PageWalk} (hwalks : walks = later ++ w :: earlier) {ask : Ask}
    (hask : ask ∈ asksIn w.journal) : ask.found = leftAt w.page ask.address earlier ∧
      (∀ c, ask.found = some c → ∃ d, w.after.at? ask.address = some d ∧ c.Persists d) ∧
        ((engine.compile ask.name).isOk = true →
          ∃ d, w.after.at? ask.address = some d ∧ d.reference = ask.reference) := by
  obtain ⟨pages', page, task, limit, start, stop, r, hbefore, rfl, hi, hstart, hrun, hw⟩ :=
    h.exists_walk hwalks
  obtain ⟨hM, hpages, -⟩ := hbefore.sound
  have hpage := hpages page (List.mem_of_getElem? hi)
  rw [congrArg PageWalk.journal hw] at hask
  rw [congrArg PageWalk.after hw]
  have haddress : ask.address ≠ [] := List.cons_ne_nil ask.path.text ask.scope.keys
  obtain ⟨hfound, hmade⟩ := found_wholePage hpage hM hstart hrun hask
  have hfate := fate_wholePage hpage hM hstart hrun haddress
  exact ⟨hfound.trans (hbefore.at?_eq_leftAt hi haddress), fun c hc =>
    hfate.retained c (hfound.symm.trans hc), hmade⟩

/-- In one place on a page there is always asked for the same component. -/
theorem reference_eq (h : EngineHistory engine M pages walks) {w w' : PageWalk} (hw : w ∈ walks)
    (hw' : w' ∈ walks) (hpage : w'.page = w.page) {ask ask' : Ask} (hask : ask ∈ asksIn w.journal)
    (hask' : ask' ∈ asksIn w'.journal) (haddress : ask'.address = ask.address) :
    ask'.reference = ask.reference := by
  obtain ⟨-, -, hwalks⟩ := h.sound
  obtain ⟨page, hi, hfits⟩ := hwalks w hw
  obtain ⟨page', hi', hfits'⟩ := hwalks w' hw'
  rw [hpage, hi] at hi'
  obtain rfl := Option.some.inj hi'
  exact hfits.reference_eq hfits' hask hask' haddress

/-- What is kept where there was asked for a component is kept for the same reference. -/
theorem reference_of_at? (h : EngineHistory engine M pages walks) {w : PageWalk} (hw : w ∈ walks)
    {page c : Instance} (hi : pages[w.page]? = some page) {ask : Ask}
    (hask : ask ∈ asksIn w.journal) (hc : page.at? ask.address = some c) :
    c.reference = ask.reference := by
  obtain ⟨-, hpages, hwalks⟩ := h.sound
  obtain ⟨page', hi', hfits⟩ := hwalks w hw
  obtain rfl := Option.some.inj (hi.symm.trans hi')
  exact (hpages page (List.mem_of_getElem? hi)).settled.reference_eq hfits hask hc

/-- What is found was kept for the reference that there is asked for. -/
theorem reference_of_found (h : EngineHistory engine M pages walks)
    {later earlier : List PageWalk} {w : PageWalk} (hwalks : walks = later ++ w :: earlier)
    {ask : Ask} (hask : ask ∈ asksIn w.journal) {c : Instance} (hc : ask.found = some c) :
    c.reference = ask.reference := by
  obtain ⟨pages', page, task, limit, start, stop, r, hbefore, rfl, hi, hstart, hrun, hw⟩ :=
    h.exists_walk hwalks
  obtain ⟨-, hkept, -⟩ := h.found_eq_leftAt hwalks hask
  obtain ⟨d, hd, hpersists⟩ := hkept c hc
  have hafter : EngineHistory task.engine stop.memory (pages'.set w.page stop.scope.page)
      (⟨w.page, stop.journal, stop.scope.page⟩ :: earlier) :=
    hbefore.walked rfl hi hstart hrun
  have hlt := (List.getElem?_eq_some_iff.1 hi).1
  rw [congrArg PageWalk.after hw] at hd
  rw [congrArg PageWalk.journal hw] at hask
  have hreference := hafter.reference_of_at? (List.mem_cons_self ..)
    (List.getElem?_set_self hlt) hask hd
  exact hpersists.reference.symm.trans hreference

/-- A component that was asked for before, and can be made, is found. -/
theorem exists_found (h : EngineHistory engine M pages walks) {later earlier : List PageWalk}
    {w : PageWalk} (hwalks : walks = later ++ w :: earlier) {ask : Ask}
    (hask : ask ∈ asksIn w.journal) (hcompile : (engine.compile ask.name).isOk = true)
    (hbefore : ∃ w' ∈ earlier, w'.page = w.page ∧
      ∃ ask' ∈ asksIn w'.journal, ask'.address = ask.address) :
    ∃ c, ask.found = some c ∧ c.reference = ask.reference := by
  obtain ⟨between, w', before, rfl, hpage, ⟨ask', hask', haddress⟩, hleft⟩ :=
    exists_of_asked hbefore
  have hsplit : walks = (later ++ w :: between) ++ w' :: before := by
    rw [hwalks, List.append_assoc, List.cons_append]
  have hreference : ask'.reference = ask.reference :=
    h.reference_eq (hwalks ▸ by simp) (hwalks ▸ by simp) hpage hask hask' haddress
  have hname : ask'.name = ask.name := congrArg Reference.name hreference
  obtain ⟨-, -, hmade⟩ := h.found_eq_leftAt hsplit hask'
  obtain ⟨c, hc, hcreference⟩ := hmade (hname ▸ hcompile)
  obtain ⟨hfound, -, -⟩ := h.found_eq_leftAt hwalks hask
  rw [hleft, ← haddress] at hfound
  exact ⟨c, hfound.trans hc, hcreference.trans hreference⟩

/-- Whatever pages, sessions and phases come to a switch, it numbers the names without gaps in
order of their first use, and never in another way. So where it asks for one component there is
never asked for another one, neither is another one kept there, and a component that it has left
for others is found again as it was left. -/
theorem switch_names_apart (h : EngineHistory engine M pages walks) (site : Site) :
    M.switches.namesAt site = namesOf site walks ∧
      (∀ u ∈ usesOf site walks, u.HasNumber ((namesOf site walks).idxOf u.name)) ∧
      (∀ u ∈ usesOf site walks, ∀ v ∈ usesOf site walks, ∀ m n, u.HasNumber m → v.HasNumber n →
        (m = n ↔ u.name = v.name)) ∧
      (∀ n, (∃ u ∈ usesOf site walks, u.HasNumber n) ↔ n < (namesOf site walks).length) ∧
      (∀ w ∈ walks, ∀ u ∈ switchUses site w.journal,
        (∀ page c, pages[w.page]? = some page → page.at? u.address = some c → c.name = u.name) ∧
        ∀ w' ∈ walks, w'.page = w.page → ∀ ask ∈ asksIn w'.journal, ask.address = u.address →
          ask.name = u.name) ∧
      ∀ later w earlier, walks = later ++ w :: earlier → ∀ u ∈ switchUses site w.journal,
        u.found = leftAt w.page u.address earlier ∧
        (∀ c, u.found = some c →
          c.name = u.name ∧ ∃ d, w.after.at? u.address = some d ∧ c.Persists d) ∧
        ((engine.compile u.name).isOk = true →
          (∃ d, w.after.at? u.address = some d ∧ d.name = u.name) ∧
          ((∃ w' ∈ earlier, w'.page = w.page ∧
            ∃ ask ∈ asksIn w'.journal, ask.address = u.address) →
              ∃ c, u.found = some c ∧ c.name = u.name)) := by
  refine ⟨h.namesAt_eq site, fun u hu => ?_, fun u hu v hv m n hm hn => ?_, fun n => ?_,
    fun w hw u hu => ⟨fun page c hi hc => ?_, fun w' hw' hpage ask hask haddress => ?_⟩,
    fun later w earlier hwalks u hu => ?_⟩
  · obtain ⟨n, hn, -⟩ := h.namesOf_getElem? hu
    exact (h.hasNumber_iff hu).2 (List.getElem?_idxOf (List.mem_of_getElem? hn))
  · have hname := (h.hasNumber_iff hu).1 hm
    have hname' := (h.hasNumber_iff hv).1 hn
    constructor
    · rintro rfl
      exact Option.some.inj (hname.symm.trans hname')
    · intro heq
      rw [← heq] at hname'
      have hlt := (List.getElem?_eq_some_iff.1 hname).1
      exact (List.getElem?_inj hlt (nodup_firstUses _)).1 (hname.trans hname'.symm)
  · constructor
    · rintro ⟨u, hu, hn⟩
      exact (List.getElem?_eq_some_iff.1 ((h.hasNumber_iff hu).1 hn)).1
    · intro hlt
      have hname := List.getElem?_eq_getElem hlt
      obtain ⟨u, hu, heq⟩ := List.mem_map.1 (mem_firstUses.1 (List.mem_of_getElem? hname))
      exact ⟨u, hu, (h.hasNumber_iff hu).2 (heq ▸ hname)⟩
  · exact congrArg Reference.name (h.reference_of_at? hw hi (toAsk_mem_asksIn hu) hc)
  · exact congrArg Reference.name
      (h.reference_eq hw hw' hpage (toAsk_mem_asksIn hu) hask haddress)
  · have hask := toAsk_mem_asksIn hu
    obtain ⟨hfound, hleft, hmade⟩ := h.found_eq_leftAt hwalks hask
    refine ⟨hfound, fun c hc => ⟨?_, hleft c hc⟩, fun hcompile => ⟨?_, fun hbefore => ?_⟩⟩
    · exact congrArg Reference.name (h.reference_of_found hwalks hask hc)
    · obtain ⟨d, hd, hreference⟩ := hmade hcompile
      exact ⟨d, hd, congrArg Reference.name hreference⟩
    · obtain ⟨c, hc, hreference⟩ := h.exists_found hwalks hask hcompile hbefore
      exact ⟨c, hc, congrArg Reference.name hreference⟩

end EngineHistory

namespace SwitchPage

/-- A page that shows one of two components. -/
def engine : Engine :=
  ⟨.standard, [], .memory [("Page.html", "<wo:switch componentName=\"$name\"/>"),
    ("Apple.html", "apple"), ("Pear.html", "pear")]⟩

def site : Site := ⟨"Page", [0]⟩

def naming (name : String) : Entries := [("name", .text name)]

def page (name : String) : Instance :=
  .ofClass "Page" (.plain (naming name)) (engine.templateOf "Page")

def task (phase : Phase) : Task := ⟨engine, .ofPath "GET" "", none, phase⟩

/-- The next walk over a page, after its name was changed. -/
def next (s : WalkState) (page : Instance) (name : String) (phase : Phase) : WalkState :=
  (WalkState.ofPage s.memory s.ids { page with values := naming name }).after (task phase)

/-- One page shows an apple, and the other one a pear. -/
def first : WalkState :=
  next (.ofTemplate engine "Page" (naming "Apple")) (page "Apple") "Apple" .render

def second : WalkState := next first (page "Pear") "Pear" .render

/-- The first page shows a pear too, and then the apple again. -/
def third : WalkState := next second first.scope.page "Pear" .render

def fourth : WalkState := next third third.scope.page "Apple" .takeValues

def walks : List PageWalk :=
  [⟨0, fourth.journal, fourth.scope.page⟩, ⟨0, third.journal, third.scope.page⟩,
    ⟨1, second.journal, second.scope.page⟩, ⟨0, first.journal, first.scope.page⟩]

theorem history_next {s : WalkState} {pages : Pages} {walks : List PageWalk} {i : PageId}
    {page : Instance} (h : EngineHistory engine s.memory pages walks) (hi : pages[i]? = some page)
    (name : String) (phase : Phase) :
    EngineHistory engine (next s page name phase).memory
      (pages.set i (next s page name phase).scope.page)
      (⟨i, (next s page name phase).journal, (next s page name phase).scope.page⟩ :: walks) := by
  have hlt := (List.getElem?_eq_some_iff.1 hi).1
  let start : WalkState := .ofPage s.memory s.ids { page with values := naming name }
  have hstart : EngineHistory engine start.memory (pages.set i start.scope.page) walks :=
    h.revalued (naming name) hi
  have hwalked := hstart.walked (rfl : (task phase).engine = engine) (List.getElem?_set_self hlt)
    rfl (start.runFrom_after (task phase))
  rwa [List.set_set] at hwalked

theorem history :
    EngineHistory engine fourth.memory [fourth.scope.page, second.scope.page] walks := by
  have ht := Engine.compile_templateOf (by decide +kernel : (engine.compile "Page").isOk = true)
  have hmade : EngineHistory engine (Memory.empty.load engine "Page")
      [page "Apple", page "Pear"] [] := .made _ (.made _ (.remembered "Page" .new) ht) ht
  have hfirst := history_next (s := .ofTemplate engine "Page" (naming "Apple")) (i := 0) hmade rfl
    "Apple" .render
  have hsecond := history_next (i := 1) hfirst rfl "Pear" .render
  have hthird := history_next (i := 0) hsecond rfl "Pear" .render
  exact history_next (i := 0) hthird rfl "Apple" .takeValues

end SwitchPage

/-- The first page finds its apple again, past the pears of both pages. -/
theorem EngineHistory.switch_names_apart_switchPage :
    SwitchPage.fourth.memory.switches.namesAt SwitchPage.site = ["Apple", "Pear"] ∧
      ∃ u ∈ switchUses SwitchPage.site SwitchPage.fourth.journal, u.name = "Apple" ∧
        u.HasNumber 0 ∧ ∃ c, u.found = some c ∧ c.name = "Apple" := by
  have hnames : SwitchPage.fourth.memory.switches.namesAt SwitchPage.site = ["Apple", "Pear"] := by
    decide +kernel
  obtain ⟨htable, hnumber, -, -, -, hfound⟩ :=
    SwitchPage.history.switch_names_apart SwitchPage.site
  have huses : (switchUses SwitchPage.site SwitchPage.fourth.journal).map
      (fun u => (u.name, u.address)) = [("Apple", ["0.0"])] := by decide +kernel
  have hbefore : (asksIn SwitchPage.first.journal).map Ask.address = [["0.0"]] := by
    decide +kernel
  obtain ⟨u, hu, heq⟩ := List.mem_map.1 (huses ▸ List.mem_singleton_self _)
  obtain ⟨ask, hask, haddress⟩ := List.mem_map.1 (hbefore ▸ List.mem_singleton_self _)
  have hname : u.name = "Apple" := congrArg Prod.fst heq
  have hn := hnumber u (mem_usesOf.2 ⟨_, List.mem_cons_self .., hu⟩)
  rw [← htable, hnames, hname] at hn
  obtain ⟨-, -, hagain⟩ := hfound [] _ _ rfl u hu
  obtain ⟨-, hfinds⟩ := hagain (by rw [hname]; decide +kernel)
  obtain ⟨c, hc, hcname⟩ := hfinds ⟨⟨0, SwitchPage.first.journal, SwitchPage.first.scope.page⟩,
    by simp, rfl, ask, hask, haddress.trans (congrArg Prod.snd heq).symm⟩
  exact ⟨hnames, u, hu, hname, hn, c, hc, hcname.trans hname⟩

end PageEngine
