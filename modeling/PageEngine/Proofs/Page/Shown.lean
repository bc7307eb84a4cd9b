import PageEngine.Proofs.Component.Echo
import PageEngine.Proofs.Page.Lexical
import PageEngine.Proofs.Page.Retained
import PageEngine.Proofs.Walk.Lockstep

/-! What a rendering leaves behind. Most elements only show: in a rendering they write nothing,
and components are handed what stands at constants and key paths. Where these lead to values of
the caller, everything that was entered shows the same afterwards as before. -/

namespace PageEngine

/-- Tags that write nothing in a rendering and bind components to constants and key paths only. -/
def Tag.onlyShows : Tag → Bool
  | .repetition .. => false
  | .popUp .. => false
  | .switch .. => false
  | .component _ bindings => bindings.all fun
    | (_, .reference _) => false
    | _ => true
  | _ => true

def Element.onlyShows : Element → Bool
  | .tag _ t _ => t.onlyShows
  | _ => true

/-- Whether the key paths that the current component is bound to lead to values at its caller. -/
def Scope.leadsBack (s : Scope) : Bool :=
  s.current.bindings.all fun
    | (_, .keyPath path) => (s.get? (s.depth - 1)).any (·.values.leads path)
    | _ => true

theorem Scope.leads_of_leadsBack {s : Scope} {key name path : String} {c : Instance}
    (h : (s.enter key c).leadsBack = true) (hmem : (name, .keyPath path) ∈ c.bindings) :
    s.current.values.leads path = true := by
  have hleads := List.all_eq_true.1 h _ hmem
  have hcaller : (s.enter key c).get? ((s.enter key c).depth - 1) = some s.current :=
    (get?_enter key c (Nat.le_refl _)).trans s.get?_depth
  rw [hcaller] at hleads
  exact hleads

/-- The element only shows, and asks for components with bindings of different names. -/
def Element.Shows (e : Element) : Prop :=
  e.onlyShows = true ∧ ∀ reference, e.Asks reference → (reference.bindings.map Prod.fst).Nodup

variable {task : Task} {s s' : WalkState} {M : Memory} {root : Template} {job : Job}
  {r : Except EngineError (Option Answer)}

/-- A journal of elements that only show, where all that is handed over can be given back. -/
structure JournalShows (M : Memory) (root : Template) (journal : List Step) : Prop where
  fits : JournalFits M root journal
  enters : EntersOnly Element.Shows journal
  leads : ∀ scope, .pull scope ∈ journal → scope.leadsBack = true

theorem JournalShows.of_suffix {journal earlier : List Step} (h : JournalShows M root journal)
    (hs : earlier <:+ journal) : JournalShows M root earlier :=
  ⟨h.fits.of_suffix hs, h.enters.of_suffix hs, fun scope hmem => h.leads scope (hs.subset hmem)⟩

/-- What is visited only shows. -/
def Job.Shows : Job → Prop
  | .body e => e.Shows
  | .row turns => ∀ t ∈ turns, t.writes = []
  | .component reference => (reference.bindings.map Prod.fst).Nodup ∧
    ∀ name a, (name, a) ∈ reference.bindings → a.isSettable = true → ∃ path, a = .keyPath path
  | _ => True

theorem Tag.mayWrite_of_onlyShows {t : Tag} (h : t.onlyShows = true) :
    t.mayWrite .render = false := by
  cases t <;> first | rfl | cases h

theorem Element.Shows.acts_scope_eq {site : Site} {t : Tag} {c : Option Element}
    (h : (Element.tag site t c).Shows) (hphase : task.phase = .render)
    (hacts : Acts task (t.mayWrite task.phase) s s') : s'.scope = s.scope := by
  rw [hphase, Tag.mayWrite_of_onlyShows h.1] at hacts
  exact PageEngine.acts_scope_eq hacts hphase

theorem Element.Shows.component {site : Site} {name : String} {bindings : Associations}
    {c : Option Element} (h : (Element.tag site (.component name bindings) c).Shows) :
    (Job.component ⟨name, bindings, c⟩).Shows := by
  refine ⟨h.2 _ rfl, fun binding a hmem hsettable => ?_⟩
  have hbound := List.all_eq_true.1 h.1 _ hmem
  cases a with
  | constant v => cases hsettable
  | keyPath path => exact ⟨path, rfl⟩
  | reference name => cases hbound

/-- A component that is entered was asked for, and has the template of its name. -/
theorem Finds.placement {reference : Reference} {c : Instance}
    (h : Finds task reference s (.ok c) s')
    (hfits : JournalFits M root (s'.opened s.path.text c).journal) : c.reference = reference ∧
      Dictionary.get? reference.name M.templates = some (.ok c.template) := by
  obtain ⟨-, ⟨-, path, chain, reference', outer, t, hopen, ht, hplacements⟩, -⟩ := hfits
  rw [h.openings_eq] at hopen
  cases hopen
  rw [Scope.placements_enter, List.cons.injEq] at hplacements
  cases hplacements.1
  exact ⟨rfl, ht⟩

/-- What is found, or else made, is what was kept, or else a new component. -/
theorem Finds.getD_renewed {reference : Reference} {c : Instance}
    (h : Finds task reference s (.ok c) s') (hfits : JournalFits M root s'.journal) :
    (s.scope.current.child? s.path.text).getD (c.renewed task.engine) = c := by
  cases h with
  | kept h hname => rw [h, Option.getD_some]
  | fresh hnone h =>
    rw [child?_eq_none hfits (List.suffix_refl _) hnone]
    rfl

/-- A component was entered, echoes itself after the visit, and is left. -/
theorem Scope.Paired.visited {engine : Engine} {s t scope : Scope} {key : String} {c d : Instance}
    (h : (s.takeChild key).2.Paired (Instance.Echoes engine []) t)
    (hcd : Instance.Echoes engine [] { c with
      values := (s.takeChild key).2.handedOver c.bindings c.values } d)
    (hc : (s.current.child? key).getD (c.renewed engine) = c)
    (ht : engine.compile c.name = .ok c.template)
    (hleave : (t.enter key d).leave? = some scope) :
    s.Paired (Instance.Echoes engine []) scope := by
  obtain rfl := Option.some.inj hleave
  have hpulled : Instance.Echoes engine c.boundNames c { c with
      values := (s.takeChild key).2.handedOver c.bindings c.values } :=
    .of_alike rfl fun _ => Scope.get_handedOver_of_not_mem
  have hvisited := hpulled.trans (hcd.mono (List.nil_subset _))
  have hpersists := hvisited.persists
  refine of_modifyCurrent (f := (·.removeChild key)) h fun x hx => ?_
  refine hx.addChild_later (fun _ => ?_) ?_
  · rw [hpersists.name, hpersists.template]
    exact ht
  · rw [hpersists.renewed, hpersists.boundNames, hc]
    exact hvisited

/-- A component was found, visited while it echoed itself, and left. -/
theorem Finds.echoes {reference : Reference} {c : Instance} {s₁ s₂ : WalkState} {scope : Scope}
    (hfinds : Finds task reference s (.ok c) s₁) (hM : M.Reachable task.engine)
    (hopened : JournalShows M root (s₁.opened s.path.text c).journal)
    (hjob : (Job.component reference).Shows)
    (hinside : (s₁.opened s.path.text c).scope.Paired (Instance.Echoes task.engine []) s₂.scope)
    (hleave : s₂.synchronized.scope.leave? = some scope) :
    s.scope.Paired (Instance.Echoes task.engine []) scope := by
  have hfound := hopened.of_suffix (List.suffix_cons ..)
  obtain ⟨rfl, ht⟩ := hfinds.placement hopened.fits
  obtain ⟨hnames, hbound⟩ := hjob
  obtain ⟨hscope, -⟩ := hfinds.retained hfound.fits
  have hpulled : (s₁.opened s.path.text c).scope = s₁.scope.enter s.path.text
      { c with values := s₁.scope.handedOver c.bindings c.values } := Scope.pulled_enter ..
  rw [hpulled] at hinside
  obtain ⟨outer, d, houter, hcaller, hcd⟩ := hinside.exists_enter
  have hleads := hopened.leads _ (List.mem_cons_self ..)
  have hgiven : s₁.scope.Paired (Instance.Echoes task.engine [])
      (outer.handedBack d.bindings d.values) := by
    refine hcaller.given_back hcd hnames fun name a hmem hsettable => ?_
    obtain ⟨path, rfl⟩ := hbound name a hmem hsettable
    exact ⟨path, rfl, Scope.leads_of_leadsBack hleads hmem⟩
  have hsynchronized : ∃ t, s₂.synchronized.scope = t.enter s.path.text d ∧
      s₁.scope.Paired (Instance.Echoes task.engine []) t := by
    unfold WalkState.synchronized
    split
    · refine ⟨_, ?_, hgiven⟩
      rw [← Scope.pushed_enter, ← houter]
    · exact ⟨_, houter, hcaller⟩
  obtain ⟨t, ht', hcaller⟩ := hsynchronized
  rw [ht'] at hleave
  rw [hscope] at hcaller hcd
  exact hcaller.visited hcd (hfinds.getD_renewed hfound.fits) (hM.compiled ht) hleave

/-- A rendering of elements that only show ends with components that echo those it began with. -/
theorem Visits.echoes (h : Visits task job s r s') (hphase : task.phase = .render)
    (hM : M.Reachable task.engine) (hshows : JournalShows M root s'.journal) (hjob : job.Shows)
    {a : Option Answer} (hr : r = .ok a) :
    s.scope.Paired (Instance.Echoes task.engine []) s'.scope := by
  have hsame : ∀ {s s' : WalkState}, s'.scope = s.scope →
      s.scope.Paired (Instance.Echoes task.engine []) s'.scope := by
    intro s s' hscope
    exact hscope ▸ .refl (.refl _ _) _
  induction h generalizing a with
  | tooDeep e s => cases hr
  | @entered e s s' r h ih =>
    subst hr
    have hearlier : s'.journal <:+ s'.left.journal := List.suffix_cons ..
    have henter := (h.journal.trans hearlier).subset (List.mem_cons_self ..)
    exact ih (hshows.of_suffix hearlier) (hshows.enters _ _ _ henter) rfl
  | text h => exact hsame (acts_scope_eq h hphase)
  | group h ih =>
    subst hr
    refine ih hshows (fun t ht => ?_) rfl
    obtain ⟨child, -, rfl⟩ := List.mem_map.1 ht
    rfl
  | own hrun h => exact hsame (hjob.acts_scope_eq hphase h)
  | wrap ht hopens hbefore hbegins h hafter ih =>
    have hjournal := acts_journal hafter
    have hvisit := ih (hshows.of_suffix hjournal) trivial hr
    rw [hjob.acts_scope_eq hphase hafter, ← hjob.acts_scope_eq hphase hbefore]
    exact hvisit
  | repetition h ih => exact nomatch hjob.1
  | slot hcontent hsuspend h hresume ih =>
    exact (ih hshows trivial hr).resume (Scope.resume?_of_suspend? hsuspend) hresume
  | reference h ih => exact ih hshows hjob.component hr
  | switch hname hindex h ih => exact nomatch hjob.1
  | nothing s => exact hsame rfl
  | something h ih => exact ih hshows trivial hr
  | done s => exact hsame rfl
  | @stop t rest s s' r r' h hstop ih =>
    rw [hjob t (List.mem_cons_self ..)] at ih
    exact ih hshows trivial (hstop.eq_ok hr)
  | @next t rest s s₁ s₂ r path h hnext hrest ih ihrest =>
    rw [hjob t (List.mem_cons_self ..)] at ih
    have hturn := ih (hshows.of_suffix hrest.journal) trivial rfl
    have hothers := ihrest hshows (fun t ht => hjob t (List.mem_cons_of_mem _ ht)) hr
    exact hturn.trans .trans hothers
  | unplaced h => cases hr
  | @placed reference c s s₁ s₂ r scope hfinds h hleave ih =>
    subst hr
    have hend : s₂.journal <:+ (s₂.closed (.ok a) scope).journal :=
      (s₂.extends_closed (.ok a) scope).journal
    have hvisited := hshows.of_suffix hend
    exact hfinds.echoes hM (hvisited.of_suffix h.journal) hjob (ih hvisited trivial rfl) hleave

end PageEngine
