import PageEngine.Proofs.Walk.Visits

/-! Where events come from. Acts enter no elements, so that every element in the journal was
entered by a visit of its own, which began with the journal and the scope of that moment. -/

namespace PageEngine

variable {task : Task} {s s' : WalkState} {job : Job} {r : Except EngineError (Option Answer)}

theorem Act.enter_suffix {w : Bool} (h : Act task w s s') {e : Element} {standing : Standing}
    {scope : Scope} {earlier : List Step} (hs : .enter e standing scope :: earlier <:+ s'.journal) :
    .enter e standing scope :: earlier <:+ s.journal := by
  have hcons : ∀ {step : Step}, .enter e standing scope :: earlier <:+ step :: s.journal →
      (∀ e standing scope, step ≠ .enter e standing scope) →
      .enter e standing scope :: earlier <:+ s.journal := by
    intro step hs hstep
    rcases List.suffix_cons_iff.1 hs with heq | hs
    · exact absurd (List.cons.inj heq).1.symm (hstep _ _ _)
    · exact hs
  cases h with
  | write a v h => exact hcons hs (by simp)
  | follow a h => exact hcons hs (by simp)
  | perform a h => exact hcons hs (by simp)
  | _ => exact hs

theorem acts_enter_suffix {w : Bool} (h : Acts task w s s') {e : Element} {standing : Standing}
    {scope : Scope} {earlier : List Step} (hs : .enter e standing scope :: earlier <:+ s'.journal) :
    .enter e standing scope :: earlier <:+ s.journal := by
  induction h with
  | refl => exact hs
  | tail _ hact ih => exact ih (hact.enter_suffix hs)

theorem enter_suffix_onResult {α : Type} {r : Except EngineError α} {f : WalkState → WalkState}
    {e : Element} {standing : Standing} {scope : Scope} {earlier : List Step}
    (hf : (f s).journal = .leave :: s.journal ∨ (f s).journal = s.journal)
    (hs : .enter e standing scope :: earlier <:+ (s.onResult r f).journal) :
    .enter e standing scope :: earlier <:+ s.journal := by
  cases r with
  | error e => exact hs
  | ok a =>
    have hs' : .enter e standing scope :: earlier <:+ (f s).journal := hs
    rcases hf with hf | hf
    · rw [hf] at hs'
      rcases List.suffix_cons_iff.1 hs' with heq | hs'
      · cases heq
      · exact hs'
    · rwa [hf] at hs'

theorem enter_suffix_synchronized {α : Type} {r : Except EngineError α} {e : Element}
    {standing : Standing} {scope : Scope} {earlier : List Step}
    (hs : .enter e standing scope :: earlier <:+ (s.onResult r .synchronized).journal) :
    .enter e standing scope :: earlier <:+ s.journal := by
  cases r with
  | error e => exact hs
  | ok a =>
    have hs' : .enter e standing scope :: earlier <:+ s.synchronized.journal := hs
    unfold WalkState.synchronized at hs'
    split at hs'
    · rcases List.suffix_cons_iff.1 hs' with heq | hs'
      · cases heq
      · exact hs'
    · exact hs'

theorem Finds.enter_suffix {reference : Reference} {r : Except EngineError Instance}
    (h : Finds task reference s r s') {e : Element} {standing : Standing} {scope : Scope}
    {earlier : List Step} (hs : .enter e standing scope :: earlier <:+ s'.journal) :
    .enter e standing scope :: earlier <:+ s.journal := by
  have hplace : ∀ {found}, .enter e standing scope :: earlier <:+
      .place reference s.path s.scope found :: s.journal →
      .enter e standing scope :: earlier <:+ s.journal := by
    intro found hs
    rcases List.suffix_cons_iff.1 hs with heq | hs
    · cases heq
    · exact hs
  cases h <;> exact hplace hs

/-- An element was visited, from the moment when it was entered up to some later one; what the
visit recorded and printed is still there, and an answer or an error of its is the result. -/
def VisitedIn (task : Task) (e : Element) (standing : Standing) (scope : Scope)
    (earlier : List Step) (r : Except EngineError (Option Answer)) (stop : WalkState) : Prop :=
  ∃ (t t' : WalkState) (r' : Except EngineError (Option Answer)),
    (t.entered task e).journal = .enter e standing scope :: earlier ∧
      Visits task (.body e) (t.entered task e) r' t' ∧ t'.Extends stop ∧ (r' ≠ .ok none → r = r')

namespace VisitedIn

variable {e : Element} {standing : Standing} {scope : Scope} {earlier : List Step}

theorem mono (h : VisitedIn task e standing scope earlier r s) (hs : s.Extends s') :
    VisitedIn task e standing scope earlier r s' := by
  obtain ⟨t, t', r', hentered, hvisits, hend, hresult⟩ := h
  exact ⟨t, t', r', hentered, hvisits, hend.trans hs, hresult⟩

/-- After a visit without a result any other may follow. -/
theorem before (h : VisitedIn task e standing scope earlier (.ok none) s) (hs : s.Extends s')
    (r : Except EngineError (Option Answer)) : VisitedIn task e standing scope earlier r s' := by
  obtain ⟨t, t', r', hentered, hvisits, hend, hresult⟩ := h
  exact ⟨t, t', r', hentered, hvisits, hend.trans hs, fun hr => absurd (hresult hr).symm hr⟩

theorem endsRow (h : VisitedIn task e standing scope earlier r s)
    {r' : Except EngineError (Option Answer)} (hstop : EndsRow r s r') :
    VisitedIn task e standing scope earlier r' s := by
  cases hstop with
  | returned hr => exact h
  | overflow hr hnext =>
    subst hr
    exact h.before (.refl s) _

end VisitedIn

/-- Every element that a visit enters has a visit of its own inside. -/
theorem Visits.visitedIn (h : Visits task job s r s') {e : Element} {standing : Standing}
    {scope : Scope} {earlier : List Step}
    (hs : .enter e standing scope :: earlier <:+ s'.journal) :
    .enter e standing scope :: earlier <:+ s.journal ∨
      VisitedIn task e standing scope earlier r s' := by
  have hclimbs : ∀ s : WalkState, s.Extends s.climbed := fun s =>
    .of_response_eq (List.suffix_refl _) rfl rfl
  induction h with
  | tooDeep e s => exact .inl hs
  | @entered e₀ s s' r h ih =>
    have hleft := WalkState.extends_onResult r s'.extends_left
    rcases ih (enter_suffix_onResult (.inl rfl) hs) with hs | hvisited
    · rcases List.suffix_cons_iff.1 hs with heq | hs
      · cases heq
        exact .inr ⟨s, s', r, rfl, h, hleft, fun _ => rfl⟩
      · exact .inl hs
    · exact .inr (hvisited.mono hleft)
  | text h => exact .inl (acts_enter_suffix h hs)
  | @group children s s' r h ih =>
    refine (ih (enter_suffix_onResult (.inr rfl) hs)).imp_right fun hvisited => ?_
    exact hvisited.mono (WalkState.extends_onResult r (hclimbs s'))
  | own hrun h => exact .inl (acts_enter_suffix h hs)
  | wrap ht hopens hbefore hbegins h hafter ih =>
    have hinside := ih (acts_enter_suffix hafter hs)
    refine hinside.imp (fun hs => acts_enter_suffix hbefore hs) fun hvisited => ?_
    have hend := acts_extends hafter
    exact hvisited.mono ⟨hend.journal, hend.content, hend.contextId⟩
  | @repetition site source item index c s s' r h ih =>
    have hwrote := WalkState.acts_wrote task (s'.onResult r .climbed) (finalWrites r item)
    have hinside := enter_suffix_onResult (.inr rfl) (acts_enter_suffix hwrote hs)
    refine (ih hinside).imp_right fun hvisited => hvisited.mono ?_
    exact (WalkState.extends_onResult r (hclimbs s')).trans (acts_extends hwrote)
  | slot hcontent hsuspend h hresume ih =>
    exact (ih hs).imp_right fun hvisited =>
      hvisited.mono (.of_response_eq (List.suffix_refl _) rfl rfl)
  | reference h ih => exact ih hs
  | @switch site a name bindings c index s s' r hname hindex h ih =>
    exact (ih hs).imp_right fun hvisited => hvisited.mono (hclimbs s')
  | nothing s => exact .inl hs
  | something h ih => exact ih hs
  | done s => exact .inl hs
  | stop h hstop ih =>
    exact (ih hs).imp (acts_enter_suffix (WalkState.acts_wrote task _ _)) (·.endsRow hstop)
  | next h hnext hrest ih ihrest =>
    rcases ihrest hs with hs | hvisited
    · refine (ih hs).imp (acts_enter_suffix (WalkState.acts_wrote task _ _)) fun hvisited => ?_
      have hlater := hrest.extends
      exact hvisited.before ⟨hlater.journal, hlater.content, hlater.contextId⟩ _
    · exact .inr hvisited
  | unplaced h => exact .inl (h.enter_suffix hs)
  | @placed reference c s s₁ s₂ r scope hfinds h hleave ih =>
    have hinside := enter_suffix_onResult (.inl rfl) hs
    rcases ih (enter_suffix_synchronized hinside) with hs | hvisited
    · rcases List.suffix_cons_iff.1 hs with heq | hs
      · cases heq
      · exact .inl (hfinds.enter_suffix hs)
    · exact .inr (hvisited.mono (s₂.extends_closed r scope))

end PageEngine
