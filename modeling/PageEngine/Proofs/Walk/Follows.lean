import PageEngine.Proofs.Walk.Likeness

/-! Walks that follow one another. A likeness between the states of two walks is a resemblance if
it also survives what happens between elements: moving the path, entering and leaving, finding
components, handing values over. Then two walks over the same elements take the same course. The
journals at the end may be known to have a property, and so may the spots that are open at the
beginning; the walks may differ in how deep they go, as long as neither is cut off. The proofs
follow the functions of the walk, one lemma for each. -/

namespace PageEngine

open Walk

/-- Whether a template or a content is visited at a spot. -/
def Spot.isExpanded (q : Spot) : Bool :=
  match q.occupant with
  | .component _ => true
  | .element (.tag _ .slot _) => true
  | _ => false

/-- What is known of the open spots stays true further inside, and becomes something else where a
template or a content is visited. -/
structure Deepens (D D' : List Spot → Prop) : Prop where
  inside : ∀ q outer, D outer → D (q :: outer)
  expanded : ∀ q outer, q.isExpanded = true → D outer → D' (q :: outer)

/-- Components that are found or made alike are entered alike, and failures are the same. -/
def FoundAlike (R : WalkState → WalkState → Prop) (key : String) (s t : WalkState) :
    Except EngineError Instance → Except EngineError Instance → Prop
  | .ok c, .ok d => d.template.root = c.template.root ∧ R (s.opened key c) (t.opened key d)
  | .error e, .error e' => e' = e ∧ R s t
  | _, _ => False

/-- Related states also agree in what happens between elements, as long as the journals have a
property. No switch is entered. -/
structure Resemblance (task : Task) (R : WalkState → WalkState → Prop) (P : List Step → Prop) : Prop
    extends Likeness task R where
  moved : ∀ {s t}, R s t → ∀ path, R { s with path } { t with path }
  entered : ∀ {s t}, R s t → ∀ e, R (s.entered task e) (t.entered task e)
  left : ∀ {s t}, R s t → R s.left t.left
  content : ∀ {s t}, R s t → t.scope.current.content = s.scope.current.content
  suspended : ∀ {s t scope scope'}, R s t → s.scope.suspend? = some scope →
    t.scope.suspend? = some scope' → R { s with scope } { t with scope := scope' }
  resumed : ∀ {s t scope scope'}, R s t → s.scope.resume? = some scope →
    t.scope.resume? = some scope' → R { s with scope } { t with scope := scope' }
  found : ∀ {s t s' t' reference r r'}, R s t → Finds task reference s r s' →
    Finds task reference t r' t' → P s'.journal → P t'.journal →
    FoundAlike R s.path.text s' t' r r'
  synchronized : ∀ {s t}, R s t → R s.synchronized t.synchronized
  closed : ∀ {s t scope scope'}, R s t → s.scope.leave? = some scope →
    t.scope.leave? = some scope' → R { s with scope } { t with scope := scope' }
  earlier : ∀ {journal earlier}, P journal → earlier <:+ journal → P earlier
  noSwitch : ∀ {site a bindings content standing scope earlier},
    ¬P (.enter (.tag site (.switch a bindings) content) standing scope :: earlier)

variable {task : Task} {R : WalkState → WalkState → Prop} {P : List Step → Prop}
  {D D' : List Spot → Prop} {T : Prop} {α : Type}

namespace Walk

/-- Two runs end with the same result in related states. A page in an answer is a new one, and
being cut off has a reason. -/
structure Agrees (task : Task) (R : WalkState → WalkState → Prop) (T : Prop)
    (run run' : Except EngineError (Option Answer) × WalkState) : Prop where
  result : run'.1 = run.1
  related : R run.2 run'.2
  cut : run.1 = .error .tooDeep → T
  fresh : ∀ answer, run.1 = .ok answer → Answer.IsFresh task.engine answer

/-- From related states and open spots of which something is known, the runs of two computations
agree if their journals have a property. -/
def Follows (task : Task) (R : WalkState → WalkState → Prop) (P : List Step → Prop)
    (D : List Spot → Prop) (T : Prop) (x y : Walk (Option Answer)) : Prop :=
  ∀ s t, R s t → D (openings s.journal) → P (x.runFrom s).2.journal → P (y.runFrom t).2.journal →
    Agrees task R T (x.runFrom s) (y.runFrom t)

/-- With a result, everything that was entered is left again. -/
def Closes (x : Walk (Option Answer)) : Prop :=
  ∀ s a, (x.runFrom s).1 = .ok a → openings (x.runFrom s).2.journal = openings s.journal

/-- The element entered last stands inside spots of which something is known. -/
def Inside (D : List Spot → Prop) (e : Element) (opened : List Spot) : Prop :=
  ∃ q outer, opened = q :: outer ∧ q.occupant = .element e ∧ D outer

/-! ### Rules -/

section Rules

variable {x y : Walk (Option Answer)} {f g : Option Answer → Walk (Option Answer)}

theorem Follows.of_imp (hx : Follows task R P D T x y) {E : List Spot → Prop}
    (hE : ∀ opened, E opened → D opened) : Follows task R P E T x y :=
  fun s t hst hopen => hx s t hst (hE _ hopen)

theorem Meets.agrees {s t : WalkState} {run run' : Except EngineError (Option Answer) × WalkState}
    (h : Meets R (Answer.IsFresh task.engine) s t run run') : Agrees task R T run run' :=
  ⟨h.result, h.related, fun hcut => absurd hcut h.uncut, h.returns⟩

theorem follows_of_mirrored (hx : Mirrored R (Answer.IsFresh task.engine) x) :
    Follows task R P D T x x :=
  fun s t hst _ _ _ => (hx s t hst).agrees

theorem follows_none : Follows task R P D T (pure none) (pure none) :=
  follows_of_mirrored Likeness.mirrored_none

theorem follows_pure {a : Option Answer} (ha : Answer.IsFresh task.engine a) :
    Follows task R P D T (pure a) (pure a) :=
  follows_of_mirrored (mirrored_pure ha)

/-- What an element does first is the same in both walks. -/
theorem follows_before {p : α → Prop} {z : Walk α} {f g : α → Walk (Option Answer)}
    (hz : Mirrored R p z) (hf : ∀ a, p a → Follows task R P D T (f a) (g a)) :
    Follows task R P D T (z >>= f) (z >>= g) := by
  intro s t hst hopen hleft hright
  have hmeets := hz s t hst
  rcases hs : z.runFrom s with ⟨r, s₁⟩
  rcases ht : z.runFrom t with ⟨r', t₁⟩
  rw [hs, ht] at hmeets
  obtain ⟨hresult, hrelated, haround, -, huncut, hreturns⟩ := hmeets
  obtain rfl : r' = r := hresult
  cases r' with
  | ok a =>
    rw [runFrom_bind_ok hs] at hleft ⊢
    rw [runFrom_bind_ok ht] at hright ⊢
    exact hf a (hreturns a rfl) s₁ t₁ hrelated (haround.openings ▸ hopen) hleft hright
  | error e =>
    rw [runFrom_bind_error hs, runFrom_bind_error ht]
    exact ⟨rfl, hrelated, fun hcut => absurd (congrArg Except.error (Except.error.inj hcut)) huncut,
      fun _ h => nomatch h⟩

/-- A computation goes on after another one that leaves what it entered. -/
theorem follows_then (hx : Follows task R P D T x y) (hcloses : Closes x)
    (hkeeps : ∀ a, KeepsEvents (f a)) (hkeeps' : ∀ a, KeepsEvents (g a))
    (hearlier : ∀ {journal earlier : List Step}, P journal → earlier <:+ journal → P earlier)
    (hf : ∀ a, Answer.IsFresh task.engine a → Follows task R P D T (f a) (g a)) :
    Follows task R P D T (x >>= f) (y >>= g) := by
  intro s t hst hopen hleft hright
  have hagrees := hx s t hst hopen
  have hback := hcloses s
  rcases hs : x.runFrom s with ⟨r, s₁⟩
  rcases ht : y.runFrom t with ⟨r', t₁⟩
  rw [hs, ht] at hagrees
  rw [hs] at hback
  -- Nothing is taken back after the first part, so its journal has the property too.
  have hmid : P s₁.journal := by
    rw [runFrom_bind, hs] at hleft
    cases r with
    | ok a => exact hearlier hleft (hkeeps a s₁)
    | error e => exact hleft
  have hmid' : P t₁.journal := by
    rw [runFrom_bind, ht] at hright
    cases r' with
    | ok a => exact hearlier hright (hkeeps' a t₁)
    | error e => exact hright
  obtain ⟨hresult, hrelated, hcut, hfresh⟩ := hagrees hmid hmid'
  obtain rfl : r' = r := hresult
  cases r' with
  | ok a =>
    rw [runFrom_bind_ok hs] at hleft ⊢
    rw [runFrom_bind_ok ht] at hright ⊢
    exact hf a (hfresh a rfl) s₁ t₁ hrelated (hback a rfl ▸ hopen) hleft hright
  | error e =>
    rw [runFrom_bind_error hs, runFrom_bind_error ht]
    exact ⟨rfl, hrelated, hcut, hfresh⟩

theorem closes_of_makes {job : Job} (hx : Makes task job x) : Closes x :=
  fun s a ha => (hx s _ _ rfl).openings_eq a ha

end Rules

end Walk

theorem Finds.ne_tooDeep {reference : Reference} {s s' : WalkState} {e : EngineError}
    (h : Finds task reference s (.error e) s') (hs : s.memory.Reachable task.engine) :
    (.error e : Except EngineError (Option Answer)) ≠ .error .tooDeep := by
  cases h with
  | failed hnone h =>
    rw [hs.fst_get] at h
    rintro ⟨⟩
    exact task.engine.compile_ne_tooDeep _ h

namespace Resemblance

variable (h : Resemblance task R P)

include h

omit h in
theorem onResult {s t : WalkState} {r : Except EngineError α} {f : WalkState → WalkState}
    (hst : R s t) (hf : R (f s) (f t)) : R (s.onResult r f) (t.onResult r f) := by
  cases r with
  | ok a => exact hf
  | error e => exact hst

/-- Both paths move in the same way. -/
theorem movedBy {s t : WalkState} (hst : R s t) (f : ElementPath → ElementPath) :
    R { s with path := f s.path } { t with path := f t.path } := by
  rw [h.path hst]
  exact h.moved hst _

theorem wroteAll {s t : WalkState} (hst : R s t) (writes : List (Association × Value)) :
    R (s.wrote writes) (t.wrote writes) := by
  induction writes generalizing s t with
  | nil => exact hst
  | cons w rest ih => exact ih (h.wrote hst w.1 w.2)

theorem mirrors_nextSibling : Mirrors R nextSibling := by
  intro s t hst
  cases hnext : s.path.next? with
  | none =>
    rw [runFrom_nextSibling_error hnext,
      runFrom_nextSibling_error ((congrArg _ (h.path hst)).trans hnext)]
    exact .error hst (.refl s) (.refl t) (nomatch ·)
  | some path =>
    rw [runFrom_nextSibling hnext, runFrom_nextSibling ((congrArg _ (h.path hst)).trans hnext)]
    exact .ok (h.moved hst path) (.of_journal_eq rfl) (.of_journal_eq rfl) trivial

theorem mirrors_enterBranch (index : UInt32) : Mirrors R (enterBranch index) :=
  mirrors_of_change (runFrom_enterBranch index) (fun _ => .of_journal_eq rfl) fun _ _ hst =>
    h.movedBy hst (·.enter index)

/-! ### Components -/

section Components

variable {expand expand' : Element → Walk (Option Answer)}
  (hD : Deepens D D') (hmakes : ∀ e, Makes task (.element e) (expand e))
  (hmakes' : ∀ e, Makes task (.element e) (expand' e))
  (hexpand : ∀ e, Follows task R P D' T (expand e) (expand' e))

include hmakes hmakes' hexpand

include hD in
theorem follows_inComponent (reference : Reference) :
    Follows task R P D T (inComponent task expand reference)
      (inComponent task expand' reference) := by
  intro s t hst hopen hleft hright
  have hfound : ∀ r r' s₁ t₁, (placed task reference).runFrom s = (r, s₁) →
      (placed task reference).runFrom t = (r', t₁) → P s₁.journal → P t₁.journal →
      FoundAlike R s.path.text s₁ t₁ r r' := fun r r' s₁ t₁ hp hp' =>
    h.found hst (finds_of_placed hp) (finds_of_placed hp')
  rcases runFrom_inComponent hmakes reference s with
    ⟨e, s₁, hp, hrun⟩ | ⟨c, s₁, r, s₂, scope, hp, hv, hleave, hrun⟩ <;>
  rcases runFrom_inComponent hmakes' reference t with
    ⟨e', t₁, hp', hrun'⟩ | ⟨d, t₁, r', t₂, scope', hp', hv', hleave', hrun'⟩ <;>
  rw [hrun] at hleft ⊢ <;> rw [hrun'] at hright ⊢
  · obtain ⟨rfl, hrelated⟩ := hfound _ _ _ _ hp hp' hleft hright
    have huncut := (finds_of_placed hp).ne_tooDeep (h.memory hst).1
    exact ⟨rfl, hrelated, fun hcut => absurd hcut huncut, fun _ ha => nomatch ha⟩
  · have hopened := (hmakes' _ _ _ _ hv').extends.trans (t₂.extends_closed r' scope')
    have hmid := h.earlier hright ((List.suffix_cons ..).trans hopened.journal)
    exact (hfound _ _ _ _ hp hp' hleft hmid).elim
  · have hopened := (hmakes _ _ _ _ hv).extends.trans (s₂.extends_closed r scope)
    have hmid := h.earlier hleft ((List.suffix_cons ..).trans hopened.journal)
    exact (hfound _ _ _ _ hp hp' hmid hright).elim
  · have hend := h.earlier hleft (s₂.extends_closed r scope).journal
    have hend' := h.earlier hright (t₂.extends_closed r' scope').journal
    have hopened := h.earlier hend (hmakes _ _ _ _ hv).journal
    have hopened' := h.earlier hend' (hmakes' _ _ _ _ hv').journal
    obtain ⟨hroot, hrelated⟩ := hfound _ _ _ _ hp hp'
      (h.earlier hopened (List.suffix_cons ..)) (h.earlier hopened' (List.suffix_cons ..))
    have hdeep : D' (openings (s₁.opened s.path.text c).journal) := by
      rw [show openings (s₁.opened s.path.text c).journal = openings s₁.journal from rfl,
        (finds_of_placed hp).openings_eq]
      exact hD.expanded _ _ rfl hopen
    rw [h.path hst, hroot] at hv'
    have hagrees := hexpand c.template.root _ _ hrelated hdeep
    rw [hv, hv'] at hagrees
    obtain ⟨hresult, hvisited, hcut, hfresh⟩ := hagrees hend hend'
    obtain rfl : r' = r := hresult
    have hsynced := onResult (r := r') hvisited (h.synchronized hvisited)
    have hclosed := h.closed hsynced hleave hleave'
    exact ⟨rfl, onResult hclosed (h.left hclosed), hcut, hfresh⟩

theorem follows_inCaller : Follows task R P D' T (inCaller expand) (inCaller expand') := by
  intro s t hst hopen hleft hright
  have hcontents := h.content hst
  have hdepths := h.depth hst
  have hpositive : ∀ {s scope : Scope}, s.suspend? = some scope → s.depth ≠ 0 := by
    intro s scope hsuspend hzero
    obtain ⟨f, hframes, -⟩ := Scope.frames_of_suspend hsuspend
    rw [Scope.depth, hframes] at hzero
    exact Nat.succ_ne_zero _ hzero
  rcases runFrom_inCaller hmakes s with
    ⟨hrun, hnone⟩ | ⟨e, scope, r, s₁, scope₁, hcontent, hsuspend, he, hresume, hrun⟩ <;>
  rcases runFrom_inCaller hmakes' t with
    ⟨hrun', hnone'⟩ | ⟨e', scope', r', t₁, scope₁', hcontent', hsuspend', he', hresume', hrun'⟩ <;>
  rw [hrun] at hleft ⊢ <;> rw [hrun'] at hright ⊢
  · exact ⟨rfl, hst, by rintro ⟨⟩, by rintro a ⟨⟩ c ⟨⟩⟩
  · rcases hnone with hzero | hnone
    · exact absurd (hdepths.trans hzero) (hpositive hsuspend')
    · exact absurd (hcontent'.symm.trans (hcontents.trans hnone)) (by simp)
  · rcases hnone' with hzero | hnone
    · exact absurd (hdepths.symm.trans hzero) (hpositive hsuspend)
    · exact absurd (hcontent.symm.trans (hcontents.symm.trans hnone)) (by simp)
  · obtain rfl : e' = e := Option.some.inj (hcontent'.symm.trans (hcontents.trans hcontent))
    have hagrees := hexpand e' _ _ (h.suspended hst hsuspend hsuspend') hopen
    rw [he, he'] at hagrees
    obtain ⟨hresult, hvisited, hcut, hfresh⟩ := hagrees hleft hright
    exact ⟨hresult, h.resumed hvisited hresume hresume', hcut, hfresh⟩

end Components

/-! ### Elements around a content -/

section Content

variable {inner inner' : Walk (Option Answer)} (hcloses : Closes inner)
  (hinner : Follows task R P D T inner inner')

include hinner

theorem follows_inForm : Follows task R P D T (Tag.inForm inner) (Tag.inForm inner') := by
  intro s t hst hopen hleft hright
  rw [runFrom_inForm] at hleft hright
  rw [runFrom_inForm, runFrom_inForm]
  obtain ⟨hresult, hrelated, hcut, hfresh⟩ := hinner _ _ (h.form hst true) hopen hleft hright
  exact ⟨hresult, h.form hrelated false, hcut, hfresh⟩

include hcloses

/-- A text is printed after the content. -/
theorem follows_print (text : String) :
    Follows task R P D T
      (do
        let result ← inner
        print text
        return result)
      (do
        let result ← inner'
        print text
        return result) :=
  follows_then hinner hcloses (fun _ _ => List.suffix_refl _)
    (fun _ _ => List.suffix_refl _) h.earlier fun _ ha =>
      follows_of_mirrored (mirrors_bind (h.mirrors_print text) fun _ => mirrored_pure ha)

theorem follows_renderContainer (name : Association) (bindings : Associations) :
    Follows task R P D T (Tag.renderContainer name bindings inner)
      (Tag.renderContainer name bindings inner') := by
  refine follows_before (h.mirrors_read name) fun v _ => ?_
  split
  · exact hinner
  · refine follows_before (h.mirrors_attributes bindings) fun attributes _ => ?_
    refine follows_before (h.mirrors_print _) fun _ _ => ?_
    exact h.follows_print hcloses hinner _

theorem follows_renderHyperlink (target : LinkTarget) (bindings : Associations) :
    Follows task R P D T (Tag.renderHyperlink target bindings inner)
      (Tag.renderHyperlink target bindings inner') := by
  have haddressed : Follows task R P D T _ _ :=
    follows_before (h.mirrors_startTag "a" "href" [] bindings) fun _ _ =>
      h.follows_print hcloses hinner (Html.endTag "a")
  cases target with
  | href url =>
    refine follows_before (h.mirrors_read url) fun v _ => ?_
    refine follows_before (h.mirrors_attributes bindings) fun attributes _ => ?_
    refine follows_before (h.mirrors_print _) fun _ _ => ?_
    exact h.follows_print hcloses hinner _
  | _ =>
    simp only [bind_assoc, List.nil_append] at haddressed
    simpa only [Tag.renderHyperlink, bind_assoc, pure_bind] using haddressed

theorem follows_renderForm (bindings : Associations) :
    Follows task R P D T (Tag.renderForm bindings inner) (Tag.renderForm bindings inner') := by
  have hclosed : Closes (Tag.inForm inner) := by
    intro s a ha
    rw [runFrom_inForm] at ha ⊢
    exact hcloses _ a ha
  have haddressed : Follows task R P D T _ _ :=
    follows_before (h.mirrors_startTag "form" "action" [("method", .text "post")] bindings)
      fun _ _ => h.follows_print hclosed (h.follows_inForm hinner) (Html.endTag "form")
  simp only [bind_assoc, List.cons_append, List.nil_append] at haddressed
  simpa only [Tag.renderForm, bind_assoc, List.cons_append, List.nil_append] using haddressed

omit hcloses in
theorem follows_invokeForm (hphase : task.phase = .invokeAction) (action : Option Association)
    (hasContent : Bool) :
    Follows task R P D T (Tag.invokeForm task action hasContent inner)
      (Tag.invokeForm task action hasContent inner') := by
  refine follows_before h.mirrors_isSender fun sender _ => ?_
  split
  · split
    · exact follows_of_mirrored (h.mirrored_invoke hphase _)
    · split
      · exact h.follows_inForm hinner
      · exact follows_none
  · exact follows_none

end Content

/-! ### Repetitions -/

section Repetition

variable {inner inner' : Walk (Option Answer)} {c : Option Element}
  (hmakes : Makes task (.content c) inner) (hmakes' : Makes task (.content c) inner')
  (hinner : Follows task R P D T inner inner')

include hmakes hmakes' hinner

theorem follows_repeatItems (item index : Option Association) (i : Nat) (items : List Value) :
    Follows task R P D T (Tag.repeatItems item index inner i items)
      (Tag.repeatItems item index inner' i items) := by
  induction items generalizing i with
  | nil => exact follows_none
  | cons v rest ih =>
    have hturn : Follows task R P D T (Tag.turn item index inner i v)
        (Tag.turn item index inner' i v) :=
      follows_before (h.mirrors_write? _ _) fun _ _ =>
        follows_before (h.mirrors_write? _ _) fun _ _ => hinner
    have hcloses : Closes (Tag.turn item index inner i v) := by
      intro s a ha
      rw [Tag.runFrom_turn (c := c)] at ha ⊢
      exact (closes_of_makes hmakes _ a ha).trans
        (acts_openings (WalkState.acts_wrote task s _))
    have hrest := keepsEvents_next
      (keepsEvents_of_makes (Tag.makes_repeatItems hmakes item index rest (i + 1)))
    have hrest' := keepsEvents_next
      (keepsEvents_of_makes (Tag.makes_repeatItems hmakes' item index rest (i + 1)))
    refine follows_then hturn hcloses (fun result => ?_) (fun result => ?_) h.earlier
      fun result hresult => ?_
    · cases result with
      | some answer => exact keepsEvents_pure _
      | none => exact hrest
    · cases result with
      | some answer => exact keepsEvents_pure _
      | none => exact hrest'
    · cases result with
      | some answer => exact follows_pure hresult
      | none => exact follows_before h.mirrors_nextSibling fun _ _ => ih (i + 1)

theorem follows_turns (source : RepetitionSource) (item index : Option Association) :
    Follows task R P D T (Tag.turns source item index inner)
      (Tag.turns source item index inner') := by
  cases source with
  | list a =>
    refine follows_before (h.mirrors_read a) fun v _ => ?_
    refine follows_before (h.mirrors_enterBranch 0) fun _ _ => ?_
    exact h.follows_repeatItems hmakes hmakes' hinner item index 0 _
  | count a =>
    refine follows_before (h.mirrors_read a) fun v _ => ?_
    refine follows_before (h.mirrors_enterBranch 0) fun _ _ => ?_
    rw [Tag.repeatTimes_eq, Tag.repeatTimes_eq]
    exact h.follows_repeatItems hmakes hmakes' hinner none index 0 _

theorem follows_repeated (source : RepetitionSource) (item index : Option Association) :
    Follows task R P D T (Tag.repeated source item index inner)
      (Tag.repeated source item index inner') := by
  intro s t hst hopen hleft hright
  have hagrees := h.follows_turns hmakes hmakes' hinner source item index s t hst hopen
  rcases hs : (Tag.turns source item index inner).runFrom s with ⟨r, s₁⟩
  rcases ht : (Tag.turns source item index inner').runFrom t with ⟨r', t₁⟩
  rw [hs, ht] at hagrees
  have hend : ∀ (r : Except EngineError (Option Answer)) (s : WalkState),
      s.journal <:+ ((s.onResult r .climbed).wrote (finalWrites r item)).journal := fun r s =>
    (WalkState.journal_onResult (f := .climbed) (List.suffix_refl _)).trans
      (acts_journal (WalkState.acts_wrote task _ _))
  rw [Tag.runFrom_repeated hmakes source item index hs] at hleft ⊢
  rw [Tag.runFrom_repeated hmakes' source item index ht] at hright ⊢
  obtain ⟨hresult, hrelated, hcut, hfresh⟩ :=
    hagrees (h.earlier hleft (hend r s₁)) (h.earlier hright (hend r' t₁))
  obtain rfl : r' = r := hresult
  have hclimbed := onResult (r := r') (f := .climbed) hrelated (h.movedBy hrelated .up)
  exact ⟨rfl, h.wroteAll hclimbed _, hcut, hfresh⟩

end Repetition

/-! ### All tags and elements -/

section Visit

variable {expand expand' : Element → Walk (Option Answer)}
  (hD : Deepens D D') (hmakes : ∀ e, Makes task (.element e) (expand e))
  (hmakes' : ∀ e, Makes task (.element e) (expand' e))
  (hexpand : ∀ e, Follows task R P D' T (expand e) (expand' e))

include hD hmakes hmakes' hexpand

/-- A tag other than a switch is visited alike. -/
theorem follows_tag {site : Site} {t : Tag} {c : Option Element}
    {inner inner' : Walk (Option Answer)} (hinner : Makes task (.content c) inner)
    (hinner' : Makes task (.content c) inner') (hfollows : Follows task R P D T inner inner')
    (hswitch : ∀ a bindings, t ≠ .switch a bindings) :
    Follows task R P (Inside D (.tag site t c)) T (t.visit task expand site c inner)
      (t.visit task expand' site c inner') := by
  have houter : ∀ opened, Inside D (.tag site t c) opened → D opened := by
    rintro opened ⟨q, outer, rfl, -, houter⟩
    exact hD.inside q outer houter
  have hcloses := closes_of_makes hinner
  cases t with
  | conditional condition negate =>
    have hvisible := h.mirrors_isVisible condition negate
    refine .of_imp (follows_before hvisible fun visible _ => ?_) houter
    split
    · exact hfollows
    · exact follows_none
  | repetition source item index =>
    exact .of_imp (h.follows_repeated hinner hinner' hfollows source item index) houter
  | switch a bindings => exact absurd rfl (hswitch a bindings)
  | slot =>
    refine .of_imp (h.follows_inCaller hmakes hmakes' hexpand) ?_
    rintro opened ⟨q, outer, rfl, hocc, houter⟩
    exact hD.expanded q outer (by rw [Spot.isExpanded, hocc]) houter
  | container name bindings =>
    simp only [Tag.visit]
    split
    · exact .of_imp (h.follows_renderContainer hcloses hfollows name bindings) houter
    · exact .of_imp hfollows houter
  | hyperlink target bindings =>
    simp only [Tag.visit]
    split
    · exact .of_imp hfollows houter
    · rename_i hphase
      refine .of_imp (follows_before h.mirrors_isSender fun sender _ => ?_) houter
      split
      · exact follows_of_mirrored (h.mirrored_followLink hphase target)
      · exact hfollows
    · exact .of_imp (h.follows_renderHyperlink hcloses hfollows target bindings) houter
  | form action bindings =>
    simp only [Tag.visit]
    split
    · split
      · exact .of_imp (h.follows_inForm hfollows) houter
      · exact follows_none
    · rename_i hphase
      exact .of_imp (h.follows_invokeForm hfollows hphase action c.isSome) houter
    · exact .of_imp (h.follows_renderForm hcloses hfollows bindings) houter
  | component name bindings =>
    exact .of_imp (h.follows_inComponent hD hmakes hmakes' hexpand ⟨name, bindings, c⟩) houter
  | marker describe value =>
    exact .of_imp (follows_before (h.mirrors_mark describe value) fun _ _ => hfollows) houter
  | _ => exact follows_of_mirrored (h.mirrored_visit rfl)

omit hD hmakes hmakes' hexpand in
/-- Elements other than switches are entered and left alike. -/
theorem follows_entered {e : Element} {x y : Walk (Option Answer)}
    (hx : Makes task (.body e) x) (hy : Makes task (.body e) y)
    (hfollows : (∀ site a bindings c, e ≠ .tag site (.switch a bindings) c) →
      Follows task R P (Inside D e) T x y) :
    Follows task R P D T
      (do
        enterElement task e
        let result ← x
        record .leave
        return result)
      (do
        enterElement task e
        let result ← y
        record .leave
        return result) := by
  intro s t hst hopen hleft hright
  rw [Element.runFrom_entered] at hleft hright ⊢
  rw [Element.runFrom_entered]
  rcases hs : x.runFrom (s.entered task e) with ⟨r, s₁⟩
  rcases ht : y.runFrom (t.entered task e) with ⟨r', t₁⟩
  rw [hs] at hleft
  rw [ht] at hright
  have hend : ∀ (r : Except EngineError (Option Answer)) (s : WalkState),
      s.journal <:+ (s.onResult r .left).journal := fun r s =>
    WalkState.journal_onResult (f := .left) (List.suffix_cons ..)
  have hmid := h.earlier hleft (hend r s₁)
  have hmid' := h.earlier hright (hend r' t₁)
  have hswitch : ∀ site a bindings c, e ≠ .tag site (.switch a bindings) c := by
    rintro site a bindings c rfl
    exact h.noSwitch (h.earlier hmid (hx _ _ _ hs).journal)
  have hagrees := hfollows hswitch _ _ (h.entered hst e) ⟨_, _, rfl, rfl, hopen⟩
  rw [hs, ht] at hagrees
  obtain ⟨hresult, hrelated, hcut, hfresh⟩ := hagrees hmid hmid'
  obtain rfl : r' = r := hresult
  exact ⟨rfl, onResult hrelated (h.left hrelated), hcut, hfresh⟩

omit hmakes hmakes' hexpand in
theorem follows_onBranch {children : List Element} {x y : Walk (Option Answer)}
    (hx : Makes task (.row (children.map .child)) x)
    (hy : Makes task (.row (children.map .child)) y) (hfollows : Follows task R P D T x y) :
    Follows task R P (Inside D (.group children)) T
      (do
        enterBranch 0
        let result ← x
        leaveBranch
        return result)
      (do
        enterBranch 0
        let result ← y
        leaveBranch
        return result) := by
  intro s t hst hopen hleft hright
  rw [Element.runFrom_onBranch hx] at hleft ⊢
  rw [Element.runFrom_onBranch hy] at hright ⊢
  have hagrees := hfollows { s with path := s.path.enter 0 } { t with path := t.path.enter 0 }
    (h.movedBy hst (·.enter 0)) (by
      obtain ⟨q, outer, hq, -, houter⟩ := hopen
      exact (congrArg D hq).mpr (hD.inside q outer houter))
  rcases hs : x.runFrom { s with path := s.path.enter 0 } with ⟨r, s₁⟩
  rcases ht : y.runFrom { t with path := t.path.enter 0 } with ⟨r', t₁⟩
  rw [hs] at hleft hagrees
  rw [ht] at hright hagrees
  have hend : ∀ (r : Except EngineError (Option Answer)) (s : WalkState),
      s.journal <:+ (s.onResult r .climbed).journal := fun r s =>
    WalkState.journal_onResult (f := .climbed) (List.suffix_refl _)
  obtain ⟨hresult, hrelated, hcut, hfresh⟩ :=
    hagrees (h.earlier hleft (hend r s₁)) (h.earlier hright (hend r' t₁))
  obtain rfl : r' = r := hresult
  exact ⟨rfl, onResult hrelated (h.movedBy hrelated .up), hcut, hfresh⟩

end Visit

end Resemblance

namespace Resemblance

mutual

theorem follows_visit (h : Resemblance task R P) (hD : Deepens D D')
    {expand expand' : Element → Walk (Option Answer)}
    (hmakes : ∀ e, Makes task (.element e) (expand e))
    (hmakes' : ∀ e, Makes task (.element e) (expand' e))
    (hexpand : ∀ e, Follows task R P D' T (expand e) (expand' e)) :
    ∀ e : Element, Follows task R P D T (e.visit task expand) (e.visit task expand')
  | .text shown => by
    intro s t hst hopen hleft hright
    have hentered := h.entered hst (.text shown)
    by_cases hphase : task.phase = .render
    · have hrun : ∀ expand s, (Element.visit task expand (.text shown)).runFrom s =
          (.ok none, { s.entered task (.text shown) with
            response := s.response.append shown }.left) := by
        intro expand s
        rw [Element.visit, runFrom_bind_ok (runFrom_enterElement task _ s), if_pos hphase]
        rfl
      rw [hrun, hrun]
      exact ⟨rfl, h.left (h.printed hentered shown), (nomatch ·), by rintro a ⟨⟩ c ⟨⟩⟩
    · have hrun : ∀ expand s, (Element.visit task expand (.text shown)).runFrom s =
          (.ok none, (s.entered task (.text shown)).left) := by
        intro expand s
        rw [Element.visit, runFrom_bind_ok (runFrom_enterElement task _ s), if_neg hphase]
        rfl
      rw [hrun, hrun]
      exact ⟨rfl, h.left hentered, (nomatch ·), by rintro a ⟨⟩ c ⟨⟩⟩
  | .group children => by
    have hrow := Element.makes_visitAll hmakes children
    have hrow' := Element.makes_visitAll hmakes' children
    have hentered := h.follows_entered (Element.makes_onBranch hrow) (Element.makes_onBranch hrow')
      fun _ => h.follows_onBranch hD hrow hrow'
        (follows_visitAll h hD hmakes hmakes' hexpand children)
    rw [Element.visit, Element.visit]
    simpa only [bind_assoc, pure_bind] using hentered
  | .tag site t content => by
    have hinner := Element.makes_visitContent hmakes content
    have hinner' := Element.makes_visitContent hmakes' content
    exact h.follows_entered (Tag.makes_visit hmakes hinner t) (Tag.makes_visit hmakes' hinner' t)
      fun hswitch => h.follows_tag hD hmakes hmakes' hexpand hinner hinner'
        (follows_visitContent h hD hmakes hmakes' hexpand content)
        fun a bindings ht => hswitch site a bindings content (ht ▸ rfl)

theorem follows_visitAll (h : Resemblance task R P) (hD : Deepens D D')
    {expand expand' : Element → Walk (Option Answer)}
    (hmakes : ∀ e, Makes task (.element e) (expand e))
    (hmakes' : ∀ e, Makes task (.element e) (expand' e))
    (hexpand : ∀ e, Follows task R P D' T (expand e) (expand' e)) :
    ∀ es : List Element,
      Follows task R P D T (Element.visitAll task expand es) (Element.visitAll task expand' es)
  | [] => follows_none
  | e :: es => by
    have hrest := keepsEvents_next (keepsEvents_of_makes (Element.makes_visitAll hmakes es))
    have hrest' := keepsEvents_next (keepsEvents_of_makes (Element.makes_visitAll hmakes' es))
    refine follows_then (follows_visit h hD hmakes hmakes' hexpand e)
      (closes_of_makes (Element.makes_visit hmakes e)) (fun result => ?_) (fun result => ?_)
      h.earlier fun result hresult => ?_
    · cases result with
      | some answer => exact keepsEvents_pure _
      | none => exact hrest
    · cases result with
      | some answer => exact keepsEvents_pure _
      | none => exact hrest'
    · cases result with
      | some answer => exact follows_pure hresult
      | none =>
        exact follows_before h.mirrors_nextSibling fun _ _ =>
          follows_visitAll h hD hmakes hmakes' hexpand es

theorem follows_visitContent (h : Resemblance task R P) (hD : Deepens D D')
    {expand expand' : Element → Walk (Option Answer)}
    (hmakes : ∀ e, Makes task (.element e) (expand e))
    (hmakes' : ∀ e, Makes task (.element e) (expand' e))
    (hexpand : ∀ e, Follows task R P D' T (expand e) (expand' e)) :
    ∀ c : Option Element, Follows task R P D T (Element.visitContent task expand c)
      (Element.visitContent task expand' c)
  | none => follows_none
  | some e => follows_visit h hD hmakes hmakes' hexpand e

end

/-- Walks with the same limit are cut off alike. -/
theorem follows_visitWithin (h : Resemblance task R P) (limit : Nat) (e : Element) :
    Follows task R P (fun _ => True) True (e.visitWithin task limit)
      (e.visitWithin task limit) := by
  induction limit generalizing e with
  | zero => exact fun s t hst _ _ _ => ⟨rfl, hst, fun _ => trivial, fun _ ha => nomatch ha⟩
  | succ limit ih =>
    have hmakes : ∀ e, Makes task (.element e) (e.visitWithin task limit) :=
      Element.makes_visitWithin limit
    exact h.follows_visit ⟨fun _ _ => id, fun _ _ _ => id⟩ hmakes hmakes ih e

end Resemblance

end PageEngine
