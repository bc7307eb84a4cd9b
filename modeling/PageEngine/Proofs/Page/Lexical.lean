import PageEngine.Proofs.Component.Handover
import PageEngine.Proofs.Page.History

/-! Whose template is visited. Along a trail the template of a component puts that component
around what is written in it, and a slot leads back to the one around the tag. The current
component of a walk is always the one whose template is expanded, and the values of a
component pass to and from the one in whose template its tag is written. -/

namespace PageEngine

/-- The keys of the components around what lies directly inside a spot, given those around the
spot. The template of a component lies inside the component; a slot leads back out of one. -/
def Spot.inward (keys : List String) (q : Spot) : List String :=
  match q.occupant with
  | .component _ => q.path.text :: keys
  | .element (.tag _ .slot _) => keys.tail
  | .element _ => keys

/-- The keys of the components whose templates are expanded at the end of a trail, innermost
first. -/
def expanding : List Spot → List String
  | [] => []
  | [_] => []
  | _ :: q :: outer => q.inward (expanding (q :: outer))

/-- The contents of the references in a chain are written where the references are. -/
def ContentsWritten (root : Template) : List Placement → Prop
  | [] => True
  | p :: outer => (∀ e, p.reference.content = some e → e.Occurs (templateIn root outer).root) ∧
    ContentsWritten root outer

/-- What stands at a spot is written in the template of the component around it. -/
def Spot.IsWritten (root : Template) (q : Spot) : Prop :=
  ContentsWritten root q.chain ∧ match q.occupant with
    | .element e => e.Occurs (templateIn root q.chain).root
    | .component reference =>
      ∀ e, reference.content = some e → e.Occurs (templateIn root q.chain).root

/-- The tag of an element asks for a component. -/
def Element.Asks (reference : Reference) : Element → Prop
  | .tag _ (.component name bindings) content => reference = ⟨name, bindings, content⟩
  | .tag _ (.switch _ bindings) content =>
    reference.bindings = bindings ∧ reference.content = content
  | _ => False

variable {M : Memory} {root : Template} {q q' : Spot} {outer trail : List Spot}

theorem Element.occurs_onBranch {e inner : Element} {i : Nat} (h : e.onBranch? i = some inner) :
    inner.Occurs e := by
  unfold Element.onBranch? at h
  split at h
  · exact .child (List.mem_of_getElem? h) .here
  · rw [h]
    exact .content .here
  · cases h

theorem Element.occurs_wrapped {e inner : Element} (h : e.wrapped? = some inner) :
    inner.Occurs e := by
  unfold Element.wrapped? at h
  split at h
  · split at h
    · rw [h]
      exact .content .here
    · cases h
  · cases h

theorem Inner.isWritten (h : Inner M q q') (hq : q.IsWritten root) : q'.IsWritten root := by
  obtain ⟨hchain, hocc⟩ := hq
  cases h with
  | branch i h => exact ⟨hchain, (Element.occurs_onBranch h).trans hocc⟩
  | wrapped h => exact ⟨hchain, (Element.occurs_wrapped h).trans hocc⟩
  | content h => exact ⟨hchain.2, hchain.1 _ h⟩
  | reference =>
    refine ⟨hchain, fun e he => ?_⟩
    obtain rfl := he
    exact (Element.Occurs.content .here).trans hocc
  | switch h =>
    refine ⟨hchain, fun e he => ?_⟩
    obtain rfl := he
    exact (Element.Occurs.content .here).trans hocc
  | template h => exact ⟨⟨hocc, hchain⟩, .here⟩

theorem Trail.isWritten (h : Trail M root (q :: outer)) : q.IsWritten root := by
  generalize htrail : q :: outer = trail at h
  induction h generalizing q outer with
  | nil => cases htrail
  | page =>
    cases htrail
    exact ⟨trivial, .here⟩
  | inner h hi ih =>
    cases htrail
    exact hi.isWritten (ih rfl)

theorem Inner.inward {keys : List String} (h : Inner M q q')
    (hq : q.chain.map Placement.key = keys) : q'.chain.map Placement.key = q.inward keys := by
  subst hq
  cases h with
  | @branch path chain e inner i h =>
    unfold Element.onBranch? at h
    split at h
    · rfl
    · rfl
    · cases h
  | @wrapped path chain e inner h =>
    unfold Element.wrapped? at h
    split at h
    · rename_i t content
      cases t <;> first | rfl | cases h
    · cases h
  | content h => rfl
  | reference => rfl
  | switch h => rfl
  | template h => rfl

/-- The chain around a spot is told by the trail to it. -/
theorem Trail.keys_chain (h : Trail M root (q :: outer)) :
    q.chain.map Placement.key = expanding (q :: outer) := by
  generalize htrail : q :: outer = trail at h
  induction h generalizing q outer with
  | nil => cases htrail
  | page =>
    cases htrail
    rfl
  | inner h hi ih =>
    cases htrail
    exact hi.inward (ih rfl)

/-- A component lies inside a tag that asks for it. -/
theorem Trail.asks {path : ElementPath} {chain : List Placement} {reference : Reference}
    (h : Trail M root (⟨path, chain, .component reference⟩ :: outer)) :
    ∃ path' e rest, outer = ⟨path', chain, .element e⟩ :: rest ∧ e.Asks reference := by
  cases h with
  | inner h hi =>
    cases hi with
    | reference => exact ⟨_, _, _, rfl, rfl⟩
    | switch h => exact ⟨_, _, _, rfl, rfl, rfl⟩

/-! ### The templates of the components around a spot -/

/-- Every placement in a chain has the template of its name. -/
def ChainCompiled (M : Memory) (chain : List Placement) : Prop :=
  ∀ p ∈ chain, Dictionary.get? p.reference.name M.templates = some (.ok p.template)

theorem Trail.chainCompiled (h : Trail M root (q :: outer)) : ChainCompiled M q.chain := by
  generalize htrail : q :: outer = trail at h
  induction h generalizing q outer with
  | nil => cases htrail
  | page =>
    cases htrail
    simp [ChainCompiled]
  | inner hq hi ih =>
    cases htrail
    have hchain := ih rfl
    cases hi with
    | content hc => exact fun p hp => hchain p (List.mem_cons_of_mem _ hp)
    | template ht =>
      intro p hp
      rcases List.mem_cons.1 hp with rfl | hp
      · exact ht
      · exact hchain p hp
    | _ => exact hchain

/-- The scope of the caller of the current component. -/
def Scope.outside (s : Scope) : Scope := { s with frames := s.frames.tail }

theorem Scope.outside_enter {s : Scope} {f : Frame} {outer : List Frame}
    (h : s.frames = f :: outer) : s.outside.enter f.key f.component = s := by
  obtain ⟨page, frames, suspended⟩ := s
  obtain rfl : frames = f :: outer := h
  rfl

theorem Scope.get?_outside {s : Scope} (h : 0 < s.depth) :
    s.get? (s.depth - 1) = some s.outside.current := by
  obtain ⟨page, frames, suspended⟩ := s
  cases frames with
  | nil => cases h
  | cons f outer =>
    cases outer with
    | nil => rfl
    | cons g rest => simp [get?, Scope.depth, outside, Scope.current]

/-- The current component has the template of its name. -/
theorem compile_current {engine : Engine} {s : Scope} (hM : M.Reachable engine)
    (hroot : Dictionary.get? root.name M.templates = some (.ok root)) (hon : s.IsOn root)
    (hchain : ChainCompiled M s.placements) :
    engine.compile s.current.name = .ok s.current.template := by
  obtain ⟨page, frames, suspended⟩ := s
  cases frames with
  | nil =>
    obtain ⟨ht, hname⟩ := hon
    rw [Scope.current, ht, hname]
    exact hM.compiled hroot
  | cons f outer => exact hM.compiled (hchain f.placement (List.mem_cons_self ..))

/-- In every walk over a page, an element is visited when the current component is the one whose
template is expanded, and it is written in the template of that component. When values pass
to or from a component, its caller is the one in whose template the tag is written that asked
for it: what is pulled is read there, and what is pushed is written there. -/
theorem PageHistory.current_is_expanding {engine : Engine} {page : Instance}
    {walks : List (List Step)} (h : PageHistory engine M page walks) (walk : List Step)
    (hw : walk ∈ walks) :
    (∀ e standing scope earlier, Step.enter e standing scope :: earlier <:+ walk →
      scope.keys = expanding (openings (.enter e standing scope :: earlier)) ∧
        e.Occurs scope.current.template.root ∧
        ∀ site t c, e = .tag site t c → site.template = scope.current.name) ∧
    ∀ scope earlier,
      Step.pull scope :: earlier <:+ walk ∨ Step.push scope :: earlier <:+ walk →
      ∃ q q' rest reference e caller, openings earlier = q :: q' :: rest ∧
        q.occupant = .component reference ∧ q'.occupant = .element e ∧ e.Asks reference ∧
        scope.current.reference = reference ∧
        scope.keys = q.path.text :: expanding (q' :: rest) ∧
        scope.get? (scope.depth - 1) = some caller ∧ e.Occurs caller.template.root ∧
        (∀ site t c, e = .tag site t c → site.template = caller.name) ∧
        scope.HandsOver scope.outside q.path.text reference.bindings caller := by
  obtain ⟨hM, hname, ht, -, hwalks⟩ := h.fits
  have hfits := hwalks walk hw
  rw [hname] at ht
  constructor
  · intro e standing scope earlier hs
    obtain ⟨htrail, hon, -⟩ := hfits.of_suffix hs
    have hcompiled := compile_current hM ht hon htrail.chainCompiled
    have hoccurs := htrail.isWritten.2
    have htemplate := hon.current_template
    dsimp only at hoccurs
    rw [← htemplate] at hoccurs
    refine ⟨scope.keys_eq.trans htrail.keys_chain, hoccurs, ?_⟩
    rintro site t c rfl
    exact (Engine.writtenIn_compile hcompiled).2 site t c hoccurs
  · intro scope earlier hs
    have hpasses : scope.IsOn page.template ∧ Transfers M (openings earlier) scope ∧
        Trail M page.template (openings earlier) := by
      rcases hs with hs | hs
      · obtain ⟨-, ⟨hon, htransfers⟩, hearlier⟩ := hfits.of_suffix hs
        exact ⟨hon, htransfers, hearlier.trail⟩
      · obtain ⟨-, ⟨hon, htransfers⟩, hearlier⟩ := hfits.of_suffix hs
        exact ⟨hon, htransfers, hearlier.trail⟩
    obtain ⟨hon, ⟨path, chain, reference, outer, t, hopen, hget, hplacements⟩, htrail⟩ := hpasses
    rw [hopen] at htrail
    obtain ⟨path', e, rest, rfl, hasks⟩ := htrail.asks
    have htag := htrail.of_cons
    obtain ⟨f, frames, hframes, hf, houter⟩ := List.map_eq_cons_iff.1 hplacements
    have hdepth : 0 < scope.depth := by
      rw [Scope.depth, hframes]
      exact Nat.succ_pos _
    have houtside : scope.outside.placements = chain := by
      rw [← houter, Scope.placements, Scope.outside, hframes, List.tail_cons]
    have hon' : scope.outside.IsOn page.template := hon
    have hoccurs := htag.isWritten.2
    have hcompiled := compile_current hM ht hon' (houtside ▸ htag.chainCompiled)
    dsimp only at hoccurs
    rw [← houtside, ← hon'.current_template] at hoccurs
    have hreference : scope.current.reference = reference := by
      rw [Scope.current, hframes]
      exact congrArg Placement.reference hf
    refine ⟨_, _, rest, reference, e, scope.outside.current, hopen, rfl, rfl, hasks, hreference,
      ?_, Scope.get?_outside hdepth, hoccurs, ?_, ?_⟩
    · rw [Scope.keys_eq, hplacements, List.map_cons, ← htag.keys_chain]
    · rintro site t c rfl
      exact (Engine.writtenIn_compile hcompiled).2 site t c hoccurs
    · have hkey : f.key = path.text := congrArg Placement.key hf
      have hbindings : f.component.bindings = reference.bindings :=
        congrArg (Reference.bindings ∘ Placement.reference) hf
      have hhands := scope.outside.handsOver_enter f.key f.component
      rwa [Scope.outside_enter hframes, hkey, hbindings] at hhands

namespace ContentPage

/-- A page with a component in the content of another one. -/
def engine : Engine :=
  ⟨.standard, [], .memory [("Child.html", "x"), ("Frame.html", "<wo:content/>"),
    ("Page.html", "<wo:Frame><wo:Child title=\"$name\"/></wo:Frame>")]⟩

def rendered : WalkState :=
  (WalkState.ofTemplate engine "Page" []).after ⟨engine, .ofPath "GET" "", none, .render⟩

end ContentPage

/-- Whether values pass back from a component with that name. -/
def Step.isPushOf (name : String) : Step → Bool
  | .push scope => scope.current.name == name
  | _ => false

/-- The values of a component in a content pass back to the page in whose template the content
is written. -/
theorem current_is_expanding_contentPage :
    ∃ scope earlier q q' rest reference e caller,
      Step.push scope :: earlier <:+ ContentPage.rendered.journal ∧
      scope.current.name = "Child" ∧ openings earlier = q :: q' :: rest ∧
      q'.occupant = .element e ∧ e.Asks reference ∧ scope.current.reference = reference ∧
      scope.get? (scope.depth - 1) = some caller ∧ e.Occurs caller.template.root ∧
      scope.HandsOver scope.outside q.path.text reference.bindings caller := by
  have hmade : PageHistory ContentPage.engine _ _ [] :=
    .ofTemplate (by decide +kernel : (ContentPage.engine.compile "Page").isOk = true) []
  have hrendered : PageHistory ContentPage.engine ContentPage.rendered.memory
      ContentPage.rendered.scope.page [ContentPage.rendered.journal] := hmade.after rfl rfl
  have hpush : ContentPage.rendered.journal.any (Step.isPushOf "Child") = true := by
    decide +kernel
  obtain ⟨step, hmem, hstep⟩ := List.any_eq_true.1 hpush
  obtain ⟨later, earlier, hsplit⟩ := List.append_of_mem hmem
  match step, hstep with
  | .push scope, hname =>
    have hs := (⟨later, hsplit.symm⟩ : _ :: earlier <:+ ContentPage.rendered.journal)
    obtain ⟨-, htransfers⟩ := hrendered.current_is_expanding _ (List.mem_cons_self ..)
    obtain ⟨q, q', rest, reference, e, caller, hopen, -, hq', hasks, href, -, hcaller, hoccurs, -,
      hhands⟩ := htransfers scope earlier (.inr hs)
    exact ⟨scope, earlier, q, q', rest, reference, e, caller, hs, eq_of_beq hname, hopen, hq',
      hasks, href, hcaller, hoccurs, hhands⟩

end PageEngine
