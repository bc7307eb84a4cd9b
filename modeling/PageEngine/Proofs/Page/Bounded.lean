import PageEngine.Proofs.Page.Beside

/-! Walks that end by themselves. Templates and contents lie inside one another in a walk, but
without switches and without templates that refer to themselves no deeper than the template of
the page allows: in a spot, what stands there and the contents of the components around it
have a height, which becomes less whenever a template or a content is visited. So a limit that
depends on the name of the page only is never reached. -/

namespace PageEngine

/-! ### Heights -/

/-- What a tag adds to its content: a slot leads to a content, a component to a template. -/
def Tag.height (weight : String → Nat) : Tag → Nat
  | .slot => 1
  | .component name _ => weight name + 1
  | _ => 0

namespace Element

variable {weight weight' : String → Nat}

mutual

/-- How many templates and contents can lie inside one another in an element, when those in the
template of a name are as many as its weight. -/
def height (weight : String → Nat) : Element → Nat
  | .text _ => 0
  | .group children => heightOf weight children
  | .tag _ t content => t.height weight + heightIn weight content

def heightOf (weight : String → Nat) : List Element → Nat
  | [] => 0
  | e :: es => max (e.height weight) (heightOf weight es)

def heightIn (weight : String → Nat) : Option Element → Nat
  | none => 0
  | some e => e.height weight

end

theorem height_le_heightOf {e : Element} {es : List Element} (h : e ∈ es) :
    e.height weight ≤ heightOf weight es := by
  induction es with
  | nil => cases h
  | cons first rest ih =>
    rw [heightOf]
    rcases List.mem_cons.1 h with rfl | h
    · exact Nat.le_max_left ..
    · exact Nat.le_trans (ih h) (Nat.le_max_right ..)

/-- Whether the first weight is at most the second one for all components in an element. -/
def Lighter (weight weight' : String → Nat) (e : Element) : Prop :=
  ∀ site name bindings content,
    Occurs (.tag site (.component name bindings) content) e → weight name ≤ weight' name

theorem tag_height_le {site : Site} {t : Tag} {content : Option Element}
    (h : Lighter weight weight' (.tag site t content)) : t.height weight ≤ t.height weight' := by
  cases t with
  | component name bindings => exact Nat.succ_le_succ (h site name bindings content .here)
  | _ => exact Nat.le_refl _

mutual

theorem height_le_height : ∀ e : Element, Lighter weight weight' e →
    e.height weight ≤ e.height weight'
  | .text _, _ => Nat.le_refl _
  | .group children, h =>
    heightOf_le_heightOf children fun _ he site name bindings content ho =>
      h site name bindings content (.child he ho)
  | .tag _ _ content, h =>
    Nat.add_le_add (tag_height_le h)
      (heightIn_le_heightIn content fun _ he site name bindings c ho =>
        h site name bindings c (he ▸ .content ho))

theorem heightOf_le_heightOf : ∀ es : List Element, (∀ e ∈ es, Lighter weight weight' e) →
    heightOf weight es ≤ heightOf weight' es
  | [], _ => Nat.le_refl _
  | e :: es, h =>
    max_le_max (height_le_height e (h e (List.mem_cons_self ..)))
      (heightOf_le_heightOf es fun e he => h e (List.mem_cons_of_mem _ he))

theorem heightIn_le_heightIn : ∀ c : Option Element, (∀ e, c = some e → Lighter weight weight' e) →
    heightIn weight c ≤ heightIn weight' c
  | none, _ => Nat.le_refl _
  | some e, h => height_le_height e (h e rfl)

end

end Element

/-! ### Weights -/

namespace Engine

variable {engine : Engine}

/-- The height of the template of a name. Names of no less rank, which are referred to only in
circles, count for nothing. -/
noncomputable def weight (engine : Engine) (name : String) : Nat :=
  (engine.templateOf name).root.height fun inner =>
    if engine.rank inner < engine.rank name then engine.weight inner else 0
termination_by engine.rank name

theorem IsAcyclic.height_le_weight (h : engine.IsAcyclic) {name : String} {t : Template}
    (ht : engine.compile name = .ok t) : t.root.height engine.weight ≤ engine.weight name := by
  have htemplate : engine.templateOf name = t := by rw [templateOf, ht]
  rw [weight.eq_1 engine name, htemplate]
  refine Element.height_le_height _ fun site inner bindings content ho => ?_
  rw [if_pos (h.rank_lt ⟨t, site, bindings, content, ht, ho⟩)]

end Engine

/-! ### Spots -/

/-- What stands at a spot, or inside of it as far as the template goes, with the contents of the
components around it. -/
def Spot.height (weight : String → Nat) (q : Spot) : Nat :=
  (match q.occupant with
    | .element e => e.height weight
    | .component reference =>
      weight reference.name + 1 + Element.heightIn weight reference.content) +
  (q.chain.map fun p => Element.heightIn weight p.reference.content).sum

/-- How many templates and contents are visited in a row of spots. -/
def expansions (spots : List Spot) : Nat := spots.countP Spot.isExpanded

theorem expansions_cons (q : Spot) (outer : List Spot) :
    expansions (q :: outer) = expansions outer + q.isExpanded.toNat := by
  rw [expansions, List.countP_cons, expansions]
  cases q.isExpanded <;> rfl

section Spots

variable {engine : Engine} {M : Memory} {root : Template} {q q' : Spot} {trail outer : List Spot}
  {weight : String → Nat}

/-- Further inside the height is no more, and less where a template or a content is visited. -/
theorem Inner.height_le (h : Inner M q q')
    (hswitch : ∀ site a bindings content,
      q.occupant ≠ .element (.tag site (.switch a bindings) content))
    (hweight : ∀ name t, Dictionary.get? name M.templates = some (.ok t) →
      t.root.height weight ≤ weight name) :
    q'.height weight + q.isExpanded.toNat ≤ q.height weight := by
  cases h with
  | @branch path chain e inner i h =>
    unfold Element.onBranch? at h
    split at h
    · exact Nat.add_le_add_right (Element.height_le_heightOf (List.mem_of_getElem? h)) _
    · rw [h]
      simp only [Spot.height, Spot.isExpanded, Element.height, Element.heightIn, Bool.toNat_false]
      omega
    · cases h
  | @wrapped path chain e inner h =>
    cases e with
    | text shown => cases h
    | group children => cases h
    | tag site t content =>
      rw [Element.wrapped?] at h
      split at h
      · rename_i hwraps
        have hplain : Spot.isExpanded ⟨path, chain, .element (.tag site t content)⟩ = false := by
          cases t <;> first | rfl | cases hwraps
        rw [hplain, h]
        simp only [Spot.height, Element.height, Element.heightIn, Bool.toNat_false]
        omega
      · cases h
  | @content path p chain site c inner h =>
    simp only [Spot.height, Spot.isExpanded, Element.height, Tag.height, List.map_cons,
      List.sum_cons, h, Element.heightIn, Bool.toNat_true]
    omega
  | reference =>
    simp only [Spot.height, Spot.isExpanded, Element.height, Tag.height, Bool.toNat_false]
    omega
  | switch h => exact absurd rfl (hswitch _ _ _ _)
  | @template path chain reference t h =>
    have hroot := hweight _ _ h
    simp only [Spot.height, Spot.isExpanded, List.map_cons, List.sum_cons, Bool.toNat_true]
    omega

theorem Trail.expansions_add_le (h : Trail M root (q :: outer)) (hM : M.Reachable engine)
    (hroot : engine.compile root.name = .ok root) (hswitch : engine.HasNoSwitch)
    (hacyclic : engine.IsAcyclic) :
    expansions outer + q.height engine.weight ≤ engine.weight root.name := by
  generalize htrail : q :: outer = trail at h
  induction h generalizing q outer with
  | nil => cases htrail
  | page =>
    cases htrail
    rw [expansions, List.countP_nil, Nat.zero_add]
    exact hacyclic.height_le_weight hroot
  | @inner q₀ q₁ outer₀ h hi ih =>
    cases htrail
    have hstep := hi.height_le (h.ne_switch hM hroot hswitch) fun name t ht =>
      hacyclic.height_le_weight (hM.compiled ht)
    have hbefore := ih rfl
    rw [expansions_cons]
    omega

theorem Spot.toNat_isExpanded_le (q : Spot) : q.isExpanded.toNat ≤ q.height weight := by
  unfold isExpanded height
  split
  · rename_i hocc
    simp only [hocc, Bool.toNat_true]
    omega
  · rename_i hocc
    simp only [hocc, Element.height, Tag.height, Bool.toNat_true]
    omega
  · exact Nat.zero_le _

theorem Trail.expansions_le (h : Trail M root trail) (hM : M.Reachable engine)
    (hroot : engine.compile root.name = .ok root) (hswitch : engine.HasNoSwitch)
    (hacyclic : engine.IsAcyclic) : expansions trail ≤ engine.weight root.name := by
  cases trail with
  | nil => exact Nat.zero_le _
  | cons q outer =>
    have hle := h.expansions_add_le hM hroot hswitch hacyclic
    have hq : q.isExpanded.toNat ≤ q.height engine.weight := q.toNat_isExpanded_le
    rw [expansions_cons]
    omega

end Spots

/-! ### Walks with different limits -/

section Limits

variable {task : Task} {root : Template}

/-- One memory of the engine. -/
def Memory.Same (engine : Engine) (M N : Memory) : Prop := N = M ∧ M.Reachable engine

theorem Memory.relates_same (engine : Engine) : Relates engine (Same engine) where
  reachable := by
    rintro M N ⟨rfl, hM⟩
    exact ⟨hM, hM⟩
  load := by
    rintro M N ⟨rfl, hM⟩ name
    exact ⟨rfl, hM.load name⟩

/-- Above the weight of the page all limits lead to the same. -/
theorem follows_within (hroot : task.engine.compile root.name = .ok root)
    (hswitch : task.engine.HasNoSwitch) (hacyclic : task.engine.IsAcyclic) {n m : Nat} (hle : n ≤ m)
    (e : Element) :
    Walk.Follows task (WalkState.Beside (Memory.Same task.engine)) (JournalFitsIn task.engine root)
      (fun opened => task.engine.weight root.name < n + expansions opened) False
      (e.visitWithin task n) (e.visitWithin task m) := by
  induction n generalizing m e with
  | zero =>
    -- Then more is open than fits the page.
    intro s t hst hopen hleft hright
    obtain ⟨M, hM, hfits⟩ := hleft
    have hfew := hfits.trail.expansions_le hM hroot hswitch hacyclic
    rw [Nat.zero_add] at hopen
    exact absurd hopen (Nat.not_lt.2 hfew)
  | succ n ih =>
    obtain ⟨m, rfl⟩ : ∃ k, m = k + 1 :=
      Nat.exists_eq_add_one.2 (Nat.lt_of_lt_of_le (Nat.succ_pos n) hle)
    refine (resemblance_beside (Memory.relates_same _) hroot hswitch).follows_visit ⟨?_, ?_⟩
      (Element.makes_visitWithin n) (Element.makes_visitWithin m)
      (fun e => ih (Nat.le_of_succ_le_succ hle) e) e
    · intro q outer houter
      rw [expansions_cons]
      omega
    · intro q outer hq houter
      rw [expansions_cons, hq, Bool.toNat_true]
      omega

end Limits

/-- Without switches, and if no template refers to itself, every walk over a page comes to an end
by itself, in any phase and for any request: above a limit that depends on the name of the page
only, it has one result, and is not cut off. -/
theorem PageHistory.comes_to_an_end {engine : Engine} (hswitch : engine.HasNoSwitch)
    (hacyclic : engine.IsAcyclic) :
    ∃ bound : String → Nat, ∀ (page : Instance) (walks : List (List Step)) (task : Task)
      (start : WalkState), PageHistory engine start.memory page walks → task.engine = engine →
      start.scope = .ofPage page →
      ∃ r stop, r ≠ .error .tooDeep ∧
        ∀ limit, bound page.name ≤ limit → (Walk.wholePage task limit).runFrom start = (r, stop) := by
  refine ⟨fun name => engine.weight name + 1, ?_⟩
  rintro page walks task start hpage rfl hstart
  obtain ⟨hM, -⟩ := hpage.fits
  have hpage := hpage.isPage
  have hfits : ∀ limit, JournalFitsIn task.engine page.template
      ((Walk.wholePage task limit).runFrom start).2.journal := by
    intro limit
    obtain rfl : start.scope.page = page := by rw [hstart]; rfl
    exact (hpage.walked hM hstart rfl).2.2
  have hopen : task.engine.weight page.template.name <
      task.engine.weight page.name + 1 + expansions [] := by
    rw [hpage.name]
    exact Nat.lt_succ_self _
  have hagrees : ∀ limit, task.engine.weight page.name + 1 ≤ limit →
      Walk.Agrees task (WalkState.Beside (Memory.Same task.engine)) False
        ((Walk.wholePage task (task.engine.weight page.name + 1)).runFrom start)
        ((Walk.wholePage task limit).runFrom start) := by
    intro limit hlimit
    have hfirst := hfits (task.engine.weight page.name + 1)
    have hsecond := hfits limit
    rw [Walk.runFrom_wholePage] at hfirst hsecond ⊢
    rw [Walk.runFrom_wholePage]
    exact follows_within hpage.compiled hswitch hacyclic hlimit _ _ _ ⟨_, rfl, rfl, hM⟩ hopen hfirst
      hsecond
  refine ⟨_, ((Walk.wholePage task (task.engine.weight page.name + 1)).runFrom start).2,
    (hagrees _ (Nat.le_refl _)).cut, fun limit hlimit => ?_⟩
  obtain ⟨hresult, ⟨N, hstop, rfl, -⟩, -, -⟩ := hagrees limit hlimit
  exact Prod.ext hresult hstop

namespace Forwarding

/-- A component that forwards its content to another one, used inside its own content. -/
def engine : Engine :=
  ⟨.standard, [], .memory [("Border.html", "<p><wo:content/></p>"),
    ("Panel.html", "<wo:Border><wo:content/></wo:Border>"),
    ("Page.html", "<wo:Panel><wo:Panel><wo:str value=\"$name\"/></wo:Panel></wo:Panel>")]⟩

def page : WalkState := .ofTemplate engine "Page" []

def render : Task := ⟨engine, .ofPath "GET" "", none, .render⟩

def level (name : String) : Nat :=
  if name = "Page" then 2 else if name = "Panel" then 1 else 0

/-- Neither a switch nor a component of the same level or above. -/
def isBelow (level' : Nat) : Element → Bool
  | .tag _ (.switch ..) _ => false
  | .tag _ (.component name _) _ => level name < level'
  | _ => true

theorem isBelow_of_occurs {name : String} {t : Template} {e : Element}
    (ht : engine.compile name = .ok t) (he : e.Occurs t.root) : isBelow (level name) e = true := by
  have hbelow : ∀ name ∈ ["Border", "Panel", "Page"],
      engine.templateAll (isBelow (level name)) name = true := by decide +kernel
  exact Engine.of_templateAll (hbelow name (Engine.mem_of_compile rfl rfl ht)) ht he

theorem hasNoSwitch : engine.HasNoSwitch :=
  fun _ _ ht _ _ _ _ he => nomatch isBelow_of_occurs ht he

theorem isAcyclic : engine.IsAcyclic := by
  have hlevel : ∀ outer inner, engine.Refers outer inner → level inner < level outer := by
    rintro outer inner ⟨t, site, bindings, content, ht, he⟩
    exact of_decide_eq_true (isBelow_of_occurs ht he)
  have hbelow : ∀ outer inner, Relation.TransGen engine.Refers outer inner →
      level inner < level outer := by
    intro outer inner h
    induction h with
    | single h => exact hlevel _ _ h
    | tail _ h ih => exact Nat.lt_trans (hlevel _ _ h) ih
  exact fun name h => Nat.lt_irrefl _ (hbelow name name h)

end Forwarding

/-- A rendering of that page ends by itself. -/
theorem comes_to_an_end_forwarding :
    ∃ bound r stop, r ≠ .error .tooDeep ∧ ∀ limit, bound ≤ limit →
      (Walk.wholePage Forwarding.render limit).runFrom Forwarding.page = (r, stop) := by
  obtain ⟨bound, hends⟩ := PageHistory.comes_to_an_end Forwarding.hasNoSwitch Forwarding.isAcyclic
  have hmade : PageHistory Forwarding.engine Forwarding.page.memory Forwarding.page.scope.page [] :=
    .ofTemplate (by decide +kernel : (Forwarding.engine.compile "Page").isOk = true) []
  obtain ⟨r, stop, hend⟩ := hends _ _ Forwarding.render Forwarding.page hmade rfl rfl
  exact ⟨bound Forwarding.page.scope.page.name, r, stop, hend⟩

end PageEngine
