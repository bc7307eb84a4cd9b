import PageEngine.Proofs.Page.Journal
import PageEngine.Proofs.Walk.Entered

/-! Templates without repetitions and components. A rendering writes nothing there, so that a
conditional shows in every visit what it shows in the first one. Whatever a walk enters, it was
let in by all tags around it. -/

namespace PageEngine

/-- Tags that stand once where they are written and write nothing in a rendering. -/
def Tag.isSimple : Tag → Bool
  | .repetition .. => false
  | .switch .. => false
  | .slot => false
  | .popUp .. => false
  | .component .. => false
  | .marker .. => false
  | _ => true

theorem Tag.mayWrite_of_isSimple {t : Tag} (h : t.isSimple = true) {phase : Phase}
    (hphase : phase ≠ .takeValues) : t.mayWrite phase = false := by
  cases t with
  | repetition source item index => cases h
  | popUp b => cases h
  | marker describe value => cases h
  | textField b => exact beq_eq_false_iff_ne.2 hphase
  | textArea b => exact beq_eq_false_iff_ne.2 hphase
  | _ => rfl

namespace Element

mutual

/-- Whether all tags in an element are simple, and no group has more children than there are
indices for. -/
def isSimple : Element → Bool
  | .text _ => true
  | .group children => decide (children.length ≤ ElementPath.maxIndex.toNat) && isSimpleAll children
  | .tag _ t content => t.isSimple && isSimpleContent content

def isSimpleAll : List Element → Bool
  | [] => true
  | e :: es => e.isSimple && isSimpleAll es

def isSimpleContent : Option Element → Bool
  | none => true
  | some e => e.isSimple

end

/-- All tags in an element are simple, and all children have an index. -/
def Simple (e : Element) : Prop := e.isSimple = true

theorem isSimpleAll_iff {es : List Element} : isSimpleAll es = true ↔ ∀ e ∈ es, e.Simple := by
  induction es with
  | nil => simp [isSimpleAll]
  | cons e es ih => simp [isSimpleAll, Simple, ih]

namespace Simple

variable {e : Element} {children : List Element} {site : Site} {t : Tag} {c : Option Element}

theorem child (h : Simple (.group children)) (he : e ∈ children) : e.Simple := by
  unfold Simple at h
  rw [isSimple, Bool.and_eq_true] at h
  exact isSimpleAll_iff.1 h.2 e he

theorem length_le (h : Simple (.group children)) :
    children.length ≤ ElementPath.maxIndex.toNat := by
  unfold Simple at h
  rw [isSimple, Bool.and_eq_true] at h
  exact of_decide_eq_true h.1

theorem tag (h : Simple (.tag site t c)) : t.isSimple = true := by
  unfold Simple at h
  rw [isSimple, Bool.and_eq_true] at h
  exact h.1

theorem content (h : Simple (.tag site t c)) (he : c = some e) : e.Simple := by
  subst he
  unfold Simple at h
  rw [isSimple, Bool.and_eq_true] at h
  exact h.2

end Simple

end Element

namespace Job

/-- What is visited is simple, and turns write nothing. -/
def Simple : Job → Prop
  | .element e => e.Simple
  | .body e => e.Simple
  | .content c => ∀ e, c = some e → e.Simple
  | .row turns => ∀ t ∈ turns, t.writes = [] ∧ ∀ e, t.element = some e → e.Simple
  | .component _ => False

theorem simple_children {children : List Element} (h : (Element.group children).Simple) :
    (Job.row (children.map .child)).Simple := by
  intro t ht
  obtain ⟨e, he, rfl⟩ := List.mem_map.1 ht
  refine ⟨rfl, fun e' he' => ?_⟩
  cases he'
  exact h.child he

/-- What the job stands for lets the walk in. -/
def Opens (task : Task) (s : WalkState) : Job → Prop
  | .body (.tag _ t _) => t.Opens task s.path s.scope
  | _ => True

end Job

variable {task : Task} {s s' : WalkState} {job : Job} {r : Except EngineError (Option Answer)}

/-! ### Renderings -/

/-- A rendering of simple elements leaves all values as they are. -/
theorem Visits.scope_eq (h : Visits task job s r s') (hphase : task.phase = .render)
    (hjob : job.Simple) : s'.scope = s.scope := by
  have hwrites : ∀ {site t c}, (Element.tag site t c).Simple → t.mayWrite task.phase = false :=
    fun h => Tag.mayWrite_of_isSimple h.tag (hphase ▸ by decide)
  induction h with
  | tooDeep e s => rfl
  | entered h ih => exact (WalkState.scope_onResult rfl).trans (ih hjob)
  | text h => exact acts_scope_eq h hphase
  | group h ih => exact (WalkState.scope_onResult rfl).trans (ih (Job.simple_children hjob))
  | own hrun h =>
    rw [hwrites hjob] at h
    exact acts_scope_eq h hphase
  | wrap ht hopens hbefore hbegins h hafter ih =>
    rw [hwrites hjob] at hbefore hafter
    have hcontent := ih fun e he => Element.Simple.content hjob he
    have hbegin := acts_scope_eq hbefore hphase
    have hend := acts_scope_eq hafter hphase
    exact hend.trans (hcontent.trans hbegin)
  | repetition h ih => cases Element.Simple.tag hjob
  | slot hcontent hsuspend h hresume ih => cases Element.Simple.tag hjob
  | reference h ih => cases Element.Simple.tag hjob
  | switch hname hindex h ih => cases Element.Simple.tag hjob
  | nothing s => rfl
  | something h ih => exact ih (hjob _ rfl)
  | done s => rfl
  | stop h hstop ih =>
    obtain ⟨hnone, hturn⟩ := hjob _ (List.mem_cons_self ..)
    rw [hnone] at ih
    exact ih hturn
  | next h hnext hrest ih ihrest =>
    obtain ⟨hnone, hturn⟩ := hjob _ (List.mem_cons_self ..)
    rw [hnone] at ih
    exact (ihrest fun t ht => hjob t (List.mem_cons_of_mem _ ht)).trans (ih hturn)
  | unplaced h => cases hjob
  | placed hfinds h hleave ih => cases hjob

/-! ### What is around an entered element -/

/-- The tag at a spot has let a walk in; a rendering has asked it in this scope. -/
def Spot.Passed (task : Task) (scope : Scope) (q : Spot) : Prop :=
  ∀ site t c, q.occupant = .element (.tag site t c) →
    ∃ scope', t.Opens task q.path scope' ∧ (task.phase = .render → scope' = scope)

/-- Every element that a visit enters lies inside tags that have let the walk in. -/
theorem Visits.passed (h : Visits task job s r s') (hjob : job.Simple) {σ : Scope}
    (hσ : task.phase = .render → s.scope = σ) {e : Element} {standing : Standing} {scope : Scope}
    {earlier : List Step} (hs : .enter e standing scope :: earlier <:+ s'.journal) :
    .enter e standing scope :: earlier <:+ s.journal ∨ job.Opens task s ∧
      ∃ inner, openings earlier = inner ++ openings s.journal ∧ ∀ q ∈ inner, q.Passed task σ := by
  induction h with
  | tooDeep e s => exact .inl hs
  | @entered e₀ s s' r h ih =>
    rcases ih hjob hσ (enter_suffix_onResult (.inl rfl) hs) with hs | ⟨hopens, inner, hinner, hpassed⟩
    · rcases List.suffix_cons_iff.1 hs with heq | hs
      · cases heq
        exact .inr ⟨trivial, [], rfl, by simp⟩
      · exact .inl hs
    · refine .inr ⟨trivial, inner ++ [⟨s.path, s.scope.placements, .element e₀⟩], ?_, ?_⟩
      · rw [hinner, List.append_assoc]
        rfl
      · intro q hq
        rcases List.mem_append.1 hq with hq | hq
        · exact hpassed q hq
        · obtain rfl := List.mem_singleton.1 hq
          rintro site t c heq
          cases heq
          exact ⟨s.scope, hopens, hσ⟩
  | text h => exact .inl (acts_enter_suffix h hs)
  | group h ih =>
    have hinside := ih (Job.simple_children hjob) hσ (enter_suffix_onResult (.inr rfl) hs)
    exact hinside.imp_right fun h => ⟨trivial, h.2⟩
  | own hrun h => exact .inl (acts_enter_suffix h hs)
  | @wrap site t c s s₁ s₂ s₃ r ht hopens hbefore hbegins h hafter ih =>
    have hrender : task.phase = .render → s₁.scope = σ := fun hphase => by
      rw [Tag.mayWrite_of_isSimple (Element.Simple.tag hjob) (hphase ▸ by decide)] at hbefore
      exact (acts_scope_eq hbefore hphase).trans (hσ hphase)
    have hinside := ih (fun e he => Element.Simple.content hjob he) hrender
      (acts_enter_suffix hafter hs)
    rw [WalkState.journal_within, acts_openings hbefore] at hinside
    exact hinside.imp (fun hs => acts_enter_suffix hbefore hs) fun h => ⟨hopens, h.2⟩
  | repetition h ih => cases Element.Simple.tag hjob
  | slot hcontent hsuspend h hresume ih => cases Element.Simple.tag hjob
  | reference h ih => cases Element.Simple.tag hjob
  | switch hname hindex h ih => cases Element.Simple.tag hjob
  | nothing s => exact .inl hs
  | something h ih => exact (ih (hjob _ rfl) hσ hs).imp_right fun h => ⟨trivial, h.2⟩
  | done s => exact .inl hs
  | stop h hstop ih =>
    obtain ⟨hnone, hturn⟩ := hjob _ (List.mem_cons_self ..)
    rw [hnone] at ih
    exact (ih hturn hσ hs).imp_right fun h => ⟨trivial, h.2⟩
  | @next t rest s s₁ s₂ r path h hnext hrest ih ihrest =>
    obtain ⟨hnone, hturn⟩ := hjob _ (List.mem_cons_self ..)
    rw [hnone] at h ih
    have hrender : task.phase = .render → s₁.scope = σ := fun hphase =>
      (h.scope_eq hphase hturn).trans (hσ hphase)
    rcases ihrest (fun t ht => hjob t (List.mem_cons_of_mem _ ht)) hrender hs with hs | hinside
    · exact (ih hturn hσ hs).imp_right fun h => ⟨trivial, h.2⟩
    · have hopen := h.openings_eq none rfl
      obtain ⟨-, inner, hinner, hpassed⟩ := hinside
      exact .inr ⟨trivial, inner, hinner.trans (congrArg (inner ++ ·) hopen), hpassed⟩
  | unplaced h => cases hjob
  | placed hfinds h hleave ih => cases hjob

end PageEngine
