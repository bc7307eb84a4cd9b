import PageEngine.Proofs.Page.History

/-! Element paths as addresses. In all walks over one page a path leads to the same element,
whatever was written or remembered in between, and a component that is found under a path is
the one asked for. -/

namespace PageEngine

/-- Two leaves entered on one path, in any walks over a page, are the same element of the same
template, reached through the same components; and a component that was placed on a path
before has the name that is asked for there. -/
theorem PageHistory.same_leaf_of_path_eq {engine : Engine} {M : Memory} {page : Instance}
    {walks : List (List Step)} (h : PageHistory engine M page walks) :
    (∀ walk ∈ walks, ∀ walk' ∈ walks, ∀ e standing scope earlier e' standing' scope' earlier',
      Step.enter e standing scope :: earlier <:+ walk →
      Step.enter e' standing' scope' :: earlier' <:+ walk' →
      e.isLeaf = true → e'.isLeaf = true → standing.path = standing'.path →
      e = e' ∧ scope.current.template = scope'.current.template ∧
        scope.placements = scope'.placements ∧ openings earlier = openings earlier') ∧
    ∀ walk ∈ walks, ∀ reference path scope c earlier,
      Step.place reference path scope (some c) :: earlier <:+ walk → c.name = reference.name := by
  obtain ⟨-, -, -, -, hwalks⟩ := h.fits
  constructor
  · intro walk hw walk' hw' e standing scope earlier e' standing' scope' earlier' hs hs' he he' hpath
    obtain ⟨htrail, hon, -⟩ := (hwalks walk hw).of_suffix hs
    obtain ⟨htrail', hon', -⟩ := (hwalks walk' hw').of_suffix hs'
    have hrank : (Occupant.element e).rank = (Occupant.element e').rank :=
      (Occupant.rank_of_isLeaf he).trans (Occupant.rank_of_isLeaf he').symm
    have heq := htrail.eq_of_path_eq htrail' hpath he he' hrank
    obtain ⟨hspot, houter⟩ := List.cons.inj heq
    obtain ⟨-, hplacements, helement⟩ := Spot.mk.inj hspot
    refine ⟨Occupant.element.inj helement, ?_, hplacements, houter⟩
    rw [hon.current_template, hon'.current_template, hplacements]
  · intro walk hw reference path scope c earlier hs
    obtain ⟨-, ⟨-, hfound⟩, -⟩ := (hwalks walk hw).of_suffix hs
    exact congrArg Reference.name (hfound c rfl)

/-- Whether a leaf is entered on a path. -/
def Step.isLeafAt (path : ElementPath) : Step → Bool
  | .enter e standing _ => e.isLeaf && standing.path == path
  | _ => false

theorem exists_of_isLeafAt {journal : List Step} {path : ElementPath}
    (h : journal.any (Step.isLeafAt path) = true) :
    ∃ e standing scope earlier, Step.enter e standing scope :: earlier <:+ journal ∧
      e.isLeaf = true ∧ standing.path = path := by
  obtain ⟨step, hmem, hstep⟩ := List.any_eq_true.1 h
  obtain ⟨later, earlier, rfl⟩ := List.append_of_mem hmem
  match step, hstep with
  | .enter e standing scope, hstep =>
    obtain ⟨he, hpath⟩ := Bool.and_eq_true_iff.1 hstep
    exact ⟨e, standing, scope, earlier, ⟨later, rfl⟩, he, eq_of_beq hpath⟩

/-- Whether a component is found where one is asked for. -/
def Step.isFound : Step → Bool
  | .place _ _ _ (some _) => true
  | _ => false

namespace FieldPage

/-- A page with a component and a field behind it. -/
def engine : Engine :=
  ⟨.standard, [], .memory [("Child.html", "x"),
    ("Page.html", "<wo:Child/><wo:textfield value=\"$name\"/>")]⟩

def rendered : WalkState :=
  (WalkState.ofTemplate engine "Page" []).after ⟨engine, .ofPath "GET" "", none, .render⟩

def taken : WalkState :=
  rendered.after ⟨engine, .ofPath "POST" "", none, .takeValues⟩

end FieldPage

/-- The field of a page is found again under its path, and so is the component before it. -/
theorem same_leaf_of_fieldPage :
    (∃ e standing scope earlier e' standing' scope' earlier',
      Step.enter e standing scope :: earlier <:+ FieldPage.rendered.journal ∧
      Step.enter e' standing' scope' :: earlier' <:+ FieldPage.taken.journal ∧
      standing.path = ⟨[1]⟩ ∧ standing'.path = ⟨[1]⟩ ∧
      e = e' ∧ openings earlier = openings earlier') ∧
    ∃ reference path scope c earlier,
      Step.place reference path scope (some c) :: earlier <:+ FieldPage.taken.journal ∧
      c.name = reference.name := by
  have hmade : PageHistory FieldPage.engine _ _ [] :=
    .ofTemplate (by decide +kernel : (FieldPage.engine.compile "Page").isOk = true) []
  have hrendered : PageHistory FieldPage.engine FieldPage.rendered.memory
      FieldPage.rendered.scope.page [FieldPage.rendered.journal] := hmade.after rfl rfl
  have htaken : PageHistory FieldPage.engine FieldPage.taken.memory FieldPage.taken.scope.page
      [FieldPage.taken.journal, FieldPage.rendered.journal] :=
    hrendered.after (WalkState.scope_after rfl _) rfl
  have hfirst : FieldPage.rendered.journal.any (Step.isLeafAt ⟨[1]⟩) = true := by decide +kernel
  have hsecond : FieldPage.taken.journal.any (Step.isLeafAt ⟨[1]⟩) = true := by decide +kernel
  have hfound : FieldPage.taken.journal.any Step.isFound = true := by decide +kernel
  obtain ⟨hleaves, hnames⟩ := htaken.same_leaf_of_path_eq
  constructor
  · obtain ⟨e, standing, scope, earlier, hs, he, hpath⟩ := exists_of_isLeafAt hfirst
    obtain ⟨e', standing', scope', earlier', hs', he', hpath'⟩ := exists_of_isLeafAt hsecond
    obtain ⟨heq, -, -, houter⟩ := hleaves _ (by simp) _ (by simp) _ _ _ _ _ _ _ _ hs hs' he he'
      (hpath.trans hpath'.symm)
    exact ⟨e, standing, scope, earlier, e', standing', scope', earlier', hs, hs', hpath, hpath',
      heq, houter⟩
  · obtain ⟨step, hmem, hstep⟩ := List.any_eq_true.1 hfound
    obtain ⟨later, earlier, hsplit⟩ := List.append_of_mem hmem
    match step, hstep with
    | .place reference path scope (some c), _ =>
      have hs := (⟨later, hsplit.symm⟩ : _ :: earlier <:+ FieldPage.taken.journal)
      exact ⟨reference, path, scope, c, earlier, hs, hnames _ (by simp) _ _ _ _ _ hs⟩

end PageEngine
