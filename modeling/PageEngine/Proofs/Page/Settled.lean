import PageEngine.Proofs.Page.Trail

/-! Where the components kept on a page come from. A component is kept under the written path
of the spot where it was asked for, with the reference that asked and the template that its
name leads to, and so are the components kept in it. Entering and leaving components keeps
this up along the whole chain. -/

namespace PageEngine

variable {M N : Memory} {root : Template} {chain : List Placement}

/-- A component kept under a key was asked for at a spot with that path. -/
def Kept (M : Memory) (root : Template) (chain : List Placement) (key : String)
    (child : Instance) : Prop :=
  ∃ path outer, key = path.text ∧
    Trail M root (⟨path, chain, .component child.reference⟩ :: outer) ∧
    Dictionary.get? child.name M.templates = some (.ok child.template)

/-- All components kept in one were asked for where they are kept. -/
inductive Settled (M : Memory) (root : Template) : List Placement → Instance → Prop
  | intro {chain : List Placement} {c : Instance}
    (kept : ∀ key child, (key, child) ∈ c.children → Kept M root chain key child)
    (inside : ∀ key child, (key, child) ∈ c.children →
      Settled M root (⟨key, child.reference, child.template⟩ :: chain) child) :
    Settled M root chain c

theorem Kept.mono {key : String} {child : Instance} (h : Kept M root chain key child)
    (hle : M.Le N) : Kept N root chain key child := by
  obtain ⟨path, outer, hkey, htrail, ht⟩ := h
  exact ⟨path, outer, hkey, htrail.mono hle, hle.templates _ _ ht⟩

namespace Settled

variable {c d child : Instance} {key : String}

theorem mono (h : Settled M root chain c) (hle : M.Le N) : Settled N root chain c := by
  induction h with
  | intro kept _ ih => exact .intro (fun key child hc => (kept key child hc).mono hle) ih

theorem kept_of_child? (h : Settled M root chain c) (hc : c.child? key = some child) :
    Kept M root chain key child ∧
      Settled M root (⟨key, child.reference, child.template⟩ :: chain) child := by
  cases h with
  | intro kept inside =>
    have hmem := Dictionary.mem_of_get? hc
    exact ⟨kept _ _ hmem, inside _ _ hmem⟩

theorem of_subset (h : Settled M root chain c) (hd : ∀ entry ∈ d.children, entry ∈ c.children) :
    Settled M root chain d := by
  cases h with
  | intro kept inside =>
    exact .intro (fun key child hc => kept key child (hd _ hc))
      fun key child hc => inside key child (hd _ hc)

theorem alike (h : Settled M root chain c) (hcd : c.Alike d) : Settled M root chain d :=
  h.of_subset fun _ hmem => hcd.children ▸ hmem

theorem removeChild (h : Settled M root chain c) (key : String) :
    Settled M root chain (c.removeChild key) :=
  h.of_subset fun _ => Dictionary.mem_of_mem_erase

theorem addChild (h : Settled M root chain c) (hkept : Kept M root chain key child)
    (hchild : Settled M root (⟨key, child.reference, child.template⟩ :: chain) child) :
    Settled M root chain (c.addChild key child) := by
  cases h with
  | intro kept inside =>
    refine .intro (fun k d hd => ?_) fun k d hd => ?_
    · rcases Dictionary.mem_insert hd with heq | hd
      · cases heq
        exact hkept
      · exact kept k d hd
    · rcases Dictionary.mem_insert hd with heq | hd
      · cases heq
        exact hchild
      · exact inside k d hd

theorem of_children_nil (h : c.children = []) : Settled M root chain c :=
  .intro (fun _ _ hc => by simp [h] at hc) fun _ _ hc => by simp [h] at hc

end Settled

/-! ### The chain -/

/-- Every entered component is settled inside those around it. -/
def FramesSettled (M : Memory) (root : Template) : List Frame → Prop
  | [] => True
  | f :: outer =>
    Settled M root ((f :: outer).map Frame.placement) f.component ∧ FramesSettled M root outer

theorem FramesSettled.mono {frames : List Frame} (h : FramesSettled M root frames)
    (hle : M.Le N) : FramesSettled N root frames := by
  induction frames with
  | nil => trivial
  | cons f outer ih => exact ⟨h.1.mono hle, ih h.2⟩

theorem framesSettled_blank {frames : List Frame} :
    FramesSettled M root (frames.map Frame.blank) ↔ FramesSettled M root frames := by
  induction frames with
  | nil => exact Iff.rfl
  | cons f outer ih =>
    have hchain : ((f :: outer).map Frame.blank).map Frame.placement =
        (f :: outer).map Frame.placement := by simp
    rw [List.map_cons, FramesSettled, FramesSettled, ih, ← List.map_cons, hchain]
    have hblank : f.component.Alike f.blank.component := rfl
    exact and_congr_left fun _ => ⟨fun h => h.alike hblank.symm, fun h => h.alike hblank⟩

namespace Scope

/-- The page and all entered components are settled. -/
structure Settled (M : Memory) (root : Template) (s : Scope) : Prop where
  page : PageEngine.Settled M root [] s.page
  frames : FramesSettled M root s.frames

namespace Settled

variable {s t scope : Scope} {c : Instance} {key : String}

theorem mono (h : s.Settled M root) (hle : M.Le N) : s.Settled N root :=
  ⟨h.page.mono hle, h.frames.mono hle⟩

theorem alike (h : s.Settled M root) (hst : s.Alike t) : t.Settled M root := by
  refine ⟨h.page.alike hst.page, ?_⟩
  rw [← framesSettled_blank, hst.frames, framesSettled_blank]
  exact h.frames

theorem current (h : s.Settled M root) : PageEngine.Settled M root s.placements s.current := by
  unfold Scope.current placements
  cases hs : s.frames with
  | nil => exact h.page
  | cons f outer =>
    have hframes := h.frames
    rw [hs] at hframes
    exact hframes.1

theorem modifyCurrent {f : Instance → Instance} (h : s.Settled M root)
    (hf : PageEngine.Settled M root s.placements (f s.current))
    (hr : (f s.current).reference = s.current.reference)
    (ht : (f s.current).template = s.current.template) : (s.modifyCurrent f).Settled M root := by
  obtain ⟨page, frames, suspended⟩ := s
  cases frames with
  | nil => exact ⟨hf, trivial⟩
  | cons g outer =>
    refine ⟨h.page, ?_, h.frames.2⟩
    have hplacement : Frame.placement { g with component := f g.component } = g.placement := by
      have hreference : (f g.component).reference = g.component.reference := hr
      have htemplate : (f g.component).template = g.component.template := ht
      rw [Frame.placement, hreference, htemplate]
      rfl
    rw [List.map_cons, hplacement]
    exact hf

theorem takeChild (h : s.Settled M root) (key : String) : (s.takeChild key).2.Settled M root :=
  modifyCurrent (f := fun c => c.removeChild key) h (h.current.removeChild key) rfl rfl

theorem enter (h : s.Settled M root)
    (hc : PageEngine.Settled M root (⟨key, c.reference, c.template⟩ :: s.placements) c) :
    (s.enter key c).Settled M root :=
  ⟨h.page, hc, h.frames⟩

theorem leave {f : Frame} {outer : List Frame} (h : s.Settled M root) (hs : s.frames = f :: outer)
    (hkept : Kept M root (outer.map Frame.placement) f.key f.component)
    (hleave : s.leave? = some scope) : scope.Settled M root := by
  have hframes := h.frames
  rw [hs] at hframes
  unfold leave? at hleave
  rw [hs] at hleave
  rw [← Option.some.inj hleave]
  have houter : ({ s with frames := outer } : Scope).Settled M root := ⟨h.page, hframes.2⟩
  exact houter.modifyCurrent (houter.current.addChild hkept hframes.1) rfl rfl

theorem suspend (h : s.Settled M root) (hs : s.suspend? = some scope) : scope.Settled M root := by
  obtain ⟨f, hframes, hscope⟩ := frames_of_suspend hs
  have hall := h.frames
  rw [hframes] at hall
  rw [hscope]
  exact ⟨h.page, hall.2⟩

end Settled

end Scope

end PageEngine
