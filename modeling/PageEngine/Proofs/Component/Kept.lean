import PageEngine.Proofs.Component.Retained

/-! Components as a whole at an address. What the page keeps there, or an entered component on the
way, stays the same as long as the address itself is not entered: values are written to entered
components only, and entering and leaving components elsewhere moves nothing that is kept. -/

namespace PageEngine

theorem Instance.at?_eq_none_of_children_nil {c : Instance} {inner : List String}
    (hc : c.children = []) (hinner : inner ≠ []) : c.at? inner = none := by
  obtain ⟨init, key, rfl⟩ := List.eq_nil_or_concat inner |>.resolve_left hinner
  rw [List.concat_eq_append, at?_concat, child?, hc, Dictionary.get?_nil, Option.bind_none]

/-- Away from itself a component keeps the same as another one with the same children. -/
theorem Instance.at?_congr {c d : Instance} {inner : List String} (hinner : inner ≠ [])
    (h : ∀ key, [key] <:+ inner → d.child? key = c.child? key) : d.at? inner = c.at? inner := by
  obtain ⟨init, key, rfl⟩ := List.eq_nil_or_concat inner |>.resolve_left hinner
  rw [List.concat_eq_append] at h ⊢
  rw [at?_concat, at?_concat, h key (List.suffix_append ..)]

namespace Scope

/-- What is kept at an address in the innermost component on the way to it. -/
def keptIn? (page : Instance) (address : List String) : List Frame → Option Instance
  | [] => page.at? address
  | f :: outer =>
    if (f :: outer).map Frame.key <:+ address then
      f.component.at? (address.take (address.length - (outer.length + 1)))
    else keptIn? page address outer

/-- The component at an address. Components set aside have no address. -/
def kept? (s : Scope) (address : List String) : Option Instance :=
  keptIn? s.page address s.frames

variable {s t : Scope} {address : List String} {key : String} {c : Instance}
  {f : Instance → Instance}

@[simp] theorem kept?_ofPage (page : Instance) (address : List String) :
    (ofPage page).kept? address = page.at? address := rfl

theorem kept?_append_keys (s : Scope) (inner : List String) :
    s.kept? (inner ++ s.keys) = s.current.at? inner := by
  obtain ⟨page, frames, suspended⟩ := s
  cases frames with
  | nil => exact congrArg page.at? (List.append_nil inner)
  | cons f outer =>
    have hsuffix : (f :: outer).map Frame.key <:+ inner ++ keys ⟨page, f :: outer, suspended⟩ :=
      List.suffix_append ..
    have hlength : (inner ++ keys ⟨page, f :: outer, suspended⟩).length - (outer.length + 1) =
        inner.length := by simp [keys]
    rw [kept?, keptIn?, if_pos hsuffix, hlength, List.take_left]
    rfl

theorem kept?_cons {page : Instance} {f : Frame} {outer suspended : List Frame}
    (h : ¬(f :: outer).map Frame.key <:+ address) :
    kept? ⟨page, f :: outer, suspended⟩ address = kept? ⟨page, outer, suspended⟩ address :=
  if_neg h

/-- A change of the current component only matters for what it keeps. -/
theorem kept?_modifyCurrent (haddress : ¬address <:+ s.keys)
    (h : ∀ inner, inner ≠ [] → address = inner ++ s.keys →
      (f s.current).at? inner = s.current.at? inner) :
    (s.modifyCurrent f).kept? address = s.kept? address := by
  by_cases hs : s.keys <:+ address
  · obtain ⟨inner, rfl⟩ := hs
    have hinner : inner ≠ [] := by
      rintro rfl
      exact haddress (List.suffix_refl _)
    have hkept := kept?_append_keys (s.modifyCurrent f) inner
    rw [keys_modifyCurrent, current_modifyCurrent] at hkept
    rw [hkept, kept?_append_keys, h inner hinner rfl]
  · obtain ⟨page, frames, suspended⟩ := s
    cases frames with
    | nil => exact absurd List.nil_suffix hs
    | cons g outer =>
      exact (kept?_cons (f := { g with component := f g.component }) hs).trans (kept?_cons hs).symm

/-- Other values of entered components change nothing that is kept. -/
theorem Alike.kept? (h : s.Alike t) (haddress : ¬address <:+ s.keys) :
    t.kept? address = s.kept? address := by
  have hinside : ∀ {s t : Scope}, s.Alike t → s.current.Alike t.current → ¬address <:+ s.keys →
      s.keys <:+ address → t.kept? address = s.kept? address := by
    intro s t h hcurrent haddress hs
    obtain ⟨inner, rfl⟩ := hs
    have hinner : inner ≠ [] := by
      rintro rfl
      exact haddress (List.suffix_refl _)
    have hkept := kept?_append_keys t inner
    rw [h.keys] at hkept
    rw [hkept, kept?_append_keys]
    exact Instance.at?_congr hinner fun key _ => congrArg _ hcurrent.children
  obtain ⟨page, frames, suspended⟩ := s
  obtain ⟨page', frames', suspended'⟩ := t
  have hpage := h.page
  have hframes := h.frames
  induction frames generalizing frames' with
  | nil =>
    obtain rfl := List.map_eq_nil_iff.1 hframes
    exact hinside h hpage haddress List.nil_suffix
  | cons f outer ih =>
    obtain ⟨g, outer', rfl, hg, houter⟩ := List.map_eq_cons_iff.1 hframes
    by_cases hs : Scope.keys ⟨page, f :: outer, suspended⟩ <:+ address
    · have hcurrent : f.component.Alike g.component := (congrArg Frame.component hg :)
      exact hinside h hcurrent haddress hs
    · have hs' : ¬(g :: outer').map Frame.key <:+ address := fun hs' => hs (h.keys ▸ hs')
      have halike : Alike ⟨page, outer, suspended⟩ ⟨page', outer', suspended'⟩ := by
        have hsuspended : suspended' = suspended := h.suspended
        unfold Alike blank
        dsimp only
        rw [houter, hsuspended, show page'.blank = page.blank from hpage]
      have hout : ¬address <:+ Scope.keys ⟨page, outer, suspended⟩ := fun hout =>
        haddress (hout.trans (List.suffix_cons ..))
      rw [kept?_cons hs, kept?_cons hs']
      exact ih hout outer' halike hpage houter

/-! ### Entering and leaving -/

/-- A kept component is entered. -/
theorem kept?_enter_kept (haddress : ¬address <:+ s.keys) (hc : s.current.child? key = some c) :
    ((s.takeChild key).2.enter key c).kept? address = s.kept? address := by
  have hkeys : (s.takeChild key).2.keys = s.keys := keys_modifyCurrent s _
  by_cases hs : key :: s.keys <:+ address
  · obtain ⟨inner, rfl⟩ := hs
    have hkept := kept?_append_keys ((s.takeChild key).2.enter key c) inner
    rw [keys_enter, hkeys, current_enter] at hkept
    rw [hkept, List.append_cons, kept?_append_keys, Instance.at?_concat, hc, Option.bind_some]
  · have htaken : (s.takeChild key).2.kept? address = s.kept? address := by
      refine kept?_modifyCurrent haddress fun inner hinner heq => ?_
      subst heq
      refine Instance.at?_congr hinner fun key' hlast => ?_
      exact Instance.child?_removeChild_of_ne (ne_of_not_suffix hs hlast) _
    have hout : ¬(Frame.mk key c :: (s.takeChild key).2.frames).map Frame.key <:+ address := by
      rw [← hkeys] at hs
      exact hs
    exact (kept?_cons hout).trans htaken

/-- A new component is entered, which keeps nothing yet. -/
theorem kept?_enter_fresh (hnone : s.current.child? key = none) (hc : c.children = [])
    (haddress : address ≠ key :: s.keys) : (s.enter key c).kept? address = s.kept? address := by
  by_cases hs : key :: s.keys <:+ address
  · obtain ⟨inner, rfl⟩ := hs
    have hinner : inner ≠ [] := by
      rintro rfl
      exact haddress rfl
    have hkept := kept?_append_keys (s.enter key c) inner
    rw [keys_enter, current_enter] at hkept
    rw [hkept, List.append_cons, kept?_append_keys, Instance.at?_concat, hnone, Option.bind_none,
      Instance.at?_eq_none_of_children_nil hc hinner]
  · exact kept?_cons hs

/-- The current component is handed back to its caller. -/
theorem kept?_leave (hleave : s.leave? = some t) (haddress : ¬address <:+ t.keys) :
    t.kept? address = s.kept? address := by
  obtain ⟨page, frames, suspended⟩ := s
  cases frames with
  | nil => cases hleave
  | cons f outer =>
    obtain rfl := Option.some.inj hleave
    rw [keys_modifyCurrent] at haddress
    by_cases hs : keys ⟨page, f :: outer, suspended⟩ <:+ address
    · obtain ⟨inner, rfl⟩ := hs
      have hlast : inner ++ keys ⟨page, f :: outer, suspended⟩ =
          (inner ++ [f.key]) ++ keys ⟨page, outer, suspended⟩ := List.append_cons ..
      have hkept := kept?_append_keys (modifyCurrent ⟨page, outer, suspended⟩ fun c =>
        c.addChild f.key f.component) (inner ++ [f.key])
      rw [keys_modifyCurrent, current_modifyCurrent, Instance.at?_concat,
        Instance.child?_addChild_self, ← hlast, Option.bind_some] at hkept
      exact hkept.trans (kept?_append_keys ⟨page, f :: outer, suspended⟩ inner).symm
    · have houter : kept? ⟨page, f :: outer, suspended⟩ address =
          kept? ⟨page, outer, suspended⟩ address := kept?_cons hs
      rw [houter]
      refine kept?_modifyCurrent haddress fun inner hinner heq => ?_
      subst heq
      refine Instance.at?_congr hinner fun key' hlast => ?_
      exact Instance.child?_addChild_of_ne (ne_of_not_suffix hs hlast) _ _

/-- What an entered component leaves under its key. -/
theorem kept?_leave_self {f : Frame} {outer : List Frame} (hframes : s.frames = f :: outer)
    (hleave : s.leave? = some t) : t.kept? s.keys = some f.component := by
  obtain ⟨page, frames, suspended⟩ := s
  obtain rfl := hframes
  obtain rfl := Option.some.inj hleave
  have hkept := kept?_append_keys (modifyCurrent ⟨page, outer, suspended⟩ fun c =>
    c.addChild f.key f.component) [f.key]
  rw [keys_modifyCurrent, current_modifyCurrent, Instance.at?, Instance.at?, Option.bind_some,
    Instance.child?_addChild_self] at hkept
  exact hkept

/-- Away from a component that is set aside nothing changes. -/
theorem kept?_suspend (hsuspend : s.suspend? = some t) (haddress : ¬s.keys <:+ address) :
    t.kept? address = s.kept? address := by
  obtain ⟨f, hframes, hscope⟩ := frames_of_suspend hsuspend
  obtain ⟨page, frames, suspended⟩ := s
  obtain rfl := hframes
  rw [hscope]
  exact (kept?_cons haddress).symm

theorem kept?_resume {f : Frame} {rest : List Frame} (haddress : ¬f.key :: s.keys <:+ address) :
    kept? { s with frames := f :: s.frames, suspended := rest } address = s.kept? address :=
  kept?_cons haddress

/-- A component that is taken up again has what it kept. -/
theorem kept?_resumed (s : Scope) (f : Frame) (rest : List Frame) (inner : List String) :
    kept? { s with frames := f :: s.frames, suspended := rest } (inner ++ f.key :: s.keys) =
      f.component.at? inner :=
  kept?_append_keys { s with frames := f :: s.frames, suspended := rest } inner

/-- Later states of components keep later states of what was kept. -/
theorem Retains.kept? {engine : Engine} (h : s.Retains engine t) (hc : s.kept? address = some c) :
    ∃ d, t.kept? address = some d ∧ c.Persists d := by
  have hinside : ∀ {s t : Scope}, s.Retains engine t → s.keys <:+ address →
      s.kept? address = some c → ∃ d, t.kept? address = some d ∧ c.Persists d := by
    rintro s t h ⟨inner, rfl⟩ hc
    have hkept := kept?_append_keys t inner
    rw [Paired.keys_eq h] at hkept
    rw [kept?_append_keys] at hc
    rw [hkept]
    exact (Paired.current h).kept inner c hc
  obtain ⟨page, frames, suspended⟩ := s
  obtain ⟨page', frames', suspended'⟩ := t
  induction frames generalizing frames' with
  | nil => exact hinside h List.nil_suffix hc
  | cons f outer ih =>
    by_cases hs : Scope.keys ⟨page, f :: outer, suspended⟩ <:+ address
    · exact hinside h hs hc
    · have hs' : ¬Scope.keys ⟨page', frames', suspended'⟩ <:+ address := Paired.keys_eq h ▸ hs
      obtain ⟨hpage, hframes, hsuspended⟩ := h
      cases hframes with
      | cons hfg houter =>
        rw [kept?_cons hs] at hc
        rw [kept?_cons hs']
        exact ih hc _ ⟨hpage, houter, hsuspended⟩

end Scope

end PageEngine
