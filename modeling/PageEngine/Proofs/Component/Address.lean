import PageEngine.Proofs.Component.Scope

/-! Addresses of components. A component is told by the keys on the way to it from the page, the
innermost first, whether it is entered at the moment or kept by its caller. Entering and
leaving components changes no values, so that an address holds the same values before and
after. -/

namespace PageEngine

namespace Instance

/-- The component kept under keys, the innermost first. -/
def at? (c : Instance) : List String → Option Instance
  | [] => some c
  | key :: outer => (c.at? outer).bind fun d => d.child? key

theorem at?_append (c : Instance) (inner outer : List String) :
    c.at? (inner ++ outer) = (c.at? outer).bind fun d => d.at? inner := by
  induction inner with
  | nil => simp [at?]
  | cons key inner ih =>
    rw [List.cons_append, at?, ih, Option.bind_assoc]
    rfl

theorem at?_concat (c : Instance) (inner : List String) (key : String) :
    c.at? (inner ++ [key]) = (c.child? key).bind fun d => d.at? inner := by
  rw [at?_append]
  rfl

theorem child?_addChild_self (c child : Instance) (key : String) :
    (c.addChild key child).child? key = some child := Dictionary.get?_insert_self ..

theorem child?_addChild_of_ne {key key' : String} (h : key' ≠ key) (c child : Instance) :
    (c.addChild key child).child? key' = c.child? key' := Dictionary.get?_insert_of_ne h ..

theorem child?_removeChild_of_ne {key key' : String} (h : key' ≠ key) (c : Instance) :
    (c.removeChild key).child? key' = c.child? key' := Dictionary.get?_erase_of_ne h _

theorem removeChild_of_none {c : Instance} {key : String} (h : c.child? key = none) :
    c.removeChild key = c := by
  obtain ⟨name, kind, values, template, children, bindings, content⟩ := c
  have herase : Dictionary.erase key children = children := Dictionary.erase_of_get?_eq_none h
  unfold removeChild
  rw [herase]

/-- What lies in a component at keys has the same values in another one that keeps the same
components where the keys lead. -/
theorem at?_values {c d found : Instance} {inner : List String} (hvalues : d.values = c.values)
    (hchild : ∀ key, [key] <:+ inner → d.child? key = c.child? key)
    (hfound : c.at? inner = some found) :
    ∃ found', d.at? inner = some found' ∧ found'.values = found.values := by
  rcases List.eq_nil_or_concat inner with rfl | ⟨init, key, rfl⟩
  · obtain rfl := Option.some.inj hfound
    exact ⟨d, rfl, hvalues⟩
  · rw [List.concat_eq_append] at hchild hfound ⊢
    refine ⟨found, ?_, rfl⟩
    rw [at?_concat, hchild key (List.suffix_append ..), ← at?_concat, hfound]

end Instance

namespace Scope

/-- The keys on the way to the component at a depth. -/
def address (s : Scope) (depth : Nat) : List String := s.keys.drop (s.depth - depth)

theorem address_suffix (s : Scope) (depth : Nat) : s.address depth <:+ s.keys :=
  List.drop_suffix ..

theorem address_depth (s : Scope) : s.address s.depth = s.keys := by
  rw [address, Nat.sub_self, List.drop_zero]

theorem length_address {s : Scope} {depth : Nat} (h : depth ≤ s.depth) :
    (s.address depth).length = depth := by
  rw [address, List.length_drop, length_keys]
  omega

theorem Alike.address {s t : Scope} (h : s.Alike t) (depth : Nat) :
    t.address depth = s.address depth := by
  rw [Scope.address, Scope.address, h.keys, h.depth]

theorem address_cons {page : Instance} {f : Frame} {outer suspended : List Frame} {depth : Nat}
    (h : depth ≤ outer.length) :
    address ⟨page, f :: outer, suspended⟩ depth = address ⟨page, outer, suspended⟩ depth := by
  unfold address Scope.keys Scope.depth
  rw [List.length_cons, Nat.succ_sub h, List.map_cons, List.drop_succ_cons]

theorem get?_cons {page : Instance} {f : Frame} {outer suspended : List Frame} {depth : Nat}
    (h : depth ≤ outer.length) :
    get? ⟨page, f :: outer, suspended⟩ depth = get? ⟨page, outer, suspended⟩ depth := by
  unfold get? Scope.depth
  by_cases h0 : depth = 0
  · rw [if_pos h0, if_pos h0]
  · rw [if_neg h0, if_neg h0, List.length_cons, if_pos (Nat.le_succ_of_le h), if_pos h,
      Nat.succ_sub h, List.getElem?_cons_succ]

theorem get?_depth (s : Scope) : s.get? s.depth = some s.current := by
  obtain ⟨page, frames, suspended⟩ := s
  cases frames with
  | nil => rfl
  | cons f outer => simp [get?, Scope.depth, Scope.current]

theorem modifyCurrent_eq (s : Scope) (f : Instance → Instance) :
    s.modifyCurrent f = s.modify s.depth f := by
  obtain ⟨page, frames, suspended⟩ := s
  cases frames with
  | nil => rfl
  | cons g outer => simp [modifyCurrent, modify, Scope.depth]

theorem modify_cons {page : Instance} {g : Frame} {outer suspended : List Frame} {depth : Nat}
    (h : depth ≤ outer.length) (f : Instance → Instance) :
    modify ⟨page, g :: outer, suspended⟩ depth f =
      { modify ⟨page, outer, suspended⟩ depth f with
        frames := g :: (modify ⟨page, outer, suspended⟩ depth f).frames } := by
  unfold modify Scope.depth
  by_cases h0 : depth = 0
  · rw [if_pos h0, if_pos h0]
  · rw [if_neg h0, if_neg h0, List.length_cons, if_pos (Nat.le_succ_of_le h), if_pos h,
      Nat.succ_sub h, List.modify_succ_cons]

/-! ### What an address holds -/

/-- The entered components, or else those that they keep, have these values at an address. -/
def FramesHold (page : Instance) (address : List String) (values : Entries) : List Frame → Prop
  | [] => ∃ c, page.at? address = some c ∧ c.values = values
  | f :: outer =>
    (∃ inner c, address = inner ++ (f :: outer).map Frame.key ∧
      f.component.at? inner = some c ∧ c.values = values) ∨
    ¬(f :: outer).map Frame.key <:+ address ∧ FramesHold page address values outer

/-- The component at an address has these values. Components set aside have no address. -/
def Holds (s : Scope) (address : List String) (values : Entries) : Prop :=
  FramesHold s.page address values s.frames

variable {s t : Scope} {address : List String} {values values' : Entries}

theorem holds_append_keys (s : Scope) (inner : List String) (values : Entries) :
    s.Holds (inner ++ s.keys) values ↔
      ∃ c, s.current.at? inner = some c ∧ c.values = values := by
  obtain ⟨page, frames, suspended⟩ := s
  cases frames with
  | nil =>
    rw [show keys ⟨page, [], suspended⟩ = [] from rfl, List.append_nil]
    exact Iff.rfl
  | cons f outer =>
    constructor
    · rintro (⟨inner', c, heq, hfound⟩ | ⟨hnot, -⟩)
      · rw [List.append_cancel_right heq]
        exact ⟨c, hfound⟩
      · exact absurd (List.suffix_append ..) hnot
    · rintro ⟨c, hfound⟩
      exact .inl ⟨inner, c, rfl, hfound⟩

theorem holds_keys (s : Scope) : s.Holds s.keys s.current.values :=
  (holds_append_keys s [] _).2 ⟨s.current, rfl, rfl⟩

theorem holds_cons {page : Instance} {f : Frame} {outer suspended : List Frame}
    (h : ¬(f :: outer).map Frame.key <:+ address) :
    Holds ⟨page, f :: outer, suspended⟩ address values ↔
      Holds ⟨page, outer, suspended⟩ address values := by
  constructor
  · rintro (⟨inner, c, rfl, -⟩ | ⟨-, houter⟩)
    · exact absurd (List.suffix_append ..) h
    · exact houter
  · exact fun houter => .inr ⟨h, houter⟩

/-- A key list is too short to lead through more keys. -/
theorem not_suffix_of_length_lt {α : Type} {l l' : List α} (h : l'.length < l.length) :
    ¬l <:+ l' :=
  fun hs => absurd hs.length_le (Nat.not_le_of_lt h)

/-- An entered component has its values at its address. -/
theorem holds_address {depth : Nat} {c : Instance} (h : s.get? depth = some c) :
    s.Holds (s.address depth) c.values := by
  obtain ⟨page, frames, suspended⟩ := s
  induction frames with
  | nil =>
    have hdepth : depth ≤ 0 := (get?_isSome_iff _ _).1 (Option.isSome_of_eq_some h)
    obtain rfl := Nat.le_zero.1 hdepth
    obtain rfl := Option.some.inj h
    exact ⟨page, rfl, rfl⟩
  | cons f outer ih =>
    have hdepth : depth ≤ outer.length + 1 := (get?_isSome_iff _ _).1 (Option.isSome_of_eq_some h)
    rcases Nat.lt_or_eq_of_le hdepth with hlt | rfl
    · have hle := Nat.le_of_lt_succ hlt
      rw [get?_cons hle] at h
      rw [address_cons hle]
      refine (holds_cons (not_suffix_of_length_lt ?_)).2 (ih h)
      rw [length_address (s := ⟨page, outer, suspended⟩) hle, List.length_map]
      exact hlt
    · rw [show outer.length + 1 = depth ⟨page, f :: outer, suspended⟩ from rfl] at h ⊢
      rw [get?_depth] at h
      obtain rfl := Option.some.inj h
      rw [address_depth]
      exact holds_keys _

theorem keys_modifyCurrent (s : Scope) (f : Instance → Instance) :
    (s.modifyCurrent f).keys = s.keys := by
  obtain ⟨page, frames, suspended⟩ := s
  cases frames <;> rfl

theorem current_modifyCurrent (s : Scope) (f : Instance → Instance) :
    (s.modifyCurrent f).current = f s.current := by
  obtain ⟨page, frames, suspended⟩ := s
  cases frames <;> rfl

/-- A change of the current component only matters at addresses in it. -/
theorem Holds.modifyCurrent {f : Instance → Instance} (h : s.Holds address values)
    (hin : ∀ inner c, address = inner ++ s.keys → s.current.at? inner = some c →
      c.values = values → ∃ c', (f s.current).at? inner = some c' ∧ c'.values = values')
    (hout : ¬s.keys <:+ address → values' = values) : (s.modifyCurrent f).Holds address values' := by
  by_cases hs : s.keys <:+ address
  · obtain ⟨inner, rfl⟩ := hs
    obtain ⟨c, hfound, hvalues⟩ := (holds_append_keys s inner values).1 h
    have hholds := holds_append_keys (s.modifyCurrent f) inner values'
    rw [keys_modifyCurrent, current_modifyCurrent] at hholds
    exact hholds.2 (hin inner c rfl hfound hvalues)
  · obtain rfl := hout hs
    obtain ⟨page, frames, suspended⟩ := s
    cases frames with
    | nil => exact absurd List.nil_suffix hs
    | cons g outer =>
      have houter := (holds_cons hs).1 h
      exact (holds_cons (f := { g with component := f g.component }) hs).2 houter

/-! ### Writing -/

theorem at?_of_values_changed {c : Instance} {g : Entries → Entries} {inner : List String}
    {found : Instance} (hfound : c.at? inner = some found) :
    ∃ found', ({ c with values := g c.values } : Instance).at? inner = some found' ∧
      found'.values = if inner = [] then g found.values else found.values := by
  rcases List.eq_nil_or_concat inner with rfl | ⟨init, key, rfl⟩
  · obtain rfl := Option.some.inj hfound
    exact ⟨_, rfl, rfl⟩
  · rw [List.concat_eq_append] at hfound ⊢
    refine ⟨found, ?_, (if_neg (by simp)).symm⟩
    rw [Instance.at?_concat] at hfound ⊢
    exact hfound

/-- Changing the values of the component at a depth changes what its address holds, and
nothing else. -/
theorem Holds.modify {depth : Nat} (h : s.Holds address values) (hdepth : depth ≤ s.depth)
    (g : Entries → Entries) :
    (s.modify depth fun c => { c with values := g c.values }).Holds address
      (if s.address depth = address then g values else values) := by
  obtain ⟨page, frames, suspended⟩ := s
  induction frames with
  | nil =>
    obtain rfl := Nat.le_zero.1 hdepth
    obtain ⟨c, hfound, rfl⟩ := h
    obtain ⟨c', hfound', hvalues⟩ := at?_of_values_changed (g := g) hfound
    refine ⟨c', hfound', hvalues.trans ?_⟩
    have haddress : Scope.address ⟨page, [], suspended⟩ 0 = [] := rfl
    rw [haddress]
    by_cases hnil : address = []
    · rw [if_pos hnil, if_pos hnil.symm]
    · rw [if_neg hnil, if_neg (Ne.symm hnil)]
  | cons f outer ih =>
    rcases Nat.lt_or_eq_of_le hdepth with hlt | rfl
    · have hle : depth ≤ outer.length := Nat.le_of_lt_succ hlt
      rw [modify_cons hle, address_cons hle]
      have halike : Alike ⟨page, outer, suspended⟩ (modify ⟨page, outer, suspended⟩ depth
          fun c => { c with values := g c.values }) := alike_modify fun c _ => rfl
      have hkeys := halike.keys
      have hhead : (f :: (modify ⟨page, outer, suspended⟩ depth fun c =>
          { c with values := g c.values }).frames).map Frame.key = (f :: outer).map Frame.key :=
        congrArg (f.key :: ·) hkeys
      rcases h with ⟨inner, c, rfl, hfound⟩ | ⟨hs, houter⟩
      · have hlong : address ⟨page, outer, suspended⟩ depth ≠ inner ++ (f :: outer).map Frame.key := by
          intro heq
          have hlength := congrArg List.length heq
          rw [length_address (s := ⟨page, outer, suspended⟩) hle, List.length_append,
            List.length_map] at hlength
          simp only [List.length_cons] at hlength
          omega
        rw [if_neg hlong]
        exact .inl ⟨inner, c, congrArg (inner ++ ·) hhead.symm, hfound⟩
      · exact .inr ⟨hhead ▸ hs, ih houter hle⟩
    · rw [← modifyCurrent_eq, address_depth]
      refine h.modifyCurrent (fun inner c heq hfound hvalues => ?_) fun hs => if_neg ?_
      · obtain ⟨c', hfound', hvalues'⟩ := at?_of_values_changed (g := g) hfound
        refine ⟨c', hfound', hvalues'.trans ?_⟩
        subst heq hvalues
        by_cases hnil : inner = []
        · rw [if_pos hnil, if_pos (by rw [hnil, List.nil_append])]
        · rw [if_neg hnil, if_neg fun heq => hnil (List.self_eq_append_left.1 heq)]
      · rintro rfl
        exact hs (List.suffix_refl _)

/-! ### Entering and leaving -/

/-- Keys that lead to another component than the one under a key end in another key. -/
theorem ne_of_not_suffix {inner outer : List String} {key key' : String}
    (h : ¬key :: outer <:+ inner ++ outer) (hinner : [key'] <:+ inner) : key' ≠ key := by
  rintro rfl
  obtain ⟨init, rfl⟩ := hinner
  exact h ⟨init, by rw [List.append_assoc]; rfl⟩

/-- A kept component is entered. -/
theorem Holds.enter_kept {key : String} {c : Instance} (h : s.Holds address values)
    (hc : s.current.child? key = some c) :
    ((s.takeChild key).2.enter key c).Holds address values := by
  have hkeys : (s.takeChild key).2.keys = s.keys := keys_modifyCurrent s _
  by_cases hs : key :: s.keys <:+ address
  · obtain ⟨inner, rfl⟩ := hs
    rw [show inner ++ key :: s.keys = inner ++ [key] ++ s.keys by simp, holds_append_keys] at h
    obtain ⟨d, hfound, hvalues⟩ := h
    rw [Instance.at?_concat, hc] at hfound
    rw [← hkeys, ← keys_enter _ key c]
    exact (holds_append_keys _ inner values).2 ⟨d, hfound, hvalues⟩
  · have htaken : (s.takeChild key).2.Holds address values := by
      refine h.modifyCurrent (fun inner d heq hfound hvalues => ?_) fun _ => rfl
      subst heq hvalues
      refine Instance.at?_values (c := s.current) rfl (fun key' hlast => ?_) hfound
      exact Instance.child?_removeChild_of_ne (ne_of_not_suffix hs hlast) _
    refine (holds_cons (f := ⟨key, c⟩) ?_).2 htaken
    rw [← hkeys] at hs
    exact hs

theorem takeChild_of_none {key : String} (h : s.current.child? key = none) :
    (s.takeChild key).2 = s := by
  have hsame := Instance.removeChild_of_none h
  obtain ⟨page, frames, suspended⟩ := s
  cases frames with
  | nil => exact congrArg (fun page => Scope.mk page [] suspended) hsame
  | cons f outer =>
    exact congrArg (fun c => Scope.mk page ({ f with component := c } :: outer) suspended) hsame

/-- A new component is entered. -/
theorem Holds.enter_fresh {key : String} (h : s.Holds address values)
    (hnone : s.current.child? key = none) (c : Instance) :
    (s.enter key c).Holds address values := by
  refine (holds_cons fun hs => ?_).2 h
  obtain ⟨inner, rfl⟩ := hs
  have hkeys : (Frame.mk key c :: s.frames).map Frame.key = [key] ++ s.keys := rfl
  rw [hkeys, ← List.append_assoc, holds_append_keys] at h
  obtain ⟨d, hfound, -⟩ := h
  rw [Instance.at?_concat, hnone] at hfound
  cases hfound

/-- The current component is handed back to its caller. -/
theorem Holds.leave (h : s.Holds address values) (hleave : s.leave? = some t) :
    t.Holds address values := by
  obtain ⟨page, frames, suspended⟩ := s
  cases frames with
  | nil => cases hleave
  | cons f outer =>
    rw [← Option.some.inj hleave]
    rcases h with ⟨inner, c, rfl, hfound, hvalues⟩ | ⟨hs, houter⟩
    · have hlast : inner ++ (f :: outer).map Frame.key =
          (inner ++ [f.key]) ++ keys ⟨page, outer, suspended⟩ := by simp [keys]
      have hholds := holds_append_keys (Scope.modifyCurrent ⟨page, outer, suspended⟩ fun c =>
        c.addChild f.key f.component) (inner ++ [f.key]) values
      rw [keys_modifyCurrent, current_modifyCurrent] at hholds
      rw [hlast]
      refine hholds.2 ⟨c, ?_, hvalues⟩
      rw [Instance.at?_concat, Instance.child?_addChild_self]
      exact hfound
    · refine modifyCurrent (s := ⟨page, outer, suspended⟩) houter
        (fun inner d heq hfound hvalues => ?_) fun _ => rfl
      subst heq hvalues
      refine Instance.at?_values (c := Scope.current ⟨page, outer, suspended⟩) rfl
        (fun key' hlast => ?_) hfound
      exact Instance.child?_addChild_of_ne (ne_of_not_suffix hs hlast) _ _

/-- Away from a component that is set aside nothing changes. -/
theorem Holds.suspend (h : s.Holds address values) (hsuspend : s.suspend? = some t)
    (haddress : ¬s.keys <:+ address) : t.Holds address values := by
  obtain ⟨f, hframes, hscope⟩ := frames_of_suspend hsuspend
  obtain ⟨page, frames, suspended⟩ := s
  obtain rfl := hframes
  rw [hscope]
  exact (holds_cons haddress).1 h

/-- A component that was set aside is taken up with what it kept. -/
theorem holds_resumed {f : Frame} {rest : List Frame} {inner : List String} {c : Instance}
    (hfound : f.component.at? inner = some c) :
    Holds { s with frames := f :: s.frames, suspended := rest } (inner ++ f.key :: s.keys)
      c.values :=
  .inl ⟨inner, c, rfl, hfound, rfl⟩

theorem Holds.resume {f : Frame} {rest : List Frame} (h : s.Holds address values)
    (haddress : ¬f.key :: s.keys <:+ address) :
    Holds { s with frames := f :: s.frames, suspended := rest } address values :=
  .inr ⟨haddress, h⟩

/-- On a page without entered components an address leads from component to component. -/
theorem holds_ofPage {page : Instance} :
    (ofPage page).Holds address values ↔ ∃ c, page.at? address = some c ∧ c.values = values :=
  Iff.rfl

end Scope

end PageEngine
