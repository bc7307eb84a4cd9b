import PageEngine.Markup.Cursor
import PageEngine.Markup.Binding

/-! The bindings on a tag: keys, each with a value after an equals sign or standing alone.
A quoted value runs to the same quote, and a backslash in it takes the next character
along; a bare value runs to a blank, `>` or `/`. -/

namespace PageEngine

namespace Cursor

def isKeyChar (c : Char) : Bool :=
  !(Text.isMarkupSpace c || c == '=' || c == '>' || c == '/')

def isBareChar (c : Char) : Bool :=
  !(Text.isMarkupSpace c || c == '>' || c == '/')

/-- What stands before the closing quote, and what follows it. -/
def takeQuoted (quote : Char) : List Char → Option (List Char × List Char)
  | [] => none
  | '\\' :: c :: rest =>
    (takeQuoted quote rest).map fun (body, rest) => ('\\' :: c :: body, rest)
  | c :: rest =>
    if c = '\\' then none
    else if c = quote then some ([], rest)
    else (takeQuoted quote rest).map fun (body, rest) => (c :: body, rest)

/-- Read the value of a binding. -/
def bindingValue (c : Cursor) : Except Fault (BindingValue × Cursor) :=
  match c.rest with
  | [] => .error ⟨.expectedBindingValue, c.offset⟩
  | q :: rest =>
    if isQuote q then
      match takeQuoted q rest with
      | none => .error ⟨.unclosedQuotedValue, c.offset⟩
      | some (body, after) =>
        let text := q :: (body ++ [q])
        .ok (.quoted (String.ofList text), c.past text after)
    else
      let text := c.rest.takeWhile isBareChar
      if text.isEmpty then .error ⟨.expectedBindingValue, c.offset⟩
      else .ok (.bare (String.ofList text), c.skipWhile isBareChar)

theorem eq_of_takeQuoted {q : Char} {cs body rest : List Char}
    (h : takeQuoted q cs = some (body, rest)) : cs = body ++ q :: rest := by
  fun_induction takeQuoted q cs generalizing body with
  | case1 => simp at h
  | case2 c cs ih =>
    obtain ⟨⟨t, r⟩, ht, he⟩ := Option.map_eq_some_iff.1 h
    obtain ⟨rfl, rfl⟩ := Prod.mk.injEq .. ▸ he
    rw [ih ht]
    rfl
  | case3 => simp at h
  | case4 => simp_all
  | case5 c cs _ _ _ ih =>
    obtain ⟨⟨t, r⟩, ht, he⟩ := Option.map_eq_some_iff.1 h
    obtain ⟨rfl, rfl⟩ := Prod.mk.injEq .. ▸ he
    rw [ih ht]
    rfl

theorem length_le_of_bindingValue {c d : Cursor} {v : BindingValue}
    (h : c.bindingValue = .ok (v, d)) : d.rest.length ≤ c.rest.length := by
  unfold bindingValue at h
  split at h
  · simp at h
  · rename_i q rest hrest
    split at h
    · split at h
      · simp at h
      · rename_i body after hbody
        simp only [Except.ok.injEq, Prod.mk.injEq] at h
        obtain ⟨-, rfl⟩ := h
        rw [hrest, rest_past, eq_of_takeQuoted hbody]
        simp only [List.length_cons, List.length_append]
        omega
    · dsimp only at h
      split at h
      · simp at h
      · simp only [Except.ok.injEq, Prod.mk.injEq] at h
        obtain ⟨-, rfl⟩ := h
        exact length_skipWhile_le _ c

/-- Read one key and its value. -/
def binding (c : Cursor) : Except Fault ((String × BindingValue) × Cursor) :=
  let key := c.rest.takeWhile isKeyChar
  if key.isEmpty then .error ⟨.expectedBindingKey, c.offset⟩
  else
    let next := (c.skipWhile isKeyChar).skipSpace
    match next.rest with
    | '=' :: rest =>
      ((next.past ['='] rest).skipSpace.bindingValue).map fun (value, after) =>
        ((String.ofList key, value), after)
    | _ => .ok ((String.ofList key, .present), next)

theorem length_lt_of_binding {c d : Cursor} {b : String × BindingValue}
    (h : c.binding = .ok (b, d)) : d.rest.length < c.rest.length := by
  unfold binding at h
  dsimp only at h
  split at h
  · simp at h
  · rename_i hkey
    have hskip : (c.skipWhile isKeyChar).rest.length < c.rest.length := by
      have heq := List.takeWhile_append_dropWhile (p := isKeyChar) (l := c.rest)
      have hlen := congrArg List.length heq
      rw [List.length_append] at hlen
      have : (c.rest.takeWhile isKeyChar).length ≠ 0 := by
        simpa [List.isEmpty_iff] using hkey
      change (c.rest.dropWhile isKeyChar).length < _
      omega
    have hnext := length_skipSpace_le (c.skipWhile isKeyChar)
    split at h
    · rename_i rest hrest
      obtain ⟨p, hv, heq⟩ := exists_of_map_ok h
      cases heq
      have h1 := length_le_of_bindingValue hv
      have h2 := length_skipSpace_le ((c.skipWhile isKeyChar).skipSpace.past ['='] rest)
      have h3 : rest.length < (c.skipWhile isKeyChar).skipSpace.rest.length := by
        rw [hrest]
        simp
      rw [rest_past] at h2
      omega
    · simp only [Except.ok.injEq, Prod.mk.injEq] at h
      obtain ⟨-, rfl⟩ := h
      omega

/-- Read the bindings of a tag up to its `>` or `/`, added to those already found; of two with
one key the later counts. -/
def bindings (found : Bindings) (c : Cursor) : Except Fault (Bindings × Cursor) :=
  match c.skipSpace.rest with
  | [] => .error ⟨.unexpectedEnd '>', c.skipSpace.offset⟩
  | '>' :: _ => .ok (found, c.skipSpace)
  | '/' :: _ => .ok (found, c.skipSpace)
  | _ =>
    match _h : c.skipSpace.binding with
    | .error fault => .error fault
    | .ok ((key, value), after) => bindings (Dictionary.insert key value found) after
termination_by c.rest.length
decreasing_by exact Nat.lt_of_lt_of_le (length_lt_of_binding _h) (length_skipSpace_le c)

theorem length_le_of_bindings {c d : Cursor} {found b : Bindings}
    (h : c.bindings found = .ok (b, d)) : d.rest.length ≤ c.rest.length := by
  fun_induction bindings found c with
  | case1 => simp at h
  | case2 =>
    simp only [Except.ok.injEq, Prod.mk.injEq] at h
    obtain ⟨-, rfl⟩ := h
    exact length_skipSpace_le _
  | case3 =>
    simp only [Except.ok.injEq, Prod.mk.injEq] at h
    obtain ⟨-, rfl⟩ := h
    exact length_skipSpace_le _
  | case4 => simp at h
  | case5 found c key value after hb _ _ _ ih =>
    have h1 := ih h
    have h2 := length_lt_of_binding hb
    have h3 := length_skipSpace_le c
    omega

end Cursor

end PageEngine
