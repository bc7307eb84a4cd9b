import PageEngine.Markup.Cursor
import PageEngine.Markup.Node

/-! Directives: `<p:raw>` and `<p:comment>` with content that is never read as markup. The
names are matched in any letter case. Blocks of the same name nest, and each closing tag
closes the innermost of them. -/

namespace PageEngine

inductive Directive where
  | raw
  | comment
  deriving DecidableEq, Repr

namespace Directive

def name : Directive → String
  | .raw => "raw"
  | .comment => "comment"

/-- How the opening tag begins. -/
def opener (d : Directive) : List Char :=
  '<' :: 'p' :: ':' :: d.name.toList

/-- How the closing tag begins. -/
def closer (d : Directive) : List Char :=
  '<' :: '/' :: 'p' :: ':' :: d.name.toList

/-- Whether an opening tag may go on like this after the name. -/
def endsOpener : List Char → Bool
  | [] => false
  | c :: _ => c == '>' || c == '/' || c == ' ' || c == '\t' || c == '\n' || c == '\r'

/-- Whether a closing tag may go on like this after the name. -/
def endsCloser : List Char → Bool
  | [] => false
  | c :: _ => c == '>' || Text.isMarkupSpace c

/-- Whether the directive opens here. -/
def opensAt (d : Directive) (cs : List Char) : Bool :=
  match afterWordAnyCase? d.opener cs with
  | some rest => endsOpener rest
  | none => false

/-- What follows the name in a closing tag that stands here. -/
def closes? (d : Directive) (cs : List Char) : Option (List Char) :=
  (afterWordAnyCase? d.closer cs).filter endsCloser

/-- The directive that opens here. -/
def at? (cs : List Char) : Option Directive :=
  if raw.opensAt cs then some raw
  else if comment.opensAt cs then some comment
  else none

/-- The text of a tag up to its `>`, and what follows it. -/
def takeTag : List Char → Option (List Char × List Char)
  | [] => none
  | '>' :: rest => some (['>'], rest)
  | c :: rest => (takeTag rest).map fun (text, rest) => (c :: text, rest)

/-- Whether the text of a tag ends in `/>`. -/
def isSelfClosing (tag : List Char) : Bool :=
  tag.dropLast.getLast? == some '/'

theorem eq_of_takeTag {cs text rest : List Char} (h : takeTag cs = some (text, rest)) :
    cs = text ++ rest ∧ text ≠ [] := by
  fun_induction takeTag cs generalizing text with
  | case1 => simp at h
  | case2 =>
    simp only [Option.some.injEq, Prod.mk.injEq] at h
    obtain ⟨rfl, rfl⟩ := h
    simp
  | case3 c cs _ ih =>
    obtain ⟨⟨t, r⟩, ht, he⟩ := Option.map_eq_some_iff.1 h
    obtain ⟨rfl, rfl⟩ := Prod.mk.injEq .. ▸ he
    rw [(ih ht).1]
    simp

theorem length_lt_of_closes? {d : Directive} {cs rest : List Char} (h : d.closes? cs = some rest) :
    rest.length < cs.length := by
  have h := (Option.filter_eq_some_iff.1 h).1
  have := length_of_afterWordAnyCase? h
  simp only [closer, List.length_cons] at this
  omega

/-- Read the content of a directive that began at `start`, with `depth` further blocks open,
up to and past its closing tag. -/
def content (d : Directive) (start depth : Nat) (c : Cursor) :
    Except Fault (List Char × Cursor) :=
  match _hrest : c.rest with
  | [] => .error ⟨.unclosedDirective d.name, start⟩
  | ch :: cs =>
    match _hclose : d.closes? c.rest with
    | some after =>
      let tag := c.rest.take d.closer.length
      match depth with
      | 0 =>
        match (c.past tag after).skipSpace.expect '>' with
        | .ok end_ => .ok ([], end_)
        | .error _ => .error ⟨.unclosedDirective d.name, start⟩
      | depth + 1 =>
        (content d start depth (c.past tag after)).map fun (text, end_) => (tag ++ text, end_)
    | none =>
      if d.opensAt c.rest then
        match _htag : takeTag c.rest with
        | none => .error ⟨.unexpectedEnd '>', c.offset⟩
        | some (tag, after) =>
          let depth := if isSelfClosing tag then depth else depth + 1
          (content d start depth (c.past tag after)).map fun (text, end_) => (tag ++ text, end_)
      else (content d start depth (c.past [ch] cs)).map fun (text, end_) => (ch :: text, end_)
termination_by c.rest.length
decreasing_by
  · exact length_lt_of_closes? _hclose
  · obtain ⟨heq, hne⟩ := eq_of_takeTag _htag
    have := List.length_pos_iff.2 hne
    simp only [Cursor.rest_past, heq, List.length_append]
    omega
  · simp [_hrest]

/-- The node for a directive's content. -/
def node (d : Directive) (text : List Char) (span : Span) : Node :=
  match d with
  | .raw => .raw (String.ofList text) span
  | .comment => .comment (String.ofList text) span

/-- Read a directive whose opening tag stands here. -/
def read (d : Directive) (c : Cursor) : Except Fault (Node × Cursor) :=
  match takeTag c.rest with
  | none => .error ⟨.unexpectedEnd '>', c.offset⟩
  | some (tag, after) =>
    let inside := c.past tag after
    if isSelfClosing tag then .ok (d.node [] (Span.ofBounds c.offset inside.offset), inside)
    else
      (content d c.offset 0 inside).map fun (text, end_) =>
        (d.node text (Span.ofBounds c.offset end_.offset), end_)

theorem length_le_of_content {d : Directive} {start depth : Nat} {c after : Cursor}
    {text : List Char} (h : d.content start depth c = .ok (text, after)) :
    after.rest.length ≤ c.rest.length := by
  induction hn : c.rest.length using Nat.strongRecOn generalizing c depth text with
  | ind n ih =>
    have step {depth' : Nat} {c' : Cursor} {f : List Char → List Char}
        (hlt : c'.rest.length < c.rest.length)
        (h : (d.content start depth' c').map (fun (t, e) => (f t, e)) = .ok (text, after)) :
        after.rest.length ≤ n := by
      obtain ⟨r, hc, heq⟩ := exists_of_map_ok h
      cases heq
      have := ih _ (hn ▸ hlt) hc rfl
      omega
    rw [content] at h
    split at h
    · simp at h
    · rename_i ch cs hrest
      split at h
      · rename_i rest hclose
        have hlt := length_lt_of_closes? hclose
        dsimp only at h
        split at h
        · split at h
          · rename_i e he
            simp only [Except.ok.injEq, Prod.mk.injEq] at h
            obtain ⟨-, rfl⟩ := h
            have h1 := Cursor.length_lt_of_expect he
            have h2 := Cursor.length_skipSpace_le (c.past (c.rest.take d.closer.length) rest)
            rw [Cursor.rest_past] at h2
            omega
          · simp at h
        · exact step hlt h
      · split at h
        · split at h
          · simp at h
          · rename_i tag rest htag
            obtain ⟨heq, hne⟩ := eq_of_takeTag htag
            have hpos := List.length_pos_iff.2 hne
            refine step ?_ h
            rw [heq, List.length_append, Cursor.rest_past]
            omega
        · exact step (by simp [hrest]) h

theorem length_lt_of_read {d : Directive} {c after : Cursor} {n : Node}
    (h : d.read c = .ok (n, after)) : after.rest.length < c.rest.length := by
  unfold read at h
  split at h
  · simp at h
  · rename_i tag rest htag
    obtain ⟨heq, hne⟩ := eq_of_takeTag htag
    have hpos := List.length_pos_iff.2 hne
    have hlt : rest.length < c.rest.length := by
      rw [heq, List.length_append]
      omega
    dsimp only at h
    split at h
    · simp only [Except.ok.injEq, Prod.mk.injEq] at h
      obtain ⟨-, rfl⟩ := h
      exact hlt
    · obtain ⟨r, hc, heq⟩ := exists_of_map_ok h
      cases heq
      have := length_le_of_content hc
      rw [Cursor.rest_past] at this
      omega

end Directive

end PageEngine
