/-! Texts cut at every separator and put together again. There is always a first segment;
the empty text has one, which is empty. Cutting and joining undo each other as long as no
segment holds the separator. -/

namespace PageEngine.Text

/-- The first segment of a text and the others. -/
def segments (separator : Char) : List Char → List Char × List (List Char)
  | [] => ([], [])
  | c :: cs =>
    let found := segments separator cs
    if c = separator then ([], found.1 :: found.2) else (c :: found.1, found.2)

/-- Segments with a separator before each one after the first. -/
def joinSegments (separator : Char) (first : List Char) (rest : List (List Char)) : List Char :=
  first ++ rest.flatMap (separator :: ·)

theorem joinSegments_segments (separator : Char) (cs : List Char) :
    joinSegments separator (segments separator cs).1 (segments separator cs).2 = cs := by
  induction cs with
  | nil => rfl
  | cons c cs ih =>
    rw [segments]
    split
    · rename_i h
      simpa [joinSegments, h] using ih
    · simpa [joinSegments] using ih

theorem segments_append {separator : Char} {segment : List Char} (h : separator ∉ segment)
    (cs : List Char) :
    segments separator (segment ++ cs) =
      (segment ++ (segments separator cs).1, (segments separator cs).2) := by
  induction segment with
  | nil => rfl
  | cons c segment ih =>
    obtain ⟨hc, hs⟩ := not_or.1 (mt List.mem_cons.2 h)
    simp [segments, ih hs, Ne.symm hc]

theorem segments_joinSegments {separator : Char} {first : List Char} {rest : List (List Char)}
    (hf : separator ∉ first) (hr : ∀ segment ∈ rest, separator ∉ segment) :
    segments separator (joinSegments separator first rest) = (first, rest) := by
  induction rest generalizing first with
  | nil => simpa [joinSegments, segments] using segments_append hf []
  | cons next rest ih =>
    have hn : separator ∉ next := hr next (by simp)
    have hj : joinSegments separator first (next :: rest) =
        first ++ separator :: joinSegments separator next rest := by simp [joinSegments]
    have hs := ih hn fun segment h => hr segment (List.mem_cons_of_mem _ h)
    rw [hj, segments_append hf, segments, hs]
    simp

theorem not_mem_segments (separator : Char) (cs : List Char) :
    separator ∉ (segments separator cs).1 ∧
      ∀ segment ∈ (segments separator cs).2, separator ∉ segment := by
  induction cs with
  | nil => simp [segments]
  | cons c cs ih =>
    rw [segments]
    split
    · exact ⟨by simp, by simpa using ih⟩
    · rename_i h
      exact ⟨by simpa using ⟨Ne.symm h, ih.1⟩, ih.2⟩

end PageEngine.Text
