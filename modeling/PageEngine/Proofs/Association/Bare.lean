import PageEngine.Proofs.Decimal.Written

/-! What a bare text of a binding stands for: a number, a truth value, a reference to a binding of
the caller, or a key path, the earlier of these first. A key path is checked by what stands at its
ends and next to its points; that is to check its segments one by one. -/

namespace PageEngine

namespace Association

/-! ### Key paths -/

/-- The segments of a key path, as they are written. -/
def segmentsOf (cs : List Char) : List (List Char) :=
  (Text.segments '.' cs).1 :: (Text.segments '.' cs).2

/-- A segment that can be a key. -/
structure SoundSegment (segment : List Char) : Prop where
  nonempty : segment ≠ []
  noSpaceBefore : segment.head? ≠ some ' '
  noSpaceAfter : segment.getLast? ≠ some ' '
  noOperator : segment.head? ≠ some '@'

/-- A key path that has a key in every segment. -/
structure SoundPath (cs : List Char) : Prop where
  nonempty : cs ≠ []
  segments : ∀ segment ∈ segmentsOf cs, SoundSegment segment

/-- What the check of a key path asks of every character but the first one. -/
structure Smooth (cs : List Char) : Prop where
  point : cs.getLast? ≠ some '.'
  space : cs.getLast? ≠ some ' '
  pointPoint : adjacent '.' '.' cs = false
  pointSpace : adjacent '.' ' ' cs = false
  spacePoint : adjacent ' ' '.' cs = false
  pointOperator : adjacent '.' '@' cs = false

theorem adjacent_cons_eq_false_iff {a b c d : Char} {cs : List Char} :
    adjacent a b (c :: d :: cs) = false ↔ (c = a → d ≠ b) ∧ adjacent a b (d :: cs) = false := by
  rw [adjacent, Bool.or_eq_false_iff, Bool.and_eq_false_iff, beq_eq_false_iff_ne,
    beq_eq_false_iff_ne, imp_iff_not_or]

theorem smooth_cons_iff {c d : Char} {cs : List Char} :
    Smooth (c :: d :: cs) ↔
      Smooth (d :: cs) ∧ (c = '.' → d ≠ '.' ∧ d ≠ ' ' ∧ d ≠ '@') ∧ (c = ' ' → d ≠ '.') := by
  constructor
  · intro h
    have hpointPoint := adjacent_cons_eq_false_iff.1 h.pointPoint
    have hpointSpace := adjacent_cons_eq_false_iff.1 h.pointSpace
    have hspacePoint := adjacent_cons_eq_false_iff.1 h.spacePoint
    have hoperator := adjacent_cons_eq_false_iff.1 h.pointOperator
    refine ⟨⟨?_, ?_, hpointPoint.2, hpointSpace.2, hspacePoint.2, hoperator.2⟩, ?_, hspacePoint.1⟩
    · exact List.getLast?_cons_cons ▸ h.point
    · exact List.getLast?_cons_cons ▸ h.space
    · exact fun hc => ⟨hpointPoint.1 hc, hpointSpace.1 hc, hoperator.1 hc⟩
  · intro ⟨h, hpoint, hspace⟩
    refine ⟨?_, ?_, ?_, ?_, ?_, ?_⟩
    · rw [List.getLast?_cons_cons]
      exact h.point
    · rw [List.getLast?_cons_cons]
      exact h.space
    · exact adjacent_cons_eq_false_iff.2 ⟨fun hc => (hpoint hc).1, h.pointPoint⟩
    · exact adjacent_cons_eq_false_iff.2 ⟨fun hc => (hpoint hc).2.1, h.pointSpace⟩
    · exact adjacent_cons_eq_false_iff.2 ⟨hspace, h.spacePoint⟩
    · exact adjacent_cons_eq_false_iff.2 ⟨fun hc => (hpoint hc).2.2, h.pointOperator⟩

theorem segments_point (cs : List Char) :
    Text.segments '.' ('.' :: cs) =
      ([], (Text.segments '.' cs).1 :: (Text.segments '.' cs).2) := rfl

theorem segments_cons_of_ne {c : Char} (h : c ≠ '.') (cs : List Char) :
    Text.segments '.' (c :: cs) =
      (c :: (Text.segments '.' cs).1, (Text.segments '.' cs).2) :=
  if_neg h

/-- A first segment is empty if the text begins with a point, and otherwise begins as the text. -/
theorem head?_segments (d : Char) (cs : List Char) :
    (Text.segments '.' (d :: cs)).1.head? = if d = '.' then none else some d := by
  rw [Text.segments]
  split <;> rfl

theorem soundSegment_first_iff (d : Char) (cs : List Char) :
    SoundSegment (Text.segments '.' (d :: cs)).1 ↔ (d ≠ '.' ∧ d ≠ ' ' ∧ d ≠ '@') ∧
      (Text.segments '.' (d :: cs)).1.getLast? ≠ some ' ' := by
  have hhead := head?_segments d cs
  generalize (Text.segments '.' (d :: cs)).1 = first at hhead ⊢
  by_cases hd : d = '.'
  · rw [if_pos hd, List.head?_eq_none_iff] at hhead
    exact iff_of_false (fun h => h.nonempty hhead) fun h => h.1.1 hd
  · rw [if_neg hd] at hhead
    constructor
    · intro h
      refine ⟨⟨hd, ?_, ?_⟩, h.noSpaceAfter⟩
      · exact fun h' => h.noSpaceBefore (h' ▸ hhead)
      · exact fun h' => h.noOperator (h' ▸ hhead)
    · intro ⟨⟨_, hspace, hoperator⟩, hlast⟩
      refine ⟨?_, ?_, hlast, ?_⟩
      · rintro rfl
        cases hhead
      · rw [hhead]
        exact fun h => hspace (Option.some.inj h)
      · rw [hhead]
        exact fun h => hoperator (Option.some.inj h)

/-- The check looks at the end of the first segment, and at every other segment. -/
theorem smooth_iff (cs : List Char) :
    Smooth cs ↔ (Text.segments '.' cs).1.getLast? ≠ some ' ' ∧
      ∀ segment ∈ (Text.segments '.' cs).2, SoundSegment segment := by
  induction cs with
  | nil => exact iff_of_true ⟨nofun, nofun, rfl, rfl, rfl, rfl⟩ ⟨nofun, nofun⟩
  | cons c cs ih =>
    cases cs with
    | nil =>
      by_cases hc : c = '.'
      · subst hc
        exact iff_of_false (fun h => h.point rfl) fun h => (h.2 [] List.mem_cons_self).nonempty rfl
      · rw [segments_cons_of_ne hc]
        constructor
        · exact fun h => ⟨h.space, nofun⟩
        · exact fun h => ⟨fun h' => hc (Option.some.inj h'), h.1, rfl, rfl, rfl, rfl⟩
    | cons d cs =>
      rw [smooth_cons_iff, ih]
      by_cases hc : c = '.'
      · subst hc
        rw [segments_point, List.forall_mem_cons, soundSegment_first_iff]
        constructor
        · exact fun h => ⟨nofun, ⟨h.2.1 rfl, h.1.1⟩, h.1.2⟩
        · exact fun h => ⟨⟨h.2.1.2, h.2.2⟩, fun _ => h.2.1.1, nofun⟩
      · rw [segments_cons_of_ne hc]
        have hhead := head?_segments d cs
        generalize (Text.segments '.' (d :: cs)).1 = first at hhead ⊢
        by_cases hd : d = '.'
        · rw [if_pos hd, List.head?_eq_none_iff] at hhead
          subst hhead
          constructor
          · exact fun h => ⟨fun h' => h.2.2 (Option.some.inj h') hd, h.1.2⟩
          · exact fun h => ⟨⟨nofun, h.2⟩, fun h' => absurd h' hc,
              fun h' => absurd (congrArg some h') h.1⟩
        · rw [if_neg hd] at hhead
          obtain ⟨rest, rfl⟩ := List.head?_eq_some_iff.1 hhead
          rw [List.getLast?_cons_cons]
          constructor
          · exact fun h => h.1
          · exact fun h => ⟨h, fun h' => absurd h' hc, fun _ => hd⟩

theorem bordered_eq_false_iff {c : Char} {cs : List Char} :
    bordered c cs = false ↔ cs.head? ≠ some c ∧ cs.getLast? ≠ some c := by
  rw [bordered, Bool.or_eq_false_iff, beq_eq_false_iff_ne, beq_eq_false_iff_ne]

theorem flaw?_eq_none_iff (cs : List Char) :
    flaw? cs = none ↔
      (cs.head? ≠ some '.' ∧ cs.head? ≠ some ' ' ∧ cs.head? ≠ some '@') ∧ Smooth cs := by
  have hstep : ∀ {found : Bool} {flaw : KeyPathFlaw} {others : Option KeyPathFlaw},
      (if found = true then some flaw else others) = none ↔ found = false ∧ others = none := by
    intro found flaw others
    cases found
    · exact ⟨fun h => ⟨rfl, h⟩, fun h => h.2⟩
    · exact iff_of_false nofun nofun
  simp only [flaw?, hstep, Bool.or_eq_false_iff, beq_eq_false_iff_ne, bordered_eq_false_iff]
  constructor
  · intro ⟨⟨hpoint, hpoint'⟩, ⟨hspace, hspace'⟩, hempty, ⟨hafter, hbefore⟩, ⟨hop, hop'⟩, _⟩
    exact ⟨⟨hpoint, hspace, hop⟩, hpoint', hspace', hempty, hafter, hbefore, hop'⟩
  · intro ⟨⟨hpoint, hspace, hop⟩, hpoint', hspace', hempty, hafter, hbefore, hop'⟩
    exact ⟨⟨hpoint, hpoint'⟩, ⟨hspace, hspace'⟩, hempty, ⟨hafter, hbefore⟩, ⟨hop, hop'⟩, trivial⟩

/-- The check of the whole text finds nothing exactly if every segment is sound. -/
theorem soundPath_eq_ok_iff {cs : List Char} {path : String} :
    soundPath cs = .ok path ↔ SoundPath cs ∧ path = String.ofList cs := by
  cases cs with
  | nil => exact iff_of_false nofun fun h => h.1.nonempty rfl
  | cons c cs =>
    have hsound : flaw? (c :: cs) = none ↔ SoundPath (c :: cs) := by
      rw [flaw?_eq_none_iff, smooth_iff]
      simp only [List.head?_cons, ne_eq, Option.some.injEq]
      rw [← and_assoc, ← soundSegment_first_iff]
      constructor
      · exact fun h => ⟨nofun, List.forall_mem_cons.2 h⟩
      · exact fun h => List.forall_mem_cons.1 h.segments
    rw [← hsound, soundPath]
    cases flaw? (c :: cs) with
    | some flaw => exact iff_of_false nofun nofun
    | none =>
      constructor
      · rintro ⟨⟩
        exact ⟨rfl, rfl⟩
      · rintro ⟨-, rfl⟩
        rfl

/-! ### Truth words -/

/-- The words for a truth value. -/
def wordsFor : Bool → Bool → List String
  | true, true => ["true"]
  | true, false => ["false"]
  | false, true => ["true", "yes"]
  | false, false => ["false", "no", "nil", "null"]

/-- On a tag a truth word is written as it is, in a declaration in any ASCII case. -/
def IsTruthWord (isInline b : Bool) (cs : List Char) : Prop :=
  String.ofList (if isInline then cs else cs.map Char.toLower) ∈ wordsFor isInline b

/-- No word is listed for both truth values. -/
theorem lookup_eq_some_iff {trues falses : List String} (h : ∀ word ∈ trues, word ∉ falses)
    {word : String} {b : Bool} :
    (if trues.contains word then some true else if falses.contains word then some false
      else none) = some b ↔ word ∈ if b then trues else falses := by
  simp only [List.contains_eq_mem, decide_eq_true_eq]
  by_cases htrue : word ∈ trues
  · rw [if_pos htrue]
    cases b
    · exact iff_of_false nofun (h word htrue)
    · exact iff_of_true rfl htrue
  · rw [if_neg htrue]
    by_cases hfalse : word ∈ falses
    · rw [if_pos hfalse]
      cases b
      · exact iff_of_true rfl hfalse
      · exact iff_of_false nofun htrue
    · rw [if_neg hfalse]
      cases b
      · exact iff_of_false nofun hfalse
      · exact iff_of_false nofun htrue

theorem truthWord?_eq_some_iff {isInline b : Bool} {cs : List Char} :
    truthWord? isInline cs = some b ↔ IsTruthWord isInline b cs := by
  have hwords : wordsFor isInline b =
      if b then wordsFor isInline true else wordsFor isInline false := by
    cases b <;> rfl
  have hdisjoint : ∀ word ∈ wordsFor isInline true, word ∉ wordsFor isInline false := by
    cases isInline <;> decide
  rw [IsTruthWord, hwords, ← lookup_eq_some_iff hdisjoint]
  cases isInline <;> rfl

/-! ### Bare texts -/

/-- The association that a bare text stands for, if there is one. -/
inductive Bare (isInline : Bool) (cs : List Char) : Association → Prop
  | number (n : WrittenNumber) (h : n.text = cs) : Bare isInline cs (.constant n.value)
  | truth (b : Bool) (hnumber : ∀ n : WrittenNumber, n.text ≠ cs) (h : IsTruthWord isInline b cs) :
    Bare isInline cs (.constant (.bool b))
  | reference (name : List Char) (hnumber : ∀ n : WrittenNumber, n.text ≠ cs)
    (hword : ∀ b, ¬IsTruthWord isInline b cs) (h : cs = '^' :: name) (hsound : SoundPath name) :
    Bare isInline cs (.reference (String.ofList name))
  | keyPath (hnumber : ∀ n : WrittenNumber, n.text ≠ cs)
    (hword : ∀ b, ¬IsTruthWord isInline b cs) (h : cs.head? ≠ some '^') (hsound : SoundPath cs) :
    Bare isInline cs (.keyPath (String.ofList cs))

variable {isInline : Bool} {cs : List Char} {a : Association}

theorem bare_number_iff (n : WrittenNumber) : Bare isInline n.text a ↔ a = .constant n.value := by
  constructor
  · intro h
    cases h with
    | number m hm =>
      have hvalue := n.numeral?_text
      rw [← hm, m.numeral?_text] at hvalue
      rw [Option.some.inj hvalue]
    | truth b hnumber => exact absurd rfl (hnumber n)
    | reference name hnumber => exact absurd rfl (hnumber n)
    | keyPath hnumber => exact absurd rfl (hnumber n)
  · rintro rfl
    exact .number n rfl

theorem bare_truth_iff {b : Bool} (hnumber : ∀ n : WrittenNumber, n.text ≠ cs)
    (hword : IsTruthWord isInline b cs) :
    Bare isInline cs a ↔ a = .constant (.bool b) := by
  constructor
  · intro h
    cases h with
    | number n h => exact absurd h (hnumber n)
    | truth b' _ h =>
      have hsame := (truthWord?_eq_some_iff.2 h).symm.trans (truthWord?_eq_some_iff.2 hword)
      rw [Option.some.inj hsame]
    | reference name _ hnone => exact absurd hword (hnone b)
    | keyPath _ hnone => exact absurd hword (hnone b)
  · rintro rfl
    exact .truth b hnumber hword

theorem bare_reference_iff {name : List Char} (hnumber : ∀ n : WrittenNumber, n.text ≠ '^' :: name)
    (hword : ∀ b, ¬IsTruthWord isInline b ('^' :: name)) :
    Bare isInline ('^' :: name) a ↔ SoundPath name ∧ a = .reference (String.ofList name) := by
  constructor
  · intro h
    cases h with
    | number n h => exact absurd h (hnumber n)
    | truth b _ h => exact absurd h (hword b)
    | reference name' _ _ hname hsound =>
      cases hname
      exact ⟨hsound, rfl⟩
    | keyPath _ _ hcaret => exact absurd rfl hcaret
  · rintro ⟨hsound, rfl⟩
    exact .reference name hnumber hword rfl hsound

theorem bare_keyPath_iff (hnumber : ∀ n : WrittenNumber, n.text ≠ cs)
    (hword : ∀ b, ¬IsTruthWord isInline b cs) (hcaret : cs.head? ≠ some '^') :
    Bare isInline cs a ↔ SoundPath cs ∧ a = .keyPath (String.ofList cs) := by
  constructor
  · intro h
    cases h with
    | number n h => exact absurd h (hnumber n)
    | truth b _ h => exact absurd h (hword b)
    | reference name _ _ hname => exact absurd (hname ▸ rfl) hcaret
    | keyPath _ _ _ hsound => exact ⟨hsound, rfl⟩
  · rintro ⟨hsound, rfl⟩
    exact .keyPath hnumber hword hcaret hsound

/-! ### Reading -/

theorem map_soundPath_eq_ok_iff {make : String → Association} :
    (soundPath cs).map make = .ok a ↔ SoundPath cs ∧ a = make (String.ofList cs) := by
  constructor
  · intro h
    cases hpath : soundPath cs with
    | error e =>
      rw [hpath] at h
      cases h
    | ok path =>
      obtain ⟨hsound, rfl⟩ := soundPath_eq_ok_iff.1 hpath
      rw [hpath] at h
      cases h
      exact ⟨hsound, rfl⟩
  · rintro ⟨hsound, rfl⟩
    rw [soundPath_eq_ok_iff.2 ⟨hsound, rfl⟩]
    rfl

theorem ofDynamic_number {v : Value} (h : numeral? cs = some v) :
    ofDynamic isInline cs = .ok (.constant v) := by
  unfold ofDynamic
  rw [h]

theorem ofDynamic_truth {b : Bool} (hnumeral : numeral? cs = none)
    (h : truthWord? isInline cs = some b) :
    ofDynamic isInline cs = .ok (.constant (.bool b)) := by
  unfold ofDynamic
  rw [hnumeral, h]

theorem ofDynamic_reference {name : List Char} (hnumeral : numeral? ('^' :: name) = none)
    (htruth : truthWord? isInline ('^' :: name) = none) :
    ofDynamic isInline ('^' :: name) = (soundPath name).map .reference := by
  unfold ofDynamic
  rw [hnumeral, htruth]
  rfl

theorem ofDynamic_keyPath (hnumeral : numeral? cs = none) (htruth : truthWord? isInline cs = none)
    (hcaret : cs.head? ≠ some '^') : ofDynamic isInline cs = (soundPath cs).map .keyPath := by
  unfold ofDynamic
  rw [hnumeral, htruth]
  split
  · contradiction
  · contradiction
  · exact absurd rfl hcaret
  · rfl

theorem ofDynamic_eq_ok_iff : ofDynamic isInline cs = .ok a ↔ Bare isInline cs a := by
  have hok : ∀ {b : Association}, Except.ok (ε := AssociationError) b = .ok a ↔ a = b :=
    ⟨fun h => (Except.ok.inj h).symm, fun h => h ▸ rfl⟩
  cases hnumeral : numeral? cs with
  | some v =>
    obtain ⟨n, rfl, rfl⟩ := WrittenNumber.exists_of_numeral? hnumeral
    rw [ofDynamic_number hnumeral, hok, bare_number_iff]
  | none =>
    have hnumber : ∀ n : WrittenNumber, n.text ≠ cs := by
      rintro n rfl
      cases n.numeral?_text.symm.trans hnumeral
    cases htruth : truthWord? isInline cs with
    | some b =>
      rw [ofDynamic_truth hnumeral htruth, hok,
        bare_truth_iff hnumber (truthWord?_eq_some_iff.1 htruth)]
    | none =>
      have hword : ∀ b, ¬IsTruthWord isInline b cs := by
        intro b h
        cases htruth.symm.trans (truthWord?_eq_some_iff.2 h)
      by_cases hcaret : cs.head? = some '^'
      · obtain ⟨name, rfl⟩ := List.head?_eq_some_iff.1 hcaret
        rw [ofDynamic_reference hnumeral htruth, map_soundPath_eq_ok_iff,
          bare_reference_iff hnumber hword]
      · rw [ofDynamic_keyPath hnumeral htruth hcaret, map_soundPath_eq_ok_iff,
          bare_keyPath_iff hnumber hword hcaret]

/-- A bare text is read as what it stands for, and refused if it stands for nothing. Its numbers
are whole numbers exactly, doubles up to half of their last place, and null beyond the largest
double only. -/
theorem ofBinding_bare_iff (isInline : Bool) (text : String) :
    (∀ a, ofBinding isInline (.bare text) = .ok a ↔ Bare isInline text.toList a) ∧
      ((∃ e, ofBinding isInline (.bare text) = .error e) ↔ ∀ a, ¬Bare isInline text.toList a) ∧
      ∀ n : WrittenNumber, n.StandsFor n.value := by
  have hok : ∀ a, ofBinding isInline (.bare text) = .ok a ↔ Bare isInline text.toList a :=
    fun a => ofDynamic_eq_ok_iff
  refine ⟨hok, ?_, WrittenNumber.standsFor_value⟩
  simp only [← hok]
  cases ofBinding isInline (.bare text) with
  | ok a => exact iff_of_false nofun fun h => h a rfl
  | error e => exact iff_of_true ⟨e, rfl⟩ nofun

end Association

end PageEngine
