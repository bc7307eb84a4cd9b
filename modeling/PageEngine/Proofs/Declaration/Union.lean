import PageEngine.Proofs.Declaration.Composition
import PageEngine.Proofs.Dictionary

/-! Declarations of several sources. A source lists declarations, equal names included, up to its
first fault; read after others they are added one by one, up to the first name that is taken. So
sources without a common name are read as their union, in any order, and otherwise the first
common name is reported. -/

namespace PageEngine

namespace Stretch

/-- The declarations of a stretch in their order, whether or not their names differ, and the fault
behind them. -/
def listed (s : Stretch) : List Declaration × Option Fault :=
  match _h : s.cutAt '\x7b' with
  | none =>
    let header := s.trimHeader
    if header.lexemes.isEmpty then ([], none) else ([], some ⟨.missingBlock, header.offset⟩)
  | some (header, inside) =>
    match _h' : inside.cutAt '\x7d' with
    | none => ([], some ⟨.unclosedBlock, inside.offset - 1⟩)
    | some (body, rest) =>
      match declaration header.trimHeader body with
      | .error fault => ([], some fault)
      | .ok d => (d :: (listed rest).1, (listed rest).2)
termination_by s.lexemes.length
decreasing_by all_goals exact Nat.lt_trans (length_lt_of_cutAt _h') (length_lt_of_cutAt _h)

variable {ls before after body rest : List Lexeme} {offset : Nat}

theorem listed_of_none (h : cut '\x7b' ls = none) :
    listed ⟨offset, ls⟩ =
      let header := trimHeader ⟨offset, ls⟩
      if header.lexemes.isEmpty then ([], none)
      else ([], some ⟨.missingBlock, header.offset⟩) := by
  rw [listed, cutAt_eq_map, h]
  rfl

theorem listed_of_unclosed (h : cut '\x7b' ls = some (before, after))
    (hclose : cut '\x7d' after = none) :
    listed ⟨offset, ls⟩ = ([], some ⟨.unclosedBlock, offset + size before⟩) := by
  rw [listed, cutAt_eq_map, h]
  simp only [Option.map_some]
  rw [cutAt_eq_map, hclose]
  rfl

theorem listed_of_block (h : cut '\x7b' ls = some (before, after))
    (hclose : cut '\x7d' after = some (body, rest)) :
    listed ⟨offset, ls⟩ =
      let inside := offset + size before + 1
      match declaration (trimHeader ⟨offset, before⟩) ⟨inside, body⟩ with
      | .error fault => ([], some fault)
      | .ok d =>
        let later := listed ⟨inside + size body + 1, rest⟩
        (d :: later.1, later.2) := by
  rw [listed, cutAt_eq_map, h]
  simp only [Option.map_some]
  rw [cutAt_eq_map, hclose]
  rfl

end Stretch

namespace Declarations

variable {found earlier later all : Declarations} {ds ds' : List Declaration}

/-- Add declarations one by one, up to the first whose name is taken. -/
def gather (found : Declarations) : List Declaration → Except FormatErrorKind Declarations
  | [] => .ok found
  | d :: ds =>
    if Dictionary.contains d.name found then .error (.duplicateTagName d.name)
    else gather (Dictionary.insert d.name d found) ds

/-- What is found in front of a fault, if there is one. -/
def upTo (fault? : Option Fault) (found : Declarations) : Except FormatErrorKind Declarations :=
  match fault? with
  | none => .ok found
  | some fault => .error fault.kind

/-- Without a fault behind them declarations are all that is read. -/
theorem bind_upTo_none (result : Except FormatErrorKind Declarations) :
    result.bind (upTo none) = result := by
  cases result <;> rfl

end Declarations

/-- Declarations are read as they are listed. -/
theorem Stretch.outcome_declarations (found : Declarations) (offset : Nat) (ls : List Lexeme) :
    outcome (declarations found ⟨offset, ls⟩) =
      (Declarations.gather found (listed ⟨offset, ls⟩).1).bind
        (Declarations.upTo (listed ⟨offset, ls⟩).2) := by
  induction hn : ls.length using Nat.strongRecOn generalizing found ls offset with
  | ind n ih =>
    cases hcut : cut '\x7b' ls with
    | none =>
      rw [listed_of_none hcut, declarations_of_none hcut]
      dsimp only
      split <;> rfl
    | some parts =>
      obtain ⟨before, after⟩ := parts
      cases hclose : cut '\x7d' after with
      | none =>
        rw [listed_of_unclosed hcut hclose, declarations_of_unclosed hcut hclose]
        rfl
      | some parts =>
        obtain ⟨body, rest⟩ := parts
        rw [listed_of_block hcut hclose, declarations_of_block hcut hclose]
        dsimp only
        cases declaration (trimHeader ⟨offset, before⟩) ⟨offset + size before + 1, body⟩ with
        | error fault => rfl
        | ok d =>
          dsimp only [Except.bind]
          rw [Declarations.gather]
          split
          · rfl
          · exact ih _ (hn ▸ length_lt_of_block hcut hclose) _ _ rest rfl

namespace Declarations

variable {found earlier later all : Declarations} {ds ds' : List Declaration} {a b : String}

/-- The declarations of a source in their order, whether or not their names differ, and the fault
behind them. -/
def listed (source : List Char) : List Declaration × Option Fault :=
  match Lexeme.lex source with
  | .error fault => ([], some fault)
  | .ok lexemes => Stretch.listed ⟨0, lexemes⟩

/-- Declarations by their names. -/
def table (ds : List Declaration) : Declarations :=
  Dictionary.ofList (ds.map fun d => (d.name, d))

theorem outcome_readAfter (found : Declarations) (source : List Char) :
    outcome (readAfter found source) =
      (gather found (listed source).1).bind (upTo (listed source).2) := by
  rw [readAfter, listed]
  cases Lexeme.lex source with
  | error fault => rfl
  | ok lexemes => exact Stretch.outcome_declarations found 0 lexemes

/-! ### Names that are taken -/

theorem contains_insert (name other : String) (d : Declaration) (found : Declarations) :
    Dictionary.contains name (Dictionary.insert other d found) =
      (name == other || Dictionary.contains name found) := by
  rw [Dictionary.contains, Dictionary.get?_insert]
  by_cases h : name = other
  · simp [h]
  · simp [h, Dictionary.contains]

/-- Declarations are added if their names differ from each other and from those already found. -/
theorem gather_eq_ok_iff : gather found ds = .ok all ↔
    ((ds.map Declaration.name).Nodup ∧ ∀ d ∈ ds, Dictionary.contains d.name found = false) ∧
      ds.foldl (fun known d => Dictionary.insert d.name d known) found = all := by
  induction ds generalizing found with
  | nil => simp [gather]
  | cons d ds ih =>
    rw [gather]
    split
    · rename_i htaken
      refine iff_of_false (fun h => nomatch h) fun h => ?_
      have hfree := h.1.2 d (List.mem_cons_self ..)
      rw [htaken] at hfree
      cases hfree
    · rename_i hfree
      have hfree : Dictionary.contains d.name found = false := Bool.eq_false_iff.2 hfree
      have hlater : (∀ x ∈ ds, Dictionary.contains x.name (Dictionary.insert d.name d found) = false) ↔
          d.name ∉ ds.map Declaration.name ∧ ∀ x ∈ ds, Dictionary.contains x.name found = false := by
        simp only [contains_insert, Bool.or_eq_false_iff, beq_eq_false_iff_ne, List.mem_map]
        constructor
        · exact fun h => ⟨fun ⟨x, hx, heq⟩ => (h x hx).1 heq, fun x hx => (h x hx).2⟩
        · exact fun h x hx => ⟨fun heq => h.1 ⟨x, hx, heq⟩, h.2 x hx⟩
      rw [ih, hlater, List.map_cons, List.nodup_cons, List.forall_mem_cons, List.foldl_cons]
      simp only [hfree, true_and]
      rw [← and_assoc, and_comm (a := (ds.map Declaration.name).Nodup)]

/-- Adding declarations only ends early with a name that is taken. -/
theorem gather_cases (found : Declarations) (ds : List Declaration) :
    (∃ all, gather found ds = .ok all) ∨
      ∃ name, gather found ds = .error (.duplicateTagName name) := by
  induction ds generalizing found with
  | nil => exact .inl ⟨found, rfl⟩
  | cons d ds ih =>
    rw [gather]
    split
    · exact .inr ⟨d.name, rfl⟩
    · exact ih _

/-- Of declarations with different names the first whose name is taken is reported. -/
theorem gather_of_taken {name : String} (hnodup : (ds.map Declaration.name).Nodup)
    (h : (ds.map Declaration.name).find? (Dictionary.contains · found) = some name) :
    gather found ds = .error (.duplicateTagName name) := by
  induction ds generalizing found with
  | nil => cases h
  | cons d ds ih =>
    obtain ⟨hd, hds⟩ := List.nodup_cons.1 hnodup
    rw [List.map_cons, List.find?_cons] at h
    rw [gather]
    split at h
    · rename_i htaken
      cases h
      rw [if_pos htaken]
    · rename_i hfree
      rw [hfree, if_neg Bool.false_ne_true]
      refine ih hds ?_
      rw [← h]
      refine List.find?_congr fun other hother => ?_
      have hne : other ≠ d.name := fun heq => hd (heq ▸ hother)
      rw [contains_insert, beq_eq_false_iff_ne.2 hne, Bool.false_or]

theorem gather_append (found : Declarations) (ds ds' : List Declaration) :
    gather found (ds ++ ds') = (gather found ds).bind (gather · ds') := by
  induction ds generalizing found with
  | nil => rfl
  | cons d ds ih =>
    rw [List.cons_append, gather, gather]
    split
    · rfl
    · exact ih _

/-- Two ways to read declarations come to one table, or both come upon a name that is taken. -/
def Alike (result result' : Except FormatErrorKind Declarations) : Prop :=
  (∃ all, result = .ok all ∧ result' = .ok all) ∨
    ∃ name name', result = .error (.duplicateTagName name) ∧
      result' = .error (.duplicateTagName name')

theorem gather_nil_eq_ok_iff :
    gather [] ds = .ok all ↔ (ds.map Declaration.name).Nodup ∧ table ds = all := by
  rw [gather_eq_ok_iff, table, Dictionary.ofList, List.foldl_map]
  exact and_congr_left fun _ => and_iff_left fun _ _ => rfl

/-- Declarations may be added in any order. -/
theorem gather_perm (h : ds.Perm ds') : Alike (gather [] ds) (gather [] ds') := by
  have hnodup := (h.map Declaration.name).nodup_iff
  rcases gather_cases [] ds with ⟨all, hall⟩ | ⟨name, hname⟩
  · obtain ⟨hdistinct, rfl⟩ := gather_nil_eq_ok_iff.1 hall
    refine .inl ⟨table ds, hall, gather_nil_eq_ok_iff.2 ⟨hnodup.1 hdistinct, ?_⟩⟩
    refine (Dictionary.ofList_perm ?_ (h.map _)).symm
    rw [List.map_map]
    exact hdistinct
  · rcases gather_cases [] ds' with ⟨all, hall⟩ | ⟨name', hname'⟩
    · have hdistinct := hnodup.2 (gather_nil_eq_ok_iff.1 hall).1
      cases hname.symm.trans (gather_nil_eq_ok_iff.2 ⟨hdistinct, rfl⟩)
    · exact .inr ⟨name, name', hname, hname'⟩

/-! ### Sources one after another -/

/-- What comes of a source, without the place of a fault. -/
def kinds (source : String) : Except FormatErrorKind Declarations :=
  (parse source).mapError FormatError.kind

theorem kinds_eq (source : String) :
    kinds source = (gather [] (listed source.toList).1).bind (upTo (listed source.toList).2) := by
  rw [← outcome_readAfter, ← read_eq_readAfter, kinds, parse]
  cases read source.toList <;> rfl

theorem kinds_eq_ok_iff {source : String} : kinds source = .ok all ↔ parse source = .ok all := by
  rw [kinds]
  cases parse source <;> simp [Except.mapError]

/-- A source without a fault lists declarations with different names. -/
theorem listed_of_parse {source : String} (h : parse source = .ok all) :
    ∃ ds, listed source.toList = (ds, none) ∧ (ds.map Declaration.name).Nodup ∧ table ds = all := by
  rcases hlisted : listed source.toList with ⟨ds, fault?⟩
  have hkinds := kinds_eq source
  rw [kinds_eq_ok_iff.2 h, hlisted] at hkinds
  rcases gather_cases [] ds with ⟨found, hfound⟩ | ⟨name, hname⟩
  · rw [hfound] at hkinds
    cases fault? with
    | none =>
      cases hkinds
      exact ⟨ds, rfl, gather_nil_eq_ok_iff.1 hfound⟩
    | some fault => cases hkinds
  · rw [hname] at hkinds
    cases hkinds

/-- A source that ends a line is read first. -/
theorem kinds_append (hend : Lexeme.EndsLine a.toList) (h : parse a = .ok earlier) (b : String) :
    kinds (a ++ b) = (gather earlier (listed b.toList).1).bind (upTo (listed b.toList).2) := by
  have hread : readAfter [] a.toList = .ok earlier := by
    rw [← outcome_eq_ok_iff, outcome_readAfter, ← kinds_eq, kinds_eq_ok_iff]
    exact h
  rw [kinds_eq, ← outcome_readAfter, String.toList_append, outcome_readAfter_append hend hread,
    outcome_readAfter]

/-- Declarations with different names are found under their names. -/
theorem get?_table (hdistinct : (ds.map Declaration.name).Nodup) (name : String) :
    Dictionary.get? name (table ds) = ds.find? (·.name = name) := by
  induction ds using List.reverseRecOn with
  | nil => rfl
  | append_singleton ds d ih =>
    rw [List.map_append, List.nodup_append] at hdistinct
    obtain ⟨hds, -, hd⟩ := hdistinct
    have hlast : table (ds ++ [d]) = Dictionary.insert d.name d (table ds) := by
      rw [table, table, Dictionary.ofList, Dictionary.ofList, List.map_append, List.foldl_append]
      rfl
    rw [hlast, Dictionary.get?_insert, ih hds, List.find?_append]
    split
    · rename_i heq
      have hnone : ds.find? (·.name = name) = none := by
        rw [List.find?_eq_none]
        intro other hother hname
        exact hd other.name (List.mem_map_of_mem hother) d.name (by simp)
          ((of_decide_eq_true hname).trans heq)
      rw [hnone, Option.none_or, List.find?_singleton, if_pos (by simp [heq])]
    · rename_i hne
      rw [List.find?_singleton, if_neg (by simpa using Ne.symm hne), Option.or_none]

theorem contains_table (hdistinct : (ds.map Declaration.name).Nodup) (name : String) :
    Dictionary.contains name (table ds) = true ↔ name ∈ ds.map Declaration.name := by
  rw [Dictionary.contains, get?_table hdistinct, List.find?_isSome, List.mem_map]
  simp only [decide_eq_true_eq]

theorem get?_foldl_insert (found : Declarations) (name : String) :
    Dictionary.get? name (ds.foldl (fun known d => Dictionary.insert d.name d known) found) =
      (Dictionary.get? name (table ds)).or (Dictionary.get? name found) := by
  rw [table, Dictionary.ofList, List.foldl_map]
  induction ds using List.reverseRecOn with
  | nil => rfl
  | append_singleton ds d ih =>
    rw [List.foldl_append, List.foldl_append]
    simp only [List.foldl_cons, List.foldl_nil, Dictionary.get?_insert, ih]
    split <;> rfl

/-- What is read behind a source that ends a line, when both are read without a fault. -/
theorem kinds_append_of_parse (hend : Lexeme.EndsLine a.toList)
    (hdistinct : (ds.map Declaration.name).Nodup) (hparse : parse a = .ok (table ds))
    (hb : listed b.toList = (ds', none)) : kinds (a ++ b) = gather [] (ds ++ ds') := by
  rw [kinds_append hend hparse, hb, gather_append, gather_nil_eq_ok_iff.2 ⟨hdistinct, rfl⟩]
  exact bind_upTo_none _

/-- A source that ends a line and one behind it are read as their union if they declare no common
name; otherwise the first name of the later source is reported that the earlier declares. A fault
of the later source remains, unless a taken name comes before it. The order of such sources
makes no difference, nor does that of the declarations in one. -/
theorem parse_append (hend : Lexeme.EndsLine a.toList) (ha : parse a = .ok earlier) (b : String) :
    (∀ later, parse b = .ok later →
      ∃ ds, listed b.toList = (ds, none) ∧ table ds = later ∧
        ((∀ name, Dictionary.contains name later = true →
            Dictionary.contains name earlier = false) →
          ∃ all, parse (a ++ b) = .ok all ∧ ∀ name, Dictionary.get? name all =
            (Dictionary.get? name earlier).or (Dictionary.get? name later)) ∧
        ((∃ name, Dictionary.contains name later = true ∧
            Dictionary.contains name earlier = true) →
          ∃ name, (ds.map Declaration.name).find? (Dictionary.contains · earlier) = some name ∧
            kinds (a ++ b) = .error (.duplicateTagName name))) ∧
    (∀ e, parse b = .error e → ∃ kind, kinds (a ++ b) = .error kind ∧
      (kind = e.kind ∨ ∃ name, kind = .duplicateTagName name)) ∧
    (∀ later, Lexeme.EndsLine b.toList → parse b = .ok later →
      Alike (kinds (a ++ b)) (kinds (b ++ a))) ∧
    ∀ (x y : String) (ds ds' : List Declaration), listed x.toList = (ds, none) →
      listed y.toList = (ds', none) → ds.Perm ds' → Alike (kinds x) (kinds y) := by
  refine ⟨fun later hb => ?_, fun e hb => ?_, fun later hend' hb => ?_,
    fun x y ds ds' hx hy hperm => ?_⟩
  · obtain ⟨ds, hlisted, hdistinct, rfl⟩ := listed_of_parse hb
    have hkinds : kinds (a ++ b) = gather earlier ds := by
      rw [kinds_append hend ha, hlisted]
      exact bind_upTo_none _
    refine ⟨ds, hlisted, rfl, fun hapart => ?_, fun ⟨name, hlater, hearlier⟩ => ?_⟩
    · have hfree : ∀ d ∈ ds, Dictionary.contains d.name earlier = false := fun d hd =>
        hapart d.name ((contains_table hdistinct _).2 (List.mem_map_of_mem hd))
      refine ⟨_, kinds_eq_ok_iff.1 (hkinds.trans (gather_eq_ok_iff.2 ⟨⟨hdistinct, hfree⟩, rfl⟩)),
        fun name => ?_⟩
      rw [get?_foldl_insert]
      cases hname : Dictionary.get? name (table ds) with
      | none => rw [Option.none_or, Option.or_none]
      | some d =>
        have hnot := hapart name (by rw [Dictionary.contains, hname]; rfl)
        rw [Option.some_or, Option.not_isSome_iff_eq_none.1 (Bool.eq_false_iff.1 hnot),
          Option.none_or]
    · have hsome : ((ds.map Declaration.name).find? (Dictionary.contains · earlier)).isSome := by
        rw [List.find?_isSome]
        exact ⟨name, (contains_table hdistinct name).1 hlater, hearlier⟩
      obtain ⟨first, hfirst⟩ := Option.isSome_iff_exists.1 hsome
      exact ⟨first, hfirst, hkinds.trans (gather_of_taken hdistinct hfirst)⟩
  · have hkinds : kinds b = .error e.kind := by
      rw [kinds, hb]
      rfl
    rw [kinds_eq] at hkinds
    rw [kinds_append hend ha]
    rcases gather_cases earlier (listed b.toList).1 with ⟨all, hall⟩ | ⟨name, hname⟩
    · -- All names are free, so it was the fault behind them that was reported.
      rw [gather_nil_eq_ok_iff.2 ⟨(gather_eq_ok_iff.1 hall).1.1, rfl⟩] at hkinds
      rw [hall]
      cases hfault : (listed b.toList).2 with
      | none => rw [hfault] at hkinds; cases hkinds
      | some fault => rw [hfault] at hkinds; exact ⟨_, rfl, .inl (Except.error.inj hkinds)⟩
    · rw [hname]
      exact ⟨_, rfl, .inr ⟨name, rfl⟩⟩
  · obtain ⟨ds, hlisted, hdistinct, rfl⟩ := listed_of_parse ha
    obtain ⟨ds', hlisted', hdistinct', rfl⟩ := listed_of_parse hb
    rw [kinds_append_of_parse hend hdistinct ha hlisted',
      kinds_append_of_parse hend' hdistinct' hb hlisted]
    exact gather_perm List.perm_append_comm
  · rw [kinds_eq, kinds_eq, hx, hy, bind_upTo_none, bind_upTo_none]
    exact gather_perm hperm

/-- A name declared again behind another, after a comment with an opening brace. -/
theorem parse_append_again :
    kinds ("A : B \x7b \x7d // \x7b\n" ++ "C : D \x7b \x7d A : E \x7b \x7d") =
      .error (.duplicateTagName "A") := by
  have hend : Lexeme.EndsLine "A : B \x7b \x7d // \x7b\n".toList := .inr (by decide +kernel)
  have ha : parse "A : B \x7b \x7d // \x7b\n" = .ok [("A", ⟨"A", "B", []⟩)] := by decide +kernel
  have hb : parse "C : D \x7b \x7d A : E \x7b \x7d" =
      .ok [("A", ⟨"A", "E", []⟩), ("C", ⟨"C", "D", []⟩)] := by decide +kernel
  have hlisted : listed "C : D \x7b \x7d A : E \x7b \x7d".toList =
      ([⟨"C", "D", []⟩, ⟨"A", "E", []⟩], none) := by decide +kernel
  obtain ⟨ds, hds, -, -, hshared⟩ := (parse_append hend ha _).1 _ hb
  obtain ⟨name, hname, hkinds⟩ := hshared ⟨"A", by decide, by decide⟩
  cases hds.symm.trans hlisted
  cases hname.symm.trans (by decide : _ = some "A")
  exact hkinds

end Declarations

end PageEngine
