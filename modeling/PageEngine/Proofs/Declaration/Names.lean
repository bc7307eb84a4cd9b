import PageEngine.Proofs.Declaration.Comments
import PageEngine.Proofs.Declaration.Union

/-! Declared names against written ones. Names and types are cut out of the mask, and what is masked
in them is not put back: a literal in a name is declared with filling instead of its text, a comment
with blanks. So a name is declared as it is written if neither is in it, or if the literals in it
hold nothing but filling. Names with one mask count as one name, and are reported as duplicates
whether or not they are spelled alike. -/

namespace PageEngine

open Text (byteLength)

/-- A text falls apart in only one way into texts of given sizes. -/
theorem Text.append_inj_of_byteLength {xs xs' ys ys' : List Char} (h : xs ++ ys = xs' ++ ys')
    (hsize : byteLength xs = byteLength xs') : xs = xs' ∧ ys = ys' := by
  have hsplit := splitBytes_append xs ys
  rw [h, hsize, splitBytes_append] at hsplit
  cases hsplit
  exact ⟨rfl, rfl⟩

namespace Lexeme

/-- A literal holds nothing but filling. -/
def IsFilled : Lexeme → Prop
  | .literal body => ∀ c ∈ body, c = '_'
  | _ => True

def isComment : Lexeme → Bool
  | .lineComment _ => true
  | .blockComment _ => true
  | _ => false

theorem flatMap_fillIn_eq_iff (body : List Char) :
    body.flatMap fillIn = body ↔ ∀ c ∈ body, c = '_' := by
  constructor
  · intro h c hc
    rw [← h] at hc
    obtain ⟨x, -, hx⟩ := List.mem_flatMap.1 hc
    exact mem_fillIn hx
  · intro h
    rw [List.eq_replicate_of_mem h]
    generalize body.length = n
    induction n with
    | zero => rfl
    | succ n ih => rw [List.replicate_succ, List.flatMap_cons, ih]; rfl

/-- What is put back differs from the mask by the texts of literals. -/
theorem masked_eq_restored_iff (l : Lexeme) : l.masked = l.restored ↔ l.IsFilled := by
  cases l with
  | literal body =>
    rw [masked, restored, IsFilled, ← flatMap_fillIn_eq_iff]
    simp
  | plain => exact iff_of_true rfl trivial
  | lineComment => exact iff_of_true rfl trivial
  | blockComment => exact iff_of_true rfl trivial

/-- What is put back differs from what is written by the comments. -/
theorem restored_eq_written_iff (l : Lexeme) : l.restored = l.written ↔ l.isComment = false := by
  have hne (text : List Char) : ('/' :: text).flatMap blankOut ≠ '/' :: text := by
    rw [List.flatMap_cons, blankOut, if_neg (by decide)]
    exact fun heq => absurd (List.cons.inj heq).1 (by decide)
  cases l with
  | plain => exact iff_of_true rfl rfl
  | literal => exact iff_of_true rfl rfl
  | lineComment text => exact iff_of_false (hne _) Bool.noConfusion
  | blockComment text => exact iff_of_false (hne _) Bool.noConfusion

theorem masked_eq_written_iff (l : Lexeme) :
    l.masked = l.written ↔ l.IsFilled ∧ l.isComment = false := by
  rw [← masked_eq_restored_iff, ← restored_eq_written_iff]
  cases l with
  | plain => simp [masked, restored, written]
  | literal => simp [restored, written]
  | lineComment => simp [restored]
  | blockComment => simp [restored]

end Lexeme

namespace Stretch

variable {ls before after block rest : List Lexeme}

/-- Two forms of lexemes that keep their sizes are the same only lexeme by lexeme. -/
theorem flatMap_eq_iff {f g : Lexeme → List Char} (hf : ∀ l, byteLength (f l) = l.size)
    (hg : ∀ l, byteLength (g l) = l.size) (ls : List Lexeme) :
    ls.flatMap f = ls.flatMap g ↔ ∀ l ∈ ls, f l = g l := by
  constructor
  · intro h
    induction ls with
    | nil => exact fun _ hl => (List.not_mem_nil hl).elim
    | cons l ls ih =>
      rw [List.flatMap_cons, List.flatMap_cons] at h
      obtain ⟨hl, hls⟩ := Text.append_inj_of_byteLength h ((hf l).trans (hg l).symm)
      exact List.forall_mem_cons.2 ⟨hl, ih hls⟩
  · exact List.flatMap_congr

/-- A text is masked as it is written if neither comments nor texts of literals are masked in it. -/
theorem masked_eq_written_iff : ls.flatMap Lexeme.masked = ls.flatMap Lexeme.written ↔
    ∀ l ∈ ls, l.IsFilled ∧ l.isComment = false := by
  rw [flatMap_eq_iff Lexeme.byteLength_masked fun _ => rfl]
  simp only [Lexeme.masked_eq_written_iff]

theorem masked_eq_restored (h : ∀ l ∈ ls, l.IsFilled) :
    ls.flatMap Lexeme.masked = ls.flatMap Lexeme.restored :=
  List.flatMap_congr fun l hl => l.masked_eq_restored_iff.2 (h l hl)

/-! ### Heads -/

/-- The name and the type in front of a block. -/
structure Head where
  name : List Lexeme
  typeName : List Lexeme
  deriving DecidableEq

/-- What is declared of a name and a type. -/
def Head.masks (head : Head) : String × String :=
  (masked ⟨0, head.name⟩, masked ⟨0, head.typeName⟩)

/-- The head that stands before a block, if it has a colon. -/
def head? (before : List Lexeme) : Option Head :=
  (cut ':' (trimmed (some ';') before)).map fun (name, typeName) =>
    ⟨trimmed none name, trimmed none typeName⟩

/-- The heads before the blocks of a text, in their order. -/
def heads (ls : List Lexeme) : List Head :=
  match _h : cut '\x7b' ls with
  | none => []
  | some (before, inside) =>
    match _h' : cut '\x7d' inside with
    | none => []
    | some (_, rest) => (head? before).toList ++ heads rest
termination_by ls.length
decreasing_by exact length_lt_of_block _h _h'

theorem heads_of_none (h : cut '\x7b' ls = none) : heads ls = [] := by
  rw [heads]
  split
  · rfl
  · rename_i hsome
    cases h.symm.trans hsome

theorem heads_of_unclosed (h : cut '\x7b' ls = some (before, after))
    (hclose : cut '\x7d' after = none) : heads ls = [] := by
  rw [heads]
  split
  · rfl
  · rename_i hsome
    cases h.symm.trans hsome
    split
    · rfl
    · rename_i hsome
      cases hclose.symm.trans hsome

theorem heads_of_block (h : cut '\x7b' ls = some (before, after))
    (hclose : cut '\x7d' after = some (block, rest)) :
    heads ls = (head? before).toList ++ heads rest := by
  rw [heads]
  split
  · rename_i hnone
    cases h.symm.trans hnone
  · rename_i hsome
    cases h.symm.trans hsome
    split
    · rename_i hnone
      cases hclose.symm.trans hnone
    · rename_i hsome
      cases hclose.symm.trans hsome
      rfl

theorem isInfix_trimmed (separator : Option Char) (ls : List Lexeme) :
    trimmed separator ls <:+: ls := by
  have hback : trimmed separator ls <+: ls.dropWhile (isSkipped separator) := by
    rw [trimmed, ← List.reverse_suffix, List.reverse_reverse]
    exact List.dropWhile_suffix _
  exact hback.isInfix.trans (List.dropWhile_suffix _).isInfix

theorem infix_of_head? {head : Head} (h : head? before = some head) :
    head.name <:+: before ∧ head.typeName <:+: before := by
  obtain ⟨⟨name, typeName⟩, hcut, rfl⟩ := Option.map_eq_some_iff.1 h
  have hwhole := isInfix_trimmed (some ';') before
  rw [eq_of_cut hcut] at hwhole
  have hname : name <:+: before := .trans ⟨[], _, rfl⟩ hwhole
  have htype : typeName <:+: before := .trans ⟨name ++ [.plain ':'], [], by simp⟩ hwhole
  exact ⟨(isInfix_trimmed none name).trans hname, (isInfix_trimmed none typeName).trans htype⟩

/-- Names and types stand in the text. -/
theorem infix_of_mem_heads {head : Head} (h : head ∈ heads ls) :
    head.name <:+: ls ∧ head.typeName <:+: ls := by
  induction ls using heads.induct with
  | case1 ls hopen =>
    rw [heads_of_none hopen] at h
    cases h
  | case2 ls before inside hopen hclose =>
    rw [heads_of_unclosed hopen hclose] at h
    cases h
  | case3 ls before inside hopen block rest hclose ih =>
    rw [heads_of_block hopen hclose] at h
    rcases List.mem_append.1 h with hfirst | hlater
    · obtain ⟨hname, htype⟩ := infix_of_head? (Option.mem_toList.1 hfirst)
      have hbefore : before <:+: ls := ⟨[], _, (eq_of_cut hopen).symm⟩
      exact ⟨hname.trans hbefore, htype.trans hbefore⟩
    · obtain ⟨hname, htype⟩ := ih hlater
      have hrest : rest <:+: ls := by
        refine ⟨before ++ .plain '\x7b' :: (block ++ [.plain '\x7d']), [], ?_⟩
        rw [eq_of_cut hopen, eq_of_cut hclose]
        simp
      exact ⟨hname.trans hrest, htype.trans hrest⟩

/-! ### Heads and declarations -/

/-- A declaration has the masks of its head. -/
theorem head_of_declaration {offset : Nat} {body : Stretch} {d : Declaration}
    (h : declaration (trimHeader ⟨offset, before⟩) body = .ok d) :
    ∃ head, head? before = some head ∧ head.masks = (d.name, d.typeName) := by
  unfold declaration at h
  rw [cutAt_eq_map, lexemes_trimHeader] at h
  cases hcut : cut ':' (trimmed (some ';') before) with
  | none =>
    rw [hcut] at h
    cases h
  | some parts =>
    obtain ⟨name, typeName⟩ := parts
    refine ⟨_, by rw [head?, hcut]; rfl, ?_⟩
    simp only [hcut, Option.map_some, lexemes_trim] at h
    split at h
    · cases h
    · split at h
      · cases h
      · cases hbindings : bindingsOf [] (body.pieces ';') with
        | error fault =>
          rw [hbindings] at h
          cases h
        | ok bindings =>
          rw [hbindings] at h
          cases h
          simp only [Head.masks, masked, lexemes_trim]

/-- The declarations in front of the first fault are those of the first heads. -/
theorem masks_listed (offset : Nat) (ls : List Lexeme) :
    let declared := (listed ⟨offset, ls⟩).1.map fun d => (d.name, d.typeName)
    declared <+: (heads ls).map Head.masks ∧
      ((listed ⟨offset, ls⟩).2 = none → declared = (heads ls).map Head.masks) := by
  induction ls using heads.induct generalizing offset with
  | case1 ls hopen =>
    rw [listed_of_none hopen, heads_of_none hopen]
    dsimp only
    split <;> exact ⟨List.nil_prefix, fun _ => rfl⟩
  | case2 ls before inside hopen hclose =>
    rw [listed_of_unclosed hopen hclose, heads_of_unclosed hopen hclose]
    exact ⟨List.nil_prefix, fun _ => rfl⟩
  | case3 ls before inside hopen block rest hclose ih =>
    rw [listed_of_block hopen hclose, heads_of_block hopen hclose]
    cases hd : declaration (trimHeader ⟨offset, before⟩) ⟨offset + size before + 1, block⟩ with
    | error fault =>
      simp only [hd]
      exact ⟨List.nil_prefix, fun hnone => absurd hnone (Option.some_ne_none fault)⟩
    | ok d =>
      obtain ⟨head, hhead, hmasks⟩ := head_of_declaration hd
      obtain ⟨hfirst, hall⟩ := ih (offset + size before + 1 + size block + 1)
      simp only [hd, hhead, Option.toList_some, List.singleton_append, List.map_cons, hmasks]
      exact ⟨List.cons_prefix_cons.2 ⟨rfl, hfirst⟩, fun hnone => congrArg _ (hall hnone)⟩

/-! ### Only names that are taken are duplicates -/

theorem kind_of_binding? {line : Stretch} {fault : Fault} (h : line.binding? = .error fault)
    (name : String) : fault.kind ≠ .duplicateTagName name := by
  unfold binding? at h
  dsimp only at h
  split at h
  · cases h
  · split at h
    · cases h
      nofun
    · split at h
      · cases h
        nofun
      · split at h <;> cases h
        nofun

theorem kind_of_bindingsOf {found : Bindings} {lines : List Stretch} {fault : Fault}
    (h : bindingsOf found lines = .error fault) (name : String) :
    fault.kind ≠ .duplicateTagName name := by
  induction lines generalizing found with
  | nil => cases h
  | cons line lines ih =>
    rw [bindingsOf] at h
    split at h
    · rename_i hline
      cases h
      exact kind_of_binding? hline name
    · exact ih h
    · exact ih h

theorem kind_of_declaration {header body : Stretch} {fault : Fault}
    (h : declaration header body = .error fault) (name : String) :
    fault.kind ≠ .duplicateTagName name := by
  unfold declaration at h
  dsimp only at h
  split at h
  · cases h
    nofun
  · split at h
    · cases h
      nofun
    · split at h
      · cases h
        nofun
      · cases hbindings : bindingsOf [] (body.pieces ';') with
        | error fault =>
          rw [hbindings] at h
          cases h
          exact kind_of_bindingsOf hbindings name
        | ok bindings =>
          rw [hbindings] at h
          cases h

theorem kind_of_listed {offset : Nat} {fault : Fault} (h : (listed ⟨offset, ls⟩).2 = some fault)
    (name : String) : fault.kind ≠ .duplicateTagName name := by
  induction ls using heads.induct generalizing offset with
  | case1 ls hopen =>
    rw [listed_of_none hopen] at h
    dsimp only at h
    split at h <;> cases h
    nofun
  | case2 ls before inside hopen hclose =>
    rw [listed_of_unclosed hopen hclose] at h
    cases h
    nofun
  | case3 ls before inside hopen block rest hclose ih =>
    rw [listed_of_block hopen hclose] at h
    dsimp only at h
    split at h
    · rename_i hfault
      cases h
      exact kind_of_declaration hfault name
    · exact ih h

end Stretch

namespace Declarations

open Lexeme (LexedAs)
open Stretch (Head heads)

/-- A name is taken already, or it is given twice. -/
theorem taken_of_gather {found : Declarations} {ds : List Declaration} {name : String}
    (h : gather found ds = .error (.duplicateTagName name)) :
    (Dictionary.contains name found = true ∧ name ∈ ds.map Declaration.name) ∨
      [name, name].Sublist (ds.map Declaration.name) := by
  induction ds generalizing found with
  | nil => cases h
  | cons d ds ih =>
    rw [gather] at h
    rw [List.map_cons]
    split at h
    · rename_i htaken
      cases h
      exact .inl ⟨htaken, List.mem_cons_self⟩
    · rcases ih h with ⟨htaken, hmem⟩ | htwice
      · rw [contains_insert, Bool.or_eq_true, beq_iff_eq] at htaken
        rcases htaken with rfl | htaken
        · exact .inr (.cons_cons _ (List.singleton_sublist.2 hmem))
        · exact .inl ⟨htaken, List.mem_cons_of_mem _ hmem⟩
      · exact .inr (htwice.cons _)

theorem get?_table_eq_some_iff {ds : List Declaration} {d : Declaration} {name : String}
    (hdistinct : (ds.map Declaration.name).Nodup) :
    Dictionary.get? name (table ds) = some d ↔ d ∈ ds ∧ d.name = name := by
  rw [get?_table hdistinct]
  constructor
  · exact fun h => ⟨List.mem_of_find?_eq_some h, by simpa using List.find?_some h⟩
  · rintro ⟨hd, rfl⟩
    have hsome : (ds.find? (·.name = d.name)).isSome :=
      List.find?_isSome.2 ⟨d, hd, decide_eq_true rfl⟩
    obtain ⟨found, hfound⟩ := Option.isSome_iff_exists.1 hsome
    have hname : found.name = d.name := by simpa using List.find?_some hfound
    rw [hfound, List.inj_on_of_nodup_map hdistinct (List.mem_of_find?_eq_some hfound) hd hname]

/-- A source is read by its lexemes. -/
theorem listed_of_lexedAs {source : List Char} {ls : List Lexeme}
    (h : LexedAs source ls none) : listed source = Stretch.listed ⟨0, ls⟩ := by
  rw [listed, Lexeme.lex, h.lexFrom_eq]
  rfl

theorem lexedAs_stop_ne {source : List Char} {ls : List Lexeme} {stop : Option FormatErrorKind}
    (h : LexedAs source ls stop) (name : String) : stop ≠ some (.duplicateTagName name) := by
  induction h with
  | done => nofun
  | plain _ _ ih => exact ih
  | lineComment _ _ _ ih => exact ih
  | blockComment _ _ ih => exact ih
  | literal _ _ ih => exact ih
  | openComment => nofun
  | openLiteral => nofun

variable {source : String} {ls : List Lexeme} {stop : Option FormatErrorKind}

/-- What a source declares has the masks of its heads. -/
theorem masks_of_parse {all : Declarations} (h : LexedAs source.toList ls stop)
    (hparse : parse source = .ok all) :
    ((heads ls).map fun head => head.masks.1).Nodup ∧ ∀ name typeName,
      (∃ d, Dictionary.get? name all = some d ∧ d.name = name ∧ d.typeName = typeName) ↔
        (name, typeName) ∈ (heads ls).map Head.masks := by
  have hstop : stop = none := by
    have hkinds := kinds_of_lexedAs h
    rw [kinds_eq_ok_iff.2 hparse] at hkinds
    cases stop with
    | none => rfl
    | some kind => cases hkinds
  subst hstop
  obtain ⟨ds, hlisted, hdistinct, rfl⟩ := listed_of_parse hparse
  rw [listed_of_lexedAs h] at hlisted
  obtain ⟨-, hall⟩ := Stretch.masks_listed 0 ls
  rw [hlisted] at hall
  have hmasks := hall rfl
  refine ⟨?_, fun name typeName => ?_⟩
  · have hnames := congrArg (List.map Prod.fst) hmasks
    rw [List.map_map, List.map_map] at hnames
    exact hnames ▸ hdistinct
  · rw [← hmasks, List.mem_map]
    refine exists_congr fun d => ?_
    rw [get?_table_eq_some_iff hdistinct, Prod.mk.injEq]
    exact ⟨fun ⟨⟨hd, hname⟩, _, htype⟩ => ⟨hd, hname, htype⟩,
      fun ⟨hd, hname, htype⟩ => ⟨⟨hd, hname⟩, hname, htype⟩⟩

/-- A name is reported as a duplicate if it is the mask of two names. -/
theorem masks_of_duplicate {name : String} (h : LexedAs source.toList ls stop)
    (hkinds : kinds source = .error (.duplicateTagName name)) :
    ∃ first second, [first, second].Sublist (heads ls) ∧ first.masks.1 = name ∧
      second.masks.1 = name := by
  have hstop : stop = none := by
    rw [kinds_of_lexedAs h] at hkinds
    cases stop with
    | none => rfl
    | some kind => exact absurd (congrArg some (Except.error.inj hkinds)) (lexedAs_stop_ne h name)
  subst hstop
  rw [kinds_eq, listed_of_lexedAs h] at hkinds
  have htwice : [name, name].Sublist ((Stretch.listed ⟨0, ls⟩).1.map Declaration.name) := by
    cases hgather : gather [] (Stretch.listed ⟨0, ls⟩).1 with
    | ok found =>
      rw [hgather] at hkinds
      cases hfault : (Stretch.listed ⟨0, ls⟩).2 with
      | none =>
        rw [hfault] at hkinds
        cases hkinds
      | some fault =>
        rw [hfault] at hkinds
        exact absurd (Except.error.inj hkinds) (Stretch.kind_of_listed hfault name)
    | error kind =>
      rw [hgather] at hkinds
      cases hkinds
      exact (taken_of_gather hgather).resolve_left fun htaken => nomatch htaken.1
  have hnames := ((Stretch.masks_listed 0 ls).1.map Prod.fst).sublist
  rw [List.map_map, List.map_map] at hnames
  obtain ⟨found, hfound, heq⟩ := List.sublist_map_iff.1 (htwice.trans hnames)
  obtain ⟨first, found, rfl, hfirst, heq⟩ := List.map_eq_cons_iff.1 heq.symm
  obtain ⟨second, found, rfl, hsecond, heq⟩ := List.map_eq_cons_iff.1 heq
  cases List.map_eq_nil_iff.1 heq
  exact ⟨first, second, hfound, hfirst, hsecond⟩

/-- Names and types are declared by their masks. A name or a type that stands in a source is
declared as it is written exactly if there is no comment in it, nor a literal with anything but
filling. A source that is read declares all of its names, with different masks. A name is reported
as a duplicate only if it is the mask of two names of the source; these are spelled alike, but for
comments, if all literals in them hold nothing but filling. -/
theorem declared_by_masks (h : LexedAs source.toList ls stop) :
    (∀ head ∈ heads ls, ∀ part ∈ [head.name, head.typeName],
      part.flatMap Lexeme.written <:+: source.toList ∧
        (part.flatMap Lexeme.masked = part.flatMap Lexeme.written ↔
          ∀ l ∈ part, l.IsFilled ∧ l.isComment = false)) ∧
    (∀ all, parse source = .ok all →
      ((heads ls).map fun head => head.masks.1).Nodup ∧ ∀ name typeName,
        (∃ d, Dictionary.get? name all = some d ∧ d.name = name ∧ d.typeName = typeName) ↔
          (name, typeName) ∈ (heads ls).map Head.masks) ∧
    ∀ name, kinds source = .error (.duplicateTagName name) →
      ∃ first second, [first, second].Sublist (heads ls) ∧
        first.masks.1 = name ∧ second.masks.1 = name ∧
        ((∀ l ∈ first.name ++ second.name, l.IsFilled) →
          first.name.flatMap Lexeme.restored = second.name.flatMap Lexeme.restored) ∧
        ((∀ l ∈ first.name ++ second.name, l.IsFilled ∧ l.isComment = false) →
          first.name.flatMap Lexeme.written = second.name.flatMap Lexeme.written) := by
  refine ⟨fun head hhead part hpart => ?_, fun all => masks_of_parse h, fun name hkinds => ?_⟩
  · have hinside : part <:+: ls := by
      obtain ⟨hname, htype⟩ := Stretch.infix_of_mem_heads hhead
      rcases List.mem_pair.1 hpart with rfl | rfl
      · exact hname
      · exact htype
    obtain ⟨before, after, heq⟩ := hinside
    obtain ⟨rest, hsource, -⟩ := h.written_eq
    refine ⟨⟨before.flatMap Lexeme.written, after.flatMap Lexeme.written ++ rest, ?_⟩, ?_⟩
    · rw [hsource, ← heq]
      simp
    · exact Stretch.masked_eq_written_iff
  · obtain ⟨first, second, hheads, hfirst, hsecond⟩ := masks_of_duplicate h hkinds
    have hmasks : first.name.flatMap Lexeme.masked = second.name.flatMap Lexeme.masked :=
      String.ofList_injective (hfirst.trans hsecond.symm)
    refine ⟨first, second, hheads, hfirst, hsecond, fun hfilled => ?_, fun hkept => ?_⟩
    · obtain ⟨hfilled, hfilled'⟩ := List.forall_mem_append.1 hfilled
      rw [← Stretch.masked_eq_restored hfilled, ← Stretch.masked_eq_restored hfilled', hmasks]
    · obtain ⟨hkept, hkept'⟩ := List.forall_mem_append.1 hkept
      rw [← Stretch.masked_eq_written_iff.2 hkept, ← Stretch.masked_eq_written_iff.2 hkept', hmasks]

/-- Two declarations with quoted names. -/
def quotedNames (name : String) : String :=
  "\"a\":T\x7b\x7d\"" ++ name ++ "\":T\x7b\x7d"

def quotedLexemes (name : List Char) : List Lexeme :=
  .literal ['a'] :: ":T\x7b\x7d".toList.map .plain ++
    .literal name :: ":T\x7b\x7d".toList.map .plain

/-- Names that are spelled differently are duplicates if their literals have equal sizes, and are
declared by their filling otherwise. -/
theorem declared_by_masks_quotedNames :
    (LexedAs (quotedNames "b").toList (quotedLexemes ['b']) none ∧
      LexedAs (quotedNames "__").toList (quotedLexemes ['_', '_']) none) ∧
    (kinds (quotedNames "b") = .error (.duplicateTagName "\"_\"") ∧
      ∃ first second, [first, second].Sublist (heads (quotedLexemes ['b'])) ∧
        first.masks.1 = "\"_\"" ∧ second.masks.1 = "\"_\"" ∧
        first.name.flatMap Lexeme.written ≠ second.name.flatMap Lexeme.written) ∧
    ∃ all, parse (quotedNames "__") = .ok all ∧
      (∃ d, Dictionary.get? "\"_\"" all = some d ∧ d.name = "\"_\"" ∧ d.typeName = "T") ∧
      (∃ d, Dictionary.get? "\"__\"" all = some d ∧ d.name = "\"__\"" ∧ d.typeName = "T") ∧
      ¬∃ d, Dictionary.get? "\"a\"" all = some d ∧ d.name = "\"a\"" ∧ d.typeName = "T" := by
  have h : LexedAs (quotedNames "b").toList (quotedLexemes ['b']) none :=
    Lexeme.lexedAs_of_lex (by decide +kernel)
  have h' : LexedAs (quotedNames "__").toList (quotedLexemes ['_', '_']) none :=
    Lexeme.lexedAs_of_lex (by decide +kernel)
  have hheads : heads (quotedLexemes ['b']) =
      [⟨[.literal ['a']], [.plain 'T']⟩, ⟨[.literal ['b']], [.plain 'T']⟩] := by decide +kernel
  have hheads' : (heads (quotedLexemes ['_', '_'])).map Head.masks =
      [("\"_\"", "T"), ("\"__\"", "T")] := by decide +kernel
  have hkinds : kinds (quotedNames "b") = .error (.duplicateTagName "\"_\"") := by decide +kernel
  have hparse : parse (quotedNames "__") =
      .ok [("\"_\"", ⟨"\"_\"", "T", []⟩), ("\"__\"", ⟨"\"__\"", "T", []⟩)] := by decide +kernel
  refine ⟨⟨h, h'⟩, ⟨hkinds, ?_⟩, _, hparse, ?_⟩
  · obtain ⟨first, second, hboth, hfirst, hsecond, -⟩ := (declared_by_masks h).2.2 _ hkinds
    refine ⟨first, second, hboth, hfirst, hsecond, ?_⟩
    rw [hheads] at hboth
    cases hboth.eq_of_length rfl
    decide
  · obtain ⟨-, hdeclared⟩ := (declared_by_masks h').2.1 _ hparse
    rw [hheads'] at hdeclared
    exact ⟨(hdeclared _ _).2 (by simp), (hdeclared _ _).2 (by simp), mt (hdeclared _ _).1 (by simp)⟩

end Declarations

end PageEngine
