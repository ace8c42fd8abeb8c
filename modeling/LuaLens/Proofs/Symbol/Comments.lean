import LuaLens.Proofs.Symbol.Headers
import LuaLens.Proofs.Symbol.Lexis

/-!
Plain comments. A comment without a tag and without a closing bracket may end up in a doc block, in a
long string, or between a doc block and the line it belongs to. The acts of the reader are the same
without it, up to what the descriptions say; and the descriptions show in the header of a symbol just
when the header ends in white space, as a name of a file may.
-/

namespace LuaLens

open Text Scan Declaration

/-! ### Taking elements out of a list -/

section

variable {α : Type} {p keep : α → Bool}

theorem takeWhile_filter (h : ∀ a, keep a = false → p a = true) (l : List α) :
    (l.filter keep).takeWhile p = (l.takeWhile p).filter keep := by
  induction l with
  | nil => rfl
  | cons a l ih =>
    cases hk : keep a with
    | true =>
      rw [List.filter_cons_of_pos hk]
      cases hp : p a with
      | true =>
        rw [List.takeWhile_cons_of_pos hp, List.takeWhile_cons_of_pos hp, List.filter_cons_of_pos hk,
          ih]
      | false => simp [hp]
    | false => rw [List.filter_cons_of_neg (by simp [hk]), List.takeWhile_cons_of_pos (h a hk),
        List.filter_cons_of_neg (by simp [hk]), ih]

theorem dropWhile_filter (h : ∀ a, keep a = false → p a = true) (l : List α) :
    (l.filter keep).dropWhile p = (l.dropWhile p).filter keep := by
  induction l with
  | nil => rfl
  | cons a l ih =>
    cases hk : keep a with
    | true =>
      rw [List.filter_cons_of_pos hk]
      cases hp : p a with
      | true => rw [List.dropWhile_cons_of_pos hp, List.dropWhile_cons_of_pos hp, ih]
      | false => rw [List.dropWhile_cons_of_neg (by simp [hp]), List.dropWhile_cons_of_neg (by simp [hp]),
          List.filter_cons_of_pos hk]
    | false => rw [List.filter_cons_of_neg (by simp [hk]), List.dropWhile_cons_of_pos (h a hk), ih]

theorem find?_filter_of_imp (h : ∀ a, p a = true → keep a = true) (l : List α) :
    (l.filter keep).find? p = l.find? p := by
  rw [List.find?_filter]
  congr 1
  funext a
  cases hp : p a with
  | true => simp [h a hp]
  | false => simp

theorem findSome?_filter_of_imp {β : Type} {f : α → Option β} (h : ∀ a, keep a = false → f a = none)
    (l : List α) : (l.filter keep).findSome? f = l.findSome? f := by
  induction l with
  | nil => rfl
  | cons a l ih =>
    cases hk : keep a with
    | true => rw [List.filter_cons_of_pos hk, List.findSome?_cons, List.findSome?_cons, ih]
    | false => rw [List.filter_cons_of_neg (by simp [hk]), List.findSome?_cons, h a hk, ih]

theorem filter_insertIdx {a : α} (h : keep a = false) (l : List α) (k : Nat) :
    (l.insertIdx k a).filter keep = l.filter keep := by
  induction l generalizing k with
  | nil => cases k <;> simp [h]
  | cons b l ih =>
    cases k with
    | zero => rw [List.insertIdx_zero, List.filter_cons_of_neg (by simp [h])]
    | succ k => rw [List.insertIdx_succ_cons, List.filter_cons, List.filter_cons, ih]

end

/-! ### Plain comments -/

/-- A comment of two dashes and a space, with neither a tag nor a closing bracket in it. -/
def isPlainComment (line : List Char) : Bool :=
  "-- ".toList.isPrefixOf line && !line.contains '@' && !line.contains ']'

theorem isPlainComment_iff {line : List Char} :
    isPlainComment line = true ↔ ∃ body, '@' ∉ body ∧ ']' ∉ body ∧ line = "-- ".toList ++ body := by
  rw [isPlainComment, Bool.and_eq_true, Bool.and_eq_true, List.isPrefixOf_iff_prefix, and_assoc]
  constructor
  · rintro ⟨⟨body, rfl⟩, hat, hclose⟩
    refine ⟨body, ?_, ?_, rfl⟩
    · simpa using hat
    · simpa using hclose
  · rintro ⟨body, hat, hclose, rfl⟩
    refine ⟨List.prefix_append _ _, ?_, ?_⟩
    · simpa using hat
    · simpa using hclose

section

variable {line : List Char} (h : isPlainComment line = true)
include h

theorem at_not_mem_of_isPlainComment : '@' ∉ line := by
  obtain ⟨body, hat, -, rfl⟩ := isPlainComment_iff.1 h
  simpa using hat

theorem bracket_not_mem_of_isPlainComment : ']' ∉ line := by
  obtain ⟨body, -, hclose, rfl⟩ := isPlainComment_iff.1 h
  simpa using hclose

theorem trim_of_isPlainComment : "--".toList.isPrefixOf (trim line) = true ∧
    "---".toList.isPrefixOf (trim line) = false := by
  obtain ⟨body, -, -, rfl⟩ := isPlainComment_iff.1 h
  have hstart : trimStart ("-- ".toList ++ body) = "-- ".toList ++ body := rfl
  rw [trim, hstart]
  constructor
  · rw [List.isPrefixOf_iff_prefix]
    exact prefix_trimEnd (p := ['-']) (c := '-') (by decide) ⟨' ' :: body, rfl⟩
  · rw [Bool.eq_false_iff, Ne, List.isPrefixOf_iff_prefix]
    intro hdoc
    obtain ⟨b, -, hb⟩ := exists_trimEnd ("-- ".toList ++ body)
    obtain ⟨r, hr⟩ := hdoc.trans ⟨b, hb.symm⟩
    revert hr
    simp

theorem unclosedBracket?_of_isPlainComment : unclosedBracket? line = none := by
  obtain ⟨body, -, -, rfl⟩ := isPlainComment_iff.1 h
  rfl

end

/-! ### Tags -/

/-- What has no tag sign in it names no symbol and no parameter. -/
theorem selfDoc_read?_eq_none {t : List Char} (h : '@' ∉ t) : selfDoc.read? t = none := by
  have hword : (word "@").Begins (· = '@') := begins_word rfl rfl
  have hbegins : selfDoc.Begins (· = '@') := hword.bind _
  rw [Option.eq_none_iff_forall_ne_some]
  intro d hd
  obtain ⟨c, r, rfl, rfl⟩ := hbegins.read? hd
  exact h List.mem_cons_self

theorem paramTag_read?_eq_none {t : List Char} (h : '@' ∉ t) : paramTag.read? t = none := by
  have hword : (word "@param").Begins (· = '@') := begins_word rfl rfl
  have hbegins : paramTag.Begins (· = '@') := hword.bind _
  rw [Option.eq_none_iff_forall_ne_some]
  intro d hd
  obtain ⟨c, r, rfl, rfl⟩ := hbegins.read? hd
  exact h List.mem_cons_self

theorem moduleTag_read?_eq_none {t : List Char} (h : '@' ∉ t) : moduleTag.read? t = none := by
  have hword : (word "@module").Keeps (· ≠ '@') fun _ => False := by
    intro s a rest hs hword
    obtain ⟨c, r, rfl, rfl⟩ :=
      begins_word (P := (· = '@')) (c := '@') rfl rfl s a rest hword
    exact absurd rfl (hs '@' List.mem_cons_self)
  have hkeeps : moduleTag.Keeps (· ≠ '@') fun _ => False :=
    (keeps_many1 _).bind fun _ _ => keeps_blanks.bind fun _ _ => hword.bind fun _ hfalse => hfalse.elim
  rw [Option.eq_none_iff_forall_ne_some]
  intro m hm
  refine hkeeps.read? (fun c hc => ?_) hm
  rintro rfl
  exact h hc

theorem mem_of_mem_commentText {line : List Char} {c : Char} (h : c ∈ commentText line) :
    c ∈ line := by
  have htext : ∀ d ∈ (trim line).dropWhile (· == '-'), d ∈ line := fun d hd =>
    mem_of_mem_trim ((List.dropWhile_sublist _).mem hd)
  have hc := mem_of_mem_trimEnd h
  cases hspace : [' '].isPrefixOf? ((trim line).dropWhile (· == '-')) with
  | none =>
    rw [hspace, Option.getD_none] at hc
    exact htext c hc
  | some r =>
    rw [hspace, Option.getD_some] at hc
    apply htext
    rw [← List.isPrefixOf?_eq_some_iff_append_eq.1 hspace]
    exact List.mem_append_right _ hc

namespace Extraction

/-! ### Acts without plain comments -/

/-- What is left of a source without its plain comments. -/
def kept (l : Line) : Bool := !isPlainComment l.2

variable {l : Line}

theorem isPlainComment_of_not_kept (h : kept l = false) : isPlainComment l.2 = true := by
  simpa [kept] using h

theorem isComment_of_not_kept (h : kept l = false) : isComment l = true :=
  (trim_of_isPlainComment (isPlainComment_of_not_kept h)).1

theorem kept_of_isCodeLine (h : isCodeLine l.2 = true) : kept l = true := by
  by_contra hk
  have hcomment := isComment_of_not_kept (Bool.eq_false_iff.2 hk)
  rw [(isCodeLine_iff.1 h).2] at hcomment
  cases hcomment

theorem kept_of_unclosedBracket? {closing : List Char} (h : unclosedBracket? l.2 = some closing) :
    kept l = true := by
  by_contra hk
  rw [unclosedBracket?_of_isPlainComment (isPlainComment_of_not_kept (Bool.eq_false_iff.2 hk))] at h
  cases h

theorem kept_of_isPrefixOf (h : "---".toList.isPrefixOf (trim l.2) = true) : kept l = true := by
  by_contra hk
  rw [(trim_of_isPlainComment (isPlainComment_of_not_kept (Bool.eq_false_iff.2 hk))).2] at h
  cases h

theorem afterBracket_filter {line closing : List Char} (h : unclosedBracket? line = some closing)
    (lines : List Line) :
    afterBracket closing (lines.filter kept) = (afterBracket closing lines).filter kept := by
  obtain ⟨n, -, rfl⟩ := Lexis.exists_level_of_unclosedBracket? h
  have hplain : ∀ l : Line, kept l = false → (!contains (Lexis.closer n) l.2) = true := by
    intro l hl
    rw [Bool.not_eq_true', Bool.eq_false_iff]
    intro hcontains
    obtain ⟨⟨before, after⟩, hcut⟩ := Option.isSome_iff_exists.1 hcontains
    apply bracket_not_mem_of_isPlainComment (isPlainComment_of_not_kept hl)
    rw [cut_eq_some hcut, Lexis.closer, closingBracket]
    simp
  rw [afterBracket, afterBracket, dropWhile_filter hplain]
  -- The line with the closing bracket is kept, so that the same line is the last one skipped.
  cases hrest : lines.dropWhile fun l => !contains (Lexis.closer n) l.2 with
  | nil => rfl
  | cons m rest =>
    have hm : kept m = true := by
      by_contra hk
      have hhead := List.head?_dropWhile_not (fun l : Line => !contains (Lexis.closer n) l.2) lines
      rw [hrest, List.head?_cons] at hhead
      exact absurd hhead (by simp [hplain m (Bool.eq_false_iff.2 hk)])
    rw [List.filter_cons_of_pos hm, List.tail_cons, List.tail_cons]

theorem docLine_filter (lastCode : Option Line) (line : Line) (rest : List Line) :
    docLine lastCode line (rest.filter kept) = docLine lastCode line rest := by
  rw [docLine, docLine, dropWhile_filter fun _ => isComment_of_not_kept,
    find?_filter_of_imp fun _ => kept_of_isCodeLine]

/-- What matters of a description: the parameters in it. -/
def paramLines (description : List (List Char)) : List (List Char) :=
  description.filter fun l => (paramTag.read? l).isSome

/-- An act without the words of its description. -/
def Act.bare : Act → Act
  | .declare d _ line => .declare d [] line
  | .declareSelf d description line => .declareSelf d (paramLines description) line

theorem bare_lineActs (description description' : List (List Char)) (line : Line) :
    (lineActs description line).map Act.bare = (lineActs description' line).map Act.bare := by
  rw [lineActs, lineActs]
  cases Declaration.parse? line.2 <;> rfl

theorem paramLines_cons (t : List Char) (block : List (List Char)) :
    paramLines (t :: block) = paramLines [t] ++ paramLines block :=
  List.filter_append [t] block

/-- A line of a doc block that names neither a symbol nor a parameter is of no matter. -/
theorem selfDoc?_cons_of_none {t : List Char} {block : List (List Char)}
    (h : selfDoc.read? t = none) :
    (selfDoc? (t :: block)).map (Prod.map id paramLines) =
      ((selfDoc? block).map (Prod.map id paramLines)).map (Prod.map id (paramLines [t] ++ ·)) := by
  rw [selfDoc?, h]
  cases selfDoc? block with
  | none => rfl
  | some found =>
    obtain ⟨d, others⟩ := found
    simp [paramLines_cons t others]

theorem paramLines_of_not_kept (h : kept l = false) : paramLines [commentText l.2] = [] := by
  have hat := at_not_mem_of_isPlainComment (isPlainComment_of_not_kept h)
  have hparam := paramTag_read?_eq_none fun hc => hat (mem_of_mem_commentText hc)
  simp [paramLines, hparam]

theorem paramLines_filter (lines : List Line) :
    paramLines ((lines.filter kept).map fun l => commentText l.2) =
      paramLines (lines.map fun l => commentText l.2) := by
  induction lines with
  | nil => rfl
  | cons l lines ih =>
    rw [List.map_cons, paramLines_cons _ (lines.map _)]
    cases hk : kept l with
    | true => rw [List.filter_cons_of_pos hk, List.map_cons, paramLines_cons _ (List.map _ _), ih]
    | false => rw [List.filter_cons_of_neg (by simp [hk]), paramLines_of_not_kept hk, List.nil_append,
        ih]

/-- The tag of a doc block is found without plain comments as well. -/
theorem selfDoc?_filter (lines : List Line) :
    (selfDoc? ((lines.filter kept).map fun l => commentText l.2)).map (Prod.map id paramLines) =
      (selfDoc? (lines.map fun l => commentText l.2)).map (Prod.map id paramLines) := by
  induction lines with
  | nil => rfl
  | cons l lines ih =>
    cases hk : kept l with
    | true =>
      rw [List.filter_cons_of_pos hk, List.map_cons, List.map_cons]
      cases hself : selfDoc.read? (commentText l.2) with
      | some d =>
        rw [selfDoc?, selfDoc?, hself]
        simp [paramLines_filter]
      | none => rw [selfDoc?_cons_of_none hself, selfDoc?_cons_of_none hself, ih]
    | false =>
      have hat := at_not_mem_of_isPlainComment (isPlainComment_of_not_kept hk)
      have hself := selfDoc_read?_eq_none fun hc => hat (mem_of_mem_commentText hc)
      rw [List.filter_cons_of_neg (by simp [hk]), List.map_cons, selfDoc?_cons_of_none hself,
        paramLines_of_not_kept hk, ih]
      cases selfDoc? (lines.map fun l => commentText l.2) <;> rfl

theorem docBlock_filter {line : Line} (hline : kept line = true) (rest : List Line) :
    (selfDoc? (docBlock line (rest.filter kept))).map (Prod.map id paramLines) =
      (selfDoc? (docBlock line rest)).map (Prod.map id paramLines) := by
  rw [docBlock, docBlock, takeWhile_filter fun _ => isComment_of_not_kept,
    ← List.filter_cons_of_pos hline, selfDoc?_filter]

/-- The reader does the same without plain comments. -/
theorem acts_filter (pending pending' : List (List Char)) (lastCode : Option Line)
    (lines : List Line) :
    (acts pending' lastCode (lines.filter kept)).map Act.bare =
      (acts pending lastCode lines).map Act.bare := by
  fun_induction acts pending lastCode lines generalizing pending' with
  | case1 =>
    rw [List.filter_nil, acts]
  | case2 pending lastCode line rest closing hopen hcomment ih =>
    rw [List.filter_cons_of_pos (kept_of_unclosedBracket? hopen), acts, hopen]
    simp only [hcomment, if_true]
    rw [afterBracket_filter hopen, ih]
  | case3 pending lastCode line rest closing hopen hcomment ih =>
    rw [List.filter_cons_of_pos (kept_of_unclosedBracket? hopen), acts, hopen]
    simp only [hcomment, Bool.false_eq_true, if_false]
    rw [afterBracket_filter hopen, List.map_append, List.map_append, bare_lineActs pending' pending,
      ih]
  | case4 pending lastCode line rest hopen hdoc d description hself ih =>
    have hline := kept_of_isPrefixOf hdoc
    have hblock := docBlock_filter hline rest
    rw [hself] at hblock
    obtain ⟨⟨d', description'⟩, hself', hsame⟩ := Option.map_eq_some_iff.1 hblock
    obtain ⟨rfl, hparams⟩ : d' = d ∧ paramLines description' = paramLines description := by
      simpa using hsame
    rw [List.filter_cons_of_pos hline, acts, hopen]
    simp only [hdoc, if_true, hself', List.map_cons]
    rw [docLine_filter, dropWhile_filter fun _ => isComment_of_not_kept, ih, Act.bare, Act.bare,
      hparams]
  | case5 pending lastCode line rest hopen hdoc hself ih =>
    have hline := kept_of_isPrefixOf hdoc
    have hblock := docBlock_filter hline rest
    rw [hself, Option.map_none, Option.map_eq_none_iff] at hblock
    rw [List.filter_cons_of_pos hline, acts, hopen]
    simp only [hdoc, if_true, hblock]
    rw [dropWhile_filter fun _ => isComment_of_not_kept, ih]
  | case6 pending lastCode line rest hopen hdoc hcode ih =>
    rw [List.filter_cons_of_pos (kept_of_isCodeLine hcode), acts, hopen]
    simp only [hdoc, hcode, Bool.false_eq_true, if_false, if_true]
    rw [List.map_append, List.map_append, bare_lineActs pending' pending, ih]
  | case7 pending lastCode line rest hopen hdoc hcode ih =>
    cases hk : kept line with
    | true =>
      rw [List.filter_cons_of_pos hk, acts, hopen]
      simp only [hdoc, hcode, Bool.false_eq_true, if_false]
      exact ih pending'
    | false =>
      rw [List.filter_cons_of_neg (by simp [hk])]
      exact ih pending'

/-! ### Renumbered lines -/

/-- A line under another number. -/
def renumber (f : Nat → Nat) (l : Line) : Line := (f l.1, l.2)

def Act.renumber (f : Nat → Nat) : Act → Act
  | .declare d description line => .declare d description (Extraction.renumber f line)
  | .declareSelf d description line => .declareSelf d description (Extraction.renumber f line)

theorem afterBracket_map (f : Nat → Nat) (closing : List Char) (lines : List Line) :
    afterBracket closing (lines.map (renumber f)) = (afterBracket closing lines).map (renumber f) := by
  rw [afterBracket, afterBracket, List.dropWhile_map, List.map_tail]
  rfl

theorem docBlock_map (f : Nat → Nat) (line : Line) (rest : List Line) :
    docBlock (renumber f line) (rest.map (renumber f)) = docBlock line rest := by
  rw [docBlock, docBlock, List.takeWhile_map, ← List.map_cons, List.map_map]
  rfl

theorem docLine_map (f : Nat → Nat) (lastCode : Option Line) (line : Line) (rest : List Line) :
    docLine (lastCode.map (renumber f)) (renumber f line) (rest.map (renumber f)) =
      renumber f (docLine lastCode line rest) := by
  rw [docLine, docLine, List.dropWhile_map, List.find?_map]
  cases lastCode with
  | some c => rfl
  | none =>
    show (Option.map (renumber f) ((rest.dropWhile isComment).find? (isCodeLine ·.2))).getD
      (renumber f line) = renumber f (((rest.dropWhile isComment).find? (isCodeLine ·.2)).getD line)
    cases (rest.dropWhile isComment).find? (isCodeLine ·.2) <;> rfl

theorem lineActs_map (f : Nat → Nat) (description : List (List Char)) (line : Line) :
    lineActs description (renumber f line) = (lineActs description line).map (Act.renumber f) := by
  rw [lineActs, lineActs, renumber]
  cases Declaration.parse? line.2 <;> rfl

/-- The reader goes by the texts of lines and not by their numbers. -/
theorem acts_map (f : Nat → Nat) (pending : List (List Char)) (lastCode : Option Line)
    (lines : List Line) :
    acts pending (lastCode.map (renumber f)) (lines.map (renumber f)) =
      (acts pending lastCode lines).map (Act.renumber f) := by
  fun_induction acts pending lastCode lines with
  | case1 => rw [List.map_nil, acts, List.map_nil]
  | case2 pending lastCode line rest closing hopen hcomment ih =>
    have hopen' : unclosedBracket? (renumber f line).2 = some closing := hopen
    have hcomment' : isComment (renumber f line) = true := hcomment
    rw [List.map_cons, acts, hopen']
    simp only [hcomment', if_true]
    rw [afterBracket_map, ih]
  | case3 pending lastCode line rest closing hopen hcomment ih =>
    have hopen' : unclosedBracket? (renumber f line).2 = some closing := hopen
    have hcomment' : ¬ isComment (renumber f line) = true := hcomment
    rw [List.map_cons, acts, hopen']
    simp only [hcomment', Bool.false_eq_true, if_false]
    rw [afterBracket_map, List.map_append, lineActs_map, ← ih, Option.map_some]
  | case4 pending lastCode line rest hopen hdoc d description hself ih =>
    have hopen' : unclosedBracket? (renumber f line).2 = none := hopen
    have hdoc' : "---".toList.isPrefixOf (trim (renumber f line).2) = true := hdoc
    rw [List.map_cons, acts, hopen']
    simp only [hdoc', if_true, docBlock_map, hself]
    rw [docLine_map, List.dropWhile_map, List.map_cons, Act.renumber, ← ih]
    rfl
  | case5 pending lastCode line rest hopen hdoc hself ih =>
    have hopen' : unclosedBracket? (renumber f line).2 = none := hopen
    have hdoc' : "---".toList.isPrefixOf (trim (renumber f line).2) = true := hdoc
    rw [List.map_cons, acts, hopen']
    simp only [hdoc', if_true, docBlock_map, hself]
    rw [List.dropWhile_map, ← ih]
    rfl
  | case6 pending lastCode line rest hopen hdoc hcode ih =>
    have hopen' : unclosedBracket? (renumber f line).2 = none := hopen
    have hdoc' : ¬ "---".toList.isPrefixOf (trim (renumber f line).2) = true := hdoc
    have hcode' : isCodeLine (renumber f line).2 = true := hcode
    rw [List.map_cons, acts, hopen']
    simp only [hdoc', hcode', Bool.false_eq_true, if_false, if_true]
    rw [List.map_append, lineActs_map, ← ih, Option.map_some]
  | case7 pending lastCode line rest hopen hdoc hcode ih =>
    have hopen' : unclosedBracket? (renumber f line).2 = none := hopen
    have hdoc' : ¬ "---".toList.isPrefixOf (trim (renumber f line).2) = true := hdoc
    have hcode' : ¬ isCodeLine (renumber f line).2 = true := hcode
    rw [List.map_cons, acts, hopen']
    simp only [hdoc', hcode', Bool.false_eq_true, if_false]
    exact ih

/-! ### What is left of a symbol -/

end Extraction

/-- A symbol without its description: name, owner, kind, locator and header. -/
def Symbol.brief (s : Symbol) : String × String × Symbol.Kind × String × String :=
  (s.name, s.owner, s.kind, s.locator, s.header)

namespace Extraction

variable {k : Naming} {x y : Extraction} {f : Nat → Nat}

/-- The header of a symbol is the same whatever is written under it. -/
def Naming.Settled (k : Naming) : Prop := Text.Settled k.header.toList

theorem Naming.Settled.brief (h : k.Settled) (description description' : List (List Char))
    (line : Line) (f : Nat → Nat) :
    (k.symbol description (renumber f line)).brief = (k.symbol description' line).brief := by
  have hheader (description : List (List Char)) (line : Line) :
      (k.symbol description line).header = String.ofList ((lines (trimEnd k.header.toList)).headD []) := by
    rw [Symbol.header, firstLine, Naming.symbol, String.toList_ofList, headD_lines_trimEnd h]
  rw [Symbol.brief, Symbol.brief, hheader, hheader]
  rfl

theorem settled_append {lead s : List Char} (hs : IsTarget s) (hne : s ≠ []) :
    Text.Settled (lead ++ s) := by
  obtain ⟨t, c, rfl⟩ := (List.eq_nil_or_concat s).resolve_left hne
  rw [List.concat_eq_append, ← List.append_assoc]
  exact settled_concat _ (isBlank_of_isTarget (hs c (by simp)))

theorem settled_of_isTarget {s : List Char} (h : IsTarget s) : Text.Settled s := by
  by_cases hne : s = []
  · rw [hne]
    exact settled_nil
  · exact (settled_append h hne : Text.Settled ([] ++ s))

theorem settled_ofCall (q : QualifiedName) (params : List Char) : (Naming.ofCall q params).Settled := by
  have hend : ∃ s, (callHeader q (String.ofList params)).toList = s ++ [')'] := by
    rw [callHeader]
    split
    · exact ⟨_, String.toList_append⟩
    · rw [← String.append_assoc]
      exact ⟨_, String.toList_append⟩
  obtain ⟨s, hs⟩ := hend
  rw [Naming.Settled, Naming.ofCall, hs]
  exact settled_concat s (by decide)

theorem settled_ofPlain (kind : Symbol.Kind) {q : QualifiedName} (hn : IsTarget q.name.toList) :
    (Naming.ofPlain kind q).Settled := by
  rw [Naming.Settled, Naming.ofPlain, qualified]
  split
  · exact settled_of_isTarget hn
  · rw [String.append_assoc, String.toList_append]
    refine settled_append (fun c hc => ?_) (by simp)
    rw [String.toList_append, List.mem_append] at hc
    obtain hc | hc := hc
    · obtain rfl : c = '.' := by simpa using hc
      decide
    · exact hn c hc

theorem isTarget_qualify {raw : List Char} (h : IsTarget raw) : IsTarget (x.qualify raw).name.toList := by
  rw [qualify]
  split
  · rename_i q hq
    exact (isTarget_of_qualifiedName hq).1
  · rw [String.toList_ofList]
    exact isTarget_lastPart h

theorem settled_ofLocalFunction (name : String) (params : List Char) :
    (Naming.ofLocalFunction name params).Settled := by
  rw [Naming.Settled, Naming.ofLocalFunction, String.toList_append]
  exact settled_concat _ (by decide)

/-- Only the name of the module may end in white space. -/
theorem settled_of_naming (hm : Text.Settled x.module.toList) {a : Act} (ha : a.Sound)
    (hk : x.naming a = some k) : k.Settled := by
  cases a with
  | declare d description line =>
    have htarget := isTarget_of_parse? ha
    cases d with
    | function target params isLocal =>
      cases isLocal with
      | true =>
        obtain rfl := Option.some.inj hk
        exact settled_ofLocalFunction _ params
      | false =>
        obtain rfl := Option.some.inj hk
        exact settled_ofCall _ params
    | table target isLocal =>
      simp only [naming, declarationNaming] at hk
      split_ifs at hk
      · obtain rfl := Option.some.inj hk
        exact hm
      · obtain rfl := Option.some.inj hk
        rw [Naming.Settled, Naming.ofLocalTable, String.toList_append,
          String.toList_ofList (l := target)]
        exact settled_append htarget (target_ne_nil ha)
      · obtain rfl := Option.some.inj hk
        exact settled_ofPlain _ (isTarget_qualify htarget)
    | field target =>
      obtain rfl := Option.some.inj hk
      exact settled_ofPlain _ (isTarget_qualify htarget)
  | declareSelf d description line =>
    obtain rfl := Option.some.inj hk
    have hname : IsTarget (String.ofList d.name).toList := by
      rw [String.toList_ofList]
      exact ha
    rw [selfNaming]
    split
    · exact settled_of_isTarget hname
    · exact settled_ofCall _ _
    · exact settled_ofPlain _ (isTarget_qualify ha)
    · apply settled_ofPlain
      split
      · exact isTarget_qualify ha
      · exact hname

/-! ### Two readings -/

theorem paramTags_paramLines (description : List (List Char)) :
    paramTags (paramLines description) = paramTags description := by
  rw [paramTags, paramLines, List.filterMap_filter]
  refine List.filterMap_congr fun t _ => ?_
  cases ht : paramTag.read? t with
  | none => rfl
  | some p => rfl

/-- What a symbol is called does not depend on the words of its description, nor on its line. -/
theorem naming_bare (x : Extraction) (a : Act) : x.naming a.bare = x.naming a := by
  cases a with
  | declare d description line => rfl
  | declareSelf d description line => simp only [naming, Act.bare, paramTags_paramLines]

theorem naming_renumber (x : Extraction) (f : Nat → Nat) (a : Act) :
    x.naming (a.renumber f) = x.naming a := by
  cases a <;> rfl

theorem line_bare (a : Act) : a.bare.line = a.line := by
  cases a <;> rfl

theorem line_renumber (f : Nat → Nat) (a : Act) : (a.renumber f).line = renumber f a.line := by
  cases a <;> rfl

theorem bare_renumber (f : Nat → Nat) (a : Act) : (a.renumber f).bare = a.bare.renumber f := by
  cases a <;> rfl

/-- Two readings of which the second has the symbols of the first, on other lines and with other
descriptions. -/
structure Alike (f : Nat → Nat) (x y : Extraction) : Prop where
  module : y.module = x.module
  returned : y.returned = x.returned
  container : y.container = x.container
  symbols : y.symbols.map (fun s => (s.brief, s.line)) = x.symbols.map fun s => (s.brief, f s.line)

theorem Alike.naming (h : Alike f x y) (a : Act) : y.naming a = x.naming a := by
  -- Of the symbols so far, all that counts is whether one of them is the module.
  have hmodule (m : String) : (y.symbols.any fun s => s.kind == .module && s.name == m) =
      x.symbols.any fun s => s.kind == .module && s.name == m := by
    have hany := congrArg
      (List.any · fun p : (String × String × Symbol.Kind × String × String) × Nat =>
        p.1.2.2.1 == .module && p.1.1 == m) h.symbols
    rw [List.any_map, List.any_map] at hany
    exact hany
  obtain ⟨module, returned, symbols, container⟩ := x
  obtain ⟨module', returned', symbols', container'⟩ := y
  obtain ⟨rfl, rfl, rfl, -⟩ := h
  cases a with
  | declare d description line =>
    cases d with
    | function target params isLocal => cases isLocal <;> rfl
    | table target isLocal =>
      simp only [Extraction.naming, declarationNaming, hmodule]
      rfl
    | field target => rfl
  | declareSelf d description line => rfl

/-- An act without the words of its description keeps two readings alike. -/
theorem Alike.perform (h : Alike f x y) (hm : Text.Settled x.module.toList) {a b : Act}
    (ha : a.Sound) (hb : b.bare = a.bare.renumber f) : Alike f (x.perform a) (y.perform b) := by
  have hnaming : y.naming b = x.naming a := by
    rw [← naming_bare y b, hb, naming_renumber, naming_bare, h.naming]
  have hline : b.line = renumber f a.line := by
    rw [← line_bare b, hb, line_renumber, line_bare]
  rw [perform_eq, perform_eq, hnaming]
  cases hk : x.naming a with
  | none => exact h
  | some k =>
    have hbrief := (settled_of_naming hm ha hk).brief b.description a.description a.line f
    refine ⟨h.module, h.returned, ?_, ?_⟩
    · simp only [push, h.container]
    · show (y.symbols ++ [k.symbol b.description b.line]).map _ =
        (x.symbols ++ [k.symbol a.description a.line]).map _
      rw [List.map_append, List.map_append, h.symbols, hline, List.map_singleton, List.map_singleton,
        hbrief]
      rfl

theorem Alike.foldl (h : Alike f x y) (hm : Text.Settled x.module.toList) {as bs : List Act}
    (has : ∀ a ∈ as, a.Sound) (hbs : bs.map Act.bare = as.map fun a => a.bare.renumber f) :
    Alike f (as.foldl Extraction.perform x) (bs.foldl Extraction.perform y) := by
  induction as generalizing bs x y with
  | nil =>
    obtain rfl := List.map_eq_nil_iff.1 hbs
    exact h
  | cons a as ih =>
    rw [List.map_cons, List.map_eq_cons_iff] at hbs
    obtain ⟨b, bs, rfl, hb, hbs⟩ := hbs
    refine ih (h.perform hm (has a List.mem_cons_self) hb) ?_
      (fun a ha => has a (List.mem_cons_of_mem _ ha)) hbs
    rw [perform_module]
    exact hm

end Extraction

/-! ### A line more -/

/-- The number of a line after another line comes in. -/
def shifted (k n : Nat) : Nat := if n < k then n else n + 1

theorem zipIdx_insertIdx_filter {comment : List Char} (h : isPlainComment comment = true)
    (source : List (List Char)) (k n : Nat) :
    (((source.insertIdx k comment).zipIdx n).map Prod.swap).filter Extraction.kept =
      (((source.zipIdx n).map Prod.swap).filter Extraction.kept).map
        (Extraction.renumber (shifted (n + k))) := by
  have hdrop (i : Nat) : Extraction.kept (i, comment) = false := by
    rw [Extraction.kept, h]
    rfl
  induction source generalizing k n with
  | nil => cases k <;> simp [hdrop]
  | cons l source ih =>
    cases k with
    | zero =>
      -- All lines are behind the new one.
      have hshift : (l :: source).zipIdx (n + 1) =
          ((l :: source).zipIdx n).map fun p => (p.1, p.2 + 1) := List.zipIdx_succ
      rw [List.insertIdx_zero, List.zipIdx_cons, List.map_cons, List.filter_cons_of_neg (by simp [hdrop]),
        hshift, List.map_map, List.filter_map, List.filter_map, List.map_map]
      refine List.map_congr_left fun p hp => ?_
      have hle := List.le_snd_of_mem_zipIdx (List.mem_of_mem_filter hp)
      show (p.2 + 1, p.1) = (shifted (n + 0) p.2, p.1)
      rw [shifted, if_neg (by omega)]
    | succ k =>
      have hfirst : Extraction.renumber (shifted (n + (k + 1))) (n, l) = (n, l) := by
        rw [Extraction.renumber, shifted, if_pos (by omega)]
      have hnext := ih k (n + 1)
      rw [Nat.add_right_comm, Nat.add_assoc] at hnext
      rw [List.insertIdx_succ_cons, List.zipIdx_cons, List.zipIdx_cons, List.map_cons, List.map_cons,
        Prod.swap_prod_mk, List.filter_cons, List.filter_cons]
      split
      · rw [List.map_cons, hfirst, hnext]
      · exact hnext

theorem numbered_insertIdx_filter {comment : List Char} (h : isPlainComment comment = true)
    (source : List (List Char)) (k : Nat) :
    (numbered (source.insertIdx k comment)).filter Extraction.kept =
      ((numbered source).filter Extraction.kept).map (Extraction.renumber (shifted k)) := by
  have hfrom := zipIdx_insertIdx_filter h source k 0
  rw [Nat.zero_add] at hfrom
  exact hfrom

section

variable {text text' : String} {k : Nat} {comment : List Char}
variable (h : isPlainComment comment = true)
variable (ht : lines text'.toList = (lines text.toList).insertIdx k comment)
include h ht

/-- The acts on a text with a plain comment more. -/
theorem bare_textActs_insertIdx : (textActs text').map Extraction.Act.bare =
    (textActs text).map fun a => a.bare.renumber (shifted k) := by
  have hrenumber := Extraction.acts_map (shifted k) [] none
    ((numbered (lines text.toList)).filter Extraction.kept)
  rw [← numbered_insertIdx_filter h, ← ht] at hrenumber
  calc (textActs text').map Extraction.Act.bare
      = (Extraction.acts [] none ((numbered (lines text'.toList)).filter Extraction.kept)).map
          Extraction.Act.bare := (Extraction.acts_filter [] [] none _).symm
    _ = ((Extraction.acts [] none ((numbered (lines text.toList)).filter Extraction.kept)).map
          Extraction.Act.bare).map (Extraction.Act.renumber (shifted k)) := by
        rw [Option.map_none] at hrenumber
        rw [hrenumber, List.map_map, List.map_map]
        exact List.map_congr_left fun a _ => Extraction.bare_renumber _ a
    _ = (textActs text).map fun a => a.bare.renumber (shifted k) := by
        rw [Extraction.acts_filter [] [] none, List.map_map]
        rfl

/-- A plain comment names no module and is no line of code. -/
theorem start_insertIdx (fileModule : String) :
    Extraction.start text' fileModule = Extraction.start text fileModule := by
  have hplain : ∀ l, (!isPlainComment l) = false → isPlainComment l = true := by
    intro l hl
    simpa using hl
  have hcode : ∀ l, isCodeLine l = true → (!isPlainComment l) = true := fun l hl =>
    Extraction.kept_of_isCodeLine (l := (0, l)) hl
  have htag : ∀ l, (!isPlainComment l) = false → moduleTag.read? (trim l) = none := by
    intro l hl
    have hat := at_not_mem_of_isPlainComment (hplain l hl)
    exact moduleTag_read?_eq_none fun hc => hat (mem_of_mem_trim hc)
  have hfilter : (lines text'.toList).filter (!isPlainComment ·) =
      (lines text.toList).filter (!isPlainComment ·) := by
    rw [ht, filter_insertIdx (by simp [h])]
  rw [Extraction.start, Extraction.start, ← findSome?_filter_of_imp htag (lines text'.toList), hfilter,
    findSome?_filter_of_imp htag, ← find?_filter_of_imp hcode (lines text'.toList).reverse,
    List.filter_reverse, hfilter, ← List.filter_reverse, find?_filter_of_imp hcode]

end

/-! ### A module and its description -/

/-- A module under a doc block without words, and the same with a plain comment in the block. -/
def undescribed : String := "---\nlocal M = \x7b\x7d\nreturn M\n"
def described : String := "---\n-- x\nlocal M = \x7b\x7d\nreturn M\n"

theorem extractSymbols_undescribed (fileModule : String) : extractSymbols undescribed fileModule =
    [(Extraction.Naming.ofModule fileModule).symbol [[]] (1, "local M = \x7b\x7d".toList)] := by
  have hacts : textActs undescribed =
      [.declare (.table ['M'] true) [[]] (1, "local M = \x7b\x7d".toList)] := by decide +kernel
  rw [extractSymbols_eq_foldl, hacts]
  rfl

theorem extractSymbols_described (fileModule : String) : extractSymbols described fileModule =
    [(Extraction.Naming.ofModule fileModule).symbol [[], ['x']] (2, "local M = \x7b\x7d".toList)] := by
  have hacts : textActs described =
      [.declare (.table ['M'] true) [[], ['x']] (2, "local M = \x7b\x7d".toList)] := by decide +kernel
  rw [extractSymbols_eq_foldl, hacts]
  rfl

theorem settled_of_described {fileModule : String}
    (h : (extractSymbols described fileModule).map Symbol.header =
      (extractSymbols undescribed fileModule).map Symbol.header) :
    Text.Settled fileModule.toList := by
  have hend : trimEnd (fileModule.toList ++ ['\n']) = trimEnd fileModule.toList :=
    dropEndWhile_append_of_all (List.all_eq_true.1 (by decide))
  have hword : trimEnd (fileModule.toList ++ ['\n', '\n', 'x']) =
      fileModule.toList ++ ['\n', '\n', 'x'] := trimEnd_append _ (t := ['\n', '\n', 'x']) (by decide)
  rw [extractSymbols_described, extractSymbols_undescribed, List.map_singleton, List.map_singleton,
    List.cons_eq_cons, Symbol.header, Symbol.header, firstLine, firstLine, Extraction.Naming.symbol,
    Extraction.Naming.symbol, String.toList_ofList, String.toList_ofList, String.ofList_inj] at h
  replace h : (lines (trimEnd (fileModule.toList ++ ['\n', '\n', 'x']))).headD [] =
    (lines (trimEnd (fileModule.toList ++ ['\n']))).headD [] := h.1
  rw [hword, hend, headD_lines_feed] at h
  exact h

/-- A comment without a tag and without a closing bracket changes no symbol but for its description
and its line, for all texts, when the name of the file settles the header of the module. Otherwise
the header of a described module has the white space at the end of the name, and that of a module
without a description does not. -/
theorem comment_unnoticed_iff (fileModule : String) :
    (∀ (text text' : String) (k : Nat) (body : List Char), '@' ∉ body → ']' ∉ body →
      lines text'.toList = (lines text.toList).insertIdx k ("-- ".toList ++ body) →
      (extractSymbols text' fileModule).map (fun s => (s.brief, s.line)) =
        (extractSymbols text fileModule).map fun s =>
          (s.brief, if s.line < k then s.line else s.line + 1)) ↔
      Text.Settled fileModule.toList := by
  constructor
  · intro h
    have hdescribed := h undescribed described 1 ['x'] (by decide) (by decide) (by decide +kernel)
    have hheader := congrArg (List.map (·.1.2.2.2.2)) hdescribed
    rw [List.map_map, List.map_map] at hheader
    exact settled_of_described hheader
  · intro hm text text' k body hat hclose ht
    have hplain := isPlainComment_iff.2 ⟨body, hat, hclose, rfl⟩
    have hmodule : Text.Settled (Extraction.start text fileModule).module.toList := by
      obtain hfile | htag := module_start text fileModule
      · rw [hfile]
        exact hm
      · exact Extraction.settled_of_isTarget htag
    have hrefl : Extraction.Alike (shifted k) (Extraction.start text fileModule)
        (Extraction.start text fileModule) := ⟨rfl, rfl, rfl, rfl⟩
    have halike := hrefl.foldl hmodule (fun a ha => Extraction.sound_of_mem_acts ha)
      (bare_textActs_insertIdx hplain ht)
    rw [extractSymbols_eq_foldl, extractSymbols_eq_foldl, start_insertIdx hplain ht]
    exact halike.symbols

end LuaLens
