import LuaLens.Proofs.Symbol.Acts
import LuaLens.Proofs.Symbol.Lexis
import LuaLens.Proofs.Text.Trim
import LuaLens.Query.Symbols

/-!
Where symbols stand. A doc block that names its own symbol points back to the last line of code, on to
the next one, or to itself, and yet the lines of the symbols never decrease: an act on a line that
comes later in the source than the next line of code is followed by no act before that line.
-/

namespace LuaLens

open Text

namespace Extraction

variable {lastCode : Option Line} {lines suffix : List Line} {l m : Line}

/-- Lines whose numbers go up. -/
abbrev Ascending (lines : List Line) : Prop := lines.Pairwise fun l m => l.1 < m.1

theorem afterBracket_suffix (closing : List Char) (lines : List Line) :
    afterBracket closing lines <:+ lines :=
  (List.tail_suffix _).trans (List.dropWhile_suffix _)

/-- A line that opens a bracket is not blank. -/
theorem trim_ne_nil_of_unclosedBracket? {line closing : List Char}
    (h : unclosedBracket? line = some closing) : trim line ≠ [] := by
  rw [Ne, trim_eq_nil_iff]
  intro hblank
  have hopen : '[' ∉ line := by
    intro hmem
    have hnot := hblank '[' hmem
    revert hnot
    decide
  rw [Lexis.unclosedBracket?_of_not_mem hopen] at h
  cases h

theorem isCodeLine_of_unclosedBracket? {closing : List Char} (h : unclosedBracket? l.2 = some closing)
    (hcomment : ¬ isComment l = true) : isCodeLine l.2 = true :=
  isCodeLine_iff.2 ⟨trim_ne_nil_of_unclosedBracket? h, Bool.eq_false_iff.2 hcomment⟩

/-! ### The lines of acts -/

/-- Where an act stands, when `lastCode` is the last line of code before `lines`: on that line, on a
line of code further down, or on another line that no line of code comes after. -/
structure Placed (lastCode : Option Line) (lines : List Line) (l : Line) : Prop where
  mem : l ∈ lastCode ∨ l ∈ lines
  late : l ∈ lastCode ∨ isCodeLine l.2 = true ∨ ∀ m ∈ lines, isCodeLine m.2 = true → m.1 ≤ l.1
  shown : trim l.2 ≠ []

theorem Placed.of_suffix (hl : Ascending lines) (hs : suffix <:+ lines) (h : Placed lastCode suffix l) :
    Placed lastCode lines l := by
  refine ⟨h.mem.imp_right hs.mem, ?_, h.shown⟩
  by_cases hmem : l ∈ lastCode
  · exact .inl hmem
  · refine h.late.imp_right fun hlate => hlate.imp_right fun hlate m hm hcode => ?_
    obtain ⟨before, rfl⟩ := hs
    obtain hm | hm := List.mem_append.1 hm
    · have hlt := (List.pairwise_append.1 hl).2.2 m hm l (h.mem.resolve_left hmem)
      omega
    · exact hlate m hm hcode

/-- Going on after a line of code. -/
theorem Placed.of_code (hl : Ascending lines) (hs : suffix <:+ lines) (hm : m ∈ lines)
    (hcode : isCodeLine m.2 = true) (h : Placed (some m) suffix l) : Placed lastCode lines l := by
  have hwhole := h.of_suffix hl hs
  refine ⟨.inr ?_, .inr ?_, h.shown⟩
  · obtain hlm | hmem := hwhole.mem
    · obtain rfl := Option.some.inj hlm
      exact hm
    · exact hmem
  · obtain hlm | hlate := hwhole.late
    · obtain rfl := Option.some.inj hlm
      exact .inl hcode
    · exact hlate

theorem docLine_cases (lastCode : Option Line) (line : Line) (rest : List Line) :
    docLine lastCode line rest ∈ lastCode ∨
      (docLine lastCode line rest ∈ rest.dropWhile isComment ∧
        isCodeLine (docLine lastCode line rest).2 = true) ∨
      docLine lastCode line rest = line ∧ ∀ m ∈ rest, isCodeLine m.2 = false := by
  cases lastCode with
  | some c => exact .inl rfl
  | none =>
    cases hfind : (rest.dropWhile isComment).find? (isCodeLine ·.2) with
    | some n =>
      have hdoc : docLine none line rest = n := by simp [docLine, hfind]
      rw [hdoc]
      have hcode : isCodeLine n.2 = true := List.find?_some (p := fun l : Line => isCodeLine l.2) hfind
      exact .inr (.inl ⟨List.mem_of_find?_eq_some hfind, hcode⟩)
    | none =>
      have hdoc : docLine none line rest = line := by simp [docLine, hfind]
      refine .inr (.inr ⟨hdoc, fun m hm => Bool.eq_false_iff.2 fun hcode => ?_⟩)
      rw [← List.takeWhile_append_dropWhile (p := isComment) (l := rest), List.mem_append] at hm
      obtain hm | hm := hm
      · have hcomment : isComment m = true := List.mem_takeWhile_imp hm
        rw [(isCodeLine_iff.1 hcode).2] at hcomment
        cases hcomment
      · exact List.find?_eq_none.1 hfind m hm hcode

theorem trim_ne_nil_of_isPrefixOf {line : List Char} (h : "---".toList.isPrefixOf (trim line) = true) :
    trim line ≠ [] := by
  intro hnil
  rw [hnil] at h
  cases h

theorem placed_of_mem_acts {pending : List (List Char)} (hl : Ascending lines)
    (hcode : ∀ c ∈ lastCode, isCodeLine c.2 = true) {a : Act} (h : a ∈ acts pending lastCode lines) :
    Placed lastCode lines a.line := by
  fun_induction acts pending lastCode lines with
  | case1 => cases h
  | case2 pending lastCode line rest closing hopen hcomment ih =>
    have hs := (afterBracket_suffix closing rest).trans (List.suffix_cons line rest)
    exact (ih (hl.sublist hs.sublist) hcode h).of_suffix hl hs
  | case3 pending lastCode line rest closing hopen hcomment ih =>
    have hs := (afterBracket_suffix closing rest).trans (List.suffix_cons line rest)
    have hline := isCodeLine_of_unclosedBracket? hopen hcomment
    obtain h | h := List.mem_append.1 h
    · obtain ⟨rfl, -⟩ := sound_of_mem_lineActs h
      exact ⟨.inr List.mem_cons_self, .inr (.inl hline), (isCodeLine_iff.1 hline).1⟩
    · exact (ih (hl.sublist hs.sublist) (by rintro c ⟨rfl⟩; exact hline) h).of_code hl hs
        List.mem_cons_self hline
  | case4 pending lastCode line rest hopen hdoc d description hself ih =>
    have hs := (List.dropWhile_suffix isComment (l := rest)).trans (List.suffix_cons line rest)
    obtain rfl | h := List.mem_cons.1 h
    · show Placed lastCode (line :: rest) (docLine lastCode line rest)
      obtain hlast | ⟨hmem, hnext⟩ | ⟨hown, hnone⟩ := docLine_cases lastCode line rest
      · exact ⟨.inl hlast, .inl hlast, (isCodeLine_iff.1 (hcode _ hlast)).1⟩
      · exact ⟨.inr (hs.mem hmem), .inr (.inl hnext), (isCodeLine_iff.1 hnext).1⟩
      · rw [hown]
        refine ⟨.inr List.mem_cons_self, .inr (.inr fun m hm hmcode => ?_),
          trim_ne_nil_of_isPrefixOf hdoc⟩
        obtain rfl | hm := List.mem_cons.1 hm
        · exact Nat.le_refl _
        · rw [hnone m hm] at hmcode
          cases hmcode
    · exact (ih (hl.sublist hs.sublist) hcode h).of_suffix hl hs
  | case5 pending lastCode line rest hopen hdoc hself ih =>
    have hs := (List.dropWhile_suffix isComment (l := rest)).trans (List.suffix_cons line rest)
    exact (ih (hl.sublist hs.sublist) hcode h).of_suffix hl hs
  | case6 pending lastCode line rest hopen hdoc hline ih =>
    have hs := List.suffix_cons line rest
    obtain h | h := List.mem_append.1 h
    · obtain ⟨rfl, -⟩ := sound_of_mem_lineActs h
      exact ⟨.inr List.mem_cons_self, .inr (.inl hline), (isCodeLine_iff.1 hline).1⟩
    · exact (ih (hl.sublist hs.sublist) (by rintro c ⟨rfl⟩; exact hline) h).of_code hl hs
        List.mem_cons_self hline
  | case7 pending lastCode line rest hopen hdoc hline ih =>
    have hs := List.suffix_cons line rest
    exact (ih (hl.sublist hs.sublist) hcode h).of_suffix hl hs

/-! ### The order of acts -/

theorem le_of_find? {p : Line → Bool} (hl : Ascending lines) (h : lines.find? p = some m)
    (hmem : l ∈ lines) (hp : p l = true) : m.1 ≤ l.1 := by
  obtain ⟨-, before, after, rfl, hbefore⟩ := List.find?_eq_some_iff_append.1 h
  obtain hmem | hmem := List.mem_append.1 hmem
  · have hnot := hbefore l hmem
    simp [hp] at hnot
  · obtain rfl | hmem := List.mem_cons.1 hmem
    · exact Nat.le_refl _
    · have hlt := List.rel_of_pairwise_cons (List.pairwise_append.1 hl).2.1 hmem
      omega

/-- No act after that of a doc block is on a line before it. -/
theorem docLine_le {line : Line} {rest : List Line} (hl : Ascending (line :: rest))
    (hlast : ∀ c ∈ lastCode, ∀ m ∈ line :: rest, c.1 ≤ m.1)
    (h : Placed lastCode (rest.dropWhile isComment) l) : (docLine lastCode line rest).1 ≤ l.1 := by
  have hs := List.dropWhile_suffix isComment (l := rest)
  cases lastCode with
  | some c =>
    show c.1 ≤ l.1
    obtain hmem | hmem := h.mem
    · obtain rfl := Option.some.inj hmem
      exact Nat.le_refl _
    · exact hlast c rfl l (List.mem_cons_of_mem _ (hs.mem hmem))
  | none =>
    have hmem : l ∈ rest.dropWhile isComment := h.mem.resolve_left (by simp)
    have hlate := h.late.resolve_left (by simp)
    have hrest : Ascending (rest.dropWhile isComment) := hl.of_cons.sublist hs.sublist
    cases hfind : (rest.dropWhile isComment).find? (isCodeLine ·.2) with
    | some n =>
      have hdoc : docLine none line rest = n := by simp [docLine, hfind]
      rw [hdoc]
      obtain hcode | hlate := hlate
      · exact le_of_find? hrest hfind hmem hcode
      · exact hlate n (List.mem_of_find?_eq_some hfind)
          (List.find?_some (p := fun l : Line => isCodeLine l.2) hfind)
    | none =>
      have hdoc : docLine none line rest = line := by simp [docLine, hfind]
      rw [hdoc]
      exact Nat.le_of_lt (List.rel_of_pairwise_cons hl (hs.mem hmem))

theorem pairwise_acts {pending : List (List Char)} (hl : Ascending lines)
    (hcode : ∀ c ∈ lastCode, isCodeLine c.2 = true) (hlast : ∀ c ∈ lastCode, ∀ m ∈ lines, c.1 ≤ m.1) :
    (acts pending lastCode lines).Pairwise fun a b => a.line.1 ≤ b.line.1 := by
  -- After the act of a line of code come acts on that line or below it.
  have hline {description : List (List Char)} {line : Line} {rest suffix : List Line}
      (hl : Ascending (line :: rest)) (hs : suffix <:+ rest) (hline : isCodeLine line.2 = true)
      (hacts : (acts [] (some line) suffix).Pairwise fun a b => a.line.1 ≤ b.line.1) :
      (lineActs description line ++ acts [] (some line) suffix).Pairwise
        fun a b => a.line.1 ≤ b.line.1 := by
    rw [List.pairwise_append]
    refine ⟨?_, hacts, fun a ha b hb => ?_⟩
    · rw [lineActs]
      split
      · exact List.pairwise_singleton _ _
      · exact List.Pairwise.nil
    · rw [(sound_of_mem_lineActs ha).1]
      have hplaced := placed_of_mem_acts (hl.of_cons.sublist hs.sublist)
        (by rintro c ⟨rfl⟩; exact hline) hb
      obtain hmem | hmem := hplaced.mem
      · rw [← Option.some.inj hmem]
      · exact Nat.le_of_lt (List.rel_of_pairwise_cons hl (hs.mem hmem))
  fun_induction acts pending lastCode lines with
  | case1 => exact List.Pairwise.nil
  | case2 pending lastCode line rest closing hopen hcomment ih =>
    have hs := (afterBracket_suffix closing rest).trans (List.suffix_cons line rest)
    exact ih (hl.sublist hs.sublist) hcode fun c hc m hm => hlast c hc m (hs.mem hm)
  | case3 pending lastCode line rest closing hopen hcomment ih =>
    have hs := afterBracket_suffix closing rest
    have hcodeLine := isCodeLine_of_unclosedBracket? hopen hcomment
    refine hline hl hs hcodeLine (ih (hl.of_cons.sublist hs.sublist) ?_ ?_)
    · rintro c ⟨rfl⟩
      exact hcodeLine
    · rintro c ⟨rfl⟩ m hm
      exact Nat.le_of_lt (List.rel_of_pairwise_cons hl (hs.mem hm))
  | case4 pending lastCode line rest hopen hdoc d description hself ih =>
    have hs := (List.dropWhile_suffix isComment (l := rest)).trans (List.suffix_cons line rest)
    have hsuffix := hl.sublist hs.sublist
    refine List.Pairwise.cons (fun b hb => ?_)
      (ih hsuffix hcode fun c hc m hm => hlast c hc m (hs.mem hm))
    exact docLine_le hl hlast (placed_of_mem_acts hsuffix hcode hb)
  | case5 pending lastCode line rest hopen hdoc hself ih =>
    have hs := (List.dropWhile_suffix isComment (l := rest)).trans (List.suffix_cons line rest)
    exact ih (hl.sublist hs.sublist) hcode fun c hc m hm => hlast c hc m (hs.mem hm)
  | case6 pending lastCode line rest hopen hdoc hcodeLine ih =>
    refine hline hl List.suffix_rfl hcodeLine (ih hl.of_cons ?_ ?_)
    · rintro c ⟨rfl⟩
      exact hcodeLine
    · rintro c ⟨rfl⟩ m hm
      exact Nat.le_of_lt (List.rel_of_pairwise_cons hl hm)
  | case7 pending lastCode line rest hopen hdoc hcodeLine ih =>
    exact ih hl.of_cons hcode fun c hc m hm => hlast c hc m (List.mem_cons_of_mem _ hm)

end Extraction

open Extraction

/-! ### The lines of a text -/

variable {source : List (List Char)} {text fileModule : String}

theorem mem_numbered {l : Line} : l ∈ numbered source ↔ source[l.1]? = some l.2 := by
  rw [numbered, List.mem_map]
  constructor
  · rintro ⟨⟨line, n⟩, hmem, rfl⟩
    exact List.mem_zipIdx_iff_getElem?.1 hmem
  · intro h
    exact ⟨(l.2, l.1), List.mem_zipIdx_iff_getElem?.2 h, rfl⟩

theorem ascending_numbered (source : List (List Char)) : Ascending (numbered source) := by
  rw [Ascending, List.pairwise_iff_getElem]
  intro i j hi hj hij
  simpa [numbered] using hij

theorem placed_of_mem_textActs {a : Act} (h : a ∈ textActs text) :
    (lines text.toList)[a.line.1]? = some a.line.2 ∧ trim a.line.2 ≠ [] := by
  have hplaced := placed_of_mem_acts (ascending_numbered _) (by simp) h
  exact ⟨mem_numbered.1 (hplaced.mem.resolve_left (by simp)), hplaced.shown⟩

theorem pairwise_textActs (text : String) :
    (textActs text).Pairwise fun a b => a.line.1 ≤ b.line.1 :=
  pairwise_acts (ascending_numbered _) (by simp) (by simp)

theorem mem_textActs_of_mem_textOrigins {p : Act × Symbol} (h : p ∈ textOrigins text fileModule) :
    p.1 ∈ textActs text :=
  (origins_sublist _ _).mem (List.mem_map_of_mem h)

/-- A symbol stands on a line of its text, and its locator is that line. -/
theorem line_of_mem_extractSymbols {s : Symbol} (hs : s ∈ extractSymbols text fileModule) :
    ∃ line, (lines text.toList)[s.line]? = some line ∧ s.locator = String.ofList (trim line) ∧
      trim line ≠ [] := by
  rw [extractSymbols_eq_origins, List.mem_map] at hs
  obtain ⟨p, hp, rfl⟩ := hs
  obtain ⟨hline, hlocator⟩ := place_of_mem_origins hp
  obtain ⟨hmem, hshown⟩ := placed_of_mem_textActs (mem_textActs_of_mem_textOrigins hp)
  exact ⟨p.1.line.2, by rw [hline, hmem], hlocator, hshown⟩

theorem pairwise_extractSymbols (text fileModule : String) :
    (extractSymbols text fileModule).Pairwise fun s t => s.line ≤ t.line := by
  have hacts := (pairwise_textActs text).sublist (origins_sublist (start text fileModule) (textActs text))
  rw [extractSymbols_eq_origins, List.pairwise_map]
  rw [List.pairwise_map] at hacts
  refine hacts.imp_of_mem fun hp hq hle => ?_
  rwa [(place_of_mem_origins hp).1, (place_of_mem_origins hq).1]

namespace Query

/-- The columns of what is on a line apart from white space around it. -/
def writtenRange (text : List Char) (n : Nat) : Range :=
  let line := lineAt text n
  Range.onLine n (unitLength (line.takeWhile isBlank)) (unitLength (trimEnd line))

theorem symbolRange_eq {s : Symbol} (hs : s ∈ extractSymbols text fileModule) :
    symbolRange text.toList s = writtenRange text.toList s.line := by
  obtain ⟨line, hline, hlocator, hshown⟩ := line_of_mem_extractSymbols hs
  have hat : lineAt text.toList s.line = line := by
    rw [lineAt, List.getD_eq_getElem?_getD, hline, Option.getD_some]
  obtain ⟨b, hcut⟩ := cut_trim hshown
  have hnotEmpty : (trim line).isEmpty = false := by simpa using hshown
  have hstart := unitsOfBytes_append (line.takeWhile isBlank) (trim line ++ b)
  rw [← List.append_assoc, ← cut_eq_some hcut] at hstart
  rw [symbolRange, writtenRange, hat, hlocator, String.toList_ofList, hnotEmpty]
  simp only [Bool.false_eq_true, if_false, hcut, hstart]
  rw [trimEnd_eq_append_trim hshown, unitLength_append]

/-- The symbols of every text stand on its lines in order, each where its line says, and those of a
document are shown there. -/
theorem symbols_in_place (uri : Uri) (text fileModule : String) :
    (∀ s ∈ extractSymbols text fileModule, ∃ line, (lines text.toList)[s.line]? = some line ∧
      s.locator = String.ofList (trim line) ∧ s.locator ≠ "") ∧
    ((extractSymbols text fileModule).Pairwise fun s t => s.line ≤ t.line) ∧
    documentSymbols uri text fileModule = (extractSymbols text fileModule).map fun s =>
      { name := s.name, kind := s.kind, owner := s.owner
        location := { uri, range := writtenRange text.toList s.line } } := by
  refine ⟨fun s hs => ?_, pairwise_extractSymbols text fileModule, ?_⟩
  · obtain ⟨line, hline, hlocator, hshown⟩ := line_of_mem_extractSymbols hs
    refine ⟨line, hline, hlocator, ?_⟩
    rw [hlocator]
    intro hempty
    apply hshown
    rw [← String.toList_ofList (l := trim line), hempty, String.toList_empty]
  · rw [documentSymbols]
    exact List.map_congr_left fun s hs => by rw [symbolRange_eq hs]

end Query

end LuaLens
