import LuaLens.Proofs.Symbol.Places

/-!
Lines in long strings and block comments. By the rules of the language a line is hidden when it begins
in one of these. The reader keeps an account of its own, which goes by lines: it looks for brackets on
a line as if there were no quotes, it does not look at the rest of a line that closes a bracket, and it
does not look at the comments of a doc block at all. So long as the two accounts agree it takes up the
declarations on just the lines that are not hidden; and where they differ there is a way to go on with
the source so that it does not.
-/

namespace LuaLens

open Text Extraction

variable {source : List (List Char)} {line : List Char} {text fileModule : String} {n : Nat}

/-! ### Hidden lines -/

/-- What a line of a source begins in. -/
def lexisAt (source : List (List Char)) (n : Nat) : Lexis := (source.take n).foldl Lexis.after .code

/-- Whether a line begins in a long string or a block comment. -/
def Hidden (source : List (List Char)) (n : Nat) : Prop := (lexisAt source n).level? ≠ none

instance (source : List (List Char)) (n : Nat) : Decidable (Hidden source n) :=
  inferInstanceAs (Decidable (_ ≠ _))

example : (List.range 4).filter (fun n => Hidden
    (lines "s = '[[' .. [=[\n]] -- \"\n]=] --[[\n]] t = \"\\\"]]\"".toList) n) = [1, 2, 3] := by decide

/-! ### The account of the reader -/

def isCommentLine (line : List Char) : Bool := "--".toList.isPrefixOf (trim line)

/-- What the reader is in the middle of. -/
inductive Reader
  | between
  /-- In a doc block. -/
  | documenting
  /-- In a long string or a block comment. -/
  | within (level : Nat)
deriving DecidableEq, Repr

namespace Reader

/-- After a line that the reader looks at by itself. -/
def fresh (line : List Char) : Reader :=
  match (Lexis.code.after (Lexis.muted line)).level? with
  | some n => .within n
  | none => if "---".toList.isPrefixOf (trim line) then .documenting else .between

def next : Reader → List Char → Reader
  | .between, line => fresh line
  | .documenting, line => if isCommentLine line then .documenting else fresh line
  | .within n, line => if contains (Lexis.closer n) line then .between else .within n

def level? : Reader → Option Nat
  | .within n => some n
  | _ => none

/-- The lines that are not passed over with a long string or block comment. -/
def openLines : Reader → List Line → List Line
  | _, [] => []
  | .within n, l :: ls => openLines (Reader.next (.within n) l.2) ls
  | r, l :: ls => l :: openLines (r.next l.2) ls

variable {r : Reader}

theorem level?_fresh (line : List Char) :
    (fresh line).level? = (Lexis.code.after (Lexis.muted line)).level? := by
  rw [fresh]
  cases (Lexis.code.after (Lexis.muted line)).level? with
  | some n => rfl
  | none =>
    dsimp only
    split_ifs <;> rfl

theorem eq_within (h : r.level? = some n) : r = .within n := by
  cases r with
  | within m => rw [Option.some.inj h]
  | between => cases h
  | documenting => cases h

theorem fresh_of_some {closing : List Char} (h : unclosedBracket? line = some closing) :
    ∃ n, fresh line = .within n ∧ closing = Lexis.closer n := by
  obtain ⟨n, hn, rfl⟩ := Lexis.exists_level_of_unclosedBracket? h
  exact ⟨n, by rw [fresh, hn], rfl⟩

theorem fresh_of_none (h : unclosedBracket? line = none) :
    fresh line = if "---".toList.isPrefixOf (trim line) then .documenting else .between := by
  rw [Lexis.unclosedBracket?_eq, Option.map_eq_none_iff] at h
  rw [fresh, h]

theorem openLines_cons_of_none (h : r.level? = none) (l : Line) (ls : List Line) :
    openLines r (l :: ls) = l :: openLines (r.next l.2) ls := by
  cases r with
  | between => rfl
  | documenting => rfl
  | within n => cases h

theorem openLines_within (n : Nat) (ls : List Line) :
    openLines (.within n) ls = openLines .between (afterBracket (Lexis.closer n) ls) := by
  induction ls with
  | nil => rfl
  | cons l ls ih =>
    rw [openLines, next, afterBracket]
    cases hclosed : contains (Lexis.closer n) l.2 with
    | true => rw [List.dropWhile_cons_of_neg (by simp [hclosed]), if_pos rfl, List.tail_cons]
    | false =>
      rw [List.dropWhile_cons_of_pos (by simp [hclosed]), if_neg (by simp), ih]
      rfl

/-- The comments of a doc block are all that sets it apart. -/
theorem openLines_documenting (ls : List Line) : openLines .documenting ls =
    ls.takeWhile isComment ++ openLines .between (ls.dropWhile isComment) := by
  induction ls with
  | nil => rfl
  | cons l ls ih =>
    rw [openLines_cons_of_none rfl, next]
    cases hl : isComment l with
    | true =>
      have hline : isCommentLine l.2 = true := hl
      rw [if_pos hline, ih, List.takeWhile_cons_of_pos hl, List.dropWhile_cons_of_pos hl,
        List.cons_append]
    | false =>
      have hline : isCommentLine l.2 = false := hl
      rw [if_neg (by simp [hline]), List.takeWhile_cons_of_neg (by simp [hl]),
        List.dropWhile_cons_of_neg (by simp [hl]), List.nil_append, openLines_cons_of_none rfl, next]

end Reader

open Reader

/-! ### Which declarations are taken up -/

namespace Extraction

/-- What an act declares, and on which line. -/
def Act.declared? : Act → Option (Declaration × Line)
  | .declare d _ line => some (d, line)
  | .declareSelf _ _ _ => none

def declared? (l : Line) : Option (Declaration × Line) := (Declaration.parse? l.2).map (·, l)

theorem declared?_of_not_code {l : Line} (h : isCodeLine l.2 = false) : declared? l = none := by
  rw [declared?, Option.map_eq_none_iff, Option.eq_none_iff_forall_ne_some]
  intro d hd
  rw [Declaration.isCodeLine_of_parse? hd] at h
  cases h

theorem declared?_of_isComment {l : Line} (h : isComment l = true) : declared? l = none := by
  apply declared?_of_not_code
  rw [Bool.eq_false_iff]
  intro hcode
  rw [(isCodeLine_iff.1 hcode).2] at h
  cases h

theorem filterMap_lineActs (description : List (List Char)) (l : Line) :
    (lineActs description l).filterMap Act.declared? = (declared? l).toList := by
  rw [lineActs, declared?]
  cases Declaration.parse? l.2 <;> rfl

theorem filterMap_takeWhile_isComment (ls : List Line) :
    (ls.takeWhile isComment).filterMap declared? = [] := by
  rw [List.filterMap_eq_nil_iff]
  exact fun l hl => declared?_of_isComment (List.mem_takeWhile_imp hl)

theorem isComment_of_isPrefixOf {l : Line} (h : "---".toList.isPrefixOf (trim l.2) = true) :
    isComment l = true := by
  rw [List.isPrefixOf_iff_prefix] at h
  rw [isComment, List.isPrefixOf_iff_prefix]
  exact List.IsPrefix.trans ⟨['-'], rfl⟩ h

section

variable {l : Line} {rest : List Line}

theorem openLines_of_some {closing : List Char} (h : unclosedBracket? l.2 = some closing) :
    openLines .between (l :: rest) = l :: openLines .between (afterBracket closing rest) := by
  obtain ⟨n, hn, rfl⟩ := fresh_of_some h
  rw [openLines_cons_of_none rfl, Reader.next, hn, openLines_within]

theorem filterMap_openLines_doc (h : unclosedBracket? l.2 = none)
    (hdoc : "---".toList.isPrefixOf (trim l.2) = true) :
    (openLines .between (l :: rest)).filterMap declared? =
      (openLines .between (rest.dropWhile isComment)).filterMap declared? := by
  rw [openLines_cons_of_none rfl, Reader.next, fresh_of_none h, if_pos hdoc, openLines_documenting,
    List.filterMap_cons_none (declared?_of_isComment (isComment_of_isPrefixOf hdoc)),
    List.filterMap_append, filterMap_takeWhile_isComment, List.nil_append]

theorem openLines_of_none (h : unclosedBracket? l.2 = none)
    (hdoc : ¬ "---".toList.isPrefixOf (trim l.2) = true) :
    openLines .between (l :: rest) = l :: openLines .between rest := by
  rw [openLines_cons_of_none rfl, Reader.next, fresh_of_none h, if_neg hdoc]

end

/-- The reader takes up what is declared on its open lines. -/
theorem filterMap_acts (pending : List (List Char)) (lastCode : Option Line) (ls : List Line) :
    (acts pending lastCode ls).filterMap Act.declared? =
      (openLines .between ls).filterMap declared? := by
  have hcons (l : Line) (ls : List Line) :
      (declared? l).toList ++ ls.filterMap declared? = (l :: ls).filterMap declared? := by
    rw [List.filterMap_cons]
    cases declared? l <;> rfl
  fun_induction acts pending lastCode ls with
  | case1 => rfl
  | case2 pending lastCode line rest closing hopen hcomment ih =>
    rw [ih, openLines_of_some hopen, List.filterMap_cons_none (declared?_of_isComment hcomment)]
  | case3 pending lastCode line rest closing hopen hcomment ih =>
    rw [List.filterMap_append, filterMap_lineActs, ih, openLines_of_some hopen, hcons]
  | case4 pending lastCode line rest hopen hdoc d description hself ih =>
    rw [List.filterMap_cons_none rfl, ih, filterMap_openLines_doc hopen hdoc]
  | case5 pending lastCode line rest hopen hdoc hself ih =>
    rw [ih, filterMap_openLines_doc hopen hdoc]
  | case6 pending lastCode line rest hopen hdoc hcode ih =>
    rw [List.filterMap_append, filterMap_lineActs, ih, openLines_of_none hopen hdoc, hcons]
  | case7 pending lastCode line rest hopen hdoc hcode ih =>
    rw [ih, openLines_of_none hopen hdoc,
      List.filterMap_cons_none (declared?_of_not_code (by simpa using hcode))]

end Extraction

/-- What the reader is in when it comes to a line. -/
def readerAt (source : List (List Char)) (n : Nat) : Reader := (source.take n).foldl Reader.next .between

theorem mem_openLines_zipIdx {l : Line} {r : Reader} (i : Nat) :
    l ∈ openLines r ((source.zipIdx i).map Prod.swap) ↔
      ∃ n, l.1 = i + n ∧ source[n]? = some l.2 ∧
        ((source.take n).foldl Reader.next r).level? = none := by
  induction source generalizing i r with
  | nil => simp [openLines]
  | cons line source ih =>
    have hcons : l ∈ openLines r ((i, line) :: (source.zipIdx (i + 1)).map Prod.swap) ↔
        (l = (i, line) ∧ r.level? = none) ∨
          l ∈ openLines (r.next line) ((source.zipIdx (i + 1)).map Prod.swap) := by
      cases r with
      | between => simp [openLines, Reader.level?]
      | documenting => simp [openLines, Reader.level?]
      | within n => simp [openLines, Reader.level?]
    rw [List.zipIdx_cons, List.map_cons, Prod.swap_prod_mk, hcons, ih]
    refine Iff.trans (or_congr ?_ (exists_congr fun n => ?_)) Nat.or_exists_add_one
    · rw [Prod.ext_iff]
      simp [eq_comm, and_assoc]
    · rw [Nat.add_assoc, Nat.add_comm 1 n]
      rfl

theorem mem_openLines_numbered {l : Line} : l ∈ openLines .between (numbered source) ↔
    source[l.1]? = some l.2 ∧ (readerAt source l.1).level? = none := by
  refine (mem_openLines_zipIdx 0).trans ⟨?_, fun h => ⟨l.1, (Nat.zero_add _).symm, h⟩⟩
  rintro ⟨n, hn, h⟩
  rw [Nat.zero_add] at hn
  rwa [hn]

/-- The reader takes up what is declared on a line just when it is not in a bracket of its account. -/
theorem exists_mem_textActs_iff {d : Declaration} {l : Line} :
    (∃ description, Act.declare d description l ∈ textActs text) ↔
      (lines text.toList)[l.1]? = some l.2 ∧ Declaration.parse? l.2 = some d ∧
        (readerAt (lines text.toList) l.1).level? = none := by
  have hacts : (∃ description, Act.declare d description l ∈ textActs text) ↔
      (d, l) ∈ (textActs text).filterMap Act.declared? := by
    rw [List.mem_filterMap]
    constructor
    · rintro ⟨description, h⟩
      exact ⟨_, h, rfl⟩
    · rintro ⟨a, ha, hd⟩
      cases a with
      | declare d' description l' =>
        obtain ⟨rfl, rfl⟩ : d' = d ∧ l' = l := by simpa [Act.declared?] using hd
        exact ⟨description, ha⟩
      | declareSelf d' description l' => cases hd
  rw [hacts, textActs, filterMap_acts, List.mem_filterMap]
  constructor
  · rintro ⟨m, hm, hd⟩
    obtain ⟨e, he, heq⟩ := Option.map_eq_some_iff.1 hd
    obtain ⟨rfl, rfl⟩ : e = d ∧ m = l := by simpa using heq
    obtain ⟨hline, hlevel⟩ := mem_openLines_numbered.1 hm
    exact ⟨hline, he, hlevel⟩
  · rintro ⟨hline, hd, hlevel⟩
    refine ⟨l, mem_openLines_numbered.2 ⟨hline, hlevel⟩, ?_⟩
    rw [declared?, hd, Option.map_some]

/-! ### The symbol of a declaration -/

namespace Extraction

variable {x y : Extraction}

/-- Whether a declaration is one of the table that the file returns. -/
def IsAlias (x : Extraction) (d : Declaration) : Prop :=
  ∃ target isLocal, d = .table target isLocal ∧ x.returned = some (String.ofList target)

/-- A declaration has the same symbol whatever comes before it, but for a second one of the module. -/
theorem declarationNaming_cases (hm : x.module = y.module) (hr : x.returned = y.returned)
    (hy : y.symbols = []) (d : Declaration) :
    (∃ k, y.declarationNaming d = some k ∧ x.declarationNaming d = some k) ∨
      (y.IsAlias d ∧ ∃ s ∈ x.symbols, s.kind = .module ∧ s.name = y.module) := by
  obtain ⟨module, returned, symbols, container⟩ := x
  obtain ⟨module', returned', symbols', container'⟩ := y
  obtain rfl : module = module' := hm
  obtain rfl : returned = returned' := hr
  obtain rfl : symbols' = [] := hy
  cases d with
  | function target params isLocal => cases isLocal <;> exact .inl ⟨_, rfl, rfl⟩
  | field target => exact .inl ⟨_, rfl, rfl⟩
  | table target isLocal =>
    by_cases halias : returned = some (String.ofList target)
    · by_cases hmodule : ∃ s ∈ symbols, s.kind = .module ∧ s.name = module
      · exact .inr ⟨⟨target, isLocal, rfl, halias⟩, hmodule⟩
      · refine .inl ⟨.ofModule module, ?_, ?_⟩
        · simp [declarationNaming, halias]
        · have hany : (symbols.any fun s => s.kind == .module && s.name == module) = false := by
            rw [List.any_eq_false]
            intro s hs hboth
            apply hmodule
            exact ⟨s, hs, by simpa using hboth⟩
          simp [declarationNaming, halias, hany]
    · have hother (symbols : List Symbol) (container : Option String) :
          declarationNaming ⟨module, returned, symbols, container⟩ (.table target isLocal) =
            some (if isLocal then .ofLocalTable (String.ofList target)
              else .ofPlain .table (qualify ⟨module, returned, symbols, container⟩ target)) := by
        simp only [declarationNaming, beq_iff_eq, halias, if_false]
        split_ifs <;> rfl
      exact .inl ⟨_, hother [] container', hother symbols container⟩

theorem origins_append (x : Extraction) (as bs : List Act) :
    origins x (as ++ bs) = origins x as ++ origins (as.foldl perform x) bs := by
  induction as generalizing x with
  | nil => rfl
  | cons a as ih => rw [List.cons_append, origins, origins, ih, List.append_assoc, List.foldl_cons]

end Extraction

/-- A declaration of the table that the file returns, under a symbol of the module that is there
already. -/
def Merged (text fileModule : String) (n : Nat) (d : Declaration) : Prop :=
  (start text fileModule).IsAlias d ∧ ∃ s ∈ extractSymbols text fileModule,
    s.kind = .module ∧ s.name = (start text fileModule).module ∧ s.line ≤ n

theorem mem_textOrigins_or_merged {d : Declaration} {description : List (List Char)} {l : Line}
    (h : Act.declare d description l ∈ textActs text) (fileModule : String) :
    (∃ k, (start text fileModule).declarationNaming d = some k ∧
      (Act.declare d description l, k.symbol description l) ∈ textOrigins text fileModule) ∨
    Merged text fileModule l.1 d := by
  have hpairwise := pairwise_textActs text
  obtain ⟨before, after, hsplit⟩ := List.append_of_mem h
  have horigins : textOrigins text fileModule = origins (start text fileModule) before ++
      origins (before.foldl perform (start text fileModule)) (.declare d description l :: after) := by
    rw [textOrigins, hsplit, origins_append]
  obtain ⟨k, hk, hnaming⟩ | ⟨halias, s, hs, hkind, hname⟩ :=
    declarationNaming_cases (foldl_module (start text fileModule) before)
      (foldl_returned (start text fileModule) before) rfl d
  · refine .inl ⟨k, hk, ?_⟩
    rw [horigins, List.mem_append, origins, List.mem_append, added, naming, hnaming]
    exact .inr (.inl List.mem_cons_self)
  · rw [symbols_foldl] at hs
    obtain ⟨p, hp, rfl⟩ := List.mem_map.1 hs
    refine .inr ⟨halias, p.2, ?_, hkind, hname, ?_⟩
    · rw [extractSymbols_eq_origins, horigins]
      exact List.mem_map_of_mem (List.mem_append_left _ hp)
    · rw [hsplit, List.pairwise_append] at hpairwise
      rw [(place_of_mem_origins hp).1]
      exact hpairwise.2.2 p.1 ((origins_sublist _ _).mem (List.mem_map_of_mem hp)) _ List.mem_cons_self

/-! ### Faithful readings -/

/-- Whether the declarations of a text are taken up from just those lines that are not hidden. -/
structure Faithful (text fileModule : String) : Prop where
  /-- The symbols of the text are those that its acts add, in their order. -/
  symbols : extractSymbols text fileModule = (textOrigins text fileModule).map (·.2)
  /-- No symbol is there for what stands on a hidden line. -/
  hidden : ∀ d description l s,
    (Act.declare d description l, s) ∈ textOrigins text fileModule → ¬ Hidden (lines text.toList) s.line
  /-- What any other line declares has its symbol on that line, or is the module over again. -/
  visible : ∀ n line d, (lines text.toList)[n]? = some line → ¬ Hidden (lines text.toList) n →
    Declaration.parse? line = some d →
    (∃ k description, (start text fileModule).declarationNaming d = some k ∧
      (Act.declare d description (n, line), k.symbol description (n, line)) ∈
        textOrigins text fileModule) ∨
    Merged text fileModule n d

/-- Whether a line is hidden or not by both accounts, and in a bracket of which level. -/
def Agree (source : List (List Char)) (n : Nat) : Prop :=
  (readerAt source n).level? = (lexisAt source n).level?

theorem Agree.hidden_iff (h : Agree source n) : Hidden source n ↔ (readerAt source n).level? ≠ none := by
  rw [Hidden, ← h]

theorem faithful_of_agree (h : ∀ n, Agree (lines text.toList) n) (fileModule : String) :
    Faithful text fileModule := by
  refine ⟨extractSymbols_eq_origins text fileModule, fun d description l s hs => ?_,
    fun n line d hline hvisible hd => ?_⟩
  · obtain ⟨-, -, hlevel⟩ :=
      exists_mem_textActs_iff.1 ⟨description, mem_textActs_of_mem_textOrigins hs⟩
    rw [(place_of_mem_origins hs).1, (h _).hidden_iff, not_not]
    exact hlevel
  · rw [(h n).hidden_iff, not_not] at hvisible
    obtain ⟨description, hact⟩ :=
      (exists_mem_textActs_iff (l := (n, line))).2 ⟨hline, hd, hvisible⟩
    obtain ⟨k, hk, horigin⟩ | hmerged := mem_textOrigins_or_merged hact fileModule
    · exact .inl ⟨k, description, hk, horigin⟩
    · exact .inr hmerged

/-! ### Where the accounts agree -/

section

variable (hline : source[n]? = some line)
include hline

theorem readerAt_succ : readerAt source (n + 1) = (readerAt source n).next line := by
  rw [readerAt, List.take_add_one, hline, List.foldl_append]
  rfl

theorem lexisAt_succ : lexisAt source (n + 1) = (lexisAt source n).after line := by
  rw [lexisAt, List.take_add_one, hline, List.foldl_append]
  rfl

end

/-- A line in a bracket begins in the bracket itself. -/
theorem lexisAt_eq_long {m : Nat} (h : (lexisAt source n).level? = some m) :
    lexisAt source n = .long m := by
  rw [lexisAt] at h ⊢
  obtain hnil | ⟨lead, line, hlead⟩ := List.eq_nil_or_concat (source.take n)
  · rw [hnil] at h
    cases h
  · rw [hlead, List.concat_eq_append, List.foldl_append, List.foldl_cons, List.foldl_nil,
      Lexis.after] at h ⊢
    generalize List.foldl Lexis.step _ line = z at h ⊢
    cases z <;> cases h <;> rfl

/-- The `---` line of a block of comments, with nothing left open on it. -/
def IsDocLine (source : List (List Char)) (m : Nat) : Prop :=
  (∃ line, source[m]? = some line ∧ "---".toList.isPrefixOf (trim line) = true) ∧
    ¬ Hidden source m ∧ ¬ Hidden source (m + 1)

/-- Whether a line is one of the comments that go on under a `---` line. -/
def InDocBlock (source : List (List Char)) (n : Nat) : Prop :=
  ∃ m < n, IsDocLine source m ∧
    ∀ i line, m < i → i ≤ n → source[i]? = some line → isCommentLine line = true

/-- Whether the reader can tell what is left open after a line. -/
structure LegibleAt (source : List (List Char)) (n : Nat) (line : List Char) : Prop where
  /-- A line that closes a bracket leaves no other one open. -/
  closings : ∀ m, lexisAt source n = .long m → contains (Lexis.closer m) line = true →
    ¬ Hidden source (n + 1)
  /-- A comment in a doc block leaves no bracket open. -/
  docs : ¬ Hidden source n → InDocBlock source n → ¬ Hidden source (n + 1)
  /-- Any other line leaves open what it leaves open as a line by itself without its quotes. -/
  quotes : ¬ Hidden source n → ¬ InDocBlock source n →
    (lexisAt source (n + 1)).level? = (Lexis.code.after (Lexis.muted line)).level?

def Legible (source : List (List Char)) : Prop :=
  ∀ n line, source[n]? = some line → LegibleAt source n line

theorem fresh_eq_documenting_iff : fresh line = .documenting ↔
    (fresh line).level? = none ∧ "---".toList.isPrefixOf (trim line) = true := by
  rw [level?_fresh, fresh]
  cases (Lexis.code.after (Lexis.muted line)).level? <;> simp

theorem next_eq_documenting_iff {r : Reader} : r.next line = .documenting ↔
    r.level? = none ∧ (r.next line).level? = none ∧
      (r = .documenting ∧ isCommentLine line = true ∨ "---".toList.isPrefixOf (trim line) = true) := by
  cases r with
  | between => simp [Reader.next, Reader.level?, fresh_eq_documenting_iff]
  | documenting =>
    cases hcomment : isCommentLine line with
    | true => simp [Reader.next, Reader.level?, hcomment]
    | false => simp [Reader.next, Reader.level?, hcomment, fresh_eq_documenting_iff]
  | within n =>
    rw [Reader.next]
    split_ifs <;> simp [Reader.level?]

/-- The reader is in a doc block after its `---` line and comments. -/
theorem readerAt_eq_documenting_iff (hn : n ≤ source.length) : readerAt source n = .documenting ↔
    ∃ m < n, ((∃ line, source[m]? = some line ∧ "---".toList.isPrefixOf (trim line) = true) ∧
        (readerAt source m).level? = none ∧ (readerAt source (m + 1)).level? = none) ∧
      ∀ i line, m < i → i < n → source[i]? = some line → isCommentLine line = true := by
  induction n with
  | zero => simp [readerAt]
  | succ n ih =>
    have hline : source[n]? = some source[n] := List.getElem?_eq_getElem hn
    rw [readerAt_succ hline, next_eq_documenting_iff, ← readerAt_succ hline]
    constructor
    · rintro ⟨hlevel, hnext, ⟨hdoc, hcomment⟩ | hdoc⟩
      · obtain ⟨m, hm, hstart, hbetween⟩ := (ih (Nat.le_of_lt hn)).1 hdoc
        refine ⟨m, Nat.lt_succ_of_lt hm, hstart, fun i line hi hin hl => ?_⟩
        obtain hin | rfl := Nat.lt_succ_iff_lt_or_eq.1 hin
        · exact hbetween i line hi hin hl
        · obtain rfl := Option.some.inj (hline.symm.trans hl)
          exact hcomment
      · exact ⟨n, Nat.lt_succ_self n, ⟨⟨_, hline, hdoc⟩, hlevel, hnext⟩, by omega⟩
    · rintro ⟨m, hm, ⟨⟨line, hl, hdoc⟩, hlevel, hnext⟩, hbetween⟩
      obtain hm | rfl := Nat.lt_succ_iff_lt_or_eq.1 hm
      · have hin : readerAt source n = .documenting :=
          (ih (Nat.le_of_lt hn)).2 ⟨m, hm, ⟨⟨line, hl, hdoc⟩, hlevel, hnext⟩,
            fun i line hi hin hl => hbetween i line hi (Nat.lt_succ_of_lt hin) hl⟩
        have hcomment := hbetween n _ hm (Nat.lt_succ_self n) hline
        refine ⟨by rw [hin]; rfl, ?_, .inl ⟨hin, hcomment⟩⟩
        rw [readerAt_succ hline, hin, Reader.next, if_pos hcomment]
        rfl
      · obtain rfl := Option.some.inj (hline.symm.trans hl)
        exact ⟨hlevel, hnext, .inr hdoc⟩

theorem inDocBlock_iff (hline : source[n]? = some line) (h : ∀ i ≤ n, Agree source i) :
    InDocBlock source n ↔ readerAt source n = .documenting ∧ isCommentLine line = true := by
  have hn : n < source.length := (List.getElem?_eq_some_iff.1 hline).1
  have hstart (m : Nat) (hm : m < n) : IsDocLine source m ↔
      (∃ line, source[m]? = some line ∧ "---".toList.isPrefixOf (trim line) = true) ∧
        (readerAt source m).level? = none ∧ (readerAt source (m + 1)).level? = none := by
    rw [IsDocLine, (h m (Nat.le_of_lt hm)).hidden_iff, (h (m + 1) hm).hidden_iff, not_not, not_not]
  rw [readerAt_eq_documenting_iff (Nat.le_of_lt hn), InDocBlock]
  constructor
  · rintro ⟨m, hm, hdoc, hcomments⟩
    refine ⟨⟨m, hm, (hstart m hm).1 hdoc, fun i l hi hin hl => ?_⟩, ?_⟩
    · exact hcomments i l hi (Nat.le_of_lt hin) hl
    · exact hcomments n line hm (Nat.le_refl n) hline
  · rintro ⟨⟨m, hm, hdoc, hcomments⟩, hcomment⟩
    refine ⟨m, hm, (hstart m hm).2 hdoc, fun i l hi hin hl => ?_⟩
    obtain hin | rfl := Nat.lt_or_eq_of_le hin
    · exact hcomments i l hi hin hl
    · obtain rfl := Option.some.inj (hline.symm.trans hl)
      exact hcomment

/-- What the reader makes of a line that is not hidden. -/
theorem level?_readerAt_succ (hline : source[n]? = some line) (h : ∀ i ≤ n, Agree source i)
    (hvisible : ¬ Hidden source n) : (InDocBlock source n → (readerAt source (n + 1)).level? = none) ∧
      (¬ InDocBlock source n →
        (readerAt source (n + 1)).level? = (Lexis.code.after (Lexis.muted line)).level?) := by
  rw [(h n (Nat.le_refl n)).hidden_iff, not_not] at hvisible
  rw [inDocBlock_iff hline h, readerAt_succ hline, ← level?_fresh]
  constructor
  · rintro ⟨hdoc, hcomment⟩
    rw [hdoc, Reader.next, if_pos hcomment]
    rfl
  · intro hblock
    cases hr : readerAt source n with
    | between => rfl
    | documenting =>
      have hcomment : ¬ isCommentLine line = true := fun hcomment => hblock ⟨hr, hcomment⟩
      rw [Reader.next, if_neg hcomment]
    | within m =>
      rw [hr] at hvisible
      cases hvisible

/-- The accounts still agree after a line just when the reader can tell what is left open on it. -/
theorem agree_succ_iff (hline : source[n]? = some line) (h : ∀ i ≤ n, Agree source i) :
    Agree source (n + 1) ↔ LegibleAt source n line := by
  have hagree : (readerAt source n).level? = (lexisAt source n).level? := h n (Nat.le_refl n)
  have hnext : ¬ Hidden source (n + 1) ↔ (lexisAt source (n + 1)).level? = none := by
    rw [Hidden, not_not]
  by_cases hhidden : Hidden source n
  · obtain ⟨m, hlevel⟩ := Option.ne_none_iff_exists'.1 hhidden
    have hlong : lexisAt source n = .long m := lexisAt_eq_long hlevel
    have hwithin : readerAt source n = .within m := eq_within (hagree.trans hlevel)
    cases hclosed : contains (Lexis.closer m) line with
    | true =>
      have hbetween : (readerAt source (n + 1)).level? = none := by
        rw [readerAt_succ hline, hwithin, Reader.next, if_pos hclosed]
        rfl
      rw [Agree, hbetween, eq_comm, ← hnext]
      exact ⟨fun hvisible => ⟨fun _ _ _ => hvisible, fun _ _ => hvisible, absurd hhidden⟩,
        fun hlegible => hlegible.closings m hlong hclosed⟩
    | false =>
      have hnone : Lexis.afterCloser m line = none := by
        rw [Lexis.contains_closer] at hclosed
        simpa using hclosed
      have hsame : Agree source (n + 1) := by
        rw [Agree, readerAt_succ hline, lexisAt_succ hline, hwithin, hlong, Lexis.after_long, hnone,
          Reader.next, if_neg (by simp [hclosed])]
        rfl
      refine iff_of_true hsame ⟨fun m' hm' hclosed' => ?_, fun hv => absurd hhidden hv,
        fun hv => absurd hhidden hv⟩
      obtain rfl : m = m' := by simpa using hlong.symm.trans hm'
      rw [hclosed] at hclosed'
      cases hclosed'
  · obtain ⟨hdocs, hquotes⟩ := level?_readerAt_succ hline h hhidden
    have hclosings (m : Nat) : lexisAt source n ≠ .long m := by
      intro hlong
      apply hhidden
      rw [Hidden, hlong]
      exact Option.some_ne_none m
    by_cases hblock : InDocBlock source n
    · rw [Agree, hdocs hblock, eq_comm, ← hnext]
      exact ⟨fun hvisible => ⟨fun _ _ _ => hvisible, fun _ _ => hvisible, fun _ hb => absurd hblock hb⟩,
        fun hlegible => hlegible.docs hhidden hblock⟩
    · rw [Agree, hquotes hblock, eq_comm]
      exact ⟨fun hlevel => ⟨fun m hm => absurd hm (hclosings m), fun _ hb => absurd hb hblock,
        fun _ _ => hlevel⟩, fun hlegible => hlegible.quotes hhidden hblock⟩

theorem agree_succ_of_none (hline : source[n]? = none) (h : Agree source n) : Agree source (n + 1) := by
  have htake : source.take (n + 1) = source.take n := by
    rw [List.take_add_one, hline]
    exact List.append_nil _
  rwa [Agree, readerAt, lexisAt, ← htake] at h

theorem agree_iff_legible : (∀ n, Agree source n) ↔ Legible source := by
  constructor
  · intro h n line hline
    exact (agree_succ_iff hline fun i _ => h i).1 (h (n + 1))
  · intro h n
    induction n using Nat.strong_induction_on with
    | h n ih =>
      cases n with
      | zero => rfl
      | succ n =>
        have hbefore : ∀ i ≤ n, Agree source i := fun i hi => ih i (Nat.lt_succ_of_le hi)
        cases hline : source[n]? with
        | some line => exact (agree_succ_iff hline hbefore).2 (h n line hline)
        | none => exact agree_succ_of_none hline (hbefore n (Nat.le_refl n))

/-! ### Going on without brackets -/

/-- Whether a source is the beginning of another one with lines after it that open no bracket. -/
def GoesOn (source source' : List (List Char)) : Prop :=
  ∃ lead rest, source' = lead ++ rest ∧ lead <+: source ∧ ∀ l ∈ rest, '[' ∉ l

theorem legibleAt_of_not_mem (hline : source[n]? = some line) (hopen : '[' ∉ line) :
    LegibleAt source n line := by
  have hvisible (h : ¬ Hidden source n) : (lexisAt source (n + 1)).level? = none := by
    rw [Hidden, not_not] at h
    rw [lexisAt_succ hline]
    exact Lexis.level?_after_of_not_mem h hopen
  refine ⟨fun m hm hclosed => ?_, fun h _ => not_not.2 (hvisible h), fun h _ => ?_⟩
  · rw [Hidden, not_not, lexisAt_succ hline, hm]
    exact Lexis.level?_after_long_of_not_mem hopen hclosed
  · rw [hvisible h, Lexis.level?_after_of_not_mem rfl (Lexis.open_not_mem_muted hopen)]

theorem agree_of_goesOn {source' : List (List Char)} (h : ∀ n, Agree source n)
    (hgo : GoesOn source source') (n : Nat) : Agree source' n := by
  obtain ⟨lead, rest, rfl, hlead, hrest⟩ := hgo
  induction n using Nat.strong_induction_on with
  | h n ih =>
    by_cases hn : n ≤ lead.length
    · have htake : (lead ++ rest).take n = source.take n := by
        rw [List.take_append_of_le_length hn, List.prefix_iff_eq_take.1 hlead, List.take_take,
          Nat.min_eq_left hn]
      have hsame := h n
      rwa [Agree, readerAt, lexisAt, ← htake] at hsame
    · obtain ⟨k, rfl⟩ := Nat.exists_eq_succ_of_ne_zero (n := n) (by omega)
      have hbefore : ∀ i ≤ k, Agree (lead ++ rest) i := fun i hi => ih i (Nat.lt_succ_of_le hi)
      cases hline : (lead ++ rest)[k]? with
      | some line =>
        have hmem : line ∈ rest := by
          rw [List.getElem?_append_right (by omega)] at hline
          exact List.mem_of_getElem? hline
        exact (agree_succ_iff hline hbefore).2 (legibleAt_of_not_mem hline (hrest line hmem))
      | none => exact agree_succ_of_none hline (hbefore k (Nat.le_refl k))

/-! ### Telling the accounts apart -/

theorem exists_text {source : List (List Char)} (h : ∀ l ∈ source, '\n' ∉ l) :
    ∃ text : String, lines text.toList = source := by
  refine ⟨String.ofList ((source.map (· ++ ['\r'])).flatMap (· ++ ['\n'])), ?_⟩
  have hended : ∀ l ∈ source.map (· ++ ['\r']), '\n' ∉ l := by
    intro l hl
    obtain ⟨m, hm, rfl⟩ := List.mem_map.1 hl
    simpa using h m hm
  have hreturn (l : List Char) : dropReturn (l ++ ['\r']) = l := by
    rw [dropReturn_append (by simp)]
    exact List.append_nil l
  rw [String.toList_ofList, lines_flatMap hended, List.map_map]
  exact (List.map_congr_left fun l _ => hreturn l).trans (List.map_id source)

/-- A line that declares a function. -/
def declaringLine : List Char := "function f() end".toList

/-- A faithful reading tells whether the line at the end is hidden. -/
theorem Faithful.level?_eq_none_iff {lead : List (List Char)} (h : Faithful text fileModule)
    (hlines : lines text.toList = lead ++ [declaringLine]) :
    (lead.foldl Reader.next .between).level? = none ↔ (lead.foldl Lexis.after .code).level? = none := by
  have hparse : Declaration.parse? declaringLine = some (.function ['f'] [] false) := by decide +kernel
  have hline : (lines text.toList)[lead.length]? = some declaringLine := by
    rw [hlines, List.getElem?_concat_length]
  have htake : (lines text.toList).take lead.length = lead := by
    rw [hlines, List.take_left]
  have hvisible : ¬ Hidden (lines text.toList) lead.length ↔
      (lead.foldl Lexis.after .code).level? = none := by
    rw [Hidden, not_not, lexisAt, htake]
  have hacts : (∃ description,
        Act.declare (.function ['f'] [] false) description (lead.length, declaringLine) ∈
          textActs text) ↔
      (lead.foldl Reader.next .between).level? = none := by
    rw [exists_mem_textActs_iff, readerAt, htake]
    exact ⟨fun h => h.2.2, fun hlevel => ⟨hline, hparse, hlevel⟩⟩
  have hmerged : ¬ Merged text fileModule lead.length (.function ['f'] [] false) := by
    rintro ⟨⟨target, isLocal, hd, -⟩, -⟩
    cases hd
  constructor
  · intro hlevel
    obtain ⟨description, hact⟩ := hacts.2 hlevel
    obtain ⟨k, -, horigin⟩ := (mem_textOrigins_or_merged hact fileModule).resolve_right hmerged
    exact hvisible.1 (h.hidden _ _ _ _ horigin)
  · intro hlevel
    obtain ⟨k, description, -, horigin⟩ :=
      (h.visible _ _ _ hline (hvisible.2 hlevel) hparse).resolve_right hmerged
    exact hacts.1 ⟨description, mem_textActs_of_mem_textOrigins horigin⟩

theorem agree_of_faithful (h : ∀ text' : String, GoesOn (lines text.toList) (lines text'.toList) →
    Faithful text' fileModule) (n : Nat) : Agree (lines text.toList) n := by
  -- Whatever comes after a beginning of the text, a last declaration tells whether it is hidden.
  have hprobe (rest : List (List Char)) (hrest : ∀ l ∈ rest, '\n' ∉ l ∧ '[' ∉ l) :
      (((lines text.toList).take n ++ rest).foldl Reader.next .between).level? = none ↔
        (((lines text.toList).take n ++ rest).foldl Lexis.after .code).level? = none := by
    have hlines : ∀ l ∈ (lines text.toList).take n ++ (rest ++ [declaringLine]), '\n' ∉ l := by
      intro l hl
      rw [List.mem_append, List.mem_append, List.mem_singleton] at hl
      obtain hl | hl | rfl := hl
      · exact (mem_lines (List.mem_of_mem_take hl)).1
      · exact (hrest l hl).1
      · decide
    obtain ⟨text', htext⟩ := exists_text hlines
    refine (h text' ⟨_, _, htext, List.take_prefix n _, fun l hl => ?_⟩).level?_eq_none_iff
      (by rw [htext, List.append_assoc])
    rw [List.mem_append, List.mem_singleton] at hl
    obtain hl | rfl := hl
    · exact (hrest l hl).2
    · decide
  have hnow := hprobe [] (by simp)
  rw [List.append_nil] at hnow
  show (readerAt (lines text.toList) n).level? = (lexisAt (lines text.toList) n).level?
  cases hlexis : (lexisAt (lines text.toList) n).level? with
  | none => exact hnow.2 hlexis
  | some m =>
    cases hreader : (readerAt (lines text.toList) n).level? with
    | none => rw [← hlexis, ← hnow.1 hreader, lexisAt]
    | some k =>
      -- A bracket that closes the one and not the other tells two levels apart.
      by_contra hne
      have hlevel : m ≠ k := fun hmk => hne (by rw [hmk])
      have hclosed : contains (Lexis.closer k) (Lexis.closer k) = true := by
        rw [Lexis.contains_closer, Lexis.afterCloser_closer_self]
        rfl
      have hclose := hprobe [Lexis.closer k] (by simp [Lexis.closer, closingBracket])
      rw [List.foldl_append, List.foldl_append, ← readerAt, ← lexisAt, eq_within hreader,
        lexisAt_eq_long hlexis, List.foldl_cons, List.foldl_nil, List.foldl_cons, List.foldl_nil,
        Reader.next, if_pos hclosed, Lexis.after_long, Lexis.afterCloser_closer hlevel] at hclose
      cases hclose.1 rfl

/-- A text, with whatever comes after a beginning of it and opens no bracket, has its declarations taken
up from just those lines that are not hidden if and only if the reader can tell after each of its lines
what is left open. -/
theorem faithful_iff_legible (text fileModule : String) :
    (∀ text' : String, GoesOn (lines text.toList) (lines text'.toList) → Faithful text' fileModule) ↔
      Legible (lines text.toList) := by
  rw [← agree_iff_legible]
  exact ⟨agree_of_faithful, fun h text' hgo => faithful_of_agree (agree_of_goesOn h hgo) fileModule⟩

end LuaLens
