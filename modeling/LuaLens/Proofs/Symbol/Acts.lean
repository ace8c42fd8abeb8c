import LuaLens.Proofs.Symbol

/-!
What the reader of a source does, line by line. Reading a source comes down to a list of acts, each of
which declares at most one symbol on one line; which acts there are does not depend on the symbols.
So what is said of all symbols of a source is proved of its acts, and of one act.
-/

namespace LuaLens

open Text Scan

/-! ### How declarations begin -/

namespace Text.Scan

variable {α β : Type} {P : Char → Prop}

/-- Whether all that a scanner reads begins with a character of a kind. -/
def Begins (scan : Scan α) (P : Char → Prop) : Prop :=
  ∀ s a rest, scan s = some (a, rest) → ∃ c t, s = c :: t ∧ P c

theorem Begins.bind {scan : Scan α} (h : scan.Begins P) (f : α → Scan β) : (scan >>= f).Begins P := by
  intro s b rest hb
  obtain ⟨a, s', ha, -⟩ := bind_eq_some_iff.1 hb
  exact h s a s' ha

theorem Begins.read? {scan : Scan α} (h : scan.Begins P) {s : List Char} {a : α}
    (ha : scan.read? s = some a) : ∃ c t, s = c :: t ∧ P c := by
  obtain ⟨rest, ha⟩ := read?_eq_some_iff.1 ha
  exact h s a rest ha

theorem Begins.read?_or {scan scan' : Scan α} (h : scan.Begins P) (h' : scan'.Begins P)
    {s : List Char} {a : α} (ha : (scan.read? s <|> scan'.read? s) = some a) :
    ∃ c t, s = c :: t ∧ P c :=
  (of_read?_or ha).elim h.read? h'.read?

theorem begins_many1 (p : Char → Bool) : (many1 p).Begins fun c => p c = true := by
  intro s a rest h
  simp only [many1, many, Bind.bind, StateT.bind, Option.bind_some] at h
  cases s with
  | nil => cases h
  | cons c s =>
    refine ⟨c, s, rfl, ?_⟩
    by_contra hc
    rw [List.takeWhile_cons_of_neg hc] at h
    cases h

theorem begins_word {text : String} {c : Char} {w : List Char} (hw : text.toList = c :: w) (hc : P c) :
    (word text).Begins P := by
  intro s a rest h
  rw [word_eq_some_iff, hw] at h
  exact ⟨c, w ++ rest, h.symm, hc⟩

end Text.Scan

namespace Declaration

/-- What a line declares is read by one of seven patterns from its trimmed text. -/
theorem parse?_cases {line : List Char} {d : Declaration} (h : parse? line = some d) :
    (∃ r, (localFunction.read? (trim line) <|> localFunctionValue.read? (trim line)) = some r ∧
      d = .function r.1 (normalizeParams r.2) true) ∨
    (∃ r, (functionStatement.read? (trim line) <|> functionValue.read? (trim line)) = some r ∧
      d = .function r.1 (normalizeParams r.2) false) ∨
    (∃ target, localTable.read? (trim line) = some target ∧ d = .table target true) ∨
    (∃ target, tableValue.read? (trim line) = some target ∧ d = .table target false) ∨
    ∃ target, fieldValue.read? (trim line) = some target ∧ d = .field target := by
  rw [parse?] at h
  split at h
  · rename_i target params hfound
    split_ifs at hfound
    exact .inl ⟨(target, params), hfound, (Option.some.inj h).symm⟩
  split at h
  · rename_i target params hfound
    split_ifs at h
    exact .inr (.inl ⟨(target, params), hfound, (Option.some.inj h).symm⟩)
  split at h
  · rename_i target hfound
    split_ifs at hfound
    exact .inr (.inr (.inl ⟨target, hfound, (Option.some.inj h).symm⟩))
  split at h
  · cases h
  split at h
  · rename_i target hfound
    split_ifs at h
    exact .inr (.inr (.inr (.inl ⟨target, hfound, (Option.some.inj h).symm⟩)))
  split at h
  · cases h
  split at h
  · rename_i target hfound
    split_ifs at h
    exact .inr (.inr (.inr (.inr ⟨target, hfound, (Option.some.inj h).symm⟩)))
  · cases h

/-- A declaration begins with a character of a target. -/
theorem begins_of_parse? {line : List Char} {d : Declaration} (h : parse? line = some d) :
    ∃ c t, trim line = c :: t ∧ isTarget c = true := by
  have hlocal : (word "local").Begins (isTarget · = true) := begins_word rfl (by decide)
  have hfunction : (word "function").Begins (isTarget · = true) := begins_word rfl (by decide)
  have htarget : (many1 isTarget).Begins (isTarget · = true) := begins_many1 isTarget
  have hdotted : (many1 isDotted).Begins (isTarget · = true) := by
    intro s a rest hs
    obtain ⟨c, t, rfl, hc⟩ := begins_many1 isDotted s a rest hs
    exact ⟨c, t, rfl, isTarget_of_isDotted hc⟩
  obtain ⟨r, hr, -⟩ | ⟨r, hr, -⟩ | ⟨t, ht, -⟩ | ⟨t, ht, -⟩ | ⟨t, ht, -⟩ := parse?_cases h
  · exact (hlocal.bind _).read?_or (hlocal.bind _) hr
  · exact (hfunction.bind _).read?_or (htarget.bind _) hr
  · exact (hlocal.bind _).read? ht
  · exact (hdotted.bind _).read? ht
  · exact (hdotted.bind _).read? ht

theorem isCodeLine_of_parse? {line : List Char} {d : Declaration} (h : parse? line = some d) :
    isCodeLine line = true := by
  obtain ⟨c, t, ht, hc⟩ := begins_of_parse? h
  have hdash : c ≠ '-' := by
    rintro rfl
    revert hc
    decide
  simp [isCodeLine, ht, List.isPrefixOf, hdash.symm]

end Declaration

namespace Extraction

theorem isCodeLine_iff {line : Line} :
    isCodeLine line.2 = true ↔ trim line.2 ≠ [] ∧ isComment line = false := by
  rw [isCodeLine, Bool.and_eq_true, Bool.not_eq_true', Bool.not_eq_true', isComment,
    List.isEmpty_eq_false_iff]

/-! ### Acts -/

/-- One act of the reader, on a line. -/
inductive Act
  /-- Takes up what the line declares. -/
  | declare (d : Declaration) (description : List (List Char)) (line : Line)
  /-- Takes up what a doc block names, for the line that it belongs to. -/
  | declareSelf (d : SelfDoc) (description : List (List Char)) (line : Line)
deriving DecidableEq

def Act.line : Act → Line
  | .declare _ _ line | .declareSelf _ _ line => line

def perform (x : Extraction) : Act → Extraction
  | .declare d description line => x.declare d description line
  | .declareSelf d description line => x.declareSelf d description line

/-- The act of a line of code, if it declares something. -/
def lineActs (description : List (List Char)) (line : Line) : List Act :=
  match Declaration.parse? line.2 with
  | some d => [.declare d description line]
  | none => []

/-- The text of the doc block that starts with a line. -/
def docBlock (line : Line) (rest : List Line) : List (List Char) :=
  (line :: rest.takeWhile isComment).map fun l => commentText l.2

/-- The line that a doc block with a tag of its own belongs to: the last line of code, else the next,
else its own first line. -/
def docLine (lastCode : Option Line) (line : Line) (rest : List Line) : Line :=
  (lastCode <|> (rest.dropWhile isComment).find? (isCodeLine ·.2)).getD line

/-- The acts of the reader on a list of lines, from top to bottom. -/
def acts (pending : List (List Char)) (lastCode : Option Line) : List Line → List Act
  | [] => []
  | line :: rest =>
    match unclosedBracket? line.2 with
    | some closing =>
      if isComment line then acts [] lastCode (afterBracket closing rest)
      else lineActs pending line ++ acts [] (some line) (afterBracket closing rest)
    | none =>
      if "---".toList.isPrefixOf (trim line.2) then
        match selfDoc? (docBlock line rest) with
        | some (d, description) =>
          .declareSelf d description (docLine lastCode line rest) ::
            acts [] lastCode (rest.dropWhile isComment)
        | none => acts (docBlock line rest) lastCode (rest.dropWhile isComment)
      else if isCodeLine line.2 then lineActs pending line ++ acts [] (some line) rest
      else acts pending lastCode rest
termination_by lines => lines.length
decreasing_by
  all_goals
    first
    | exact Nat.lt_succ_of_le (afterBracket_length closing rest)
    | exact Nat.lt_succ_of_le (afterComments_length rest)
    | exact Nat.lt_succ_self rest.length

variable {x : Extraction}

theorem foldl_lineActs (description : List (List Char)) (line : Line) :
    (lineActs description line).foldl perform x = x.declareLine description line := by
  rw [lineActs, declareLine]
  cases Declaration.parse? line.2 <;> rfl

theorem run_eq_foldl (x : Extraction) (pending : List (List Char)) (lastCode : Option Line)
    (lines : List Line) :
    x.run pending lastCode lines = (acts pending lastCode lines).foldl perform x := by
  fun_induction Extraction.run x pending lastCode lines with
  | case1 => rw [acts, List.foldl_nil]
  | case2 x pending lastCode line rest closing hopen hcomment ih =>
    rw [acts, hopen, ih]
    simp only [hcomment, if_true]
  | case3 x pending lastCode line rest closing hopen hcomment ih =>
    rw [acts, hopen, ih]
    simp only [hcomment, Bool.false_eq_true, if_false]
    rw [List.foldl_append, foldl_lineActs]
  | case4 x pending lastCode line rest hopen hdoc block d description hd locator ih =>
    have hself : selfDoc? (docBlock line rest) = some (d, description) := hd
    rw [acts, hopen, ih]
    simp only [hdoc, if_true, hself, List.foldl_cons]
    rfl
  | case5 x pending lastCode line rest hopen hdoc block hd ih =>
    have hself : selfDoc? (docBlock line rest) = none := hd
    rw [acts, hopen, ih]
    simp only [hdoc, if_true, hself]
    rfl
  | case6 x pending lastCode line rest hopen hdoc hcode ih =>
    rw [acts, hopen, ih]
    simp only [hdoc, hcode, Bool.false_eq_true, if_false, if_true]
    rw [List.foldl_append, foldl_lineActs]
  | case7 x pending lastCode line rest hopen hdoc hcode ih =>
    rw [acts, hopen, ih]
    simp only [hdoc, hcode, Bool.false_eq_true, if_false]

/-- Whether an act takes up what its line declares, or a name that can stand in a doc block. -/
def Act.Sound : Act → Prop
  | .declare d _ line => Declaration.parse? line.2 = some d
  | .declareSelf d _ _ => Declaration.IsTarget d.name

theorem sound_of_mem_lineActs {description : List (List Char)} {line : Line} {a : Act}
    (h : a ∈ lineActs description line) : a.line = line ∧ a.Sound := by
  rw [lineActs] at h
  split at h
  · rename_i d hd
    obtain rfl := List.mem_singleton.1 h
    exact ⟨rfl, hd⟩
  · cases h

theorem sound_of_mem_acts {pending : List (List Char)} {lastCode : Option Line} {lines : List Line}
    {a : Act} (h : a ∈ acts pending lastCode lines) : a.Sound := by
  fun_induction acts pending lastCode lines with
  | case1 => cases h
  | case2 pending lastCode line rest closing hopen hcomment ih => exact ih h
  | case3 pending lastCode line rest closing hopen hcomment ih =>
    exact (List.mem_append.1 h).elim (fun h => (sound_of_mem_lineActs h).2) ih
  | case4 pending lastCode line rest hopen hdoc d description hself ih =>
    obtain rfl | h := List.mem_cons.1 h
    · exact isTarget_of_selfDoc? hself
    · exact ih h
  | case5 pending lastCode line rest hopen hdoc hself ih => exact ih h
  | case6 pending lastCode line rest hopen hdoc hcode ih =>
    exact (List.mem_append.1 h).elim (fun h => (sound_of_mem_lineActs h).2) ih
  | case7 pending lastCode line rest hopen hdoc hcode ih => exact ih h

/-! ### What an act adds -/

/-- What a symbol is called: its name and owner, its kind, and the first line of its documentation. -/
structure Naming where
  name : String
  owner : String
  kind : Symbol.Kind
  header : String

namespace Naming

def ofCall (q : QualifiedName) (params : List Char) : Naming :=
  ⟨q.name, q.owner, .function, callHeader q (String.ofList params)⟩

def ofPlain (kind : Symbol.Kind) (q : QualifiedName) : Naming :=
  ⟨q.name, q.owner, kind, qualified q.owner q.name⟩

def ofModule (name : String) : Naming := ⟨name, "", .module, name⟩

def ofLocalFunction (name : String) (params : List Char) : Naming :=
  ⟨name, "", .localFunction, "local " ++ name ++ "(" ++ String.ofList params ++ ")"⟩

def ofLocalTable (name : String) : Naming := ⟨name, "", .localTable, "local " ++ name⟩

/-- The symbol of that name on a line. -/
def symbol (k : Naming) (description : List (List Char)) (line : Line) : Symbol where
  name := k.name
  owner := k.owner
  kind := k.kind
  locator := String.ofList (trim line.2)
  line := line.1
  doc := String.ofList (trimEnd (k.header.toList ++ description.flatMap ('\n' :: ·)))

end Naming

/-- The parameters that a doc block names. -/
def paramTags (description : List (List Char)) : List (List Char) :=
  description.filterMap paramTag.read?

/-- What the symbol of a declaration is called. A second declaration of the module adds no symbol. -/
def declarationNaming (x : Extraction) : Declaration → Option Naming
  | .function target params true => some (.ofLocalFunction (String.ofList target) params)
  | .function target params false => some (.ofCall (x.qualify target) params)
  | .table target isLocal =>
    if x.returned == some (String.ofList target) then
      if x.symbols.any fun s => s.kind == .module && s.name == x.module then none
      else some (.ofModule x.module)
    else if isLocal then some (.ofLocalTable (String.ofList target))
    else some (.ofPlain .table (x.qualify target))
  | .field target => some (.ofPlain .field (x.qualify target))

/-- What the symbol of a doc block is called. A field without an owner belongs to the last table. -/
def selfNaming (x : Extraction) (d : SelfDoc) (params : List (List Char)) : Naming :=
  match d.tag with
  | .module => .ofModule (String.ofList d.name)
  | .function => .ofCall (x.qualify d.name) (join [',', ' '] params)
  | .table => .ofPlain .table (x.qualify d.name)
  | .field =>
    .ofPlain .field
      (if d.name.any fun c => c == '.' || c == ':' then x.qualify d.name
      else
        { owner := x.container.getD x.module, name := String.ofList d.name, isMethod := false })

def naming (x : Extraction) : Act → Option Naming
  | .declare d _ _ => x.declarationNaming d
  | .declareSelf d description _ => some (x.selfNaming d (paramTags description))

/-- The lines of text under the header. The words after a field's name are the first of them. -/
def Act.description : Act → List (List Char)
  | .declare _ description _ => description
  | .declareSelf d description _ =>
    if d.tag = .field ∧ d.words.isEmpty = false then d.words :: description else description

def added (x : Extraction) (a : Act) : Option Symbol :=
  (x.naming a).map (·.symbol a.description a.line)

/-- An act pushes one symbol, or does nothing. -/
theorem perform_eq (x : Extraction) (a : Act) :
    x.perform a = match x.naming a with
      | some k => x.push k.name k.owner k.kind k.header a.description a.line
      | none => x := by
  cases a with
  | declare d description line =>
    cases d with
    | function target params isLocal => cases isLocal <;> rfl
    | table target isLocal =>
      simp only [perform, naming, declare, declarationNaming]
      split_ifs <;> rfl
    | field target => rfl
  | declareSelf d description line =>
    obtain ⟨tag, name, words⟩ := d
    cases tag with
    | module => rfl
    | function => rfl
    | table => rfl
    | field =>
      simp only [perform, naming, declareSelf, selfNaming, Act.description]
      cases words <;> rfl

theorem perform_module (x : Extraction) (a : Act) : (x.perform a).module = x.module := by
  rw [perform_eq]
  split <;> rfl

theorem perform_returned (x : Extraction) (a : Act) : (x.perform a).returned = x.returned := by
  rw [perform_eq]
  split <;> rfl

theorem perform_symbols (x : Extraction) (a : Act) :
    (x.perform a).symbols = x.symbols ++ (x.added a).toList := by
  rw [perform_eq, added]
  cases x.naming a with
  | none => exact (List.append_nil _).symm
  | some k => rfl

/-- The symbols that acts add, each with its act. -/
def origins (x : Extraction) : List Act → List (Act × Symbol)
  | [] => []
  | a :: as => ((x.added a).map (a, ·)).toList ++ origins (x.perform a) as

theorem symbols_foldl (x : Extraction) (as : List Act) :
    (as.foldl perform x).symbols = x.symbols ++ (origins x as).map (·.2) := by
  induction as generalizing x with
  | nil => rw [List.foldl_nil, origins, List.map_nil, List.append_nil]
  | cons a as ih =>
    rw [List.foldl_cons, ih, perform_symbols, origins, List.map_append, List.append_assoc]
    cases x.added a <;> rfl

theorem foldl_module (x : Extraction) (as : List Act) : (as.foldl perform x).module = x.module := by
  induction as generalizing x with
  | nil => rfl
  | cons a as ih => rw [List.foldl_cons, ih, perform_module]

theorem foldl_returned (x : Extraction) (as : List Act) :
    (as.foldl perform x).returned = x.returned := by
  induction as generalizing x with
  | nil => rfl
  | cons a as ih => rw [List.foldl_cons, ih, perform_returned]

/-- Each symbol is on the line of its act, and there is at most one to an act. -/
theorem origins_sublist (x : Extraction) (as : List Act) :
    ((origins x as).map (·.1)).Sublist as := by
  induction as generalizing x with
  | nil => exact List.Sublist.refl []
  | cons a as ih =>
    rw [origins, List.map_append]
    cases x.added a with
    | none => exact (ih _).cons a
    | some s => exact (ih _).cons_cons a

theorem place_of_mem_origins {as : List Act} {p : Act × Symbol} (h : p ∈ origins x as) :
    p.2.line = p.1.line.1 ∧ p.2.locator = String.ofList (trim p.1.line.2) := by
  induction as generalizing x with
  | nil => cases h
  | cons a as ih =>
    rw [origins, List.mem_append] at h
    obtain h | h := h
    · rw [Option.mem_toList, added, Option.map_map, Option.map_eq_some_iff] at h
      obtain ⟨k, -, rfl⟩ := h
      exact ⟨rfl, rfl⟩
    · exact ih h

end Extraction

/-! ### The acts of a text -/

/-- What is known of a text before its first line is read. -/
def Extraction.start (text fileModule : String) : Extraction :=
  let source := lines text.toList
  let module := (source.findSome? fun l => moduleTag.read? (trim l)).elim fileModule String.ofList
  let returned := (source.reverse.find? isCodeLine).bind fun l => returnStatement.read? (trim l)
  { module, returned := returned.map String.ofList }

/-- Lines with their numbers. -/
def numbered (source : List (List Char)) : List Extraction.Line :=
  source.zipIdx.map fun (l, n) => (n, l)

def textActs (text : String) : List Extraction.Act :=
  Extraction.acts [] none (numbered (lines text.toList))

/-- The symbols of a text, each with the act that added it. -/
def textOrigins (text fileModule : String) : List (Extraction.Act × Symbol) :=
  Extraction.origins (Extraction.start text fileModule) (textActs text)

theorem extractSymbols_eq_foldl (text fileModule : String) :
    extractSymbols text fileModule =
      ((textActs text).foldl Extraction.perform (Extraction.start text fileModule)).symbols := by
  rw [textActs, ← Extraction.run_eq_foldl]
  rfl

theorem extractSymbols_eq_origins (text fileModule : String) :
    extractSymbols text fileModule = (textOrigins text fileModule).map (·.2) := by
  rw [extractSymbols_eq_foldl, Extraction.symbols_foldl]
  rfl

/-- The name of the module is that of the file, or one that a tag gives. -/
theorem module_start (text fileModule : String) :
    (Extraction.start text fileModule).module = fileModule ∨
      Declaration.IsTarget (Extraction.start text fileModule).module.toList := by
  rw [Extraction.start]
  generalize hfound : List.findSome? _ _ = found
  cases found with
  | none => exact .inl rfl
  | some t =>
    obtain ⟨l, -, hl⟩ := List.exists_of_findSome?_eq_some hfound
    refine .inr ?_
    rw [Option.elim_some, String.toList_ofList]
    exact yields_moduleTag.read? hl

end LuaLens
