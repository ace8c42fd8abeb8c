import LuaLens.Proofs.Symbol.Acts
import LuaLens.Proofs.Text.Trim
import LuaLens.Query.Lookup

/-!
The first line of a symbol's documentation and its structured fields. The line is put together from
the fields in five ways and taken apart again by searching it; both say the same name, and agree on
what is local and what can be called.
-/

namespace LuaLens

open Text Scan Declaration

/-! ### The parameters of a declaration -/

namespace Text.Scan

variable {α β : Type} {P : α → Prop} {Q : Char → Prop}

/-- Whether a scanner reads such values from a text of characters of a kind, and leaves such a text. -/
def Keeps (scan : Scan α) (Q : Char → Prop) (P : α → Prop) : Prop :=
  ∀ s a rest, (∀ c ∈ s, Q c) → scan s = some (a, rest) → P a ∧ ∀ c ∈ rest, Q c

theorem Keeps.bind {scan : Scan α} {f : α → Scan β} {R : β → Prop} (h : scan.Keeps Q P)
    (hf : ∀ a, P a → (f a).Keeps Q R) : (scan >>= f).Keeps Q R := by
  intro s b rest hs hb
  obtain ⟨a, s', ha, hb⟩ := bind_eq_some_iff.1 hb
  obtain ⟨hp, hs'⟩ := h s a s' hs ha
  exact hf a hp s' b rest hs' hb

theorem Keeps.pure {a : α} (h : P a) : (Pure.pure a : Scan α).Keeps Q P := by
  intro s b rest hs hb
  obtain ⟨rfl, rfl⟩ := pure_eq_some_iff.1 hb
  exact ⟨h, hs⟩

theorem Keeps.read? {scan : Scan α} (h : scan.Keeps Q P) {s : List Char} {a : α} (hs : ∀ c ∈ s, Q c)
    (ha : scan.read? s = some a) : P a := by
  obtain ⟨rest, ha⟩ := read?_eq_some_iff.1 ha
  exact (h s a rest hs ha).1

theorem Keeps.read?_or {scan scan' : Scan α} (h : scan.Keeps Q P) (h' : scan'.Keeps Q P)
    {s : List Char} {a : α} (hs : ∀ c ∈ s, Q c) (ha : (scan.read? s <|> scan'.read? s) = some a) :
    P a :=
  (of_read?_or ha).elim (h.read? hs) (h'.read? hs)

theorem keeps_many (p : Char → Bool) : (many p).Keeps Q fun t => ∀ c ∈ t, Q c := by
  intro s t rest hs h
  obtain ⟨rfl, rfl⟩ := many_eq_some_iff.1 h
  exact ⟨fun c hc => hs c ((List.takeWhile_sublist p).mem hc),
    fun c hc => hs c ((List.dropWhile_sublist p).mem hc)⟩

theorem keeps_many1 (p : Char → Bool) : (many1 p).Keeps Q fun _ => True := by
  refine (keeps_many p).bind fun t _ => ?_
  split
  · intro s a rest _ h
    cases h
  · exact .pure trivial

theorem keeps_word (text : String) : (word text).Keeps Q fun _ => True := by
  intro s a rest hs h
  rw [word_eq_some_iff] at h
  exact ⟨trivial, fun c hc => hs c (h ▸ List.mem_append_right _ hc)⟩

theorem keeps_blanks : blanks.Keeps Q fun _ => True := (keeps_many _).bind fun _ _ => .pure trivial

theorem keeps_blanks1 : blanks1.Keeps Q fun _ => True := (keeps_many1 _).bind fun _ _ => .pure trivial

theorem keeps_name : name.Keeps Q fun _ => True := by
  have hone : (one isNameStart).Keeps Q fun _ => True := by
    intro s c rest hs h
    obtain ⟨rfl, -⟩ := one_eq_some_iff.1 h
    exact ⟨trivial, fun e he => hs e (List.mem_cons_of_mem _ he)⟩
  exact hone.bind fun _ _ => (keeps_many _).bind fun _ _ => .pure trivial

end Text.Scan

namespace Declaration

variable {Q : Char → Prop}

theorem keeps_paramList : paramList.Keeps Q fun t => ∀ c ∈ t, Q c :=
  (keeps_word _).bind fun _ _ => (keeps_many _).bind fun _ ht => (keeps_word _).bind fun _ _ => .pure ht

theorem keeps_localFunction : localFunction.Keeps Q fun r => ∀ c ∈ r.2, Q c :=
  (keeps_word _).bind fun _ _ => keeps_blanks1.bind fun _ _ => (keeps_word _).bind fun _ _ =>
    keeps_blanks1.bind fun _ _ => keeps_name.bind fun _ _ => keeps_blanks.bind fun _ _ =>
      keeps_paramList.bind fun _ ht => .pure ht

theorem keeps_localFunctionValue : localFunctionValue.Keeps Q fun r => ∀ c ∈ r.2, Q c :=
  (keeps_word _).bind fun _ _ => keeps_blanks1.bind fun _ _ => keeps_name.bind fun _ _ =>
    keeps_blanks.bind fun _ _ => (keeps_word _).bind fun _ _ => keeps_blanks.bind fun _ _ =>
      (keeps_word _).bind fun _ _ => keeps_blanks.bind fun _ _ =>
        keeps_paramList.bind fun _ ht => .pure ht

theorem keeps_functionStatement : functionStatement.Keeps Q fun r => ∀ c ∈ r.2, Q c :=
  (keeps_word _).bind fun _ _ => keeps_blanks1.bind fun _ _ => (keeps_many1 _).bind fun _ _ =>
    keeps_blanks.bind fun _ _ => keeps_paramList.bind fun _ ht => .pure ht

theorem keeps_functionValue : functionValue.Keeps Q fun r => ∀ c ∈ r.2, Q c :=
  (keeps_many1 _).bind fun _ _ => keeps_blanks.bind fun _ _ => (keeps_word _).bind fun _ _ =>
    keeps_blanks.bind fun _ _ => (keeps_word _).bind fun _ _ => keeps_blanks.bind fun _ _ =>
      keeps_paramList.bind fun _ ht => .pure ht

theorem mem_normalizeParams {params : List Char} {c : Char} (h : c ∈ normalizeParams params) :
    c = ',' ∨ c = ' ' ∨ c ∈ params := by
  obtain h | ⟨p, hp, hc⟩ := mem_of_mem_join h
  · obtain rfl | rfl : c = ',' ∨ c = ' ' := by simpa using h
    · exact .inl rfl
    · exact .inr (.inl rfl)
  · obtain ⟨piece, hpiece, rfl⟩ := List.mem_map.1 (List.mem_filter.1 hp).1
    exact .inr (.inr ((mem_splitAll hpiece).2 c (mem_of_mem_trim hc)))

/-- The parameters of a declaration are on its line. -/
theorem feed_not_mem_params {line target params : List Char} {isLocal : Bool} (hl : '\n' ∉ line)
    (h : parse? line = some (.function target params isLocal)) : '\n' ∉ params := by
  have htrim : ∀ c ∈ trim line, c ≠ '\n' := by
    rintro c hc rfl
    exact hl (mem_of_mem_trim hc)
  have hnormal {r : List Char × List Char} (hr : ∀ c ∈ r.2, c ≠ '\n') :
      '\n' ∉ normalizeParams r.2 := by
    intro hmem
    obtain hc | hc | hc := mem_normalizeParams hmem
    · revert hc
      decide
    · revert hc
      decide
    · exact hr _ hc rfl
  obtain ⟨r, hr, hd⟩ | ⟨r, hr, hd⟩ | ⟨t, -, hd⟩ | ⟨t, -, hd⟩ | ⟨t, -, hd⟩ := parse?_cases h
  · obtain ⟨-, rfl, -⟩ := Declaration.function.inj hd
    exact hnormal (keeps_localFunction.read?_or keeps_localFunctionValue htrim hr)
  · obtain ⟨-, rfl, -⟩ := Declaration.function.inj hd
    exact hnormal (keeps_functionStatement.read?_or keeps_functionValue htrim hr)
  · cases hd
  · cases hd
  · cases hd

end Declaration

/-! ### The parts of a header -/

namespace Extraction

open Query (dotted)

/-- What is in front of the name of a local. -/
def localLead (kind : Symbol.Kind) : List Char := if kind.isLocal then Api.localMark else []

/-- How a header is put together: the mark of a local, the name, and the parameters of what can be
called. The name may have a colon where the fields have a dot. -/
structure Naming.Headed (k : Naming) (title tail : List Char) : Prop where
  header : k.header.toList = localLead k.kind ++ (title ++ tail)
  target : IsTarget title
  same : dotted title = dotted (qualified k.owner k.name).toList
  called : k.kind.isCallable = true → ∃ params, '\n' ∉ params ∧ tail = '(' :: (params ++ [')'])
  plain : k.kind.isCallable = false → tail = []
  unowned : k.kind.isLocal = true → k.owner = "" ∧ title ≠ []

namespace Naming

theorem headed_ofCall {q : QualifiedName} {params : List Char} (hn : IsTarget q.name.toList)
    (ho : IsTarget q.owner.toList) (hp : '\n' ∉ params) :
    ∃ title tail, (ofCall q params).Headed title tail := by
  have htail : (ofCall q params).kind.isCallable = true → ∃ p, '\n' ∉ p ∧
      '(' :: (params ++ [')']) = '(' :: (p ++ [')']) := fun _ => ⟨params, hp, rfl⟩
  cases hempty : q.owner.isEmpty with
  | true =>
    refine ⟨q.name.toList, '(' :: (params ++ [')']), ?_, hn, ?_, htail, nofun, nofun⟩
    · simp [ofCall, callHeader, hempty, localLead, Symbol.Kind.isLocal]
    · simp [ofCall, qualified, hempty]
  | false =>
    refine ⟨q.owner.toList ++ (if q.isMethod then ':' else '.') :: q.name.toList,
      '(' :: (params ++ [')']), ?_, ?_, ?_, htail, nofun, nofun⟩
    · cases hmethod : q.isMethod <;>
        simp [ofCall, callHeader, hempty, hmethod, localLead, Symbol.Kind.isLocal]
    · intro c hc
      obtain hc | hc := List.mem_append.1 hc
      · exact ho c hc
      · obtain rfl | hc := List.mem_cons.1 hc
        · cases q.isMethod <;> decide
        · exact hn c hc
    · cases hmethod : q.isMethod <;> simp [ofCall, qualified, hempty, dotted]

theorem headed_ofPlain {kind : Symbol.Kind} {q : QualifiedName} (hl : kind.isLocal = false)
    (hc : kind.isCallable = false) (hn : IsTarget q.name.toList) (ho : IsTarget q.owner.toList) :
    ∃ title tail, (ofPlain kind q).Headed title tail := by
  refine ⟨(qualified q.owner q.name).toList, [], ?_, ?_, rfl, ?_, fun _ => rfl, ?_⟩
  · simp [ofPlain, localLead, hl]
  · exact forall_qualified (by decide) ho hn
  · intro h
    rw [show kind.isCallable = true from h] at hc
    cases hc
  · intro h
    rw [show kind.isLocal = true from h] at hl
    cases hl

theorem headed_ofModule {name : String} (hn : IsTarget name.toList) :
    ∃ title tail, (ofModule name).Headed title tail :=
  @headed_ofPlain .module { owner := "", name, isMethod := false } rfl rfl hn (by simp [IsTarget])

theorem headed_ofLocalFunction {name : String} {params : List Char} (hn : IsTarget name.toList)
    (hne : name.toList ≠ []) (hp : '\n' ∉ params) :
    ∃ title tail, (ofLocalFunction name params).Headed title tail := by
  refine ⟨name.toList, '(' :: (params ++ [')']), ?_, hn, rfl, fun _ => ⟨params, hp, rfl⟩, nofun,
    fun _ => ⟨rfl, hne⟩⟩
  simp [ofLocalFunction, localLead, Symbol.Kind.isLocal, Api.localMark]

theorem headed_ofLocalTable {name : String} (hn : IsTarget name.toList) (hne : name.toList ≠ []) :
    ∃ title tail, (ofLocalTable name).Headed title tail := by
  refine ⟨name.toList, [], ?_, hn, rfl, nofun, fun _ => rfl, fun _ => ⟨rfl, hne⟩⟩
  simp [ofLocalTable, localLead, Symbol.Kind.isLocal, Api.localMark]

end Naming

variable {k : Naming} {title tail : List Char}

/-! ### Taking a header apart -/

namespace Naming.Headed

theorem takeWhile_title (h : k.Headed title tail) :
    (title ++ tail).takeWhile (· != '(') = title := by
  have htitle : ∀ c ∈ title, (c != '(') = true := by
    intro c hc
    rw [bne_iff_ne]
    rintro rfl
    have hparen := h.target _ hc
    revert hparen
    decide
  rw [List.takeWhile_append_of_pos htitle]
  cases hcall : k.kind.isCallable with
  | true =>
    obtain ⟨params, -, rfl⟩ := h.called hcall
    rw [List.takeWhile_cons_of_neg (by decide), List.append_nil]
  | false => rw [h.plain hcall, List.takeWhile_nil, List.append_nil]

/-- There is no space in the name, so that it does not begin with the mark of a local. -/
theorem not_localMark (h : k.Headed title tail) (r : List Char) :
    Api.localMark ++ r ≠ title ++ tail := by
  intro hmark
  have htake := h.takeWhile_title
  rw [← hmark, List.takeWhile_append_of_pos (List.all_eq_true.1 rfl)] at htake
  have hspace := h.target ' ' (by rw [← htake]; exact List.mem_append_left _ (by decide))
  revert hspace
  decide

theorem trim_title (h : k.Headed title tail) : trim title = title := by
  have htrim := trim_append (a := []) (b := []) (s := title) (by simp) (by simp)
    fun c hc => isBlank_of_isTarget (h.target c hc)
  simpa using htrim

theorem feed_not_mem (h : k.Headed title tail) : '\n' ∉ k.header.toList := by
  rw [h.header, List.mem_append, List.mem_append]
  rintro (hc | hc | hc)
  · rw [localLead] at hc
    revert hc
    cases k.kind.isLocal <;> decide
  · have htarget := h.target _ hc
    revert htarget
    decide
  · cases hcall : k.kind.isCallable with
    | true =>
      obtain ⟨params, hparams, rfl⟩ := h.called hcall
      simp [hparams] at hc
    | false =>
      rw [h.plain hcall] at hc
      cases hc

/-- A header is nothing at all, or it does not end in white space. -/
theorem header_cases (h : k.Headed title tail) :
    k.header.toList = [] ∨ ∃ s c, isBlank c = false ∧ k.header.toList = s ++ [c] := by
  cases hcall : k.kind.isCallable with
  | true =>
    obtain ⟨params, -, rfl⟩ := h.called hcall
    refine .inr ⟨localLead k.kind ++ (title ++ '(' :: params), ')', by decide, ?_⟩
    rw [h.header]
    simp
  | false =>
    rw [h.header, h.plain hcall, List.append_nil]
    obtain rfl | ⟨s, c, rfl⟩ := List.eq_nil_or_concat title
    · cases hlocal : k.kind.isLocal with
      | true => exact absurd rfl (h.unowned hlocal).2
      | false => exact .inl (by simp [localLead, hlocal])
    · rw [List.concat_eq_append]
      refine .inr ⟨localLead k.kind ++ s, c, isBlank_of_isTarget (h.target c (by simp)), ?_⟩
      rw [List.append_assoc]

/-- The first line of the documentation is the header, whatever is written under it. -/
theorem header_symbol (h : k.Headed title tail) (description : List (List Char)) (line : Line) :
    (k.symbol description line).header = k.header := by
  have hline : (lines (trimEnd (k.header.toList ++ description.flatMap ('\n' :: ·)))).headD [] =
      k.header.toList := by
    obtain hnil | ⟨s, c, hc, hs⟩ := h.header_cases
    · rw [hnil, headD_lines_trimEnd settled_nil]
      rfl
    · have hfeed := h.feed_not_mem
      rw [hs] at hfeed ⊢
      rw [headD_lines_trimEnd (settled_concat s hc), headD_lines_concat hc hfeed]
  rw [Symbol.header, firstLine, Naming.symbol, String.toList_ofList, hline, String.ofList_toList]

theorem isLocal_iff (h : k.Headed title tail) :
    Api.localMark.isPrefixOf k.header.toList = true ↔ k.kind.isLocal = true := by
  rw [h.header, List.isPrefixOf_iff_prefix, localLead]
  cases k.kind.isLocal with
  | true => exact ⟨fun _ => rfl, fun _ => List.prefix_append _ _⟩
  | false =>
    refine ⟨fun ⟨r, hr⟩ => absurd hr (h.not_localMark r), fun hfalse => ?_⟩
    cases hfalse

/-- What is left of a header without the mark of a local and without parameters is the name. -/
theorem takeWhile_header (h : k.Headed title tail) :
    ((Api.localMark.isPrefixOf? k.header.toList).getD k.header.toList).takeWhile (· != '(') =
      title := by
  rw [h.header, localLead]
  cases k.kind.isLocal with
  | true =>
    have hmark : Api.localMark.isPrefixOf? (Api.localMark ++ (title ++ tail)) = some (title ++ tail) :=
      List.isPrefixOf?_eq_some_iff_append_eq.2 rfl
    rw [if_pos rfl, hmark, Option.getD_some, h.takeWhile_title]
  | false =>
    have hmark : Api.localMark.isPrefixOf? (title ++ tail) = none := by
      rw [Option.eq_none_iff_forall_ne_some]
      intro r hr
      exact h.not_localMark r (List.isPrefixOf?_eq_some_iff_append_eq.1 hr)
    rw [if_neg (by decide), List.nil_append, hmark, Option.getD_none, h.takeWhile_title]

theorem paren_mem_iff (h : k.Headed title tail) :
    '(' ∈ k.header.toList ↔ k.kind.isCallable = true := by
  cases hcall : k.kind.isCallable with
  | true =>
    obtain ⟨params, -, rfl⟩ := h.called hcall
    simp [h.header]
  | false =>
    have htitle : '(' ∉ title := by
      intro hc
      have htarget := h.target _ hc
      revert htarget
      decide
    have hlead : '(' ∉ localLead k.kind := by
      rw [localLead]
      cases k.kind.isLocal <;> decide
    simp [h.header, h.plain hcall, htitle, hlead]

end Naming.Headed

/-! ### The symbols of a text -/

variable {x : Extraction}

theorem headed_of_declarationNaming (h : x.Made (isTarget · = true)) {d : Declaration}
    {line : List Char} (hl : '\n' ∉ line) (hd : Declaration.parse? line = some d)
    (hk : x.declarationNaming d = some k) : ∃ title tail, k.Headed title tail := by
  have htarget := isTarget_of_parse? hd
  have hne := target_ne_nil hd
  obtain ⟨hn, ho⟩ := h.qualify (fun c hc => hc) htarget
  have hname : IsTarget (String.ofList d.target).toList := by rwa [String.toList_ofList]
  have hnameNe : (String.ofList d.target).toList ≠ [] := by rwa [String.toList_ofList]
  cases d with
  | function target params isLocal =>
    have hparams := feed_not_mem_params hl hd
    cases isLocal with
    | true =>
      obtain rfl := Option.some.inj hk
      exact Naming.headed_ofLocalFunction hname hnameNe hparams
    | false =>
      obtain rfl := Option.some.inj hk
      exact Naming.headed_ofCall hn ho hparams
  | table target isLocal =>
    rw [declarationNaming] at hk
    split_ifs at hk
    · obtain rfl := Option.some.inj hk
      exact Naming.headed_ofModule h.module
    · obtain rfl := Option.some.inj hk
      exact Naming.headed_ofLocalTable hname hnameNe
    · obtain rfl := Option.some.inj hk
      exact Naming.headed_ofPlain rfl rfl hn ho
  | field target =>
    obtain rfl := Option.some.inj hk
    exact Naming.headed_ofPlain rfl rfl hn ho

theorem feed_not_mem_paramTags (description : List (List Char)) :
    '\n' ∉ join [',', ' '] (paramTags description) := by
  have hparam : paramTag.Yields IsTarget := .next fun _ => .next fun _ => yields_many1_isDotted
  intro hmem
  obtain hc | ⟨p, hp, hc⟩ := mem_of_mem_join hmem
  · revert hc
    decide
  · obtain ⟨l, -, hl⟩ := List.mem_filterMap.1 hp
    have htarget := hparam.read? hl _ hc
    revert htarget
    decide

theorem headed_selfNaming (h : x.Made (isTarget · = true)) {d : SelfDoc} (hd : IsTarget d.name)
    (description : List (List Char)) :
    ∃ title tail, (x.selfNaming d (paramTags description)).Headed title tail := by
  obtain ⟨hn, ho⟩ := h.qualify (fun c hc => hc) hd
  have hname : IsTarget (String.ofList d.name).toList := by rwa [String.toList_ofList]
  rw [selfNaming]
  split
  · exact Naming.headed_ofModule hname
  · exact Naming.headed_ofCall hn ho (feed_not_mem_paramTags description)
  · exact Naming.headed_ofPlain rfl rfl hn ho
  · split_ifs
    · exact Naming.headed_ofPlain rfl rfl hn ho
    · refine Naming.headed_ofPlain rfl rfl hname ?_
      cases hcontainer : x.container with
      | none => exact h.module
      | some c => exact h.container c hcontainer

/-- All symbols so far have headers put together from their fields. -/
structure Headed (x : Extraction) : Prop where
  made : x.Made (isTarget · = true)
  symbols : ∀ s ∈ x.symbols, ∃ k title tail description line,
    Naming.Headed k title tail ∧ s = k.symbol description line

theorem Headed.perform (h : x.Headed) {a : Act} (hmade : (x.perform a).Made (isTarget · = true))
    (hk : ∀ k, x.naming a = some k → ∃ title tail, k.Headed title tail) : (x.perform a).Headed := by
  refine ⟨hmade, fun s hs => ?_⟩
  rw [perform_symbols, List.mem_append] at hs
  obtain hs | hs := hs
  · exact h.symbols s hs
  · rw [Option.mem_toList, added, Option.map_eq_some_iff] at hs
    obtain ⟨k, hnaming, rfl⟩ := hs
    obtain ⟨title, tail, hheaded⟩ := hk k hnaming
    exact ⟨k, title, tail, a.description, a.line, hheaded, rfl⟩

end Extraction

open Extraction

theorem headed_of_mem_extractSymbols {text fileModule : String}
    (hm : ∀ c ∈ fileModule.toList, isTarget c = true) {s : Symbol}
    (hs : s ∈ extractSymbols text fileModule) :
    ∃ k title tail description line, Naming.Headed k title tail ∧ s = k.symbol description line := by
  obtain ⟨x, hx, hsymbols⟩ := extractSymbols_induct (I := Extraction.Headed) text fileModule
    (fun module returned hmodule => ⟨⟨hmodule.elim (fun h => h ▸ hm) id, by simp, by simp⟩, by simp⟩)
    (fun x d description line hl hd h => h.perform (a := .declare d description line)
      (h.made.declare (fun c hc => hc) (isTarget_of_parse? hd) description hl)
      fun k hk => headed_of_declarationNaming h.made hl hd hk)
    (fun x d description line hl hd h => h.perform (a := .declareSelf d description line)
      (h.made.declareSelf (fun c hc => hc) hd description hl)
      fun k hk => Option.some.inj hk ▸ headed_selfNaming h.made hd description)
  exact hx.symbols s (hsymbols ▸ hs)

/-- The header of a symbol never disagrees with its fields: both say the same name up to colons, the
header of a local says so and a local has no owner, and it has a parenthesis just when the symbol can
be called. -/
theorem header_agrees {text fileModule : String} (hm : ∀ c ∈ fileModule.toList, isDotted c = true)
    {s : Symbol} (hs : s ∈ extractSymbols text fileModule) (file : String) :
    Query.dotted (Entry.ofSymbol file s).api.qualifiedName.toList =
      Query.dotted s.qualifiedName.toList ∧
    ((Entry.ofSymbol file s).api.isLocal = true ↔ s.kind = .localFunction ∨ s.kind = .localTable) ∧
    (s.kind = .localFunction ∨ s.kind = .localTable → s.owner = "") ∧
    ('(' ∈ s.header.toList ↔ s.kind.isCallable = true) := by
  obtain ⟨k, title, tail, description, line, h, rfl⟩ :=
    headed_of_mem_extractSymbols (fun c hc => isTarget_of_isDotted (hm c hc)) hs
  have hheader : (Entry.ofSymbol file (k.symbol description line)).api.header = k.header :=
    h.header_symbol description line
  have hlocal : k.kind.isLocal = true ↔ k.kind = .localFunction ∨ k.kind = .localTable := by
    cases k.kind <;> decide
  refine ⟨?_, ?_, fun hk => (h.unowned (hlocal.2 hk)).1, ?_⟩
  · rw [Api.qualifiedName, hheader, String.toList_ofList, h.takeWhile_header, h.trim_title]
    exact h.same
  · rw [Api.isLocal, hheader, h.isLocal_iff]
    exact hlocal
  · rw [h.header_symbol]
    exact h.paren_mem_iff

/-- A module with a method of a table in it. -/
def moduleText : String := "local M = \x7b\x7d\nfunction M.sub:get(k, v) end\nreturn M\n"

def methodSymbol : Symbol where
  name := "get"
  owner := "lib.util.sub"
  kind := .function
  locator := "function M.sub:get(k, v) end"
  line := 1
  doc := "lib.util.sub:get(k, v)"

/-- A method has a colon in its header and a dot in its qualified name. -/
theorem header_agrees_method :
    (∀ c ∈ "lib.util".toList, isDotted c = true) ∧
    methodSymbol ∈ extractSymbols moduleText "lib.util" ∧
    methodSymbol.header = "lib.util.sub:get(k, v)" ∧
    methodSymbol.qualifiedName = "lib.util.sub.get" ∧
    Query.dotted (Entry.ofSymbol "$ROOT/lib/util.lua" methodSymbol).api.qualifiedName.toList =
      Query.dotted methodSymbol.qualifiedName.toList := by
  have hm : ∀ c ∈ "lib.util".toList, isDotted c = true := List.all_eq_true.1 (by decide)
  have hs : methodSymbol ∈ extractSymbols moduleText "lib.util" := by decide +kernel
  exact ⟨hm, hs, by decide +kernel, by decide +kernel, (header_agrees hm hs "$ROOT/lib/util.lua").1⟩

end LuaLens
