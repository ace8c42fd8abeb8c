import LuaLens.Proofs.Symbol.Headers
import LuaLens.Proofs.Symbol.Places
import LuaLens.Proofs.Text.Search

/-!
The parameters of functions. The source has them between the first parenthesis of a line and the one that
closes it, and the header of the symbol has the same ones, tidied, between its only parentheses.
-/

namespace LuaLens

open Text Scan

/-! ### Trimmed texts -/

namespace Text

theorem trim_append_of_all {b : List Char} (h : ∀ c ∈ b, isBlank c = true) (s : List Char) :
    trim (b ++ s) = trim s := by
  rw [trim, trim, trimStart, trimStart, dropWhile_append_of_all h]

theorem trim_trim (s : List Char) : trim (trim s) = trim s := by
  have hstart : trimStart (trim s) = trim s := by
    cases hs : trim s with
    | nil => rfl
    | cons c t =>
      have hc : isBlank c = false := isBlank_of_head?_trim (s := s) (by rw [hs, List.head?_cons])
      exact List.dropWhile_cons_of_neg (by simp [hc])
  obtain ⟨b, hb, hs⟩ := exists_trimEnd (trimStart s)
  have hend : trimEnd (trimStart s) = trimEnd (trim s) := by
    conv_lhs => rw [hs]
    exact dropEndWhile_append_of_all hb
  rw [trim, hstart, ← hend]
  rfl

end Text

/-! ### Lists of parameters -/

/-- The pieces between commas, trimmed, without blank ones. -/
def parameters (inner : List Char) : List (List Char) :=
  ((splitAll ',' inner).map trim).filter (!·.isEmpty)

/-- A parameter stands by itself: it is not empty, and it has no comma and no white space around it. -/
structure IsParameter (p : List Char) : Prop where
  nonempty : p ≠ []
  comma : ',' ∉ p
  trimmed : trim p = p

theorem isParameter_of_mem {inner p : List Char} (h : p ∈ parameters inner) : IsParameter p := by
  obtain ⟨hp, hne⟩ := List.mem_filter.1 h
  obtain ⟨piece, hpiece, rfl⟩ := List.mem_map.1 hp
  exact ⟨by simpa using hne, fun hc => (mem_splitAll hpiece).1 (mem_of_mem_trim hc), trim_trim piece⟩

theorem parameters_append_comma {p : List Char} (h : ',' ∉ p) (s : List Char) :
    parameters (p ++ ',' :: s) = parameters p ++ parameters s := by
  rw [parameters, parameters, parameters, splitAll_append h, splitAll_of_not_mem h,
    ← List.singleton_append, List.map_append, List.filter_append]

theorem parameters_of_not_mem {p : List Char} (h : ',' ∉ p) :
    parameters p = [trim p].filter (!·.isEmpty) := by
  rw [parameters, splitAll_of_not_mem h, List.map_singleton]

/-- Parameters that are joined are found again, and white space in front is of no matter. -/
theorem parameters_join {ps : List (List Char)} (hps : ∀ p ∈ ps, IsParameter p) {lead : List Char}
    (hlead : ∀ c ∈ lead, isBlank c = true) : parameters (lead ++ join [',', ' '] ps) = ps := by
  have hcomma {lead : List Char} (hlead : ∀ c ∈ lead, isBlank c = true) : ',' ∉ lead := fun hc =>
    absurd (hlead _ hc) (by decide)
  have hone {lead p : List Char} (hlead : ∀ c ∈ lead, isBlank c = true) (hp : IsParameter p) :
      ',' ∉ lead ++ p ∧ parameters (lead ++ p) = [p] := by
    have hnot : ',' ∉ lead ++ p := List.not_mem_append (hcomma hlead) hp.comma
    rw [parameters_of_not_mem hnot, trim_append_of_all hlead, hp.trimmed]
    exact ⟨hnot, List.filter_cons_of_pos (by simpa using hp.nonempty)⟩
  induction ps generalizing lead with
  | nil =>
    rw [join, List.append_nil, parameters_of_not_mem (hcomma hlead), trim_eq_nil_iff.2 hlead]
    rfl
  | cons p ps ih =>
    obtain ⟨hp, hps⟩ := List.forall_mem_cons.1 hps
    obtain ⟨hnot, hfound⟩ := hone hlead hp
    cases ps with
    | nil => exact hfound
    | cons q ps =>
      have hjoin : lead ++ join [',', ' '] (p :: q :: ps) =
          lead ++ p ++ ',' :: ([' '] ++ join [',', ' '] (q :: ps)) := by simp [join]
      rw [hjoin, parameters_append_comma hnot, hfound, ih hps (List.forall_mem_singleton.2 rfl)]
      rfl

/-- Tidying a list of parameters leaves the parameters as they are. -/
theorem parameters_normalizeParams (inner : List Char) :
    parameters (Declaration.normalizeParams inner) = parameters inner :=
  @parameters_join _ (fun _ => isParameter_of_mem) [] (by simp)

/-! ### Lines that declare functions -/

namespace Text.Scan

variable {α β : Type} {c : Char}

/-- Whether a scanner takes off a beginning in which a character does not occur. -/
def Passes (scan : Scan α) (c : Char) : Prop :=
  ∀ s a rest, scan s = some (a, rest) → ∃ front, s = front ++ rest ∧ c ∉ front

/-- Whether a scanner takes off a text up to the first parenthesis, then the list in it. -/
def ReadsList (scan : Scan (List Char × List Char)) : Prop :=
  ∀ s r rest, scan s = some (r, rest) →
    ∃ front after, s = front ++ '(' :: (r.2 ++ ')' :: after) ∧ '(' ∉ front ∧ ')' ∉ r.2

theorem Passes.bind {scan : Scan α} {f : α → Scan β} (h : scan.Passes c) (hf : ∀ a, (f a).Passes c) :
    (scan >>= f).Passes c := by
  intro s b rest hb
  rw [bind_eq_some_iff] at hb
  obtain ⟨a, s', ha, hb⟩ := hb
  obtain ⟨front, rfl, hfront⟩ := h s a s' ha
  obtain ⟨front', rfl, hfront'⟩ := hf a s' b rest hb
  exact ⟨front ++ front', (List.append_assoc ..).symm, List.not_mem_append hfront hfront'⟩

theorem Passes.pure (a : α) : (Pure.pure a : Scan α).Passes c := by
  intro s b rest hb
  obtain ⟨-, rfl⟩ := pure_eq_some_iff.1 hb
  exact ⟨[], rfl, List.not_mem_nil⟩

theorem passes_many {p : Char → Bool} (hc : p c = false) : (many p).Passes c := by
  intro s t rest h
  obtain ⟨-, rfl⟩ := many_eq_some_iff.1 h
  refine ⟨s.takeWhile p, List.takeWhile_append_dropWhile.symm, fun hmem => ?_⟩
  rw [List.mem_takeWhile_imp hmem] at hc
  cases hc

theorem passes_many1 {p : Char → Bool} (hc : p c = false) : (many1 p).Passes c := by
  refine (passes_many hc).bind fun t => ?_
  split
  · intro s a rest h
    cases h
  · exact .pure t

theorem passes_word {text : String} (hc : c ∉ text.toList) : (word text).Passes c := by
  intro s a rest h
  exact ⟨text.toList, (word_eq_some_iff.1 h).symm, hc⟩

theorem passes_one {p : Char → Bool} (hc : p c = false) : (one p).Passes c := by
  intro s d rest h
  obtain ⟨rfl, hd⟩ := one_eq_some_iff.1 h
  refine ⟨[d], rfl, fun hmem => ?_⟩
  rw [List.mem_singleton.1 hmem, hd] at hc
  cases hc

theorem passes_blanks : blanks.Passes '(' := (passes_many (by decide)).bind fun _ => .pure ()

theorem passes_blanks1 : blanks1.Passes '(' := (passes_many1 (by decide)).bind fun _ => .pure ()

theorem passes_name : name.Passes '(' :=
  (passes_one (by decide)).bind fun _ => (passes_many (by decide)).bind fun _ => .pure _

theorem Passes.reads {scan : Scan α} {f : α → Scan (List Char × List Char)} (h : scan.Passes '(')
    (hf : ∀ a, (f a).ReadsList) : (scan >>= f).ReadsList := by
  intro s r rest hr
  rw [bind_eq_some_iff] at hr
  obtain ⟨a, s', ha, hr⟩ := hr
  obtain ⟨front, rfl, hfront⟩ := h s a s' ha
  obtain ⟨front', after, rfl, hfront', hlist⟩ := hf a s' r rest hr
  exact ⟨front ++ front', after, (List.append_assoc ..).symm, List.not_mem_append hfront hfront',
    hlist⟩

theorem ReadsList.read?_or {scan scan' : Scan (List Char × List Char)} (h : scan.ReadsList)
    (h' : scan'.ReadsList) {s : List Char} {r : List Char × List Char}
    (hr : (scan.read? s <|> scan'.read? s) = some r) :
    ∃ front after, s = front ++ '(' :: (r.2 ++ ')' :: after) ∧ '(' ∉ front ∧ ')' ∉ r.2 := by
  have hread {scan : Scan (List Char × List Char)} (h : scan.ReadsList) (hr : scan.read? s = some r) :
      ∃ front after, s = front ++ '(' :: (r.2 ++ ')' :: after) ∧ '(' ∉ front ∧ ')' ∉ r.2 := by
    obtain ⟨rest, hr⟩ := read?_eq_some_iff.1 hr
    exact h s r rest hr
  exact (of_read?_or hr).elim (hread h) (hread h')

end Text.Scan

namespace Declaration

theorem paramList_eq_some {s params rest : List Char} (h : paramList s = some (params, rest)) :
    s = '(' :: (params ++ ')' :: rest) ∧ ')' ∉ params := by
  simp only [paramList, bind_eq_some_iff, word_eq_some_iff, many_eq_some_iff, pure_eq_some_iff] at h
  obtain ⟨_, inner, rfl, _, _, ⟨rfl, rfl⟩, _, after, hclose, rfl, rfl⟩ := h
  have hline : ')' :: after = inner.dropWhile (· != ')') := hclose
  refine ⟨?_, fun hmem => by simpa using List.mem_takeWhile_imp hmem⟩
  rw [hline, List.takeWhile_append_dropWhile]
  rfl

theorem readsList_paramList (target : List Char) :
    (paramList >>= fun params => pure (target, params)).ReadsList := by
  intro s r rest h
  obtain ⟨params, after, hparams, h⟩ := bind_eq_some_iff.1 h
  obtain ⟨rfl, rfl⟩ := pure_eq_some_iff.1 h
  obtain ⟨hs, hclose⟩ := paramList_eq_some hparams
  exact ⟨[], after, hs, List.not_mem_nil, hclose⟩

theorem readsList_localFunction : localFunction.ReadsList :=
  (passes_word (by decide)).reads fun _ => passes_blanks1.reads fun _ =>
    (passes_word (by decide)).reads fun _ => passes_blanks1.reads fun _ => passes_name.reads fun _ =>
      passes_blanks.reads fun _ => readsList_paramList _

theorem readsList_localFunctionValue : localFunctionValue.ReadsList :=
  (passes_word (by decide)).reads fun _ => passes_blanks1.reads fun _ => passes_name.reads fun _ =>
    passes_blanks.reads fun _ => (passes_word (by decide)).reads fun _ => passes_blanks.reads fun _ =>
      (passes_word (by decide)).reads fun _ => passes_blanks.reads fun _ => readsList_paramList _

theorem readsList_functionStatement : functionStatement.ReadsList :=
  (passes_word (by decide)).reads fun _ => passes_blanks1.reads fun _ =>
    (passes_many1 (by decide)).reads fun _ => passes_blanks.reads fun _ => readsList_paramList _

theorem readsList_functionValue : functionValue.ReadsList :=
  (passes_many1 (by decide)).reads fun _ => passes_blanks.reads fun _ =>
    (passes_word (by decide)).reads fun _ => passes_blanks.reads fun _ =>
      (passes_word (by decide)).reads fun _ => passes_blanks.reads fun _ => readsList_paramList _

/-- A line that declares a function lists its parameters in the first parentheses. -/
theorem list_of_parse? {line target params : List Char} {isLocal : Bool}
    (h : parse? line = some (.function target params isLocal)) : ∃ front inner after,
      line = front ++ '(' :: (inner ++ ')' :: after) ∧ '(' ∉ front ∧ ')' ∉ inner ∧
      params = normalizeParams inner := by
  have hline {r : List Char × List Char} (hr : ∃ front after,
      trim line = front ++ '(' :: (r.2 ++ ')' :: after) ∧ '(' ∉ front ∧ ')' ∉ r.2) :
      ∃ front inner after, line = front ++ '(' :: (inner ++ ')' :: after) ∧ '(' ∉ front ∧
        ')' ∉ inner ∧ normalizeParams r.2 = normalizeParams inner := by
    obtain ⟨front, after, htrim, hfront, hinner⟩ := hr
    obtain ⟨b, -, hb⟩ := exists_trimEnd line
    have hend := trimEnd_eq_append_trim (s := line) (by simp [htrim])
    refine ⟨line.takeWhile isBlank ++ front, r.2, after ++ b, ?_, ?_, hinner, rfl⟩
    · rw [hend, htrim] at hb
      simpa using hb
    · exact List.not_mem_append (fun hc => absurd (List.mem_takeWhile_imp hc) (by decide)) hfront
  obtain ⟨r, hr, hd⟩ | ⟨r, hr, hd⟩ | ⟨t, -, hd⟩ | ⟨t, -, hd⟩ | ⟨t, -, hd⟩ := parse?_cases h
  · obtain ⟨-, rfl, -⟩ := Declaration.function.inj hd
    exact hline (readsList_localFunction.read?_or readsList_localFunctionValue hr)
  · obtain ⟨-, rfl, -⟩ := Declaration.function.inj hd
    exact hline (readsList_functionStatement.read?_or readsList_functionValue hr)
  · cases hd
  · cases hd
  · cases hd

end Declaration

/-- The parameters that a line declares: those between its first parenthesis and the next closing one. -/
def declaredParameters (line : List Char) : List (List Char) :=
  match splitOnce '(' line with
  | some (_, rest) => parameters (rest.takeWhile (· != ')'))
  | none => []

theorem declaredParameters_eq {front inner after : List Char} (hfront : '(' ∉ front)
    (hinner : ')' ∉ inner) :
    declaredParameters (front ++ '(' :: (inner ++ ')' :: after)) = parameters inner := by
  have htake : (inner ++ ')' :: after).takeWhile (· != ')') = inner := by
    rw [List.takeWhile_append_of_pos (bne_of_not_mem hinner), List.takeWhile_cons_of_neg (by simp),
      List.append_nil]
  rw [declaredParameters, splitOnce_append hfront]
  exact congrArg parameters htake

/-! ### Headers -/

namespace Extraction

open Declaration

variable {Q : Char → Prop} {x : Extraction}

theorem paren_not_mem {t : List Char} (h : IsTarget t) : '(' ∉ t := fun hc => absurd (h _ hc) (by decide)

/-- A header that ends in parameters, the parentheses of which are its first and its last. -/
def Calls (header params : List Char) : Prop :=
  ∃ title, header = title ++ '(' :: (params ++ [')']) ∧ '(' ∉ title

theorem calls_ofCall {q : QualifiedName} {params : List Char} (hn : IsTarget q.name.toList)
    (ho : IsTarget q.owner.toList) : Calls (Naming.ofCall q params).header.toList params := by
  have hname := paren_not_mem hn
  have howner := paren_not_mem ho
  cases hempty : q.owner.isEmpty with
  | true => exact ⟨q.name.toList, by simp [Naming.ofCall, callHeader, hempty], hname⟩
  | false =>
    refine ⟨q.owner.toList ++ (if q.isMethod then ':' else '.') :: q.name.toList, ?_, ?_⟩
    · cases hmethod : q.isMethod <;> simp [Naming.ofCall, callHeader, hempty, hmethod]
    · cases q.isMethod <;> simp [hname, howner]

theorem calls_ofLocalFunction {name : String} {params : List Char} (hn : IsTarget name.toList) :
    Calls (Naming.ofLocalFunction name params).header.toList params := by
  refine ⟨"local ".toList ++ name.toList, by simp [Naming.ofLocalFunction], ?_⟩
  exact List.not_mem_append (by decide) (paren_not_mem hn)

/-- The header of a declared function has the parameters of its line. -/
theorem calls_of_declarationNaming (h : x.Made (isTarget · = true)) {line target params : List Char}
    {isLocal : Bool} (hd : parse? line = some (.function target params isLocal)) {k : Naming}
    (hk : x.declarationNaming (.function target params isLocal) = some k) :
    Calls k.header.toList params := by
  have htarget : IsTarget target := isTarget_of_parse? hd
  obtain ⟨hn, ho⟩ := h.qualify (fun c hc => hc) htarget
  cases isLocal with
  | true =>
    obtain rfl := Option.some.inj hk
    exact calls_ofLocalFunction (by rwa [String.toList_ofList])
  | false =>
    obtain rfl := Option.some.inj hk
    exact calls_ofCall hn ho

/-! Over all acts of a text. -/

theorem Made.perform (hQ : ∀ c, isTarget c = true → Q c) (h : x.Made Q) {a : Act} (ha : a.Sound)
    (hl : '\n' ∉ a.line.2) : (x.perform a).Made Q := by
  cases a with
  | declare d description line => exact h.declare hQ (isTarget_of_parse? ha) description hl
  | declareSelf d description line => exact h.declareSelf hQ ha description hl

/-- Each symbol is added by its act to what has been read before. -/
theorem exists_made_of_mem_origins (hQ : ∀ c, isTarget c = true → Q c) {as : List Act} (h : x.Made Q)
    (has : ∀ a ∈ as, a.Sound ∧ '\n' ∉ a.line.2) {a : Act} {s : Symbol} (hs : (a, s) ∈ origins x as) :
    ∃ y : Extraction, y.Made Q ∧ y.added a = some s := by
  induction as generalizing x with
  | nil => cases hs
  | cons b as ih =>
    obtain ⟨⟨hb, hl⟩, has⟩ := List.forall_mem_cons.1 has
    rw [origins, List.mem_append, Option.mem_toList, Option.map_eq_some_iff] at hs
    obtain ⟨s', hs, hpair⟩ | hs := hs
    · obtain ⟨rfl, rfl⟩ := Prod.mk.inj hpair
      exact ⟨x, h, hs⟩
    · exact ih (h.perform hQ hb hl) has hs

end Extraction

open Extraction

variable {text fileModule : String}

theorem made_start (hm : ∀ c ∈ fileModule.toList, Declaration.isTarget c = true) :
    (start text fileModule).Made (Declaration.isTarget · = true) :=
  ⟨(module_start text fileModule).elim (fun h => by rwa [h]) id, by simp [start], by simp [start]⟩

theorem sound_of_mem_textActs {a : Act} (h : a ∈ textActs text) : a.Sound ∧ '\n' ∉ a.line.2 :=
  ⟨sound_of_mem_acts h, (mem_lines (List.mem_of_getElem? (placed_of_mem_textActs h).1)).1⟩

/-- The header of a function that a text declares has just the parameters that are on its line. -/
theorem calls_of_mem_textOrigins (hm : ∀ c ∈ fileModule.toList, Declaration.isDotted c = true)
    {target params : List Char} {isLocal : Bool} {description : List (List Char)} {line : Line}
    {s : Symbol} (h : (.declare (.function target params isLocal) description line, s) ∈
      textOrigins text fileModule) :
    Calls s.header.toList params ∧ parameters params = declaredParameters line.2 := by
  obtain ⟨hparse, hfeed⟩ := sound_of_mem_textActs (mem_textActs_of_mem_textOrigins h)
  obtain ⟨x, hx, hadded⟩ := exists_made_of_mem_origins (fun c hc => hc)
    (made_start fun c hc => Declaration.isTarget_of_isDotted (hm c hc))
    (fun a ha => sound_of_mem_textActs ha) h
  rw [added, Option.map_eq_some_iff] at hadded
  obtain ⟨k, hk, rfl⟩ := hadded
  obtain ⟨title, tail, hheaded⟩ := headed_of_declarationNaming hx hfeed hparse hk
  obtain ⟨front, inner, after, hline, hfront, hinner, rfl⟩ := Declaration.list_of_parse? hparse
  constructor
  · rw [hheaded.header_symbol]
    exact calls_of_declarationNaming hx hparse hk
  · rw [hline, declaredParameters_eq hfront hinner, parameters_normalizeParams]

end LuaLens
