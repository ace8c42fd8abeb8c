import LuaLens.Proofs.Symbol.Parameters
import LuaLens.Query.Signature
import Mathlib.Data.List.Forall2

/-!
The columns of parameters. They stand for the pieces between the first and the last parenthesis of a label,
each without the white space around it, and for the header of a declared function these are its parameters.
-/

namespace LuaLens

open Text

variable {front inner before rest label : List Char}

/-! ### Cutting at the last character -/

theorem Text.splitLast_append {c : Char} {after : List Char} (h : c ∉ after) (before : List Char) :
    splitLast c (before ++ c :: after) = some (before, after) := by
  have hreverse : (before ++ c :: after).reverse = after.reverse ++ c :: before.reverse := by simp
  rw [splitLast, hreverse, splitOnce_append (by simpa using h)]
  simp

theorem Text.splitLast_eq_some {c : Char} {s after : List Char}
    (h : splitLast c s = some (before, after)) : c ∉ after ∧ s = before ++ c :: after := by
  rw [splitLast, Option.map_eq_some_iff] at h
  obtain ⟨⟨a, b⟩, hcut, hab⟩ := h
  obtain ⟨rfl, rfl⟩ : b.reverse = before ∧ a.reverse = after := by simpa using hab
  obtain ⟨hnot, hs⟩ := splitOnce_eq_some hcut
  refine ⟨by simpa using hnot, ?_⟩
  rw [← List.reverse_reverse s, hs]
  simp

namespace Query

/-! ### The columns of pieces -/

/-- The pieces that are not blank, trimmed, with the numbers of all pieces from `n` on. -/
def numberedPieces (n : Nat) (pieces : List (List Char)) : List (List Char × Nat) :=
  ((pieces.map trim).zipIdx n).filter fun p => !p.1.isEmpty

theorem numberedPieces_cons (n : Nat) (piece : List Char) (pieces : List (List Char)) :
    numberedPieces n (piece :: pieces) =
      if (trim piece).isEmpty then numberedPieces (n + 1) pieces
      else (trim piece, n) :: numberedPieces (n + 1) pieces := by
  rw [numberedPieces, List.map_cons, List.zipIdx_cons, List.filter_cons]
  cases (trim piece).isEmpty <;> rfl

theorem map_fst_numberedPieces (n : Nat) (inner : List Char) :
    (numberedPieces n (splitAll ',' inner)).map (·.1) = parameters inner := by
  rw [parameters, numberedPieces]
  generalize (splitAll ',' inner).map trim = ps
  induction ps generalizing n with
  | nil => rfl
  | cons p ps ih =>
    rw [List.zipIdx_cons, List.filter_cons, List.filter_cons, ← ih (n + 1)]
    cases p.isEmpty <;> rfl

/-- Whether columns span a parameter that stands behind as many commas as its number says. The list of
parameters is in a text behind `front`. -/
def Spans (front inner : List Char) (p : List Char × Nat) (columns : Nat × Nat) : Prop :=
  p.1 ≠ [] ∧ ∃ before after, inner = before ++ p.1 ++ after ∧ before.count ',' = p.2 ∧
    columns = (unitLength (front ++ before), unitLength (front ++ before) + unitLength p.1)

theorem spans_trim {piece : List Char} (h : trim piece ≠ []) (hinner : inner = before ++ piece ++ rest) :
    Spans front inner (trim piece, before.count ',')
      (unitLength (front ++ before) + unitLength (piece.takeWhile isBlank),
        unitLength (front ++ before) + unitLength (piece.takeWhile isBlank) + unitLength (trim piece)) := by
  obtain ⟨b, -, hb⟩ := exists_trimEnd piece
  rw [trimEnd_eq_append_trim h] at hb
  refine ⟨h, before ++ piece.takeWhile isBlank, b ++ rest, ?_, ?_, ?_⟩
  · rw [hinner]
    conv_lhs => rw [hb]
    simp only [List.append_assoc]
  · have hcomma : ',' ∉ piece.takeWhile isBlank := fun hc =>
      absurd (List.mem_takeWhile_imp hc) (by decide)
    rw [List.count_append, List.count_eq_zero.2 hcomma, Nat.add_zero]
  · rw [← List.append_assoc, unitLength_append (front ++ before)]

theorem forall₂_pieceColumns_cons {piece : List Char} {pieces : List (List Char)}
    (hinner : inner = before ++ piece ++ rest)
    (h : List.Forall₂ (Spans front inner) (numberedPieces (before.count ',' + 1) pieces)
      (pieceColumns (unitLength (front ++ before) + unitLength piece + 1) pieces)) :
    List.Forall₂ (Spans front inner) (numberedPieces (before.count ',') (piece :: pieces))
      (pieceColumns (unitLength (front ++ before)) (piece :: pieces)) := by
  rw [numberedPieces_cons, pieceColumns]
  split_ifs with hempty
  · exact h
  · exact .cons (spans_trim (by simpa using hempty) hinner) h

/-- The columns of the pieces after those that have been passed. -/
theorem forall₂_pieceColumns (hinner : inner = before ++ rest) :
    List.Forall₂ (Spans front inner) (numberedPieces (before.count ',') (splitAll ',' rest))
      (pieceColumns (unitLength (front ++ before)) (splitAll ',' rest)) := by
  induction rest using pieces_induct ',' generalizing before with
  | last s hs =>
    have hlast : inner = before ++ s ++ [] := by simp [hinner]
    rw [splitAll_of_not_mem hs]
    exact forall₂_pieceColumns_cons hlast .nil
  | piece p t hp ih =>
    have hpiece : inner = before ++ p ++ ',' :: t := by simp [hinner]
    have hmore : inner = before ++ (p ++ [',']) ++ t := by simp [hinner]
    have hnext := ih hmore
    rw [splitAll_append hp]
    refine forall₂_pieceColumns_cons hpiece ?_
    have hcount : (before ++ (p ++ [','])).count ',' = before.count ',' + 1 := by
      rw [List.count_append, List.count_append, List.count_eq_zero.2 hp]
      rfl
    have hcomma : unitLength [','] = 1 := rfl
    rw [hcount, ← List.append_assoc front, unitLength_append (front ++ before), unitLength_append p,
      hcomma, ← Nat.add_assoc] at hnext
    exact hnext

/-- The columns go up from where the list starts, with a comma between each two of them. -/
theorem pieceColumns_ordered (start : Nat) (pieces : List (List Char)) :
    (∀ columns ∈ pieceColumns start pieces, start ≤ columns.1) ∧
      (pieceColumns start pieces).Pairwise fun a b => a.2 < b.1 := by
  induction pieces generalizing start with
  | nil => simp [pieceColumns]
  | cons piece pieces ih =>
    obtain ⟨hstart, hpairwise⟩ := ih (start + unitLength piece + 1)
    have hnext : ∀ columns ∈ pieceColumns (start + unitLength piece + 1) pieces,
        start + unitLength piece < columns.1 := hstart
    rw [pieceColumns]
    split_ifs with hempty
    · exact ⟨fun columns hc => by have := hnext columns hc; omega, hpairwise⟩
    · have htrim : trim piece ≠ [] := by simpa using hempty
      have hpiece : unitLength (piece.takeWhile isBlank) + unitLength (trim piece) ≤
          unitLength piece := by
        obtain ⟨b, -, hb⟩ := exists_trimEnd piece
        rw [trimEnd_eq_append_trim htrim] at hb
        conv_rhs => rw [hb]
        rw [unitLength_append, unitLength_append]
        exact Nat.le_add_right _ _
      refine ⟨?_, List.pairwise_cons.2 ⟨fun columns hc => ?_, hpairwise⟩⟩
      · rw [List.forall_mem_cons]
        refine ⟨Nat.le_add_right _ _, fun columns hc => ?_⟩
        have := hnext columns hc
        omega
      · have := hnext columns hc
        dsimp only
        omega

/-! ### The columns of a label -/

/-- A label with a list of parameters between its first and its last parenthesis. -/
structure Lists (label front inner back : List Char) : Prop where
  eq : label = front ++ '(' :: (inner ++ ')' :: back)
  first : '(' ∉ front
  last : ')' ∉ back

variable {back : List Char}

theorem Lists.parameterOffsets_eq (h : Lists label front inner back) :
    parameterOffsets label = pieceColumns (unitLength (front ++ ['('])) (splitAll ',' inner) := by
  rw [parameterOffsets, h.eq, splitOnce_append h.first]
  simp only [splitLast_append h.last, unitLength_append]
  rfl

/-- An opening parenthesis with a closing one after it makes a list. -/
theorem exists_lists (h : ∃ a b c, label = a ++ '(' :: (b ++ ')' :: c)) :
    ∃ front inner back, Lists label front inner back := by
  obtain ⟨a, b, c, hlabel⟩ := h
  have hopen : '(' ∈ label := by simp [hlabel]
  obtain ⟨front, rest, hrest, hfirst⟩ := List.eq_append_cons_of_mem hopen
  have hclose : ')' ∈ rest := by
    rw [hlabel, List.append_eq_append_iff] at hrest
    obtain ⟨d, hd, hrest⟩ | ⟨d, hd, hrest⟩ := hrest
    · cases d with
      | nil => simp [← (List.cons.inj hrest).2]
      | cons e d =>
        -- The first parenthesis would be in front of itself.
        obtain rfl := (List.cons.inj hrest).1
        exact absurd (by simp [hd]) hfirst
    · cases d with
      | nil => simp [(List.cons.inj hrest).2]
      | cons e d => simp [(List.cons.inj hrest).2]
  obtain ⟨back, inner, hback, hlast⟩ := List.eq_append_cons_of_mem (List.mem_reverse.2 hclose)
  refine ⟨front, inner.reverse, back.reverse, ?_, hfirst, by simpa using hlast⟩
  rw [hrest, ← List.reverse_reverse rest, hback]
  simp

theorem parameterOffsets_eq_nil (h : ¬ ∃ a b c, label = a ++ '(' :: (b ++ ')' :: c)) :
    parameterOffsets label = [] := by
  rw [parameterOffsets]
  split
  · rfl
  · next name rest hopen =>
    split
    · rfl
    · next inner after hclose =>
      obtain ⟨-, hrest⟩ := splitLast_eq_some hclose
      exact absurd ⟨name, inner, after, by rw [(splitOnce_eq_some hopen).2, hrest]⟩ h

/-- What is between columns of a text that is encoded. -/
def unitsAt (label : List Char) (columns : Nat × Nat) : List Nat :=
  (utf16 label).extract columns.1 columns.2

theorem Lists.forall₂_spans (h : Lists label front inner back) :
    List.Forall₂ (Spans (front ++ ['(']) inner) (numberedPieces 0 (splitAll ',' inner))
      (parameterOffsets label) := by
  have hspans := @forall₂_pieceColumns (front ++ ['(']) inner [] inner rfl
  rwa [List.append_nil, ← h.parameterOffsets_eq] at hspans

theorem Lists.of_spans (h : Lists label front inner back) {p : List Char × Nat} {columns : Nat × Nat}
    (hs : Spans (front ++ ['(']) inner p columns) :
    unitsAt label columns = utf16 p.1 ∧ columns.1 < columns.2 ∧ columns.2 ≤ unitLength label := by
  obtain ⟨hp, before, after, hinner, -, rfl⟩ := hs
  have hlabel : label = (front ++ ['('] ++ before) ++ p.1 ++ (after ++ ')' :: back) := by
    rw [h.eq, hinner]
    simp
  obtain ⟨c, s, hcs⟩ := List.exists_cons_of_ne_nil hp
  have hpos : 0 < unitLength p.1 := by
    have := unitSize_pos c
    rw [hcs, unitLength]
    omega
  refine ⟨?_, Nat.lt_add_of_pos_right hpos, ?_⟩
  · rw [unitsAt, hlabel, extract_utf16]
  · rw [hlabel, unitLength_append (_ ++ p.1), unitLength_append _ p.1]
    exact Nat.le_add_right _ _

theorem Lists.map_unitsAt (h : Lists label front inner back) :
    (parameterOffsets label).map (unitsAt label) = (parameters inner).map utf16 := by
  have hsame : List.Forall₂ (· = ·) ((numberedPieces 0 (splitAll ',' inner)).map (utf16 ·.1))
      ((parameterOffsets label).map (unitsAt label)) := by
    rw [List.forall₂_map_left_iff, List.forall₂_map_right_iff]
    exact h.forall₂_spans.imp fun p columns hs => (h.of_spans hs).1.symm
  rw [List.forall₂_eq_eq_eq] at hsame
  rw [← hsame, ← map_fst_numberedPieces 0, List.map_map]
  rfl

theorem exists_spans {ps : List (List Char × Nat)} {all : List (Nat × Nat)}
    (h : List.Forall₂ (Spans front inner) ps all) {columns : Nat × Nat} (hc : columns ∈ all) :
    ∃ p, Spans front inner p columns := by
  induction h with
  | nil => cases hc
  | cons hs _ ih =>
    obtain rfl | hc := List.mem_cons.1 hc
    · exact ⟨_, hs⟩
    · exact ih hc

theorem columns_of_mem {columns : Nat × Nat} (hc : columns ∈ parameterOffsets label) :
    columns.1 < columns.2 ∧ columns.2 ≤ unitLength label := by
  by_cases h : ∃ a b c, label = a ++ '(' :: (b ++ ')' :: c)
  · obtain ⟨front, inner, back, hlists⟩ := exists_lists h
    obtain ⟨p, hs⟩ := exists_spans hlists.forall₂_spans hc
    exact (hlists.of_spans hs).2
  · rw [parameterOffsets_eq_nil h] at hc
    cases hc

theorem pairwise_parameterOffsets (label : List Char) :
    (parameterOffsets label).Pairwise fun a b => a.2 < b.1 := by
  by_cases h : ∃ a b c, label = a ++ '(' :: (b ++ ')' :: c)
  · obtain ⟨front, inner, back, hlists⟩ := exists_lists h
    rw [hlists.parameterOffsets_eq]
    exact (pieceColumns_ordered _ _).2
  · rw [parameterOffsets_eq_nil h]
    exact .nil

/-- The columns of the parameters of a label are there just when a parenthesis is closed after it is
opened. They cut out of the label one after the other the pieces between commas that are not blank, without
the white space around them, and each from its own place. The symbols of a text are those that its
declarations add, and of the header of a declared function the columns cut out the parameters that are on
its line. -/
theorem parameters_exact :
    (∀ label : List Char,
      ((¬ ∃ a b c, label = a ++ '(' :: (b ++ ')' :: c)) → parameterOffsets label = []) ∧
      ((∃ a b c, label = a ++ '(' :: (b ++ ')' :: c)) → ∃ front inner back,
        Lists label front inner back ∧
        List.Forall₂ (Spans (front ++ ['(']) inner) (numberedPieces 0 (splitAll ',' inner))
          (parameterOffsets label) ∧
        (parameterOffsets label).map (unitsAt label) = (parameters inner).map utf16) ∧
      (∀ columns ∈ parameterOffsets label, columns.1 < columns.2 ∧ columns.2 ≤ unitLength label) ∧
      (parameterOffsets label).Pairwise fun a b => a.2 < b.1) ∧
    ∀ text fileModule : String,
      extractSymbols text fileModule = (textOrigins text fileModule).map (·.2) ∧
      ((∀ c ∈ fileModule.toList, Declaration.isDotted c = true) →
        ∀ target params isLocal description line s,
          (.declare (.function target params isLocal) description line, s) ∈
            textOrigins text fileModule →
        ∃ source front inner back, (lines text.toList)[s.line]? = some source ∧
          Lists s.header.toList front inner back ∧ parameters inner = declaredParameters source ∧
          (parameterOffsets s.header.toList).map (unitsAt s.header.toList) =
            (declaredParameters source).map utf16) := by
  refine ⟨fun label => ⟨parameterOffsets_eq_nil, fun h => ?_, fun _ => columns_of_mem,
    pairwise_parameterOffsets label⟩, fun text fileModule => ⟨extractSymbols_eq_origins text fileModule,
      fun hm target params isLocal description line s hs => ?_⟩⟩
  · obtain ⟨front, inner, back, hlists⟩ := exists_lists h
    exact ⟨front, inner, back, hlists, hlists.forall₂_spans, hlists.map_unitsAt⟩
  · obtain ⟨⟨title, htitle, hnot⟩, hparams⟩ := calls_of_mem_textOrigins hm hs
    have hlists : Lists s.header.toList title params [] := ⟨htitle, hnot, List.not_mem_nil⟩
    have hsource := (placed_of_mem_textActs (mem_textActs_of_mem_textOrigins hs)).1
    refine ⟨line.2, title, params, [], ?_, hlists, hparams, ?_⟩
    · rw [(Extraction.place_of_mem_origins hs).1]
      exact hsource
    · rw [hlists.map_unitsAt, hparams]

/-- A label with blank pieces, parentheses in the list, and characters of two units. -/
def awkwardLabel : List Char := "𝒇(é, , (x) ,y) + 1".toList

/-- A function with a list of parameters that is not tidy. -/
def drawText : String := "function M.draw( 𝑎 ,, b(c )\nend\nreturn M\n"

def drawSymbol : Symbol where
  name := "draw"
  owner := "lib.util"
  kind := .function
  locator := "function M.draw( 𝑎 ,, b(c )"
  line := 0
  doc := "lib.util.draw(𝑎, b(c)"

def drawAct : Extraction.Act :=
  .declare (.function "M.draw".toList "𝑎, b(c".toList false) []
    (0, "function M.draw( 𝑎 ,, b(c )".toList)

theorem parameters_exact_awkward :
    parameterOffsets awkwardLabel = [(3, 4), (8, 11), (13, 14)] ∧
    (∃ front inner back, Lists awkwardLabel front inner back ∧
      (parameterOffsets awkwardLabel).map (unitsAt awkwardLabel) = (parameters inner).map utf16) ∧
    (drawAct, drawSymbol) ∈ textOrigins drawText "lib.util" ∧
    drawSymbol ∈ extractSymbols drawText "lib.util" ∧
    (parameterOffsets drawSymbol.header.toList).map (unitsAt drawSymbol.header.toList) =
      ["𝑎".toList, "b(c".toList].map utf16 := by
  have hlist : ∃ a b c, awkwardLabel = a ++ '(' :: (b ++ ')' :: c) :=
    ⟨"𝒇".toList, "é, , (x) ,y".toList, " + 1".toList, by decide⟩
  have hm : ∀ c ∈ "lib.util".toList, Declaration.isDotted c = true := List.all_eq_true.1 (by decide)
  have hs : (drawAct, drawSymbol) ∈ textOrigins drawText "lib.util" := by decide +kernel
  obtain ⟨front, inner, back, hlists, -, hunits⟩ := (parameters_exact.1 awkwardLabel).2.1 hlist
  obtain ⟨hsymbols, hdeclared⟩ := parameters_exact.2 drawText "lib.util"
  obtain ⟨source, -, -, -, hsource, -, -, hdrawn⟩ := hdeclared hm _ _ _ _ _ _ hs
  refine ⟨by decide, ⟨front, inner, back, hlists, hunits⟩, hs, ?_, ?_⟩
  · rw [hsymbols]
    exact List.mem_map_of_mem hs
  have hsame : source = drawAct.line.2 := by
    have hat : (lines drawText.toList)[drawSymbol.line]? = some drawAct.line.2 := by decide +kernel
    exact Option.some.inj (hsource.symm.trans hat)
  rw [hdrawn, hsame]
  decide

end Query

end LuaLens
