import LuaLens.Host.View
import Mathlib.Tactic.SplitIfs

/-!
Rows and lines. In a layout whose lines increase, the first row of a line and the line at a row are
inverse to each other, so that another layout keeps the line at the top of a view. No difference that is
taken on the way to a line goes below zero, and a place that is revealed is on the screen.
-/

namespace LuaLens

namespace Layout

variable {layout : Layout} {line n l : Nat}

/-! ### Rows below a line -/

theorem rows_cons (line n l : Nat) (rest : Layout) :
    rows ((line, n) :: rest) l = if l = line then n else rows rest l := by
  rw [rows, List.lookup_cons, rows]
  split <;> simp_all

theorem rows_put (layout : Layout) (line n l : Nat) :
    (put line n layout).rows l = if l = line then n else layout.rows l := by
  induction layout with
  | nil => rw [put, rows_cons]
  | cons e rest ih =>
    obtain ⟨m, k⟩ := e
    rw [put]
    by_cases hlt : line < m
    · rw [if_pos hlt, rows_cons]
    · rw [if_neg hlt]
      by_cases heq : line = m
      · rw [if_pos heq, rows_cons, rows_cons, heq]
        split <;> rfl
      · rw [if_neg heq, rows_cons, rows_cons, ih]
        by_cases hl : l = line
        · rw [if_pos hl, if_pos hl, if_neg (by omega)]
        · rw [if_neg hl, if_neg hl]

theorem rows_add (layout : Layout) (line n l : Nat) :
    (layout.add line n).rows l = layout.rows l + if l = line then n else 0 := by
  rw [add, rows_put]
  split_ifs with h
  · rw [h]
  · rfl

/-! ### Layouts in order -/

/-- The lines increase, so that none stands twice. -/
def Increasing (layout : Layout) : Prop := layout.Pairwise fun a b => a.1 < b.1

theorem increasing_cons {rest : Layout} :
    Increasing ((line, n) :: rest) ↔ (∀ e ∈ rest, line < e.1) ∧ rest.Increasing :=
  List.pairwise_cons

theorem mem_of_mem_put {e : Nat × Nat} (h : e ∈ put line n layout) : e.1 = line ∨ e ∈ layout := by
  induction layout with
  | nil =>
    obtain rfl := List.mem_singleton.1 h
    exact .inl rfl
  | cons d rest ih =>
    obtain ⟨m, k⟩ := d
    rw [put] at h
    split_ifs at h with hlt heq
    · exact (List.mem_cons.1 h).imp_left (congrArg Prod.fst)
    · exact (List.mem_cons.1 h).imp (congrArg Prod.fst) (List.mem_cons_of_mem _)
    · obtain rfl | h := List.mem_cons.1 h
      · exact .inr List.mem_cons_self
      · exact (ih h).imp_right (List.mem_cons_of_mem _)

theorem Increasing.put (h : layout.Increasing) (line n : Nat) : (layout.put line n).Increasing := by
  induction layout with
  | nil => exact List.pairwise_singleton _ _
  | cons e rest ih =>
    obtain ⟨m, k⟩ := e
    obtain ⟨hm, hrest⟩ := increasing_cons.1 h
    rw [Layout.put]
    split_ifs with hlt heq
    · refine increasing_cons.2 ⟨List.forall_mem_cons.2 ⟨hlt, fun e he => ?_⟩, h⟩
      exact Nat.lt_trans hlt (hm e he)
    · exact increasing_cons.2 ⟨heq ▸ hm, hrest⟩
    · refine increasing_cons.2 ⟨fun e he => ?_, ih hrest⟩
      obtain he | he := mem_of_mem_put he
      · omega
      · exact hm e he

theorem Increasing.add (h : layout.Increasing) (line n : Nat) : (layout.add line n).Increasing :=
  h.put line _

/-- Whatever lines and rows it is made of, a layout is in order. -/
theorem increasing_ofPairs (pairs : List (Nat × Nat)) : (ofPairs pairs).Increasing := by
  have hfold (layout : Layout) (h : layout.Increasing) :
      (pairs.foldl (fun layout e => layout.put e.1 e.2) layout).Increasing := by
    induction pairs generalizing layout with
    | nil => exact h
    | cons e pairs ih => exact ih _ (h.put e.1 e.2)
  exact hfold [] .nil

theorem rows_eq_zero (h : ∀ e ∈ layout, l < e.1) : layout.rows l = 0 := by
  induction layout with
  | nil => rfl
  | cons e rest ih =>
    obtain ⟨he, hrest⟩ := List.forall_mem_cons.1 h
    rw [rows_cons, if_neg (Nat.ne_of_lt he), ih hrest]

/-! ### First rows -/

theorem visualLine_cons (line n l : Nat) (rest : Layout) :
    visualLine ((line, n) :: rest) l = (if line < l then n else 0) + visualLine rest l := by
  change (if line < l then n + visualLine rest l else visualLine rest l) = _
  split_ifs
  · rfl
  · rw [Nat.zero_add]

theorem le_visualLine (layout : Layout) (l : Nat) : l ≤ layout.visualLine l := by
  induction layout with
  | nil => exact Nat.le_refl l
  | cons e rest ih =>
    obtain ⟨m, k⟩ := e
    rw [visualLine_cons]
    omega

/-- Above the first annotated line rows are lines. -/
theorem visualLine_eq_self (h : ∀ e ∈ layout, l ≤ e.1) : layout.visualLine l = l := by
  induction layout with
  | nil => rfl
  | cons e rest ih =>
    obtain ⟨he, hrest⟩ := List.forall_mem_cons.1 h
    rw [visualLine_cons, if_neg (Nat.not_lt.2 he), ih hrest, Nat.zero_add]

/-! ### Lines at rows -/

theorem lineFrom_visualLine {below : Nat} (h : layout.Increasing) (hb : below ≤ layout.rows line)
    (consumed : Nat) :
    lineFrom consumed (consumed + layout.visualLine line + below) layout = (line, below) := by
  induction layout generalizing consumed with
  | nil =>
    have hzero : below = 0 := Nat.le_zero.1 hb
    rw [lineFrom, hzero]
    simp [visualLine]
  | cons e rest ih =>
    obtain ⟨m, k⟩ := e
    obtain ⟨hm, hrest⟩ := increasing_cons.1 h
    rw [rows_cons] at hb
    rw [lineFrom, visualLine_cons]
    obtain hlt | rfl | hgt := Nat.lt_trichotomy m line
    · -- The rows of the first annotation stand above the line.
      have hle := le_visualLine rest line
      rw [if_neg (by omega)] at hb
      rw [if_pos hlt, if_neg (by omega), if_neg (by omega), ← ih hrest hb (consumed + k)]
      congr 1
      omega
    · rw [if_pos rfl] at hb
      rw [if_neg (Nat.lt_irrefl _), visualLine_eq_self fun e he => Nat.le_of_lt (hm e he),
        if_neg (by omega), if_pos (by omega)]
      congr 1
      omega
    · have hrows := rows_eq_zero fun e he => Nat.lt_trans hgt (hm e he)
      rw [if_neg (by omega), hrows] at hb
      rw [if_neg (Nat.not_lt.2 (Nat.le_of_lt hgt)),
        visualLine_eq_self fun e he => Nat.le_of_lt (Nat.lt_trans hgt (hm e he)), if_pos (by omega)]
      congr 1 <;> omega

/-- The row so many rows below the first one of a line shows that place. -/
theorem lineAt_visualLine {below : Nat} (h : layout.Increasing) (hb : below ≤ layout.rows line) :
    layout.lineAt (layout.visualLine line + below) = (line, below) := by
  have hfrom := lineFrom_visualLine h hb 0
  rwa [Nat.zero_add] at hfrom

theorem visualLine_lineFrom (consumed row low : Nat) (h : layout.Increasing)
    (hlow : ∀ e ∈ layout, low ≤ e.1) (hrow : consumed + low ≤ row) :
    low ≤ (lineFrom consumed row layout).1 ∧
      (lineFrom consumed row layout).2 ≤ layout.rows (lineFrom consumed row layout).1 ∧
      consumed + layout.visualLine (lineFrom consumed row layout).1 +
        (lineFrom consumed row layout).2 = row := by
  induction layout generalizing consumed low with
  | nil =>
    simp only [lineFrom, rows, visualLine, List.foldr_nil]
    omega
  | cons e rest ih =>
    obtain ⟨m, k⟩ := e
    obtain ⟨hm, hrest⟩ := increasing_cons.1 h
    have hfirst : low ≤ m := hlow (m, k) List.mem_cons_self
    rw [lineFrom]
    split_ifs with hbefore hinside
    · have hself : visualLine ((m, k) :: rest) (row - consumed) = row - consumed := by
        refine visualLine_eq_self (List.forall_mem_cons.2 ⟨by omega, fun e he => ?_⟩)
        have := hm e he
        omega
      simp only [hself]
      omega
    · have hself : visualLine ((m, k) :: rest) m = m :=
        visualLine_eq_self (List.forall_mem_cons.2 ⟨Nat.le_refl m, fun e he => Nat.le_of_lt (hm e he)⟩)
      simp only [hself, rows_cons, ↓reduceIte]
      omega
    · -- The row lies below the first annotation, and so does its line.
      obtain ⟨hl, hb, hsum⟩ := ih (consumed + k) (m + 1) hrest hm (by omega)
      rw [rows_cons, if_neg (by omega), visualLine_cons, if_pos (by omega)]
      omega

/-- The place at a row is within the annotation of its line, and stands at that row. -/
theorem visualLine_lineAt (h : layout.Increasing) (row : Nat) :
    (layout.lineAt row).2 ≤ layout.rows (layout.lineAt row).1 ∧
      layout.visualLine (layout.lineAt row).1 + (layout.lineAt row).2 = row := by
  obtain ⟨-, hb, hsum⟩ := visualLine_lineFrom 0 row 0 h (fun _ _ => Nat.zero_le _)
    (Nat.zero_le _)
  rw [Nat.zero_add] at hsum
  exact ⟨hb, hsum⟩

/-! ### Differences on the way to a line -/

/-- The difference of two numbers, unless it goes below zero. -/
def difference? (a b : Nat) : Option Nat := if b ≤ a then some (a - b) else none

theorem difference?_eq {a b : Nat} (h : b ≤ a) : difference? a b = some (a - b) := if_pos h

/-- The line at a row as `lineFrom` finds it, unless a difference goes below zero. -/
def lineFrom? (consumed row : Nat) : Layout → Option (Nat × Nat)
  | [] => (difference? row consumed).map (·, 0)
  | (line, rows) :: rest =>
    let start := line + consumed
    if row < start then (difference? row consumed).map (·, 0)
    else if row ≤ start + rows then (difference? row start).map (line, ·)
    else lineFrom? (consumed + rows) row rest

/-- The rows that were passed stand above the row that is looked for. -/
theorem lineFrom?_eq {consumed row : Nat} (h : consumed ≤ row) (layout : Layout) :
    lineFrom? consumed row layout = some (lineFrom consumed row layout) := by
  induction layout generalizing consumed with
  | nil =>
    rw [lineFrom?, difference?_eq h]
    rfl
  | cons e rest ih =>
    obtain ⟨m, k⟩ := e
    rw [lineFrom?, lineFrom]
    by_cases hbefore : row < m + consumed
    · rw [if_pos hbefore, if_pos hbefore, difference?_eq h]
      rfl
    · rw [if_neg hbefore, if_neg hbefore]
      by_cases hinside : row ≤ m + consumed + k
      · rw [if_pos hinside, if_pos hinside, difference?_eq (Nat.not_lt.1 hbefore)]
        rfl
      · rw [if_neg hinside, if_neg hinside]
        exact ih (by omega)

/-- The line at a row, unless a difference goes below zero. -/
def lineAt? (layout : Layout) (row : Nat) : Option (Nat × Nat) := lineFrom? 0 row layout

theorem lineAt?_eq (layout : Layout) (row : Nat) : layout.lineAt? row = some (layout.lineAt row) :=
  lineFrom?_eq (Nat.zero_le row) layout

end Layout

namespace View

/-- The line at the top, and how far below the line itself the top is. -/
def place (v : View) : Nat × Nat := v.layout.lineAt v.top

/-- Another layout keeps the line at the top, and the place in its annotation as far as that goes. -/
theorem place_setLayout (v : View) {layout : Layout} (h : layout.Increasing) :
    (v.setLayout layout).place = (v.place.1, min v.place.2 (layout.rows v.place.1)) :=
  Layout.lineAt_visualLine h (Nat.min_le_right _ _)

/-- The first row of a line and a column are on the screen. -/
structure Shows (v : View) (line column : Nat) : Prop where
  top_le : v.top ≤ v.layout.visualLine line
  lt_bottom : v.layout.visualLine line < v.top + v.rows
  left_le : v.left ≤ column
  lt_right : column < v.left + v.columns

theorem shows_reveal {v : View} (hrows : 1 ≤ v.rows) (hcolumns : 1 ≤ v.columns) (line column : Nat) :
    (v.reveal line column).Shows line column := by
  constructor
  all_goals
    simp only [reveal]
    omega

/-- A place is a line and a row of it, the line itself or one of its annotation. Places and rows
correspond to each other in every layout that is in order, no difference goes below zero where the place
at a row is looked for, and in a view with at least a row and a column a place that is revealed is on the
screen. -/
theorem places_and_rows {layout : Layout} (h : layout.Increasing) :
    (∀ line below, below ≤ layout.rows line →
      layout.lineAt (layout.visualLine line + below) = (line, below)) ∧
    (∀ row line below, layout.lineAt row = (line, below) →
      below ≤ layout.rows line ∧ layout.visualLine line + below = row) ∧
    (∀ row, layout.lineAt? row = some (layout.lineAt row)) ∧
    ∀ v : View, 1 ≤ v.rows → 1 ≤ v.columns → ∀ line column,
      (v.reveal line column).Shows line column := by
  refine ⟨fun line below hb => Layout.lineAt_visualLine h hb, fun row line below hat => ?_,
    layout.lineAt?_eq, fun v hrows hcolumns => shows_reveal hrows hcolumns⟩
  have hplace := Layout.visualLine_lineAt h row
  rwa [hat] at hplace

/-- Annotations without rows, on lines side by side and on the first line, given in no order and twice. -/
def mixedLayout : Layout := .ofPairs [(4, 2), (0, 1), (3, 1), (9, 0), (4, 3)]

theorem places_and_rows_mixed :
    mixedLayout.Increasing ∧ 3 ≤ mixedLayout.rows 4 ∧ mixedLayout.lineAt (6 + 3) = (4, 3) ∧
    (∀ row, mixedLayout.lineAt? row = some (mixedLayout.lineAt row)) ∧
    mixedLayout.lineAt 14 = (9, 0) ∧ mixedLayout.visualLine 9 + 0 = 14 ∧
    (View.reveal { rows := 1, columns := 3, layout := mixedLayout } 4 7).Shows 4 7 := by
  have h : mixedLayout.Increasing := Layout.increasing_ofPairs _
  have hrows : 3 ≤ mixedLayout.rows 4 := by decide
  have hat : mixedLayout.lineAt 14 = (9, 0) := by decide
  obtain ⟨hplaces, hback, hfound, hshown⟩ := places_and_rows h
  exact ⟨h, hrows, hplaces 4 3 hrows, hfound, hat, (hback 14 9 0 hat).2,
    hshown { rows := 1, columns := 3, layout := mixedLayout } (Nat.le_refl 1) (by decide) 4 7⟩

end View

end LuaLens
