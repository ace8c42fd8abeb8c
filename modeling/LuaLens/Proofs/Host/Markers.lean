import LuaLens.Host.Markers
import LuaLens.Proofs.Host.Layout
import LuaLens.Proofs.Sorting
import LuaLens.Proofs.Text.Units
import Mathlib

/-!
Diagnostics that arrive while a text is on the screen. Whatever sets are published for whatever documents,
the markers are those of the last set of the active one, in the order of the text; the rows below each
line are those of its markers; and the line at the top of the view stays there.
-/

namespace LuaLens

open Text

/-! ### Markers -/

namespace Marker

variable {a b c : Marker}

theorem before_iff : before a b = true ↔ a.line < b.line ∨ a.line = b.line ∧ a.start ≤ b.start := by
  simp [before]

theorem before_trans (a b c : Marker) (h : before a b = true) (h' : before b c = true) :
    before a c = true := by
  rw [before_iff] at h h' ⊢
  omega

theorem before_total (a b : Marker) : (before a b || before b a) = true := by
  rw [Bool.or_eq_true, before_iff, before_iff]
  omega

/-- A marker stays on its line. -/
theorem ofDiagnostic_within (b : Buffer) (d : Diagnostic) :
    (ofDiagnostic b d).start ≤ (ofDiagnostic b d).stop ∧
      (ofDiagnostic b d).stop ≤ b.lineLength (ofDiagnostic b d).line := by
  refine ⟨Nat.le_max_right _ _, Nat.max_le.2 ⟨?_, charsOfUnits_le_length _ _⟩⟩
  split
  · exact Nat.le_refl _
  · exact charsOfUnits_le_length _ _

end Marker

namespace Diagnostics

variable {d : Diagnostics} {b : Buffer} {v : View} {uri : Uri} {set : List Diagnostic}

/-! ### Rows -/

theorem rows_foldl_add (markers : List Marker) (layout : Layout) (line : Nat) :
    (markers.foldl (fun layout m => layout.add m.line m.rows) layout).rows line =
      layout.rows line + ((markers.filter (·.line == line)).map Marker.rows).sum := by
  induction markers generalizing layout with
  | nil => rfl
  | cons m markers ih =>
    rw [List.foldl_cons, ih, Layout.rows_add]
    by_cases h : m.line = line
    · rw [if_pos h.symm, List.filter_cons_of_pos (by simpa using h), List.map_cons, List.sum_cons,
        Nat.add_assoc]
    · rw [if_neg (Ne.symm h), List.filter_cons_of_neg (by simpa using h), Nat.add_zero]

/-- The rows below a line are those of its markers. -/
theorem rows_layoutOf (markers : List Marker) (line : Nat) :
    (layoutOf markers).rows line = ((markers.filter (·.line == line)).map Marker.rows).sum := by
  rw [layoutOf, rows_foldl_add]
  exact Nat.zero_add _

theorem increasing_layoutOf (markers : List Marker) : (layoutOf markers).Increasing := by
  have hfold (markers : List Marker) (layout : Layout) (h : layout.Increasing) :
      (markers.foldl (fun layout m => layout.add m.line m.rows) layout).Increasing := by
    induction markers generalizing layout with
    | nil => exact h
    | cons m markers ih => exact ih _ (h.add m.line m.rows)
  exact hfold markers [] .nil

/-! ### What is drawn -/

/-- The set of the active document. -/
def shown (d : Diagnostics) : List Diagnostic := (d.active.map d.get).getD []

/-- The markers are those of the active document, and the view has their rows. -/
structure Drawn (d : Diagnostics) (b : Buffer) (v : View) : Prop where
  markers : d.markers = d.project b
  layout : v.layout = layoutOf d.markers

theorem get_update_self (d : Diagnostics) (uri : Uri) (set : List Diagnostic) :
    (d.update uri set).get uri = set := by
  simp [get, update]

theorem lookup_filter_of_ne {other : Uri} (h : other ≠ uri) (sets : List (Uri × List Diagnostic)) :
    (sets.filter (·.1 != uri)).lookup other = sets.lookup other := by
  induction sets with
  | nil => rfl
  | cons e sets ih =>
    obtain ⟨key, set⟩ := e
    rw [List.filter_cons, List.lookup_cons]
    by_cases hk : key = uri
    · have hother : (other == key) = false := by simpa [hk] using h
      rw [if_neg (by simp [hk]), ih, hother]
    · rw [if_pos (by simpa using hk), List.lookup_cons, ih]

theorem get_update_of_ne {other : Uri} (h : other ≠ uri) (d : Diagnostics) (set : List Diagnostic) :
    (d.update uri set).get other = d.get other := by
  have hother : (other == uri) = false := by simpa using h
  rw [get, update, List.lookup_cons, hother, lookup_filter_of_ne h, get]

theorem shown_update (d : Diagnostics) (uri : Uri) (set : List Diagnostic) :
    (d.update uri set).shown = if d.active = some uri then set else d.shown := by
  rw [shown, shown, update]
  cases hactive : d.active with
  | none => simp
  | some other =>
    by_cases h : other = uri
    · subst h
      rw [if_pos rfl]
      exact get_update_self d other set
    · rw [if_neg (by simpa using h)]
      exact get_update_of_ne h d set

theorem project_eq (d : Diagnostics) (b : Buffer) :
    d.project b = (d.shown.map (Marker.ofDiagnostic b)).mergeSort Marker.before := rfl

/-! ### One set -/

/-- What a set does when it is published: it is drawn when its document is the active one, and nothing on
the screen changes otherwise. -/
theorem publish_cases (d : Diagnostics) (uri : Uri) (set : List Diagnostic) (b : Buffer) (v : View) :
    d.active = some uri ∧ d.publish uri set b v =
        ({ d.update uri set with markers := (d.update uri set).project b },
          v.setLayout (layoutOf ((d.update uri set).project b)), true) ∨
      d.active ≠ some uri ∧ d.publish uri set b v = (d.update uri set, v, false) := by
  by_cases h : d.active = some uri
  · exact .inl ⟨h, by simp [publish, redraw, h]⟩
  · exact .inr ⟨h, by simp [publish, h]⟩

/-- The diagnostics and the view after a set was published. -/
def receive (b : Buffer) (s : Diagnostics × View) (call : Uri × List Diagnostic) : Diagnostics × View :=
  let (d, v, _) := s.1.publish call.1 call.2 b s.2
  (d, v)

theorem active_receive (b : Buffer) (s : Diagnostics × View) (call : Uri × List Diagnostic) :
    (receive b s call).1.active = s.1.active := by
  obtain ⟨-, h⟩ | ⟨-, h⟩ := s.1.publish_cases call.1 call.2 b s.2
  · rw [receive, h]
    rfl
  · rw [receive, h]
    rfl

theorem shown_receive (b : Buffer) (s : Diagnostics × View) (call : Uri × List Diagnostic) :
    (receive b s call).1.shown = if s.1.active = some call.1 then call.2 else s.1.shown := by
  rw [← shown_update]
  obtain ⟨-, h⟩ | ⟨-, h⟩ := s.1.publish_cases call.1 call.2 b s.2
  · rw [receive, h]
    rfl
  · rw [receive, h]

theorem Drawn.receive {s : Diagnostics × View} (h : s.1.Drawn b s.2) (call : Uri × List Diagnostic) :
    (Diagnostics.receive b s call).1.Drawn b (Diagnostics.receive b s call).2 := by
  obtain ⟨hactive, hp⟩ | ⟨hactive, hp⟩ := s.1.publish_cases call.1 call.2 b s.2
  · rw [Diagnostics.receive, hp]
    exact ⟨rfl, rfl⟩
  · rw [Diagnostics.receive, hp]
    refine ⟨?_, h.layout⟩
    have hshown := shown_update s.1 call.1 call.2
    rw [if_neg hactive] at hshown
    rw [project_eq, hshown]
    exact h.markers

/-- The line at the top stays there. The top moves up within its annotation if that has fewer rows
now, and never down. -/
theorem Drawn.place_receive {s : Diagnostics × View} (h : s.1.Drawn b s.2)
    (call : Uri × List Diagnostic) :
    (Diagnostics.receive b s call).2.place = (s.2.place.1,
      min s.2.place.2 ((Diagnostics.receive b s call).2.layout.rows s.2.place.1)) := by
  obtain ⟨hactive, hp⟩ | ⟨hactive, hp⟩ := s.1.publish_cases call.1 call.2 b s.2
  · rw [Diagnostics.receive, hp]
    exact s.2.place_setLayout (increasing_layoutOf _)
  · have hinc : s.2.layout.Increasing := h.layout ▸ increasing_layoutOf _
    rw [Diagnostics.receive, hp]
    refine Prod.ext rfl ?_
    exact (Nat.min_eq_left (Layout.visualLine_lineAt hinc s.2.top).1).symm

/-! ### All sets -/

/-- The diagnostics and the view after sets were published one after the other. -/
def receiveAll (b : Buffer) (s : Diagnostics × View) (calls : List (Uri × List Diagnostic)) :
    Diagnostics × View := calls.foldl (receive b) s

/-- The set that was published last for the active document, or else the one it had. -/
def lastShown (d : Diagnostics) (calls : List (Uri × List Diagnostic)) : List Diagnostic :=
  calls.foldl (fun set call => if d.active = some call.1 then call.2 else set) d.shown

theorem receiveAll_concat (b : Buffer) (s : Diagnostics × View) (calls : List (Uri × List Diagnostic))
    (call : Uri × List Diagnostic) :
    receiveAll b s (calls ++ [call]) = receive b (receiveAll b s calls) call := by
  rw [receiveAll, List.foldl_concat, receiveAll]

theorem Drawn.receiveAll {s : Diagnostics × View} (h : s.1.Drawn b s.2)
    (calls : List (Uri × List Diagnostic)) :
    (receiveAll b s calls).1.Drawn b (receiveAll b s calls).2 ∧
      (receiveAll b s calls).1.active = s.1.active ∧
      (receiveAll b s calls).1.shown = s.1.lastShown calls ∧
      (receiveAll b s calls).2.place.1 = s.2.place.1 := by
  induction calls using List.reverseRecOn with
  | nil => exact ⟨h, rfl, rfl, rfl⟩
  | append_singleton calls call ih =>
    obtain ⟨hdrawn, hactive, hshown, htop⟩ := ih
    rw [receiveAll_concat]
    refine ⟨hdrawn.receive call, (active_receive _ _ _).trans hactive, ?_, ?_⟩
    · rw [shown_receive, hactive, hshown, lastShown, lastShown, List.foldl_concat]
    · rw [hdrawn.place_receive call]
      exact htop

/-- With the markers and the view drawn, and whatever sets are published: the markers are those of the set
published last for the active document, sorted by line and start, and as published where these are the
same; each stays on its line; the rows below a line are those of its markers; the line at the top of the
view is the same as before; and with each further set the top is as far below that line as it was, or as
far as there are rows now. -/
theorem published_exact {d : Diagnostics} {b : Buffer} {v : View} (h : d.Drawn b v)
    (calls : List (Uri × List Diagnostic)) :
    let s := receiveAll b (d, v) calls
    let found := (d.lastShown calls).map (Marker.ofDiagnostic b)
    s.1.markers.Perm found ∧
      s.1.markers.Pairwise (fun m n => m.line < n.line ∨ m.line = n.line ∧ m.start ≤ n.start) ∧
      (∀ line start, s.1.markers.filter (fun m => m.line == line && m.start == start) =
        found.filter fun m => m.line == line && m.start == start) ∧
      (∀ m ∈ s.1.markers, m.start ≤ m.stop ∧ m.stop ≤ b.lineLength m.line) ∧
      (∀ line, s.2.layout.rows line =
        ((s.1.markers.filter (·.line == line)).map Marker.rows).sum) ∧
      s.2.place.1 = v.place.1 ∧
      ∀ call, (receiveAll b (d, v) (calls ++ [call])).2.place.2 =
        min s.2.place.2 ((receiveAll b (d, v) (calls ++ [call])).2.layout.rows v.place.1) := by
  intro s found
  obtain ⟨hdrawn, -, hshown, htop⟩ := Drawn.receiveAll (s := (d, v)) h calls
  have hmarkers : s.1.markers = found.mergeSort Marker.before := by
    rw [hdrawn.markers, project_eq, hshown]
  have hperm : s.1.markers.Perm found := hmarkers ▸ List.mergeSort_perm _ _
  refine ⟨hperm, ?_, ?_, ?_, ?_, htop, ?_⟩
  · rw [hmarkers]
    refine (List.pairwise_mergeSort Marker.before_trans Marker.before_total found).imp fun hmn => ?_
    exact Marker.before_iff.1 hmn
  · intro line start
    rw [hmarkers]
    refine filter_mergeSort Marker.before_trans Marker.before_total (fun m n hm hn => ?_) found
    simp only [Bool.and_eq_true, beq_iff_eq] at hm hn
    rw [Marker.before_iff]
    omega
  · intro m hm
    obtain ⟨diagnostic, -, rfl⟩ := List.mem_map.1 (hperm.subset hm)
    exact Marker.ofDiagnostic_within b diagnostic
  · intro line
    rw [hdrawn.layout, rows_layoutOf]
  · intro call
    rw [receiveAll_concat, hdrawn.place_receive call, htop]

/-- A finding on one line. -/
def finding (line start stop : Nat) (message : String) : Diagnostic :=
  { range := .onLine line start stop, severity := none, message, document := .null }

/-- The identifiers of two documents, of which the first is on the screen. -/
def seen : Uri := { scheme := "file", authority := some "", path := "/a.lua" }

def unseen : Uri := { scheme := "file", authority := some "", path := "/b.lua" }

def verse : Buffer := .ofText "one\ntwo\nthree"

/-- A view with its top on the last of the three rows below the second line. -/
def fresh : Diagnostics × View :=
  let (d, v) := redraw { sets := [(seen, [finding 1 0 3 "a\nb\nc"])], active := some seen } verse
    { rows := 10, columns := 80 }
  (d, { v with top := 4 })

/-- The annotation at the top loses a row, and another one appears above it. -/
def shrinking : List (Uri × List Diagnostic) :=
  [(unseen, [finding 0 0 1 "x"]), (seen, [finding 1 9 12 "d", finding 0 1 2 "e", finding 1 9 9 "f"])]

/-- The top stays at its line, on the last row that is left. -/
theorem published_exact_shrinking :
    fresh.2.place = (1, 3) ∧ (receiveAll verse fresh shrinking).2.place = (1, 2) ∧
      ∀ m ∈ (receiveAll verse fresh shrinking).1.markers, m.stop ≤ verse.lineLength m.line := by
  have hdrawn : fresh.1.Drawn verse fresh.2 := ⟨rfl, rfl⟩
  have hplace : fresh.2.place = (1, 3) := by decide +kernel
  obtain ⟨-, -, -, hwithin, -, hline, -⟩ := published_exact hdrawn shrinking
  obtain ⟨-, -, -, -, -, -, hbelow⟩ := published_exact hdrawn [(unseen, [finding 0 0 1 "x"])]
  refine ⟨hplace, Prod.ext ?_ ?_, fun m hm => (hwithin m hm).2⟩
  · rw [hline, hplace]
  · refine (hbelow (seen, [finding 1 9 12 "d", finding 0 1 2 "e", finding 1 9 9 "f"])).trans ?_
    cbv

end Diagnostics

end LuaLens
