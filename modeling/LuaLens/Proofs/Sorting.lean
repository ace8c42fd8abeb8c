import Mathlib.Data.List.Nodup
import Mathlib.Data.String.Basic

/-!
Sorting keeps what ties in its order. So lists that are sorted by label are known from what they have of
each label.
-/

namespace LuaLens

/-! ### Ties -/

/-- What is not told apart by the order of a sort stays in its order. -/
theorem filter_mergeSort {α : Type} {le : α → α → Bool} {p : α → Bool}
    (htrans : ∀ a b c, le a b = true → le b c = true → le a c = true)
    (htotal : ∀ a b, (le a b || le b a) = true) (hp : ∀ a b, p a = true → p b = true → le a b = true)
    (l : List α) : (l.mergeSort le).filter p = l.filter p := by
  have hties : (l.filter p).Pairwise fun a b => le a b = true := by
    refine List.Pairwise.imp_of_mem (R := fun _ _ => True) ?_ (List.pairwise_of_forall fun _ _ => trivial)
    intro a b ha hb _
    exact hp a b (List.mem_filter.1 ha).2 (List.mem_filter.1 hb).2
  have hsub := (List.sublist_mergeSort htrans htotal hties List.filter_sublist).filter p
  rw [List.filter_filter] at hsub
  simp only [Bool.and_self] at hsub
  have hlen := ((List.mergeSort_perm l le).filter p).length_eq
  exact (hsub.eq_of_length hlen.symm).symm

/-! ### Sorting by a flag -/

section

variable {α : Type} {flag : α → Bool}

theorem eq_filter_append_filter {l : List α} (h : l.Pairwise fun a b => (flag a || !flag b) = true) :
    l = l.filter flag ++ l.filter (!flag ·) := by
  induction l with
  | nil => rfl
  | cons a l ih =>
    obtain ⟨ha, hl⟩ := List.pairwise_cons.1 h
    cases hflag : flag a with
    | true =>
      rw [List.filter_cons_of_pos hflag, List.filter_cons_of_neg (by simp [hflag]), List.cons_append,
        ← ih hl]
    | false =>
      -- Behind what is not flagged nothing is.
      have hnone (b : α) (hb : b ∈ l) : flag b = false := by simpa [hflag] using ha b hb
      have hempty : l.filter flag = [] := List.filter_eq_nil_iff.2 fun b hb => by simp [hnone b hb]
      have hall : l.filter (!flag ·) = l := List.filter_eq_self.2 fun b hb => by simp [hnone b hb]
      rw [List.filter_cons_of_neg (by simp [hflag]), List.filter_cons_of_pos (by simp [hflag]), hempty,
        hall, List.nil_append]

/-- Sorted by a flag, what has it comes first, and both parts stay in their order. -/
theorem mergeSort_flag (flag : α → Bool) (l : List α) :
    l.mergeSort (fun a b => flag a || !flag b) = l.filter flag ++ l.filter (!flag ·) := by
  have htrans (a b c : α) : (flag a || !flag b) = true → (flag b || !flag c) = true →
      (flag a || !flag c) = true := by
    cases flag a <;> cases flag b <;> simp
  have htotal (a b : α) : ((flag a || !flag b) || (flag b || !flag a)) = true := by
    cases flag a <;> simp
  rw [eq_filter_append_filter (List.pairwise_mergeSort htrans htotal l),
    filter_mergeSort htrans htotal (fun a b ha _ => by simp [ha]),
    filter_mergeSort htrans htotal (fun a b _ hb => by rw [hb, Bool.or_true])]

end

/-! ### Sorting by label -/

section

variable {α : Type} (label : α → String)

/-- The order in which files and entries are sorted. -/
def byLabel (a b : α) : Bool := !(label b < label a)

theorem byLabel_iff {a b : α} : byLabel label a b = true ↔ label a ≤ label b := by
  rw [byLabel, Bool.not_eq_true', decide_eq_false_iff_not, not_lt]

theorem byLabel_trans (a b c : α) (h : byLabel label a b = true) (h' : byLabel label b c = true) :
    byLabel label a c = true := by
  rw [byLabel_iff] at h h' ⊢
  exact le_trans h h'

theorem byLabel_total (a b : α) : (byLabel label a b || byLabel label b a) = true := by
  rw [Bool.or_eq_true, byLabel_iff, byLabel_iff]
  exact le_total _ _

/-- Sorting keeps what has one label in its order. -/
theorem filter_mergeSort_byLabel (l : List α) (k : String) :
    (l.mergeSort (byLabel label)).filter (label · == k) = l.filter (label · == k) := by
  refine filter_mergeSort (byLabel_trans label) (byLabel_total label) (fun a b ha hb => ?_) l
  rw [beq_iff_eq] at ha hb
  rw [byLabel_iff, ha, hb]

theorem pairwise_mergeSort_byLabel (l : List α) :
    (l.mergeSort (byLabel label)).Pairwise fun a b => label a ≤ label b := by
  refine (List.pairwise_mergeSort (byLabel_trans label) (byLabel_total label) l).imp ?_
  intro a b h
  exact (byLabel_iff label).1 h

/-- What is sorted already stays as it is. -/
theorem mergeSort_byLabel_of_pairwise {l : List α} (h : l.Pairwise fun a b => label a ≤ label b) :
    l.mergeSort (byLabel label) = l :=
  List.mergeSort_of_pairwise (h.imp fun hab => (byLabel_iff label).2 hab)

/-- With distinct labels there is one order. -/
theorem mergeSort_byLabel_of_perm {l sorted : List α} (hp : sorted.Perm l)
    (hs : sorted.Pairwise fun a b => label a < label b) : l.mergeSort (byLabel label) = sorted := by
  have hperm := (List.mergeSort_perm l (byLabel label)).trans hp.symm
  refine hperm.eq_of_pairwise ?_ (pairwise_mergeSort_byLabel label l) (hs.imp le_of_lt)
  intro a b ha hb hab hba
  have hnodup : (sorted.map label).Nodup := List.pairwise_map.2 (hs.imp ne_of_lt)
  exact List.inj_on_of_nodup_map hnodup (hperm.subset ha) hb (le_antisymm hab hba)

theorem mem_iff_of_filter {l l' : List α}
    (h : ∀ k, l.filter (label · == k) = l'.filter (label · == k)) (a : α) : a ∈ l ↔ a ∈ l' := by
  have ha := congrArg (a ∈ ·) (h (label a))
  simpa using ha

/-- What is sorted is known from what it has of each label. -/
theorem eq_of_filter_byLabel {l l' : List α} (h : l.Pairwise fun a b => label a ≤ label b)
    (h' : l'.Pairwise fun a b => label a ≤ label b)
    (heq : ∀ k, l.filter (label · == k) = l'.filter (label · == k)) : l = l' := by
  induction l generalizing l' with
  | nil =>
    cases l' with
    | nil => rfl
    | cons b l' => exact absurd ((mem_iff_of_filter label heq b).2 List.mem_cons_self) (by simp)
  | cons a l ih =>
    have hmem := mem_iff_of_filter label heq
    cases l' with
    | nil => exact absurd ((hmem a).1 List.mem_cons_self) (by simp)
    | cons b l' =>
      obtain ⟨ha, hl⟩ := List.pairwise_cons.1 h
      obtain ⟨hb, hl'⟩ := List.pairwise_cons.1 h'
      have hlabel : label a = label b := by
        refine le_antisymm ?_ ?_
        · obtain rfl | hm := List.mem_cons.1 ((hmem b).2 List.mem_cons_self)
          · exact le_refl _
          · exact ha b hm
        · obtain rfl | hm := List.mem_cons.1 ((hmem a).1 List.mem_cons_self)
          · exact le_refl _
          · exact hb a hm
      -- The first of each list is the first of their common label.
      have hfirst := heq (label a)
      rw [List.filter_cons_of_pos (by simp), List.filter_cons_of_pos (by simp [hlabel]),
        List.cons.injEq] at hfirst
      obtain ⟨rfl, -⟩ := hfirst
      have hrest (k : String) : l.filter (label · == k) = l'.filter (label · == k) := by
        have hk := heq k
        by_cases hak : label a = k
        · rw [List.filter_cons_of_pos (by simpa using hak),
            List.filter_cons_of_pos (by simpa using hak)] at hk
          exact List.tail_eq_of_cons_eq hk
        · rwa [List.filter_cons_of_neg (by simpa using hak),
            List.filter_cons_of_neg (by simpa using hak)] at hk
      rw [ih hl hl' hrest]

end

end LuaLens
