import Mathlib.Data.Fin.SuccPred
import Mathlib.Data.List.Nodup

/-!
Keeping the first of each key in a list. Places tell what is kept even when a list has the same thing
twice.
-/

namespace LuaLens

variable {α β : Type} {p q : α → Prop} {key : α → β} {all chosen : List α} {a : α}

/-- Whether what stands at a place is the first with a property that has its key. -/
def IsFirstAt (p : α → Prop) (key : α → β) (all : List α) (i : Fin all.length) : Prop :=
  p all[i] ∧ ∀ j < i, p all[j] → key all[j] ≠ key all[i]

/-- Whether a list has the first of each key among all that have a property, in their order. -/
def IsFirstOfEach (p : α → Prop) (key : α → β) (all chosen : List α) : Prop :=
  ∃ places : List (Fin all.length), places.Pairwise (· < ·) ∧ chosen = places.map (all[·]) ∧
    ∀ i, i ∈ places ↔ IsFirstAt p key all i

theorem isFirstAt_zero : IsFirstAt p key (a :: all) (0 : Fin (all.length + 1)) ↔ p a :=
  ⟨And.left, fun h => ⟨h, fun j hj => absurd hj (Fin.not_lt_zero j)⟩⟩

theorem isFirstAt_succ {i : Fin all.length} : IsFirstAt p key (a :: all) i.succ ↔
    (p a → key a ≠ key all[i]) ∧ IsFirstAt p key all i := by
  constructor
  · rintro ⟨hi, hfirst⟩
    exact ⟨hfirst (0 : Fin (all.length + 1)) (Fin.succ_pos i), hi, fun j hj =>
      hfirst j.succ (Fin.succ_lt_succ_iff.2 hj)⟩
  · rintro ⟨hzero, hi, hfirst⟩
    refine ⟨hi, fun j hj => ?_⟩
    cases (j : Fin (all.length + 1)) using Fin.cases with
    | zero => exact hzero
    | succ j => exact hfirst j (Fin.succ_lt_succ_iff.1 hj)

namespace IsFirstOfEach

theorem nil : IsFirstOfEach p key [] [] := ⟨[], .nil, rfl, fun i => i.elim0⟩

theorem congr (h : IsFirstOfEach p key all chosen) (hpq : ∀ a, p a ↔ q a) :
    IsFirstOfEach q key all chosen := by
  obtain rfl : p = q := funext fun a => propext (hpq a)
  exact h

/-- What stands in front and has the property is the first of its key, and hides all later ones. -/
theorem cons_of_pos (ha : p a) (h : IsFirstOfEach (fun b => p b ∧ key b ≠ key a) key all chosen) :
    IsFirstOfEach p key (a :: all) (a :: chosen) := by
  obtain ⟨places, hsorted, rfl, hmem⟩ := h
  refine ⟨0 :: places.map Fin.succ, ?_, ?_, fun i => ?_⟩
  · rw [List.pairwise_cons, List.pairwise_map]
    refine ⟨fun i hi => ?_, hsorted.imp Fin.succ_lt_succ_iff.2⟩
    obtain ⟨j, -, rfl⟩ := List.mem_map.1 hi
    exact Fin.succ_pos j
  · rw [List.map_cons, List.map_map]
    rfl
  · cases i using Fin.cases with
    | zero => simpa [isFirstAt_zero] using ha
    | succ i =>
      have htail : i.succ ∈ 0 :: places.map Fin.succ ↔ i ∈ places := by
        simp [Fin.succ_ne_zero, Fin.succ_inj]
      rw [htail, hmem, isFirstAt_succ]
      constructor
      · rintro ⟨⟨hi, hne⟩, hfirst⟩
        refine ⟨fun _ => hne.symm, hi, fun j hj hp => ?_⟩
        by_cases hkey : key all[j] = key a
        · exact fun heq => hne (heq.symm.trans hkey)
        · exact hfirst j hj ⟨hp, hkey⟩
      · rintro ⟨hne, hi, hfirst⟩
        exact ⟨⟨hi, (hne ha).symm⟩, fun j hj hp => hfirst j hj hp.1⟩

/-- What stands in front and does not have the property hides nothing. -/
theorem cons_of_neg (ha : ¬p a) (h : IsFirstOfEach p key all chosen) :
    IsFirstOfEach p key (a :: all) chosen := by
  obtain ⟨places, hsorted, rfl, hmem⟩ := h
  refine ⟨places.map Fin.succ, ?_, ?_, fun i => ?_⟩
  · rw [List.pairwise_map]
    exact hsorted.imp Fin.succ_lt_succ_iff.2
  · rw [List.map_map]
    rfl
  · cases i using Fin.cases with
    | zero => simpa [Fin.succ_ne_zero, isFirstAt_zero] using ha
    | succ i =>
      have htail : i.succ ∈ places.map Fin.succ ↔ i ∈ places := by simp [Fin.succ_inj]
      rw [htail, hmem, isFirstAt_succ]
      exact ⟨fun h => ⟨fun hp => absurd hp ha, h⟩, And.right⟩

theorem sublist (h : IsFirstOfEach p key all chosen) : chosen.Sublist all := by
  obtain ⟨places, hsorted, rfl, -⟩ := h
  exact List.map_getElem_sublist hsorted

theorem pairwise_ne (h : IsFirstOfEach p key all chosen) :
    chosen.Pairwise fun a b => key a ≠ key b := by
  obtain ⟨places, hsorted, rfl, hmem⟩ := h
  rw [List.pairwise_map]
  refine hsorted.imp_of_mem fun {i j} hi hj hlt => ?_
  exact ((hmem j).1 hj).2 i hlt ((hmem i).1 hi).1

theorem of_mem (h : IsFirstOfEach p key all chosen) (ha : a ∈ chosen) : p a := by
  obtain ⟨places, -, rfl, hmem⟩ := h
  obtain ⟨i, hi, rfl⟩ := List.mem_map.1 ha
  exact ((hmem i).1 hi).1

/-- No key gets lost. -/
theorem exists_key_eq (h : IsFirstOfEach p key all chosen) (ha : a ∈ all) (hp : p a) :
    ∃ b ∈ chosen, key b = key a := by
  obtain ⟨places, -, rfl, hmem⟩ := h
  obtain ⟨n, hn, rfl⟩ := List.mem_iff_getElem.1 ha
  -- The least place with the key is one of those that are read off.
  induction n using Nat.strong_induction_on with
  | _ n ih =>
    by_cases hfirst : ∀ j < (⟨n, hn⟩ : Fin all.length), p all[j] → key all[j] ≠ key all[n]
    · exact ⟨_, List.mem_map_of_mem ((hmem ⟨n, hn⟩).2 ⟨hp, hfirst⟩), rfl⟩
    · push Not at hfirst
      obtain ⟨j, hj, hpj, hkey⟩ := hfirst
      obtain ⟨b, hb, heq⟩ := ih j hj j.isLt (List.getElem_mem _) hpj
      exact ⟨b, hb, heq.trans hkey⟩

end IsFirstOfEach

end LuaLens
