import Mathlib.Data.List.Lex
import Mathlib.Data.List.Pairwise
import Mathlib.Data.Prod.Lex
import Mathlib.Data.String.Basic
import LuaLens.Host.Editor

/-!
The servers of an editor as a map. Keys are compared by language and by the components of the root, and
a list in the order of its keys has at most one client for each.
-/

namespace LuaLens

/-! ### Keys -/

namespace ServerKey

/-- What a key is compared by. -/
def place (k : ServerKey) : String ×ₗ List (ℕ ×ₗ String) :=
  toLex (k.language, k.root.components.map fun c => toLex (rank c))

theorem rank_injective : Function.Injective rank := by
  intro a b h
  cases a <;> cases b <;> simp_all [rank]

theorem componentsBefore_iff (as bs : List Path.Component) :
    componentsBefore as bs = true ↔
      as.map (fun c => toLex (rank c)) < bs.map fun c => toLex (rank c) := by
  induction as generalizing bs with
  | nil => cases bs <;> simp [componentsBefore]
  | cons a as ih =>
    cases bs with
    | nil => simp [componentsBefore]
    | cons b bs =>
      rw [componentsBefore, List.map_cons, List.map_cons, List.cons_lt_cons_iff,
        Prod.Lex.toLex_lt_toLex, EmbeddingLike.apply_eq_iff_eq, rank_injective.eq_iff]
      by_cases hab : a = b
      · simp [hab, ih]
      · simp [hab]

theorem before_iff (a b : ServerKey) : a.before b = true ↔ a.place < b.place := by
  simp [before, place, Prod.Lex.toLex_lt_toLex, componentsBefore_iff]

theorem same_iff (a b : ServerKey) : a.same b = true ↔ a.place = b.place := by
  have hcomponents : a.root.components.map (fun c => toLex (rank c)) =
      b.root.components.map (fun c => toLex (rank c)) ↔ a.root.components = b.root.components :=
    (List.map_injective_iff.2 (toLex.injective.comp rank_injective)).eq_iff
  simp [same, place, hcomponents]

end ServerKey

/-! ### Maps -/

namespace Servers

variable {π : Type} {s : Servers π} {k key : ServerKey} {c d : Client π}

/-- Whether the clients stand in the order of their keys. -/
def Sorted (s : Servers π) : Prop := s.Pairwise fun a b => a.1.place < b.1.place

theorem Sorted.erase (h : Sorted s) (key : ServerKey) : Sorted (s.erase key) :=
  h.sublist List.filter_sublist

/-- A client that is put under a key stands in the place of the one before, and the others stay. -/
theorem mem_put (h : Sorted s) (hm : (k, d) ∈ s.put key c) :
    k.place = key.place ∧ d = c ∨ k.place ≠ key.place ∧ (k, d) ∈ s := by
  induction s with
  | nil =>
    obtain ⟨rfl, rfl⟩ : k = key ∧ d = c := by simpa [put] using hm
    exact .inl ⟨rfl, rfl⟩
  | cons first rest ih =>
    obtain ⟨k₁, d₁⟩ := first
    obtain ⟨hfirst, hrest⟩ := List.pairwise_cons.1 h
    rw [put] at hm
    split at hm
    · next hsame =>
      rw [ServerKey.same_iff] at hsame
      obtain he | hm := List.mem_cons.1 hm
      · cases he
        exact .inl ⟨hsame, rfl⟩
      · exact .inr ⟨hsame ▸ (hfirst _ hm).ne', List.mem_cons_of_mem _ hm⟩
    · next hsame =>
      rw [ServerKey.same_iff] at hsame
      split at hm
      · next hbefore =>
        rw [ServerKey.before_iff] at hbefore
        obtain he | hm := List.mem_cons.1 hm
        · cases he
          exact .inl ⟨rfl, rfl⟩
        · refine .inr ⟨?_, hm⟩
          obtain he | hm := List.mem_cons.1 hm
          · cases he
            exact hsame
          · exact (hbefore.trans (hfirst _ hm)).ne'
      · obtain he | hm := List.mem_cons.1 hm
        · cases he
          exact .inr ⟨hsame, by simp⟩
        · obtain h | ⟨hne, hm⟩ := ih hrest hm
          · exact .inl h
          · exact .inr ⟨hne, List.mem_cons_of_mem _ hm⟩

theorem mem_put_self (s : Servers π) (key : ServerKey) (c : Client π) :
    ∃ k, k.place = key.place ∧ (k, c) ∈ s.put key c := by
  induction s with
  | nil => exact ⟨key, rfl, by simp [put]⟩
  | cons first rest ih =>
    obtain ⟨k₁, d₁⟩ := first
    rw [put]
    split
    · next hsame => exact ⟨k₁, (ServerKey.same_iff _ _).1 hsame, by simp⟩
    · split
      · exact ⟨key, rfl, by simp⟩
      · obtain ⟨k, hk, hm⟩ := ih
        exact ⟨k, hk, List.mem_cons_of_mem _ hm⟩

theorem mem_put_of_ne (hm : (k, d) ∈ s) (hk : k.place ≠ key.place) : (k, d) ∈ s.put key c := by
  induction s with
  | nil => cases hm
  | cons first rest ih =>
    obtain ⟨k₁, d₁⟩ := first
    rw [put]
    split
    · next hsame =>
      obtain he | hm := List.mem_cons.1 hm
      · cases he
        exact absurd ((ServerKey.same_iff _ _).1 hsame) hk
      · exact List.mem_cons_of_mem _ hm
    · split
      · exact List.mem_cons_of_mem _ hm
      · obtain he | hm := List.mem_cons.1 hm
        · cases he
          simp
        · exact List.mem_cons_of_mem _ (ih hm)

theorem Sorted.put (h : Sorted s) (key : ServerKey) (c : Client π) : Sorted (s.put key c) := by
  induction s with
  | nil => exact List.pairwise_singleton _ _
  | cons first rest ih =>
    obtain ⟨k₁, d₁⟩ := first
    obtain ⟨hfirst, hrest⟩ := List.pairwise_cons.1 h
    rw [Servers.put]
    split
    · exact List.pairwise_cons.2 ⟨hfirst, hrest⟩
    · next hsame =>
      rw [ServerKey.same_iff] at hsame
      split
      · next hbefore =>
        rw [ServerKey.before_iff] at hbefore
        refine List.pairwise_cons.2 ⟨fun entry hm => ?_, h⟩
        obtain rfl | hm := List.mem_cons.1 hm
        · exact hbefore
        · exact hbefore.trans (hfirst entry hm)
      · next hbefore =>
        rw [ServerKey.before_iff] at hbefore
        refine List.pairwise_cons.2 ⟨fun entry hm => ?_, ih hrest⟩
        obtain ⟨hk, -⟩ | ⟨-, hm⟩ := mem_put hrest hm
        · exact hk ▸ lt_of_le_of_ne (not_lt.1 hbefore) hsame
        · exact hfirst entry hm

theorem mem_of_get? (h : s.get? key = some c) : ∃ k, k.place = key.place ∧ (k, c) ∈ s := by
  obtain ⟨⟨k, d⟩, hf, rfl⟩ := Option.map_eq_some_iff.1 h
  have hsame : k.same key = true :=
    List.find?_some (p := fun entry : ServerKey × Client π => entry.1.same key) hf
  exact ⟨k, (ServerKey.same_iff _ _).1 hsame, List.mem_of_find?_eq_some hf⟩

/-- There is at most one client under a key. -/
theorem Sorted.eq_of_mem (h : Sorted s) {k' : ServerKey} (hk : k.place = k'.place) (hm : (k, c) ∈ s)
    (hm' : (k', d) ∈ s) : c = d := by
  have : Std.Symm fun a b : ServerKey × Client π => a.1.place ≠ b.1.place := ⟨fun _ _ => Ne.symm⟩
  have hdistinct : s.Pairwise fun a b => a.1.place ≠ b.1.place := h.imp LT.lt.ne
  by_contra hne
  exact hdistinct.forall hm hm' (fun he => hne (Prod.mk.inj he).2) hk

theorem get?_of_mem (h : Sorted s) (hk : k.place = key.place) (hm : (k, c) ∈ s) :
    s.get? key = some c := by
  have hsome : (s.get? key).isSome = true := by
    rw [get?, Option.isSome_map, List.find?_isSome]
    exact ⟨(k, c), hm, (ServerKey.same_iff _ _).2 hk⟩
  obtain ⟨d, hd⟩ := Option.isSome_iff_exists.1 hsome
  obtain ⟨k', hk', hm'⟩ := mem_of_get? hd
  rw [hd, h.eq_of_mem (hk.trans hk'.symm) hm hm']

theorem get?_put_self (h : Sorted s) (key : ServerKey) (c : Client π) :
    (s.put key c).get? key = some c := by
  obtain ⟨k, hk, hm⟩ := mem_put_self s key c
  exact get?_of_mem (h.put key c) hk hm

/-- Two spellings of a key find the same client. -/
theorem get?_congr (h : key.same k = true) (s : Servers π) : s.get? k = s.get? key := by
  rw [ServerKey.same_iff] at h
  have hsame : ∀ entry : ServerKey × Client π, entry.1.same k = entry.1.same key := by
    intro entry
    rw [Bool.eq_iff_iff, ServerKey.same_iff, ServerKey.same_iff, h]
  simp only [get?, hsame]

theorem get?_put (s : Servers π) (key k : ServerKey) (c : Client π) :
    (s.put key c).get? k = if key.same k then some c else s.get? k := by
  induction s with
  | nil => by_cases hk : key.same k <;> simp [put, get?, hk]
  | cons first rest ih =>
    obtain ⟨k₁, d₁⟩ := first
    rw [put]
    split
    · next hsame =>
      have hk : k₁.same k = key.same k := by
        rw [Bool.eq_iff_iff, ServerKey.same_iff, ServerKey.same_iff, (ServerKey.same_iff _ _).1 hsame]
      by_cases h : key.same k <;> simp [get?, hk, h]
    · next hsame =>
      split
      · by_cases h : key.same k <;> simp [get?, h]
      · by_cases h₁ : k₁.same k
        · have h : ¬key.same k = true := by
            intro h
            rw [ServerKey.same_iff] at h₁ h hsame
            exact hsame (h₁.trans h.symm)
          simp [get?, h₁, h]
        · simpa [get?, h₁] using ih

end Servers

end LuaLens
