import LuaLens.Proofs.Firsts
import LuaLens.Proofs.Query.Locals

/-!
The entries that complete a query are the first of each name among all entries that fit it. What does not
fit takes no name away from what comes later, so every name that a fitting entry has is offered, once.
-/

namespace LuaLens.Query

variable {label : String}

/-- Whether an entry completes a query whose receiver has the given type, as seen from a file. -/
@[mk_iff]
structure Fits (label : String) (q : Completing) (type : String) (e : Entry) : Prop where
  begins : q.partly.toList <+: e.tag.name.toList
  owned : type = "" ∨ e.tag.owner = type
  callable : q.operator = some ':' → e.tag.kind.isCallable = true
  seen : SeenFrom label e

theorem fits_eq_true_iff {q : Completing} {type : String} {e : Entry} :
    fits label q type e = true ↔ Fits label q type e := by
  rw [fits_iff, fits, SeenFrom]
  simp only [Bool.and_eq_true, Bool.or_eq_true, List.isPrefixOf_iff_prefix, String.isEmpty_iff,
    beq_iff_eq, bne_iff_ne, Bool.not_eq_true', and_assoc, ne_eq, ← imp_iff_not_or]

/-- Of what passes a test, the first of each name is kept. -/
theorem isFirstOfEach_filter (test : Entry → Bool) (seen : List String) (entries : Corpus) :
    IsFirstOfEach (fun e => test e = true ∧ e.tag.name ∉ seen) (·.tag.name) entries
      (firstOfEachName seen (entries.filter test)) := by
  induction entries generalizing seen with
  | nil => exact .nil
  | cons e rest ih =>
    by_cases htest : test e = true
    · rw [List.filter_cons_of_pos htest, firstOfEachName]
      split
      · next hseen =>
        exact .cons_of_neg (fun h => h.2 (List.contains_iff_mem.1 hseen)) (ih seen)
      · next hseen =>
        refine .cons_of_pos ⟨htest, mt List.contains_iff_mem.2 hseen⟩ ((ih _).congr fun d => ?_)
        rw [List.mem_cons, not_or, and_assoc, and_comm (a := d.tag.name ∉ seen)]
    · rw [List.filter_cons_of_neg htest]
      exact .cons_of_neg (fun h => htest h.1) (ih seen)

theorem isFirstOfEach_candidates (entries : Corpus) (label : String) (q : Completing)
    (type : String) :
    IsFirstOfEach (Fits label q type) (·.tag.name) entries (candidates entries label q type) :=
  (isFirstOfEach_filter (fits label q type) [] entries).congr fun e => by
    rw [fits_eq_true_iff, and_iff_left List.not_mem_nil]

/-- The candidates are entries in their order, with distinct names: the entry at a place is among them
just when it fits and no entry before it fits and has the same name. So no fitting name is lost. -/
theorem candidates_exact (entries : Corpus) (label : String) (q : Completing) (type : String) :
    (candidates entries label q type).Sublist entries ∧
      (candidates entries label q type).Pairwise (fun d e => d.tag.name ≠ e.tag.name) ∧
      IsFirstOfEach (Fits label q type) (·.tag.name) entries (candidates entries label q type) ∧
      ∀ e ∈ entries, Fits label q type e →
        ∃ d ∈ candidates entries label q type, d.tag.name = e.tag.name := by
  have hfirst := isFirstOfEach_candidates entries label q type
  exact ⟨hfirst.sublist, hfirst.pairwise_ne, hfirst, fun e he => hfirst.exists_key_eq he⟩

/-- A local of another file and a field that cannot be called take no name away from a function. -/
example :
    let entry (kind : Symbol.Kind) (file : String) : Entry :=
      ⟨⟨"pad", file, "", kind, "s"⟩, ⟨"pad", ""⟩⟩
    candidates [entry .localFunction "b", entry .field "a", entry .function "c", entry .function "a"]
      "a" ⟨"s", some ':', "p"⟩ "s" = [entry .function "c"] := by
  decide

end LuaLens.Query
