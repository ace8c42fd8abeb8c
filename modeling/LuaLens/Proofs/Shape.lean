import LuaLens.Protocol.Types

/-!
What documents that fit a shape are in normal form. A record has the members of its fields in their order,
a variant has its name before them, and a value has been written by the kind of value that it is.
-/

namespace LuaLens

namespace Shape

variable {fields : List Field} {values : List (Option Json)} {all : List (String × Json)} {j k : Json}

theorem length_of_fields? {names : List String} (h : j.fields? names = some values) :
    values.length = names.length := by
  unfold Json.fields? at h
  split at h
  · split at h
    · cases h
    · obtain rfl := Option.some.inj h
      rw [List.length_map]
  · split at h
    · cases h
    · next hle =>
      obtain rfl := Option.some.inj h
      rw [List.length_append, List.length_map, List.length_replicate]
      omega
  · cases h

theorem gather_of_record (h : record fields j = some k) :
    ∃ values members, values.length = fields.length ∧ gather fields values = some (.obj members) ∧
      k = .obj members := by
  have hobject {values : List (Option Json)} (hgather : gather fields values = some k) :
      ∃ members, gather fields values = some (.obj members) ∧ k = .obj members := by
    have hk := hgather
    simp only [gather, Option.bind_eq_bind, Option.pure_def, Option.bind_eq_some_iff] at hk
    obtain ⟨members, -, hk⟩ := hk
    obtain rfl := Option.some.inj hk
    exact ⟨_, hgather, rfl⟩
  unfold record at h
  split at h
  · split at h
    · next hlength =>
      obtain ⟨members, hgather, hk⟩ := hobject h
      exact ⟨_, members, by simpa using hlength, hgather, hk⟩
    · cases h
  · unfold object at h
    split at h
    · obtain ⟨values, hvalues, hgather⟩ := Option.bind_eq_some_iff.1 h
      obtain ⟨members, hgather, hk⟩ := hobject hgather
      exact ⟨values, members, by simpa using length_of_fields? hvalues, hgather, hk⟩
    · cases h

theorem gather_nil (h : gather [] values = some (.obj all)) : all = [] := by
  simpa [gather] using h.symm

theorem gather_cons {f : Field} (hlength : values.length = fields.length + 1)
    (h : gather (f :: fields) values = some (.obj all)) :
    ∃ value members others rest, f.member value = some members ∧ others.length = fields.length ∧
      gather fields others = some (.obj rest) ∧ all = members ++ rest := by
  obtain ⟨value, others, rfl⟩ := List.exists_cons_of_length_eq_add_one hlength
  simp only [gather, List.zip_cons_cons, List.mapM_cons, Option.bind_eq_bind, Option.pure_def,
    Option.bind_eq_some_iff, Option.some.injEq, Json.obj.injEq] at h
  obtain ⟨_, ⟨members, hmember, later, hlater, rfl⟩, rfl⟩ := h
  refine ⟨value, members, others, later.flatten, hmember, by simpa using hlength, ?_, rfl⟩
  simp [gather, hlater]

theorem member_req {shape : Shape} {name : String} {value : Option Json} {members : List (String × Json)}
    (h : (req name shape).member value = some members) :
    ∃ i j, shape i = some j ∧ members = [(name, j)] := by
  cases value with
  | none => cases h
  | some i =>
    obtain ⟨j, hj, rfl⟩ := Option.map_eq_some_iff.1 h
    exact ⟨i, j, hj, rfl⟩

/-- An optional field of a shape whose values are written by `f`. -/
theorem member_opt {α : Type} {f : α → Json} {shape : Shape}
    (hshape : ∀ i j, shape i = some j → ∃ a, j = f a) {name : String} {value : Option Json}
    {members : List (String × Json)} (h : (opt name shape).member value = some members) :
    ∃ a, members = Json.optional name f a := by
  match value with
  | none | some .null => exact ⟨none, (Option.some.inj h).symm⟩
  | some (.bool _) | some (.int _) | some (.double _) | some (.str _) | some (.arr _) | some (.obj _) =>
    obtain ⟨j, hj, rfl⟩ := Option.map_eq_some_iff.1 h
    obtain ⟨a, rfl⟩ := hshape _ j hj
    exact ⟨some a, rfl⟩

theorem bool_eq_some {i : Json} (h : bool i = some j) : ∃ b, j = .bool b := by
  unfold bool at h
  split at h
  · exact ⟨_, (Option.some.inj h).symm⟩
  · cases h

theorem text_eq_some {i : Json} (h : text i = some j) : ∃ s, j = .str s := by
  unfold text at h
  split at h
  · exact ⟨_, (Option.some.inj h).symm⟩
  · cases h

theorem whole_eq_some {low high : Int} {i : Json} (h : whole low high i = some j) :
    ∃ n, low ≤ n ∧ j = .int n := by
  unfold whole at h
  split at h
  · next n =>
    split at h
    · next hbounds =>
      rw [Bool.and_eq_true, decide_eq_true_eq] at hbounds
      exact ⟨n, hbounds.1, (Option.some.inj h).symm⟩
    · cases h
  · cases h

theorem nat_eq_some {i : Json} (h : nat i = some j) : ∃ n, j = .nat n := by
  obtain ⟨n, hpos, rfl⟩ := whole_eq_some h
  exact ⟨n.toNat, by rw [Json.nat, Int.toNat_of_nonneg hpos]⟩

/-- A variant begins with its name, and goes on with the fields that belong to it. -/
theorem variants_eq_some {tag : String} {cases : List (String × List Field)}
    (h : variants tag cases j = some k) :
    ∃ name fields body members, cases.lookup name = some fields ∧
      record fields body = some (.obj members) ∧ k = .obj ((tag, .str name) :: members) := by
  have hbuild {name : String} {body : Json} {build : Json → Option Json}
      (hbuild : ∀ members, build (.obj members) = some (.obj ((tag, .str name) :: members)))
      (h : ((cases.lookup name).bind fun fields => (record fields body).bind build) = some k) :
      ∃ name fields body members, cases.lookup name = some fields ∧
        record fields body = some (.obj members) ∧ k = .obj ((tag, .str name) :: members) := by
    obtain ⟨fields, hfields, hrest⟩ := Option.bind_eq_some_iff.1 h
    obtain ⟨i, hi, hk⟩ := Option.bind_eq_some_iff.1 hrest
    obtain ⟨_, members, -, -, rfl⟩ := gather_of_record hi
    exact ⟨name, fields, body, members, hfields, hi, Option.some.inj (hk.symm.trans (hbuild members))⟩
  unfold variants at h
  split at h
  · split at h
    · refine hbuild ?_ h
      exact fun _ => rfl
    · cases h
  · refine hbuild ?_ h
    exact fun _ => rfl
  · cases h

end Shape

end LuaLens
