import LuaLens.Protocol.Request
import LuaLens.Proofs.Text.Utf8

/-!
The files that identifiers stand for. Whatever a client writes, a file that it names has an absolute
path.
-/

namespace LuaLens

open Text

namespace Uri

variable {u : Uri} {p : Path}

/-! ### Schemes -/

theorem scheme_of_hierarchical? {scheme : String} {s : List Char} (h : hierarchical? scheme s = some u) :
    u.scheme = scheme := by
  simp only [hierarchical?, Option.bind_eq_bind] at h
  split at h
  · cases h
  · obtain ⟨authority, -, h⟩ := Option.bind_eq_some_iff.1 h
    obtain rfl := Option.some.inj h
    rfl

theorem head?_normalPath (special : Bool) (s : List Char) :
    (String.ofList (normalPath special true s)).toList.head? = some '/' := by
  rw [String.toList_ofList]
  rfl

/-- The path of a file starts with a slash. -/
theorem path_of_file? {s : List Char} (h : file? s = some u) :
    u.path.toList.head? = some '/' := by
  simp only [file?, Option.bind_eq_bind] at h
  repeat' split at h
  all_goals
    obtain ⟨_, _, h⟩ := Option.bind_eq_some_iff.1 h
    obtain rfl := Option.some.inj h
    exact head?_normalPath true _

/-- Only what is written as a file has the scheme of files. -/
theorem path_of_parse? {text : String} (h : parse? text = some u) (hs : u.scheme = "file") :
    u.path.toList.head? = some '/' := by
  simp only [parse?, Option.bind_eq_bind] at h
  obtain ⟨⟨scheme, rest⟩, -, h⟩ := Option.bind_eq_some_iff.1 h
  simp only at h
  split at h
  · exact path_of_file? h
  · rename_i hfile
    refine absurd ?_ hfile
    rw [beq_iff_eq, ← hs]
    split at h
    · exact (scheme_of_hierarchical? h).symm
    · split at h
      · exact (scheme_of_hierarchical? h).symm
      · obtain rfl := Option.some.inj h
        rfl

/-! ### Paths -/

theorem decode_slash (s : List Char) : Percent.decode ('/' :: s) = 47 :: Percent.decode s := by
  have hbytes : (String.singleton '/').toUTF8.toList = [47] := by decide +kernel
  rw [Percent.decode, hbytes, List.singleton_append]
  rintro a b t ⟨⟩

theorem head?_of_slash {bytes : List UInt8} {s : String}
    (h : String.fromUTF8? ⟨(47 :: bytes).toArray⟩ = some s) : s.toList.head? = some '/' := by
  obtain ⟨c, hc, hn⟩ := head?_of_fromUTF8? (by decide) h
  rw [hc, ← Char.ofNat_toNat c, hn]
  rfl

/-- The file that a parsed identifier stands for has an absolute path. -/
theorem isAbsolute_of_toPath? {text : String} (h : parse? text = some u) (hp : u.toPath? = some p) :
    p.isAbsolute = true := by
  rw [toPath?] at hp
  split at hp
  · rename_i hu
    rw [Bool.and_eq_true, beq_iff_eq] at hu
    obtain ⟨s, hs⟩ := List.head?_eq_some_iff.1 (path_of_parse? h hu.1)
    rw [hs, decode_slash] at hp
    obtain ⟨path, hpath, rfl⟩ := Option.map_eq_some_iff.1 hp
    have hhead := head?_of_slash hpath
    rw [Path.isAbsolute, beq_iff_eq]
    simp only
    split
    · rw [String.toList_append, List.head?_append, hhead]
      rfl
    · exact hhead
  · cases hp

end Uri

end LuaLens
