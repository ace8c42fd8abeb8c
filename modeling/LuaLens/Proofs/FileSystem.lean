import LuaLens.FileSystem
import LuaLens.Proofs.Path
import Mathlib.Data.List.Nodup

/-!
What is found in a tree after it was changed. A path leads to the same place as long as the
directories on its way are kept, and what was written at a path is read there.
-/

namespace LuaLens

/-- Entries that are left out are of no matter to one that is looked for and kept. -/
theorem find?_filter_of_kept {α β : Type} [BEq α] [LawfulBEq α] {keep : α × β → Bool} {k : α}
    (entries : List (α × β)) (h : ∀ e, e.1 = k → keep e = true) :
    (entries.filter keep).find? (·.1 == k) = entries.find? (·.1 == k) := by
  rw [List.find?_filter]
  congr 1
  funext e
  by_cases he : e.1 = k
  · simp [he, h e he]
  · simp [he]

namespace FileSystem

open Text

variable {fs fs' : FileSystem} {p : Path} {loc l r : Location}

/-! ### Nodes -/

@[simp] theorem node?_nil (fs : FileSystem) : fs.node? [] = some .directory := rfl

theorem node?_of_ne_nil (h : l ≠ []) :
    fs.node? l = (fs.nodes.find? (·.1 == l)).map (·.2) := by
  rw [node?, if_neg (by simpa using h)]

theorem node?_put_self (h : loc ≠ []) (n : Node) : (fs.put loc n).node? loc = some n := by
  have hnone : (fs.nodes.filter (·.1 != loc)).find? (·.1 == loc) = none := by
    rw [List.find?_eq_none]
    intro e he
    simpa using (List.mem_filter.1 he).2
  rw [node?_of_ne_nil h, put, List.find?_append, hnone]
  simp

theorem node?_put_of_ne (h : l ≠ loc) (n : Node) : (fs.put loc n).node? l = fs.node? l := by
  by_cases hl : l = []
  · rw [hl, node?_nil, node?_nil]
  · have hlast : [(loc, n)].find? (fun e => e.1 == l) = none := by simp [Ne.symm h]
    rw [node?_of_ne_nil hl, node?_of_ne_nil hl, put, List.find?_append, hlast, Option.or_none,
      find?_filter_of_kept fs.nodes fun e he => by simpa [he] using h]

theorem node?_remove_of_not_below (h : ¬ loc <+: l) : (fs.remove loc).node? l = fs.node? l := by
  by_cases hl : l = []
  · rw [hl, node?_nil, node?_nil]
  · rw [node?_of_ne_nil hl, node?_of_ne_nil hl, remove, find?_filter_of_kept fs.nodes]
    rintro ⟨e, n⟩ rfl
    rw [Bool.not_eq_true', Bool.eq_false_iff]
    exact fun hp => h (List.isPrefixOf_iff_prefix.1 hp)

theorem node?_remove_of_below (h : loc <+: l) (hl : l ≠ []) : (fs.remove loc).node? l = none := by
  rw [node?_of_ne_nil hl, remove, List.find?_filter, Option.map_eq_none_iff, List.find?_eq_none]
  intro e _
  by_cases he : e.1 = l
  · simp [he, h]
  · simp [he]

/-! ### Following -/

theorem follow_append (fs : FileSystem) (l : Location) (a b : List (List Char)) :
    fs.follow l (a ++ b) = (fs.follow l a).bind fun m => fs.follow m b := by
  induction a generalizing l with
  | nil => rfl
  | cons piece a ih =>
    rw [List.cons_append, follow, follow]
    rcases fs.node? l with _ | _ | _
    · rfl
    · rfl
    · simp only
      split
      · exact ih l
      · split
        · exact ih _
        · split
          · rfl
          · cases fs.node? (l ++ [String.ofList piece]) with
            | none => rfl
            | some n => exact ih _

/-- The directories of a tree are directories of another one. -/
structure Keeps (fs fs' : FileSystem) : Prop where
  current : fs'.current = fs.current
  directory : ∀ l, fs.node? l = some .directory → fs'.node? l = some .directory

theorem Keeps.trans {fs'' : FileSystem} (h : fs.Keeps fs') (h' : fs'.Keeps fs'') :
    fs.Keeps fs'' :=
  ⟨h'.current.trans h.current, fun l hl => h'.directory l (h.directory l hl)⟩

theorem keeps_put (h : fs.node? loc ≠ some .directory) (n : Node) : fs.Keeps (fs.put loc n) := by
  refine ⟨rfl, fun l hl => ?_⟩
  have hne : l ≠ loc := by
    rintro rfl
    exact h hl
  rw [node?_put_of_ne hne, hl]

/-- Only directories are passed through. -/
theorem directory_of_follow {piece : List Char} {rest : List (List Char)}
    (h : fs.follow l (piece :: rest) = .ok r) : fs.node? l = some .directory := by
  rw [follow] at h
  rcases hn : fs.node? l with _ | _ | _ <;> simp_all

/-- A way is kept with its directories, if there still is something at its end. -/
theorem Keeps.follow (h : fs.Keeps fs') (hr : (fs'.node? r).isSome) {pieces : List (List Char)}
    (hf : fs.follow l pieces = .ok r) : fs'.follow l pieces = .ok r := by
  induction pieces generalizing l with
  | nil => exact hf
  | cons piece rest ih =>
    have hl := directory_of_follow hf
    rw [FileSystem.follow, hl] at hf
    rw [FileSystem.follow, h.directory l hl]
    simp only at hf ⊢
    split_ifs at hf ⊢
    · exact ih hf
    · exact ih hf
    · cases hn : fs.node? (l ++ [String.ofList piece]) with
      | none => simp [hn] at hf
      | some n =>
        simp only [hn] at hf
        have hnext : (fs'.node? (l ++ [String.ofList piece])).isSome := by
          cases rest with
          | nil =>
            obtain rfl : l ++ [String.ofList piece] = r := by simpa [FileSystem.follow] using hf
            exact hr
          | cons _ _ => rw [h.directory _ (directory_of_follow hf)]; rfl
        obtain ⟨n', hn'⟩ := Option.isSome_iff_exists.1 hnext
        simp only [hn']
        exact ih hf

theorem locate_eq_ok (h : fs.locate p = .ok r) :
    p.text.isEmpty = false ∧ p.text.toList.contains '\x00' = false ∧
      fs.follow (fs.start p) p.pieces = .ok r := by
  rw [locate] at h
  split_ifs at h with he hz
  exact ⟨by simpa using he, by simpa using hz, h⟩

theorem locate_of_follow (he : p.text.isEmpty = false)
    (hz : p.text.toList.contains '\x00' = false) :
    fs.locate p = fs.follow (fs.start p) p.pieces := by
  rw [locate, he, hz]
  rfl

theorem Keeps.locate (h : fs.Keeps fs') (hr : (fs'.node? r).isSome) (hp : fs.locate p = .ok r) :
    fs'.locate p = .ok r := by
  obtain ⟨he, hz, hf⟩ := locate_eq_ok hp
  have hstart : fs'.start p = fs.start p := by rw [start, start, h.current]
  rw [locate_of_follow he hz, hstart]
  exact h.follow hr hf

/-! ### Writing -/

theorem readText_eq {t : String} :
    fs.readText p = .ok t ↔ ∃ r, fs.locate p = .ok r ∧ fs.node? r = some (.file (.text t)) := by
  rw [readText, read]
  cases hl : fs.locate p with
  | error e => simp [bind, Except.bind]
  | ok r =>
    rcases hn : fs.node? r with _ | ⟨s | b⟩ | _ <;>
      simp [bind, Except.bind, pure, Except.pure, throw, throwThe, MonadExceptOf.throw, hn]

theorem Keeps.readText {t : String} (h : fs.Keeps fs') (hp : fs.readText p = .ok t)
    (hr : ∀ r, fs.locate p = .ok r → fs'.node? r = fs.node? r) : fs'.readText p = .ok t := by
  obtain ⟨r, hloc, hn⟩ := readText_eq.1 hp
  have hsame := (hr r hloc).trans hn
  exact readText_eq.2 ⟨r, h.locate (by rw [hsame]; rfl) hloc, hsame⟩

/-- A text that is not empty and does not end in the separator ends in a piece that is not empty. -/
theorem getLast?_splitAll {c : Char} {s : List Char} (hs : s ≠ []) (hc : s.getLast? ≠ some c) :
    ∃ init last, splitAll c s = init ++ [last] ∧ last ≠ [] := by
  induction s using pieces_induct c with
  | last s hmem => exact ⟨[], s, splitAll_of_not_mem hmem, hs⟩
  | piece q t hq ih =>
    have ht : t ≠ [] := by
      rintro rfl
      simp at hc
    have hlast : t.getLast? ≠ some c := by
      obtain ⟨d, hd⟩ := Option.isSome_iff_exists.1 (List.getLast?_isSome.2 ht)
      rw [List.getLast?_append, List.getLast?_cons, hd] at hc
      rw [hd]
      simpa using hc
    obtain ⟨init, last, he, hne⟩ := ih ht hlast
    exact ⟨q :: init, last, by rw [splitAll_append hq, he]; rfl, hne⟩

theorem exists_last_piece (he : p.text.isEmpty = false)
    (hs : p.text.toList.getLast? ≠ some '/') :
    ∃ init last, p.pieces = init ++ [last] ∧ last ≠ [] := by
  have hne : p.text.toList ≠ [] := by simpa using he
  rw [Path.pieces]
  split
  · rename_i s hp
    rw [hp] at hs
    refine getLast?_splitAll (by rintro rfl; simp at hs) ?_
    rintro hc
    rw [List.getLast?_cons, hc] at hs
    exact hs rfl
  · exact getLast?_splitAll hne hs

/-- The last piece of a way, unless it says nothing, names what is found at its end. -/
theorem follow_concat {init : List (List Char)} {last : List Char} (hidle : Path.isIdle last = false)
    (hup : last ≠ ['.', '.']) :
    fs.follow l (init ++ [last]) = (fs.follow l init).bind fun dir =>
      match fs.node? dir with
      | some .directory =>
        if 255 < byteLength last then .error .nameTooLong
        else if (fs.node? (dir ++ [String.ofList last])).isSome then .ok (dir ++ [String.ofList last])
        else .error .notFound
      | some (.file _) => .error .notDirectory
      | none => .error .notFound := by
  rw [follow_append]
  congr 1
  funext dir
  rw [follow]
  rcases fs.node? dir with _ | _ | _
  · rfl
  · rfl
  · simp only [hidle, Bool.false_eq_true, ↓reduceIte, beq_iff_eq, hup]
    split
    · rfl
    · cases fs.node? (dir ++ [String.ofList last]) <;> rfl

theorem locateNew_concat {init : List (List Char)} {last : List Char}
    (hp : p.pieces = init ++ [last]) (hne : last ≠ []) :
    fs.locateNew p = (fs.follow (fs.start p) init).bind fun dir =>
      match fs.node? dir with
      | some .directory =>
        if Path.isIdle last || last == ['.', '.'] then .error .notFound
        else if 255 < byteLength last then .error .nameTooLong
        else .ok (dir ++ [String.ofList last])
      | _ => .error .notDirectory := by
  have htrim : (p.pieces.reverse.dropWhile List.isEmpty).reverse = init ++ [last] := by
    rw [hp, List.reverse_append, List.reverse_singleton, List.singleton_append,
      List.dropWhile_cons_of_neg (by simpa using hne), List.reverse_cons, List.reverse_reverse]
  simp only [locateNew, htrim, List.getLast?_append, List.getLast?_singleton, Option.some_or,
    List.dropLast_concat]
  rfl

theorem locateNew_eq {init : List (List Char)} {last : List Char}
    (hp : p.pieces = init ++ [last]) (hne : last ≠ []) (h : fs.locateNew p = .ok loc) :
    ∃ dir, fs.follow (fs.start p) init = .ok dir ∧ fs.node? dir = some .directory ∧
      Path.isIdle last = false ∧ last ≠ ['.', '.'] ∧ byteLength last ≤ 255 ∧
      loc = dir ++ [String.ofList last] := by
  rw [locateNew_concat hp hne] at h
  cases hf : fs.follow (fs.start p) init with
  | error e => simp [hf, Except.bind] at h
  | ok dir =>
    rcases hn : fs.node? dir with _ | _ | _
    · simp [hf, hn, Except.bind] at h
    · simp [hf, hn, Except.bind] at h
    · simp only [hf, hn, Except.bind] at h
      split_ifs at h with hidle hlong
      simp only [Bool.or_eq_true, beq_iff_eq, not_or, Bool.not_eq_true] at hidle
      exact ⟨dir, rfl, hn, hidle.1, hidle.2, by omega, by simpa using h.symm⟩

/-- A new file: its directory exists, and nothing stands at its place. -/
theorem put_locateNew (hl : fs.locate p = .error .notFound) (he : p.text.isEmpty = false)
    (hs : p.text.toList.getLast? ≠ some '/') (hnew : fs.locateNew p = .ok loc) (n : Node) :
    loc ≠ [] ∧ fs.node? loc ≠ some .directory ∧ (fs.put loc n).locate p = .ok loc := by
  have hz : p.text.toList.contains '\x00' = false := by
    by_contra hz
    rw [locate, if_neg (by simp [he]), if_pos (by simpa using hz)] at hl
    cases hl
  rw [locate_of_follow he hz] at hl
  obtain ⟨init, last, hp, hne⟩ := exists_last_piece he hs
  obtain ⟨dir, hf, hdir, hidle, hup, hlong, rfl⟩ := locateNew_eq hp hne hnew
  have hnone : fs.node? (dir ++ [String.ofList last]) = none := by
    rw [hp, follow_concat hidle hup, hf] at hl
    simp only [Except.bind, hdir, Nat.not_lt.2 hlong, ↓reduceIte] at hl
    split_ifs at hl with hsome
    simpa using hsome
  have hnot : fs.node? (dir ++ [String.ofList last]) ≠ some .directory := by simp [hnone]
  have hloc : dir ++ [String.ofList last] ≠ [] := by simp
  have hkeeps := keeps_put hnot n
  refine ⟨hloc, hnot, ?_⟩
  have hdir' := hkeeps.directory dir hdir
  have hf' := hkeeps.follow (by rw [hdir']; rfl) hf
  have hstart : (fs.put (dir ++ [String.ofList last]) n).start p = fs.start p := rfl
  rw [locate_of_follow he hz, hp, follow_concat hidle hup, hstart, hf']
  simp only [Except.bind, hdir', Nat.not_lt.2 hlong, ↓reduceIte]
  rw [node?_put_self hloc]
  rfl

/-- What writing does: one file is put at the place the path leads to. -/
theorem write_eq {c : Content} (h : fs.write p c = .ok fs') :
    ∃ loc, loc ≠ [] ∧ fs' = fs.put loc (.file c) ∧ fs.node? loc ≠ some .directory ∧
      fs'.locate p = .ok loc := by
  rw [write] at h
  cases hl : fs.locate p with
  | ok loc =>
    rcases hn : fs.node? loc with _ | _ | _
    · simp [hl, hn] at h
    · obtain rfl : fs.put loc (.file c) = fs' := by simpa [hl, hn] using h
      have hloc : loc ≠ [] := by
        rintro rfl
        simp at hn
      have hdir : fs.node? loc ≠ some .directory := by simp [hn]
      refine ⟨loc, hloc, rfl, hdir, (keeps_put hdir _).locate ?_ hl⟩
      rw [node?_put_self hloc]
      rfl
    · simp [hl, hn] at h
  | error e =>
    cases e with
    | notFound =>
      simp only [hl] at h
      cases hnew : fs.locateNew p with
      | error e =>
        simp only [hnew] at h
        split_ifs at h
      | ok loc =>
        simp only [hnew] at h
        split_ifs at h with he hs
        obtain rfl : fs.put loc (.file c) = fs' := by simpa using h
        obtain ⟨hloc, hdir, hput⟩ :=
          put_locateNew hl (by simpa using he) (by simpa using hs) hnew (.file c)
        exact ⟨loc, hloc, rfl, hdir, hput⟩
    | _ => simp [hl] at h

/-- What was written is read back. -/
theorem readText_writeText {t : String} (h : fs.writeText p t = .ok fs') :
    fs'.readText p = .ok t := by
  obtain ⟨loc, hloc, rfl, -, hp⟩ := write_eq h
  exact readText_eq.2 ⟨loc, hp, node?_put_self hloc _⟩

/-- A path that led to the place where something was written still leads there. -/
theorem locate_of_writeText {q : Path} {t : String} (h : fs.writeText q t = .ok fs')
    (hq : fs'.locate q = .ok r) (hp : fs.locate p = .ok r) : fs'.locate p = .ok r := by
  obtain ⟨loc, hloc, rfl, hdir, hq'⟩ := write_eq h
  obtain rfl : loc = r := Except.ok.inj (hq'.symm.trans hq)
  refine (keeps_put hdir _).locate ?_ hp
  rw [node?_put_self hloc]
  rfl

/-- Writing at another place leaves a text as it is. -/
theorem readText_of_writeText {q : Path} {t t' : String} (h : fs.writeText q t = .ok fs')
    (hp : fs.readText p = .ok t') (hne : ∀ r, fs.locate p = .ok r → fs'.locate q ≠ .ok r) :
    fs'.readText p = .ok t' := by
  obtain ⟨loc, -, rfl, hdir, hq⟩ := write_eq h
  refine (keeps_put hdir _).readText hp fun r hr => node?_put_of_ne ?_ _
  rintro rfl
  exact hne r hr hq

/-! ### Names in a directory -/

/-- A name that can stand in a directory. -/
def IsName (name : String) : Prop :=
  Path.IsPlain name ∧ '\x00' ∉ name.toList ∧ byteLength name.toList ≤ 255

instance (name : String) : Decidable (IsName name) := inferInstanceAs (Decidable (_ ∧ _ ∧ _))

section

variable {dir : Location} {name : String}

/-- A name below a directory is looked for in the directory. -/
theorem follow_join (hp : fs.locate p = .ok dir) (hn : IsName name) :
    ∃ init, (p.join name).pieces = init ++ [name.toList] ∧
      fs.follow (fs.start (p.join name)) init = .ok dir ∧
      (p.join name).text.isEmpty = false ∧ (p.join name).text.toList.contains '\x00' = false ∧
      (p.join name).text.toList.getLast? ≠ some '/' := by
  obtain ⟨he, hz, hf⟩ := locate_eq_ok hp
  obtain ⟨hplain, hzero, -⟩ := hn
  obtain ⟨init, hpieces, hinit, t, ht, hslash⟩ := Path.pieces_join_plain he hplain
  have hne : p.text.toList ≠ [] := by simpa using he
  have hstart : fs.start (p.join name) = fs.start p := by
    rw [start, start, Path.isAbsolute, Path.isAbsolute, ht, List.append_assoc,
      List.head?_append_of_ne_nil _ hne]
  refine ⟨init, hpieces, ?_, ?_, ?_, ?_⟩
  · rw [hstart]
    obtain rfl | hinit := hinit
    · exact hf
    · -- An empty piece at the end leads nowhere else.
      rw [hinit, follow_append] at hf
      cases hm : fs.follow (fs.start p) init with
      | error e => simp [hm, Except.bind] at hf
      | ok m =>
        simp only [hm, Except.bind] at hf
        have hmdir := directory_of_follow hf
        simpa [follow, hmdir, Path.isIdle] using hf
  · rw [← Bool.not_eq_true, ← String.toList_eq_nil_iff.trans String.isEmpty_iff.symm, ht]
    simp [hne]
  · rw [ht]
    obtain rfl | rfl := hslash <;> simp_all
  · rw [ht, List.getLast?_append]
    cases hlast : name.toList.getLast? with
    | none => exact absurd (List.getLast?_eq_none_iff.1 hlast) hplain.ne_nil
    | some c =>
      rw [Option.some_or]
      rintro ⟨rfl⟩
      exact hplain.2.2 (List.mem_of_getLast? hlast)

theorem locate_join (hp : fs.locate p = .ok dir) (hd : fs.node? dir = some .directory)
    (hn : IsName name) :
    fs.locate (p.join name) =
      if (fs.node? (dir ++ [name])).isSome then .ok (dir ++ [name]) else .error .notFound := by
  obtain ⟨init, hpieces, hf, he, hz, -⟩ := follow_join hp hn
  obtain ⟨⟨hidle, hup, -⟩, -, hshort⟩ := hn
  rw [locate_of_follow he hz, hpieces, follow_concat hidle hup, hf]
  simp only [Except.bind, hd, Nat.not_lt.2 hshort, ↓reduceIte, String.ofList_toList]

/-- A file can be written below a directory unless there is a directory in its place. -/
theorem writeText_join (hp : fs.locate p = .ok dir) (hd : fs.node? dir = some .directory)
    (hn : IsName name) (hfile : fs.node? (dir ++ [name]) ≠ some .directory) (t : String) :
    fs.writeText (p.join name) t = .ok (fs.put (dir ++ [name]) (.file (.text t))) := by
  obtain ⟨init, hpieces, hf, he, -, hs⟩ := follow_join hp hn
  obtain ⟨hplain, -, hshort⟩ := id hn
  obtain ⟨hidle, hup, -⟩ := id hplain
  have hup' : (name.toList == ['.', '.']) = false := by simpa using hup
  have hnew : fs.locateNew (p.join name) = .ok (dir ++ [name]) := by
    rw [locateNew_concat hpieces hplain.ne_nil, hf]
    simp only [Except.bind, hd, hidle, hup', Bool.or_self, Bool.false_eq_true, ↓reduceIte,
      Nat.not_lt.2 hshort, String.ofList_toList]
  rw [writeText, write, locate_join hp hd hn]
  rcases hnode : fs.node? (dir ++ [name]) with _ | _ | _
  · simp [he, hnew, hs]
  · simp [hnode]
  · exact absurd hnode hfile

/-- Whatever a name below a path leads to is of that name. -/
theorem getLast?_of_locate_join (hn : Path.IsPlain name) (h : fs.locate (p.join name) = .ok r) :
    r.getLast? = some name := by
  have hpieces : ∃ init, (p.join name).pieces = init ++ [name.toList] := by
    cases he : p.text.isEmpty with
    | false =>
      obtain ⟨init, hp, -⟩ := Path.pieces_join_plain he hn
      exact ⟨init, hp⟩
    | true =>
      have hname : Path.unrooted name.toList = name.toList := by
        obtain ⟨c, s, hs⟩ := List.exists_cons_of_ne_nil hn.ne_nil
        have hc : c ≠ '/' := by
          rintro rfl
          exact hn.2.2 (by simp [hs])
        rw [hs, Path.unrooted]
        simpa using hc
      rw [Path.join, he, Bool.or_true, if_pos rfl, Path.pieces_eq, hname]
      exact ⟨[], splitAll_of_not_mem hn.2.2⟩
  obtain ⟨init, hp⟩ := hpieces
  obtain ⟨-, -, hf⟩ := locate_eq_ok h
  rw [hp, follow_concat hn.1 hn.2.1] at hf
  cases hdir : fs.follow (fs.start (p.join name)) init with
  | error e => simp [hdir, Except.bind] at hf
  | ok dir =>
    simp only [hdir, Except.bind] at hf
    split at hf
    · split_ifs at hf
      obtain rfl := Except.ok.inj hf
      simp
    · cases hf
    · cases hf

end

/-! ### Removing -/

/-- A tree as there can be: each name stands once in a directory that exists. -/
structure WellFormed (fs : FileSystem) : Prop where
  unique : (fs.nodes.map (·.1)).Nodup
  inside : ∀ e ∈ fs.nodes, e.1 ≠ [] ∧ fs.node? e.1.dropLast = some .directory
  names : ∀ e ∈ fs.nodes, ∀ name ∈ e.1, IsName name

theorem mem_of_node? {n : Node} (hl : l ≠ []) (h : fs.node? l = some n) : (l, n) ∈ fs.nodes := by
  rw [node?_of_ne_nil hl, Option.map_eq_some_iff] at h
  obtain ⟨⟨l', n'⟩, hf, rfl⟩ := h
  obtain rfl : l' = l := by simpa using List.find?_some hf
  exact List.mem_of_find?_eq_some hf

theorem WellFormed.node?_of_mem (h : fs.WellFormed) {n : Node} (hm : (l, n) ∈ fs.nodes) :
    fs.node? l = some n := by
  rw [node?_of_ne_nil (h.inside _ hm).1, Option.map_eq_some_iff]
  obtain ⟨e, he⟩ : ∃ e, fs.nodes.find? (·.1 == l) = some e := by
    rw [← Option.isSome_iff_exists, List.find?_isSome]
    exact ⟨(l, n), hm, by simp⟩
  have hel : e.1 = l := by simpa using List.find?_some he
  have hsame : e = (l, n) :=
    List.inj_on_of_nodup_map h.unique (List.mem_of_find?_eq_some he) hm hel
  exact ⟨e, he, by rw [hsame]⟩

/-- What is above something is a directory. -/
theorem WellFormed.directory_above (h : fs.WellFormed) {b : Location} (hb : b ≠ [])
    (hn : (fs.node? (l ++ b)).isSome) : fs.node? l = some .directory := by
  induction b using List.reverseRecOn with
  | nil => exact absurd rfl hb
  | append_singleton b name ih =>
    obtain ⟨n, hn⟩ := Option.isSome_iff_exists.1 hn
    have hdir := (h.inside _ (mem_of_node? (by simp) hn)).2
    rw [← List.append_assoc, List.dropLast_concat] at hdir
    by_cases hempty : b = []
    · simpa [hempty] using hdir
    · exact ih hempty (by rw [hdir]; rfl)

theorem WellFormed.isName_of_node? (h : fs.WellFormed) (hn : (fs.node? l).isSome = true) :
    ∀ n ∈ l, IsName n := by
  by_cases hl : l = []
  · simp [hl]
  · obtain ⟨n, hn⟩ := Option.isSome_iff_exists.1 hn
    exact h.names _ (mem_of_node? hl hn)

theorem mem_children {name : String} {n : Node} (h : (name, n) ∈ fs.children l) :
    (l ++ [name], n) ∈ fs.nodes := by
  rw [children, List.mem_mergeSort, List.mem_filterMap] at h
  obtain ⟨⟨l', n'⟩, hm, he⟩ := h
  simp only at he
  cases hlast : l'.getLast? with
  | none => simp [hlast] at he
  | some last =>
    simp only [hlast] at he
    split_ifs at he with hdir
    obtain ⟨rfl, rfl⟩ : last = name ∧ n' = n := by simpa using he
    obtain ⟨init, rfl⟩ := List.getLast?_eq_some_iff.1 hlast
    rw [List.dropLast_concat, beq_iff_eq] at hdir
    rwa [← hdir]

/-- Nothing but files directly in a directory is gone. -/
structure Thinned (dir : Location) (fs fs' : FileSystem) : Prop where
  current : fs'.current = fs.current
  node : ∀ l, fs'.node? l = fs.node? l ∨
    fs'.node? l = none ∧ l.dropLast = dir ∧ ∃ c, fs.node? l = some (.file c)

theorem Thinned.refl (dir : Location) (fs : FileSystem) : Thinned dir fs fs :=
  ⟨rfl, fun _ => .inl rfl⟩

theorem Thinned.keeps {dir : Location} (h : Thinned dir fs fs') : fs.Keeps fs' := by
  refine ⟨h.current, fun l hl => ?_⟩
  obtain hs | ⟨-, -, c, hc⟩ := h.node l
  · rw [hs, hl]
  · rw [hl] at hc
    cases hc

theorem Thinned.removeAt {dir : Location} {name : String} {c : Content} (hfs : fs.WellFormed)
    (h : Thinned dir fs fs') (hp : fs.locate p = .ok dir) (hd : fs.node? dir = some .directory)
    (hn : IsName name) (hc : fs.node? (dir ++ [name]) = some (.file c)) :
    Thinned dir fs (fs'.removeAt (p.join name)) := by
  have hd' := h.keeps.directory dir hd
  rw [FileSystem.removeAt, locate_join (h.keeps.locate (by rw [hd']; rfl) hp) hd' hn]
  split_ifs
  · refine ⟨h.current, fun l => ?_⟩
    by_cases hl : dir ++ [name] <+: l
    · obtain ⟨t, rfl⟩ := hl
      have hgone : (fs'.remove (dir ++ [name])).node? (dir ++ [name] ++ t) = none :=
        node?_remove_of_below (List.prefix_append _ t) (by simp)
      by_cases ht : t = []
      · subst ht
        rw [List.append_nil] at hgone ⊢
        exact .inr ⟨hgone, by simp, c, hc⟩
      · -- There is nothing below a file.
        refine .inl ?_
        rw [hgone]
        by_contra hsome
        have habove := hfs.directory_above ht (Option.isSome_iff_ne_none.2 (Ne.symm hsome))
        rw [hc] at habove
        cases habove
    · rw [node?_remove_of_not_below hl]
      exact h.node l
  · exact h

end FileSystem

end LuaLens
