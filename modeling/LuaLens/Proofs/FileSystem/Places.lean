import LuaLens.Proofs.Canonical

/-!
The places of absolute paths. There are no links in a tree, so that a path leads to one place in every
tree in which it leads anywhere, and a step upward takes back the one before. A tree as there can be
stays one when it is changed, and every change but a removal is seen at one place only.
-/

namespace LuaLens

open Text

/-! ### Places -/

namespace FileSystem

/-- The location one step on. -/
def stepFrom (l : Location) (step : List Char) : Location :=
  if step = ['.', '.'] then l.dropLast else l ++ [String.ofList step]

/-- The location that steps lead to. -/
def walk (l : Location) (steps : List (List Char)) : Location := steps.foldl stepFrom l

theorem walk_cons (l : Location) (step : List Char) (steps : List (List Char)) :
    walk l (step :: steps) = walk (stepFrom l step) steps := rfl

theorem walk_append (l : Location) (a b : List (List Char)) : walk l (a ++ b) = walk (walk l a) b :=
  List.foldl_append

/-- Without steps upward everything is below. -/
theorem walk_down {steps : List (List Char)} (h : ['.', '.'] ∉ steps) (l : Location) :
    walk l steps = l ++ steps.map String.ofList := by
  induction steps generalizing l with
  | nil => simp [walk]
  | cons step steps ih =>
    obtain ⟨hstep, hrest⟩ := not_or.1 (mt List.mem_cons.2 h)
    rw [walk_cons, stepFrom, if_neg (Ne.symm hstep), ih hrest, List.map_cons, List.append_assoc,
      List.singleton_append]

end FileSystem

namespace Path

theorem isEmpty_of_isAbsolute {p : Path} (h : p.isAbsolute = true) : p.text.isEmpty = false := by
  cases he : p.text.isEmpty with
  | false => rfl
  | true =>
    rw [isAbsolute, String.isEmpty_iff.1 he] at h
    cases h

theorem isPlain_of_named {p : Path} {name : String} (h : .named name ∈ p.components) : IsPlain name := by
  simp only [components, List.mem_append, List.mem_map, List.mem_filter] at h
  obtain (h | h) | ⟨piece, ⟨hpiece, hidle⟩, hname⟩ := h
  · split at h <;> simp at h
  · split at h <;> simp at h
  · rw [component] at hname
    split at hname
    · cases hname
    · rename_i hup
      obtain rfl := Component.named.inj hname
      rw [IsPlain, String.toList_ofList]
      exact ⟨by simpa using hidle, by simpa using hup,
        slash_not_mem_pieces (mem_pieces_of_mem_body hpiece)⟩

theorem isPlain_of_fileName? {p : Path} {name : String} (h : p.fileName? = some name) :
    IsPlain name := by
  rw [fileName?] at h
  split at h
  · rename_i last hlast
    obtain rfl := Option.some.inj h
    exact isPlain_of_named (List.mem_of_getLast? hlast)
  · cases h

theorem isAbsolute_of_root_mem {p : Path} (h : .root ∈ p.components) : p.isAbsolute = true := by
  simp only [components, List.mem_append, List.mem_map] at h
  obtain (h | h) | ⟨piece, -, hroot⟩ := h
  · split at h
    · assumption
    · cases h
  · split at h <;> simp at h
  · rw [component] at hroot
    split at hroot <;> cases hroot

/-- Nothing but absolute paths is below one. -/
theorem isAbsolute_of_relativeTo? {root p rest : Path} (hr : root.isAbsolute = true)
    (h : relativeTo? root p = some rest) : p.isAbsolute = true := by
  have hne : root.components.isEmpty = false := by rw [components_of_isAbsolute hr]; rfl
  rw [relativeTo?, hne] at h
  simp only [Bool.false_eq_true, ↓reduceIte] at h
  split at h
  · rename_i hpre
    rw [List.isPrefixOf_iff_prefix, components_of_isAbsolute hr] at hpre
    exact isAbsolute_of_root_mem (hpre.subset List.mem_cons_self)
  · cases h

theorem unrooted_of_head? {s : List Char} (h : s.head? ≠ some '/') : unrooted s = s := by
  cases s with
  | nil => rfl
  | cons c s =>
    rw [unrooted]
    simpa using h

end Path

/-- What is below an absolute path, or put in its place, is an absolute path. -/
theorem Path.isAbsolute_join {p : Path} (hp : p.isAbsolute = true) (text : String) :
    (p.join text).isAbsolute = true := by
  by_cases hhead : text.toList.head? = some '/'
  · rw [join, hhead]
    exact beq_iff_eq.2 hhead
  · exact (steps_join hp ⟨rfl, hhead⟩).1

/-- The only place that an absolute path can lead to. -/
def Path.place (p : Path) : FileSystem.Location := FileSystem.walk [] p.steps

namespace FileSystem

variable {fs fs' : FileSystem} {p : Path} {loc l r : Location} {n : Node}

/-- Whoever follows a way comes to where its steps lead. -/
theorem follow_eq_walk {pieces : List (List Char)} (hf : fs.follow l pieces = .ok r) :
    r = walk l (Path.counted pieces) := by
  induction pieces generalizing l with
  | nil => exact (Except.ok.inj hf).symm
  | cons piece rest ih =>
    have hl := directory_of_follow hf
    rw [follow, hl] at hf
    simp only [beq_iff_eq] at hf
    split_ifs at hf with hidle hup
    · rw [ih hf, Path.counted, Path.counted, List.filter_cons_of_neg (by simp [hidle])]
    · rw [ih hf, Path.counted, Path.counted, List.filter_cons_of_pos (by simp [hidle]), walk_cons,
        stepFrom, if_pos hup]
    · cases hn : fs.node? (l ++ [String.ofList piece]) with
      | none => simp [hn] at hf
      | some n =>
        simp only [hn] at hf
        rw [ih hf, Path.counted, Path.counted, List.filter_cons_of_pos (by simp [hidle]), walk_cons,
          stepFrom, if_neg hup]

theorem locate_place (hp : p.isAbsolute = true) (h : fs.locate p = .ok r) : r = p.place := by
  obtain ⟨-, -, hf⟩ := locate_eq_ok h
  have hstart : fs.start p = [] := by rw [start, hp]; rfl
  rw [hstart] at hf
  exact follow_eq_walk hf

theorem place_join {text : String} {tail : List (List Char)} (hp : p.isAbsolute = true)
    (h : Path.Leads text tail) : (p.join text).place = walk p.place tail := by
  rw [Path.place, (Path.steps_join hp h).2, walk_append]
  rfl

theorem place_join_plain {name : String} (hp : p.isAbsolute = true) (hn : Path.IsPlain name) :
    (p.join name).place = p.place ++ [name] := by
  rw [place_join hp (Path.leads_plain hn), walk_down (by simpa using hn.2.1.symm)]
  simp

/-! ### Trees as there can be -/

theorem WellFormed.put (h : fs.WellFormed) (hloc : loc ≠ [])
    (hdir : fs.node? loc.dropLast = some .directory) (hname : ∀ name ∈ loc, IsName name)
    (hfree : fs.node? loc ≠ some .directory) (n : Node) : (fs.put loc n).WellFormed := by
  have hkeeps := keeps_put hfree n
  have hmem {e : Location × Node} (he : e ∈ (fs.put loc n).nodes) : e ∈ fs.nodes ∨ e = (loc, n) := by
    rw [FileSystem.put, List.mem_append, List.mem_singleton] at he
    exact he.imp_left fun he => (List.mem_filter.1 he).1
  refine ⟨?_, fun e he => ?_, fun e he => ?_⟩
  · rw [FileSystem.put, List.map_append, List.map_singleton, List.nodup_append]
    refine ⟨h.unique.sublist (List.filter_sublist.map _), List.nodup_singleton _, ?_⟩
    rintro a ha b hb rfl
    obtain ⟨e, he, rfl⟩ := List.mem_map.1 ha
    have hne := (List.mem_filter.1 he).2
    rw [List.mem_singleton.1 hb] at hne
    simp at hne
  · obtain he | rfl := hmem he
    · exact ⟨(h.inside e he).1, hkeeps.directory _ (h.inside e he).2⟩
    · exact ⟨hloc, hkeeps.directory _ hdir⟩
  · obtain he | rfl := hmem he
    · exact h.names e he
    · exact hname

theorem WellFormed.remove (h : fs.WellFormed) (loc : Location) : (fs.remove loc).WellFormed := by
  refine ⟨h.unique.sublist (List.filter_sublist.map _), fun e he => ?_,
    fun e he => h.names e (List.mem_filter.1 he).1⟩
  obtain ⟨hmem, hout⟩ := List.mem_filter.1 he
  rw [Bool.not_eq_true', ← Bool.not_eq_true, List.isPrefixOf_iff_prefix] at hout
  have hbelow : ¬ loc <+: e.1.dropLast := fun hp => hout (hp.trans (List.dropLast_prefix e.1))
  rw [node?_remove_of_not_below hbelow]
  exact h.inside e hmem

theorem WellFormed.removeAt (h : fs.WellFormed) (p : Path) : (fs.removeAt p).WellFormed := by
  rw [FileSystem.removeAt]
  split
  · exact h.remove _
  · exact h

/-- A path without steps upward leads to the directory at its place. -/
theorem WellFormed.follow_down (h : fs.WellFormed) {pieces : List (List Char)}
    (hup : ['.', '.'] ∉ pieces)
    (hd : fs.node? (l ++ (Path.counted pieces).map String.ofList) = some .directory) :
    fs.follow l pieces = .ok (l ++ (Path.counted pieces).map String.ofList) := by
  have habove {a b : Location} (hab : fs.node? (a ++ b) = some .directory) :
      fs.node? a = some .directory := by
    by_cases hb : b = []
    · rwa [hb, List.append_nil] at hab
    · exact h.directory_above hb (by rw [hab]; rfl)
  induction pieces generalizing l with
  | nil => simp [follow, Path.counted]
  | cons piece rest ih =>
    obtain ⟨hpiece, hrest⟩ := not_or.1 (mt List.mem_cons.2 hup)
    rw [follow, habove hd]
    simp only [beq_iff_eq, Ne.symm hpiece, ↓reduceIte]
    cases hidle : Path.isIdle piece with
    | true =>
      have hcounted : Path.counted (piece :: rest) = Path.counted rest := by simp [Path.counted, hidle]
      rw [if_pos rfl]
      rw [hcounted] at hd ⊢
      exact ih hrest hd
    | false =>
      have hcounted : (Path.counted (piece :: rest)).map String.ofList =
          [String.ofList piece] ++ (Path.counted rest).map String.ofList := by
        simp [Path.counted, hidle]
      rw [hcounted, ← List.append_assoc] at hd
      have hnext := habove hd
      have hname := h.isName_of_node? (by rw [hnext]; rfl) (String.ofList piece) (by simp)
      have hshort : byteLength piece ≤ 255 := by simpa using hname.2.2
      rw [if_neg (by simp), if_neg (by omega), hnext, hcounted, ← List.append_assoc]
      exact ih hrest hd

theorem WellFormed.locate_down (h : fs.WellFormed) (hp : p.isAbsolute = true)
    (hup : ['.', '.'] ∉ p.steps) (hd : fs.node? p.place = some .directory) :
    fs.locate p = .ok p.place := by
  have hpieces : ['.', '.'] ∉ p.pieces := fun hm => hup (Path.mem_counted.2 ⟨hm, rfl⟩)
  have hplace : p.place = [] ++ p.steps.map String.ofList := walk_down hup []
  have hempty := Path.isEmpty_of_isAbsolute hp
  have hzero : p.text.toList.contains '\x00' = false := by
    rw [List.contains_eq_mem, decide_eq_false_iff_not]
    intro hmem
    obtain hc | hc | ⟨piece, hpiece, hc⟩ := Path.spelt_of_mem_text hmem
    · cases hc
    · cases hc
    · cases hidle : Path.isIdle piece with
      | true => cases Path.dot_of_isIdle hidle hc
      | false =>
        have hin : String.ofList piece ∈ p.place := by
          rw [hplace, List.nil_append]
          exact List.mem_map_of_mem (Path.mem_counted.2 ⟨hpiece, hidle⟩)
        have hname := h.isName_of_node? (by rw [hd]; rfl) _ hin
        exact hname.2.1 (by rwa [String.toList_ofList])
  have hstart : fs.start p = [] := by rw [start, hp]; rfl
  rw [locate_of_follow hempty hzero, hstart, hplace]
  exact h.follow_down hpieces (by rw [← hd, hplace]; rfl)

/-- What makes a node an entry of a directory. -/
theorem child_eq_some {dir : Location} {name : String} {m : Node} :
    (match l.getLast? with
      | some last => if l.dropLast == dir then some (last, m) else none
      | none => none) = some (name, n) ↔ l = dir ++ [name] ∧ m = n := by
  cases hlast : l.getLast? with
  | none =>
    rw [List.getLast?_eq_none_iff.1 hlast]
    simp
  | some last =>
    obtain ⟨init, rfl⟩ := List.getLast?_eq_some_iff.1 hlast
    by_cases hdir : init = dir
    · simp [hdir]
    · simp [hdir]

theorem mem_children_of_mem {name : String} (h : (l ++ [name], n) ∈ fs.nodes) :
    (name, n) ∈ fs.children l := by
  rw [children, List.mem_mergeSort, List.mem_filterMap]
  exact ⟨_, h, child_eq_some.2 ⟨rfl, rfl⟩⟩

/-- No name stands twice in a directory. -/
theorem WellFormed.children (h : fs.WellFormed) (l : Location) :
    (fs.children l).Pairwise fun a b => a.1 ≠ b.1 := by
  rw [FileSystem.children, (List.mergeSort_perm _ _).pairwise_iff fun hne => Ne.symm hne]
  refine (List.pairwise_map.1 h.unique).filterMap _ ?_
  rintro ⟨a, m⟩ ⟨b, n⟩ hne ⟨name, m'⟩ hm ⟨name', n'⟩ hn hsame
  obtain ⟨rfl, -⟩ := child_eq_some.1 hm
  obtain ⟨rfl, -⟩ := child_eq_some.1 hn
  exact hne (congrArg (fun name => l ++ [name]) hsame)

/-! ### New entries -/

/-- The place of a new entry: its directory exists, and empty pieces after its name do not count. -/
theorem locateNew_cases (h : fs.locateNew p = .ok loc) : ∃ init last idle dir,
    p.pieces = init ++ [last] ++ idle ∧ (∀ piece ∈ idle, piece = []) ∧
      fs.follow (fs.start p) init = .ok dir ∧ fs.node? dir = some .directory ∧
      Path.isIdle last = false ∧ last ≠ ['.', '.'] ∧ byteLength last ≤ 255 ∧
      loc = dir ++ [String.ofList last] := by
  rw [locateNew] at h
  split at h
  · cases h
  · rename_i last hlast
    obtain ⟨init, hinit⟩ := List.getLast?_eq_some_iff.1 hlast
    rw [hinit, List.dropLast_concat] at h
    cases hf : fs.follow (fs.start p) init with
    | error e => simp [hf, bind, Except.bind] at h
    | ok dir =>
      rcases hn : fs.node? dir with _ | _ | _
      · simp [hf, hn, bind, Except.bind, throw, throwThe, MonadExceptOf.throw] at h
      · simp [hf, hn, bind, Except.bind, throw, throwThe, MonadExceptOf.throw] at h
      · simp only [hf, hn, bind, Except.bind, throw, throwThe, MonadExceptOf.throw, pure,
          Except.pure] at h
        split_ifs at h with hidle hlong
        simp only [Bool.or_eq_true, beq_iff_eq, not_or, Bool.not_eq_true] at hidle
        refine ⟨init, last, (p.pieces.reverse.takeWhile List.isEmpty).reverse, dir, ?_, ?_, hf, hn,
          hidle.1, hidle.2, by omega, (Except.ok.inj h).symm⟩
        · rw [← hinit, ← List.reverse_append, List.takeWhile_append_dropWhile, List.reverse_reverse]
        · intro piece hpiece
          exact List.isEmpty_iff.1 (List.mem_takeWhile_imp (List.mem_reverse.1 hpiece))

/-- Empty pieces at the end of a way are never why there is nothing at its end. -/
theorem follow_empty {idle : List (List Char)} (h : ∀ piece ∈ idle, piece = [])
    (hn : (fs.node? l).isSome) : fs.follow l idle ≠ .error .notFound := by
  induction idle with
  | nil => simp [follow]
  | cons piece rest ih =>
    obtain rfl := h piece List.mem_cons_self
    rw [follow]
    rcases hl : fs.node? l with _ | _ | _
    · simp [hl] at hn
    · simp
    · exact ih fun piece hp => h piece (List.mem_cons_of_mem _ hp)

/-- A new entry stands in a directory, where nothing was. -/
theorem WellFormed.locateNew (h : fs.WellFormed) (hl : fs.locate p = .error .notFound)
    (hnew : fs.locateNew p = .ok loc) :
    loc ≠ [] ∧ fs.node? loc = none ∧ fs.node? loc.dropLast = some .directory ∧
      ∀ name ∈ loc, IsName name := by
  obtain ⟨init, last, idle, dir, hpieces, hempty, hf, hdir, hidle, hup, hshort, rfl⟩ :=
    locateNew_cases hnew
  have hlast : last ∈ p.pieces := by simp [hpieces]
  have htext : p.text.isEmpty = false := by
    obtain ⟨c, rest, rfl⟩ : ∃ c rest, last = c :: rest := by
      refine List.exists_cons_of_ne_nil ?_
      rintro rfl
      cases hidle
    have hc := Path.mem_text_of_mem_piece hlast List.mem_cons_self
    have hne := List.ne_nil_of_mem hc
    simpa using hne
  have hzero : p.text.toList.contains '\x00' = false := by
    rw [locate] at hl
    split_ifs at hl with he hz
    · rw [htext] at he
      cases he
    · cases hl
    · simpa using hz
  rw [locate_of_follow htext hzero, hpieces, follow_append, follow_concat hidle hup, hf] at hl
  refine ⟨by simp, ?_, by rwa [List.dropLast_concat], fun name hname => ?_⟩
  · by_contra hsome
    have hthere := Option.isSome_iff_ne_none.2 hsome
    simp only [Except.bind, hdir, Nat.not_lt.2 hshort, ↓reduceIte, hthere] at hl
    exact follow_empty hempty hthere hl
  · obtain hname | hname := List.mem_append.1 hname
    · exact h.isName_of_node? (by rw [hdir]; rfl) name hname
    · rw [List.mem_singleton.1 hname, IsName, Path.IsPlain, String.toList_ofList]
      refine ⟨⟨hidle, hup, Path.slash_not_mem_pieces hlast⟩, fun hz => ?_, hshort⟩
      have hmem := Path.mem_text_of_mem_piece hlast hz
      simp [hmem] at hzero

/-! ### Changes -/

/-- A file is written over another one, or where there was nothing. -/
theorem write_over {c : Content} (h : fs.write p c = .ok fs') : ∃ loc, fs' = fs.put loc (.file c) ∧
    ((∃ d, fs.node? loc = some (.file d)) ∨
      fs.locate p = .error .notFound ∧ fs.locateNew p = .ok loc) := by
  rw [FileSystem.write] at h
  split at h
  · split at h
    · rename_i loc _ _ d hd
      exact ⟨loc, (Except.ok.inj h).symm, .inl ⟨d, hd⟩⟩
    · cases h
  · rename_i hl
    split at h
    · cases h
    · split at h
      · cases h
      · rename_i loc hnew
        split at h
        · cases h
        · exact ⟨loc, (Except.ok.inj h).symm, .inr ⟨hl, hnew⟩⟩
  · cases h

/-- No file is written to a path that ends in a piece that says nothing. -/
theorem not_isIdle_of_write {c : Content} {init : List (List Char)} {last : List Char}
    (h : fs.write p c = .ok fs') (hp : p.pieces = init ++ [last]) : Path.isIdle last = false := by
  obtain ⟨loc, hloc, rfl, -, hlocate⟩ := write_eq h
  obtain ⟨-, -, hf⟩ := locate_eq_ok hlocate
  rw [hp, follow_append] at hf
  cases hi : (fs.put loc (.file c)).follow ((fs.put loc (.file c)).start p) init with
  | error e =>
    rw [hi] at hf
    cases hf
  | ok m =>
    rw [hi, Except.bind] at hf
    have hm := directory_of_follow hf
    rw [follow, hm] at hf
    by_contra hidle
    simp only [Bool.not_eq_false] at hidle
    obtain rfl : m = loc := by simpa [hidle, follow] using hf
    rw [node?_put_self hloc] at hm
    cases hm

/-- A file is written where the path leads, and the tree stays as there can be. -/
theorem WellFormed.write {c : Content} (h : fs.WellFormed) (hp : p.isAbsolute = true)
    (hw : fs.write p c = .ok fs') :
    fs' = fs.put p.place (.file c) ∧ p.place ≠ [] ∧ fs.node? p.place ≠ some .directory ∧
      fs'.WellFormed := by
  obtain ⟨loc, hloc, rfl, hfree, hlocate⟩ := write_eq hw
  obtain rfl := locate_place hp hlocate
  obtain ⟨loc, hput, hover⟩ := write_over hw
  obtain rfl : p.place = loc := by
    have hlast := congrArg (fun fs : FileSystem => fs.nodes.getLast?) hput
    simpa [FileSystem.put] using hlast
  refine ⟨rfl, hloc, hfree, ?_⟩
  obtain ⟨d, hd⟩ | ⟨hl, hnew⟩ := hover
  · exact h.put hloc (h.inside _ (mem_of_node? hloc hd)).2 (h.isName_of_node? (by rw [hd]; rfl)) hfree _
  · obtain ⟨-, -, hdir, hname⟩ := h.locateNew hl hnew
    exact h.put hloc hdir hname hfree _

/-- Only directories are new. -/
def Grown (fs fs' : FileSystem) : Prop :=
  ∀ l, fs'.node? l = fs.node? l ∨ fs.node? l = none ∧ fs'.node? l = some .directory

theorem Grown.trans {fs'' : FileSystem} (h : fs.Grown fs') (h' : fs'.Grown fs'') : fs.Grown fs'' := by
  intro l
  obtain hl | ⟨hnone, hl⟩ := h l
  · rw [← hl]
    exact h' l
  · obtain hl' | ⟨hnone', -⟩ := h' l
    · exact .inr ⟨hnone, hl'.trans hl⟩
    · rw [hl] at hnone'
      cases hnone'

theorem WellFormed.makeDirectory (h : fs.WellFormed) (hm : fs.makeDirectory p = .ok fs') :
    fs'.WellFormed ∧ fs.Grown fs' := by
  rw [FileSystem.makeDirectory] at hm
  split at hm
  · cases hm
  · rename_i hl
    cases hnew : fs.locateNew p with
    | error e =>
      rw [hnew] at hm
      cases hm
    | ok loc =>
      rw [hnew] at hm
      obtain rfl := Except.ok.inj hm
      obtain ⟨hloc, hnone, hdir, hname⟩ := h.locateNew hl hnew
      refine ⟨h.put hloc hdir hname (by simp [hnone]) _, fun l => ?_⟩
      by_cases hne : l = loc
      · rw [hne, node?_put_self hloc]
        exact .inr ⟨hnone, rfl⟩
      · exact .inl (node?_put_of_ne hne _)
  · cases hm

theorem WellFormed.makeAll {ps : List Path} (h : fs.WellFormed) (hm : fs.makeAll ps = .ok fs') :
    fs'.WellFormed ∧ fs.Grown fs' := by
  induction ps generalizing fs with
  | nil =>
    obtain rfl := Except.ok.inj hm
    exact ⟨h, fun l => .inl rfl⟩
  | cons p ps ih =>
    rw [FileSystem.makeAll] at hm
    split at hm
    · rename_i mid hmid
      obtain ⟨hwell, hgrown⟩ := h.makeDirectory hmid
      obtain ⟨hwell', hgrown'⟩ := ih hwell hm
      exact ⟨hwell', hgrown.trans hgrown'⟩
    · split at hm
      · exact ih h hm
      · cases hm
    · cases hm

theorem WellFormed.makeDirectories (h : fs.WellFormed) (hm : fs.makeDirectories p = .ok fs') :
    fs'.WellFormed ∧ fs.Grown fs' := h.makeAll hm

end FileSystem

end LuaLens
