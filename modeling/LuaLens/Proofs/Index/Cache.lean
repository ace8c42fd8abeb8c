import LuaLens.Proofs.FileSystem.Places
import LuaLens.Proofs.Index.Rescan

/-!
The files in the private directory of an index. Seen as contents by name, a scan makes two of them and
removes all others, and a scan of a single document makes a pair under its own name and removes that of
the one before. So after every run of calls there are the two files of the last scan and one pair for
each document that is overridden; unless the copy of a document came to stand among them, which is
where a way with steps upward can lead, and where nothing removes it.
-/

namespace LuaLens

/-! ### Names of files -/

namespace RescanId

/-- The number that hexadecimal digits stand for. -/
def value (digits : List Char) : Nat :=
  digits.foldl (fun v c => 16 * v + (if c.isDigit then c.toNat - 48 else c.toNat - 87)) 0

theorem value_concat (digits : List Char) (c : Char) :
    value (digits ++ [c]) = 16 * value digits + (if c.isDigit then c.toNat - 48 else c.toNat - 87) := by
  rw [value, List.foldl_append]
  rfl

theorem value_toDigits (n : Nat) : value (Nat.toDigits 16 n) = n := by
  have hdigit : ∀ d < 16,
      (if d.digitChar.isDigit then d.digitChar.toNat - 48 else d.digitChar.toNat - 87) = d := by decide
  induction n using Nat.strong_induction_on with
  | _ n ih =>
    rw [Nat.toDigits_eq_if (by decide)]
    split
    · rename_i hlt
      rw [← List.nil_append [n.digitChar], value_concat, hdigit n hlt]
      simp [value]
    · rw [value_concat, ih (n / 16) (by omega), hdigit (n % 16) (by omega)]
      omega

theorem value_hex (width n : Nat) : value (hex width n).toList = n := by
  have hzeros (k : Nat) (s : List Char) : value (List.replicate k '0' ++ s) = value s := by
    induction k with
    | zero => rfl
    | succ k ih => exact ih
  rw [toList_hex, hzeros, value_toDigits]

theorem text_injective : Function.Injective text := by
  rintro ⟨m⟩ ⟨n⟩ h
  have hlist := congrArg String.toList h
  rw [toList_text, toList_text] at hlist
  have hvalue := congrArg value (List.append_cancel_left hlist)
  rw [value_hex, value_hex] at hvalue
  exact congrArg RescanId.mk hvalue

def tagsName (id : RescanId) : String := id.text ++ ".tags"

def apiName (id : RescanId) : String := id.text ++ ".api"

/-- The name is that of one of the two files of a scan. -/
def Names (id : RescanId) (name : String) : Prop := name = id.tagsName ∨ name = id.apiName

instance (id : RescanId) (name : String) : Decidable (id.Names name) :=
  inferInstanceAs (Decidable (_ ∨ _))

theorem tagsName_ne_apiName (a b : RescanId) : a.tagsName ≠ b.apiName := by
  intro h
  have hlast := congrArg (fun s : String => s.toList.getLast?) h
  simp only [tagsName, apiName, String.toList_append] at hlast
  rw [List.getLast?_append_of_ne_nil _ (by decide), List.getLast?_append_of_ne_nil _ (by decide)] at hlast
  revert hlast
  decide

theorem Names.unique {a b : RescanId} {name : String} (ha : a.Names name) (hb : b.Names name) :
    a = b := by
  obtain rfl | rfl := ha
  · obtain hb | hb := hb
    · exact text_injective (String.append_left_inj _ |>.1 hb)
    · exact absurd hb (tagsName_ne_apiName a b)
  · obtain hb | hb := hb
    · exact absurd hb.symm (tagsName_ne_apiName b a)
    · exact text_injective (String.append_left_inj _ |>.1 hb)

theorem Names.dot {id : RescanId} {name : String} (h : id.Names name) : '.' ∈ name.toList := by
  obtain rfl | rfl := h
  · rw [tagsName, String.toList_append]
    exact List.mem_append_right _ (by decide)
  · rw [apiName, String.toList_append]
    exact List.mem_append_right _ (by decide)

theorem not_names_of_dot {name : String} (id : RescanId) (h : '.' ∉ name.toList) : ¬ id.Names name :=
  fun hn => h hn.dot

theorem dot_not_mem_text (id : RescanId) : '.' ∉ id.text.toList :=
  id.not_mem_text (by decide) (by decide)

theorem Names.isPlain {id : RescanId} {name : String} (h : id.Names name) : Path.IsPlain name := by
  obtain rfl | rfl := h
  · exact id.isPlain_text_append _ slash_not_mem_tags
  · exact id.isPlain_text_append _ slash_not_mem_api

theorem text_ne {id : RescanId} {name : String} (h : name.toList.head? ≠ some '0') : id.text ≠ name := by
  rintro rfl
  obtain ⟨s, hs⟩ := List.head?_eq_some_iff.1 head?_lead
  rw [toList_text, hs, List.cons_append, List.head?_cons] at h
  exact h rfl

end RescanId

namespace Index

open FileSystem (Location IsName)

variable {x : Index} {cache p : Path} {fs fs' : FileSystem} {name t a : String} {c : Corpus}

/-! ### The private directory -/

/-- The files directly in a directory, by name. -/
def held (cache : Path) (fs : FileSystem) (name : String) : Option Content :=
  match fs.node? (cache.place ++ [name]) with
  | some (.file content) => some content
  | _ => none

theorem held_eq_some {content : Content} :
    held cache fs name = some content ↔ fs.node? (cache.place ++ [name]) = some (.file content) := by
  rw [held]
  rcases fs.node? (cache.place ++ [name]) with _ | _ | _ <;> simp

theorem held_congr (h : fs'.node? (cache.place ++ [name]) = fs.node? (cache.place ++ [name])) :
    held cache fs' name = held cache fs name := by
  rw [held, held, h]

/-- A directory at an absolute path without steps upward, in a tree as there can be. -/
structure Home (cache : Path) (fs : FileSystem) : Prop where
  absolute : cache.isAbsolute = true
  direct : ['.', '.'] ∉ cache.steps
  wellFormed : fs.WellFormed
  directory : fs.node? cache.place = some .directory

theorem Home.located (h : Home cache fs) : fs.locate cache = .ok cache.place :=
  h.wellFormed.locate_down h.absolute h.direct h.directory

theorem Home.isName {content : Content} (h : Home cache fs) (hc : held cache fs name = some content) :
    IsName name :=
  h.wellFormed.isName_of_node? (by rw [held_eq_some.1 hc]; rfl) name (by simp)

theorem Home.locate_join {content : Content} (h : Home cache fs)
    (hc : held cache fs name = some content) :
    fs.locate (cache.join name) = .ok (cache.place ++ [name]) := by
  rw [FileSystem.locate_join h.located h.directory (h.isName hc), held_eq_some.1 hc]
  rfl

theorem Home.readText_iff {text : String} (h : Home cache fs) (hn : Path.IsPlain name) :
    fs.readText (cache.join name) = .ok text ↔ held cache fs name = some (.text text) := by
  rw [FileSystem.readText_eq, held_eq_some]
  constructor
  · rintro ⟨r, hr, hnode⟩
    have hplace := FileSystem.locate_place (Path.isAbsolute_join h.absolute name) hr
    rwa [hplace, FileSystem.place_join_plain h.absolute hn] at hnode
  · intro hnode
    exact ⟨_, h.locate_join (held_eq_some.2 hnode), hnode⟩

/-- The corpus of two files depends on what they hold alone. -/
theorem Home.load_congr (h : Home cache fs) (h' : Home cache fs') (ht : Path.IsPlain t)
    (ha : Path.IsPlain a) (htags : held cache fs' t = held cache fs t)
    (hapi : held cache fs' a = held cache fs a)
    (hload : Corpus.load fs (cache.join t) (cache.join a) = .ok c) :
    Corpus.load fs' (cache.join t) (cache.join a) = .ok c := by
  cases hread : fs.readText (cache.join t) with
  | error e => simp [Corpus.load, hread, Except.mapError, bind, Except.bind] at hload
  | ok tagText =>
    cases hread' : fs.readText (cache.join a) with
    | error e => simp [Corpus.load, hread, hread', Except.mapError, bind, Except.bind] at hload
    | ok apiText =>
      have hsame := (h.readText_iff ht).1 hread
      have hsame' := (h.readText_iff ha).1 hread'
      rw [← htags, ← h'.readText_iff ht] at hsame
      rw [← hapi, ← h'.readText_iff ha] at hsame'
      rw [← hload, Corpus.load_eq hread hread', Corpus.load_eq hsame hsame']

theorem Home.load_pair {id : RescanId} (h : Home cache fs) (h' : Home cache fs')
    (hheld : ∀ name, id.Names name → held cache fs' name = held cache fs name)
    (hload : Corpus.load fs (Corpus.tagsPath cache id.text) (Corpus.apiPath cache id.text) = .ok c) :
    Corpus.load fs' (Corpus.tagsPath cache id.text) (Corpus.apiPath cache id.text) = .ok c :=
  h.load_congr h' (id.isPlain_text_append _ RescanId.slash_not_mem_tags)
    (id.isPlain_text_append _ RescanId.slash_not_mem_api) (hheld _ (.inl rfl)) (hheld _ (.inr rfl)) hload

theorem Home.mem_corpusFiles (h : Home x.cache fs) :
    name ∈ x.corpusFiles fs ↔ (held x.cache fs name).isSome := by
  rw [corpusFiles, h.located, List.mem_filterMap, Option.isSome_iff_exists]
  constructor
  · rintro ⟨⟨m, n⟩, hm, hsome⟩
    have hnode := h.wellFormed.node?_of_mem (FileSystem.mem_children hm)
    cases n with
    | directory => simp [Walk.isDirectoryNode] at hsome
    | file content =>
      obtain rfl : m = name := by simpa [Walk.isDirectoryNode] using hsome
      exact ⟨content, held_eq_some.2 hnode⟩
  · rintro ⟨content, hc⟩
    have hmem := FileSystem.mem_of_node? (by simp) (held_eq_some.1 hc)
    exact ⟨_, FileSystem.mem_children_of_mem hmem, rfl⟩

theorem Home.nodup_corpusFiles (h : Home x.cache fs) : (x.corpusFiles fs).Nodup := by
  rw [corpusFiles, h.located]
  refine (h.wellFormed.children x.cache.place).filterMap _ ?_
  rintro ⟨a, m⟩ ⟨b, n⟩ hne s hs s' hs'
  cases m with
  | directory => simp [Walk.isDirectoryNode] at hs
  | file _ =>
    cases n with
    | directory => simp [Walk.isDirectoryNode] at hs'
    | file _ =>
      obtain rfl : a = s := by simpa [Walk.isDirectoryNode] using hs
      obtain rfl : b = s' := by simpa [Walk.isDirectoryNode] using hs'
      exact hne

/-! ### Changes of the private directory -/

theorem Home.makeDirectories (h : Home cache fs) (hm : fs.makeDirectories p = .ok fs') :
    Home cache fs' ∧ held cache fs' = held cache fs := by
  obtain ⟨hwell, hgrown⟩ := h.wellFormed.makeDirectories hm
  refine ⟨⟨h.absolute, h.direct, hwell, ?_⟩, funext fun name => ?_⟩
  · obtain hsame | ⟨-, hdir⟩ := hgrown cache.place
    · rw [hsame, h.directory]
    · exact hdir
  · obtain hsame | ⟨hnone, hdir⟩ := hgrown (cache.place ++ [name])
    · exact held_congr hsame
    · rw [held, held, hnone, hdir]

/-- A file is written in the directory or elsewhere. -/
theorem Home.write {text : String} (h : Home cache fs) (hp : p.isAbsolute = true)
    (hw : fs.writeText p text = .ok fs') :
    Home cache fs' ∧ ∀ name, held cache fs' name =
      if p.place = cache.place ++ [name] then some (.text text) else held cache fs name := by
  obtain ⟨rfl, hne, hfree, hwell⟩ := h.wellFormed.write hp hw
  refine ⟨⟨h.absolute, h.direct, hwell, ?_⟩, fun name => ?_⟩
  · exact (FileSystem.keeps_put hfree _).directory _ h.directory
  · split
    · rename_i hplace
      rw [held_eq_some, ← hplace, FileSystem.node?_put_self hne]
    · rename_i hplace
      exact held_congr (FileSystem.node?_put_of_ne (Ne.symm hplace) _)

theorem Home.write_join {text : String} (h : Home cache fs) (hn : Path.IsPlain name)
    (hw : fs.writeText (cache.join name) text = .ok fs') :
    Home cache fs' ∧ held cache fs' = Function.update (held cache fs) name (some (.text text)) := by
  obtain ⟨hhome, hheld⟩ := h.write (Path.isAbsolute_join h.absolute name) hw
  refine ⟨hhome, funext fun m => ?_⟩
  rw [hheld, FileSystem.place_join_plain h.absolute hn]
  by_cases hm : m = name
  · rw [hm, if_pos rfl, Function.update_self]
  · rw [if_neg (by simpa using Ne.symm hm), Function.update_of_ne hm]

/-- Removing leaves no file under a name, whether there was something or not. -/
theorem Home.removeAt (h : Home cache fs) (hn : Path.IsPlain name) :
    Home cache (fs.removeAt (cache.join name)) ∧
      held cache (fs.removeAt (cache.join name)) = Function.update (held cache fs) name none := by
  have hwell := h.wellFormed.removeAt (cache.join name)
  cases hl : fs.locate (cache.join name) with
  | error e =>
    have hgone : held cache fs name = none := by
      cases hc : held cache fs name with
      | none => rfl
      | some content =>
        rw [h.locate_join hc] at hl
        cases hl
    have hsame : fs.removeAt (cache.join name) = fs := by rw [FileSystem.removeAt, hl]
    rw [hsame, ← hgone, Function.update_eq_self]
    exact ⟨h, rfl⟩
  | ok r =>
    have hr := FileSystem.locate_place (Path.isAbsolute_join h.absolute name) hl
    rw [FileSystem.place_join_plain h.absolute hn] at hr
    subst hr
    have hremove : fs.removeAt (cache.join name) = fs.remove (cache.place ++ [name]) := by
      rw [FileSystem.removeAt, hl]
    rw [hremove] at hwell ⊢
    refine ⟨⟨h.absolute, h.direct, hwell, ?_⟩, funext fun m => ?_⟩
    · rw [FileSystem.node?_remove_of_not_below, h.directory]
      intro hp
      have := hp.length_le
      simp at this
    · by_cases hm : m = name
      · subst hm
        rw [Function.update_self, held, FileSystem.node?_remove_of_below (List.prefix_refl _) (by simp)]
      · rw [Function.update_of_ne hm]
        refine held_congr (FileSystem.node?_remove_of_not_below fun hp => hm ?_)
        have hlast := hp.eq_of_length (by simp)
        simpa using hlast.symm

theorem Home.foldl_removeAt {names : List String} (h : Home cache fs)
    (hn : ∀ name ∈ names, Path.IsPlain name) :
    Home cache (names.foldl (fun fs name => fs.removeAt (cache.join name)) fs) ∧
      ∀ name, held cache (names.foldl (fun fs name => fs.removeAt (cache.join name)) fs) name =
        if name ∈ names then none else held cache fs name := by
  induction names generalizing fs with
  | nil => exact ⟨h, fun name => by simp⟩
  | cons first names ih =>
    obtain ⟨hhome, hheld⟩ := h.removeAt (hn first List.mem_cons_self)
    obtain ⟨hall, hrest⟩ := ih hhome fun name hm => hn name (List.mem_cons_of_mem _ hm)
    refine ⟨hall, fun name => ?_⟩
    rw [List.foldl_cons, hrest, hheld]
    by_cases hmem : name ∈ names
    · simp [hmem]
    · by_cases hfirst : name = first
      · simp [hfirst]
      · simp [hmem, hfirst]

/-- Clearing leaves no file in the private directory. -/
theorem Home.clear (h : Home x.cache fs) :
    Home x.cache (x.clear fs).2 ∧ ∀ name, held x.cache (x.clear fs).2 name = none := by
  have hplain : ∀ name ∈ x.corpusFiles fs, Path.IsPlain name := by
    intro name hname
    obtain ⟨content, hc⟩ := Option.isSome_iff_exists.1 (h.mem_corpusFiles.1 hname)
    exact (h.isName hc).1
  obtain ⟨hhome, hheld⟩ := h.foldl_removeAt hplain
  refine ⟨hhome, fun name => (hheld name).trans ?_⟩
  split
  · rfl
  · rename_i hout
    rw [h.mem_corpusFiles] at hout
    simpa using hout

/-- Both files of a corpus are written. -/
theorem Home.write_corpus (h : Home cache fs) (ht : Path.IsPlain t) (ha : Path.IsPlain a)
    (hw : c.write fs (cache.join t) (cache.join a) = .ok fs') :
    Home cache fs' ∧ held cache fs' = Function.update
      (Function.update (held cache fs) t (some (.text c.tagText))) a (some (.text c.apiText)) := by
  rw [Corpus.write] at hw
  cases htags : fs.writeText (cache.join t) c.tagText with
  | error e => simp [htags, Except.mapError, bind, Except.bind] at hw
  | ok mid =>
    simp only [htags, Except.mapError, bind, Except.bind] at hw
    obtain ⟨hhome, hheld⟩ := h.write_join ht htags
    rw [← hheld]
    exact hhome.write_join ha (mapError_eq_ok hw)

theorem Home.write_pair {id : RescanId} (h : Home cache fs)
    (hw : c.write fs (Corpus.tagsPath cache id.text) (Corpus.apiPath cache id.text) = .ok fs') :
    Home cache fs' ∧ (∀ name, id.Names name → (held cache fs' name).isSome) ∧
      ∀ name, ¬ id.Names name → held cache fs' name = held cache fs name := by
  have htags : Path.IsPlain id.tagsName := RescanId.Names.isPlain (.inl rfl)
  have hapi : Path.IsPlain id.apiName := RescanId.Names.isPlain (.inr rfl)
  obtain ⟨hhome, hheld⟩ := h.write_corpus htags hapi hw
  refine ⟨hhome, ?_, fun name hn => ?_⟩
  · rintro name (rfl | rfl)
    · rw [hheld, Function.update_of_ne (id.tagsName_ne_apiName id), Function.update_self]
      rfl
    · rw [hheld, Function.update_self]
      rfl
  · obtain ⟨hne, hne'⟩ := not_or.1 hn
    rw [hheld, Function.update_of_ne hne', Function.update_of_ne hne]

theorem create_cases (fs : FileSystem) (cache : Path) : ∃ made,
    (made = fs ∨ fs.makeDirectories (cache.join "stdlib") = .ok made) ∧
      ((create fs cache).2 = made ∨
        made.writeText ((cache.join "stdlib").join Builtins.fileName) Builtins.source =
          .ok (create fs cache).2) := by
  generalize hr : create fs cache = r
  rw [create, builtinDir] at hr
  cases hm : fs.makeDirectories (cache.join "stdlib") with
  | error e =>
    refine ⟨fs, .inl rfl, ?_⟩
    simp only [hm] at hr
    split at hr
    · rename_i hw
      subst hr
      exact .inr hw
    · subst hr
      exact .inl rfl
  | ok made =>
    refine ⟨made, .inr rfl, ?_⟩
    simp only [hm] at hr
    split at hr
    · rename_i hw
      subst hr
      exact .inr hw
    · subst hr
      exact .inl rfl

/-- The built-in declarations stand in a directory of their own. -/
theorem Home.create (h : Home cache fs) :
    Home cache (create fs cache).2 ∧ held cache (create fs cache).2 = held cache fs := by
  have hstdlib : Path.IsPlain "stdlib" := by decide
  have hfile : Path.IsPlain Builtins.fileName := by decide
  have habs := Path.isAbsolute_join h.absolute "stdlib"
  obtain ⟨made, hmade, hwrite⟩ := create_cases fs cache
  obtain ⟨hhome, hheld⟩ : Home cache made ∧ held cache made = held cache fs := by
    obtain rfl | hmade := hmade
    · exact ⟨h, rfl⟩
    · exact h.makeDirectories hmade
  obtain hsame | hwrite := hwrite
  · rw [hsame]
    exact ⟨hhome, hheld⟩
  · obtain ⟨hhome', hheld'⟩ := hhome.write (Path.isAbsolute_join habs _) hwrite
    refine ⟨hhome', funext fun name => ?_⟩
    rw [hheld', hheld, if_neg]
    rw [FileSystem.place_join_plain habs hfile, FileSystem.place_join_plain h.absolute hstdlib]
    intro hplace
    have hlength := congrArg List.length hplace
    simp at hlength

/-! ### Files of overrides -/

/-- The names of the files that an index has use for after a scan. -/
def corpusNames (x : Index) : List String :=
  "tags" :: "api" :: x.overrides.flatMap fun o => [o.2.id.tagsName, o.2.id.apiName]

theorem mem_corpusNames :
    name ∈ x.corpusNames ↔ name = "tags" ∨ name = "api" ∨ ∃ o ∈ x.overrides, o.2.id.Names name := by
  simp [corpusNames, RescanId.Names]

/-- Removes the files of what a label is overridden with. -/
def supersede (x : Index) (fs : FileSystem) (label : String) : FileSystem :=
  match x.overrides.find? (·.1 == label) with
  | some (_, earlier) => x.removeRescan fs earlier.id
  | none => fs

theorem forget_tree (x : Index) (fs : FileSystem) (p : Path) :
    (x.forget fs p).2 = x.supersede fs (x.labelOf fs p) := by
  rw [forget, supersede]
  cases x.overrides.find? (·.1 == x.labelOf fs p) with
  | none => simp only
  | some o => simp only

theorem Home.removeRescan (h : Home x.cache fs) (id : RescanId) :
    Home x.cache (x.removeRescan fs id) ∧
      ∀ name, held x.cache (x.removeRescan fs id) name =
        if id.Names name then none else held x.cache fs name := by
  have htags : Path.IsPlain id.tagsName := RescanId.Names.isPlain (.inl rfl)
  have hapi : Path.IsPlain id.apiName := RescanId.Names.isPlain (.inr rfl)
  obtain ⟨hhome, hheld⟩ := h.removeAt htags
  obtain ⟨hhome', hheld'⟩ := hhome.removeAt hapi
  refine ⟨hhome', fun name => ?_⟩
  rw [show held x.cache (x.removeRescan fs id) = _ from hheld', hheld]
  by_cases hn : name = id.apiName
  · simp [hn, RescanId.Names]
  · by_cases hn' : name = id.tagsName
    · simp [hn', RescanId.Names, id.tagsName_ne_apiName id]
    · simp [hn, hn', RescanId.Names]

theorem Ordered.eq_of_mem {overrides : List (String × Rescan)} (h : Ordered overrides)
    {o o' : String × Rescan} (ho : o ∈ overrides) (ho' : o' ∈ overrides) (hlabel : o.1 = o'.1) :
    o = o' := by
  have hnodup : (overrides.map (·.1)).Nodup := List.pairwise_map.2 (h.imp fun hlt => hlt.ne)
  exact List.inj_on_of_nodup_map hnodup ho ho' hlabel

theorem Home.supersede (h : Home x.cache fs) (hordered : Ordered x.overrides) (label : String) :
    Home x.cache (x.supersede fs label) ∧
      ∀ name, held x.cache (x.supersede fs label) name =
        if ∃ o ∈ x.overrides, o.1 = label ∧ o.2.id.Names name then none
        else held x.cache fs name := by
  rw [Index.supersede]
  split
  · rename_i l earlier hfind
    have hmem := List.mem_of_find?_eq_some hfind
    have hlabel : l = label := by simpa using List.find?_some hfind
    obtain ⟨hhome, hheld⟩ := h.removeRescan earlier.id
    refine ⟨hhome, fun name => ?_⟩
    rw [hheld]
    refine if_congr ⟨fun hn => ⟨_, hmem, hlabel, hn⟩, ?_⟩ rfl rfl
    rintro ⟨o, ho, ho', hn⟩
    rwa [hordered.eq_of_mem ho hmem (ho'.trans hlabel.symm)] at hn
  · rename_i hfind
    refine ⟨h, fun name => ?_⟩
    rw [if_neg]
    rintro ⟨o, ho, hlabel, -⟩
    exact absurd hlabel (by simpa using List.find?_eq_none.1 hfind o ho)

/-! ### Calls that succeed -/

/-- What a rescan that succeeds has done to the tree. -/
theorem rescan_ok {text : String} {count : Nat} (h : (x.rescan fs p text).2.2 = .ok count) :
    ∃ root made copied written, ∃ d c : Corpus, x.root = some root ∧
      (made = fs ∨ ∃ dir, fs.makeDirectories dir = .ok made) ∧
      made.writeText (x.copyOf root (fs.canonical p)) text = .ok copied ∧
      d.write (copied.removeAt (x.cache.join x.nextId.text)) x.nextTags x.nextApi = .ok written ∧
      Corpus.load written x.nextTags x.nextApi = .ok c ∧
      (x.rescan fs p text).1 = { x with
        issued := x.issued + 1
        overrides := insertOverride (Label.ofPath root (fs.canonical p))
          { id := x.nextId, corpus := c } x.overrides } ∧
      (x.rescan fs p text).2.1 = x.supersede written (Label.ofPath root (fs.canonical p)) := by
  cases hroot : x.root with
  | none =>
    rw [rescan, hroot] at h
    cases h
  | some root =>
    generalize hr : x.rescan fs p text = r at h
    rw [rescan, hroot] at hr
    simp only at hr
    split at hr
    · subst hr
      cases h
    · rename_i made hmade
      split at hr
      · subst hr
        cases h
      · rename_i copied hcopied
        split at hr
        · subst hr
          cases h
        · rename_i written hwrite
          split at hr
          · subst hr
            cases h
          · rename_i c hload
            subst hr
            refine ⟨root, made, copied, written, _, c, rfl, ?_, mapError_eq_ok hcopied, hwrite, hload,
              rfl, rfl⟩
            split at hmade
            · exact .inr ⟨_, mapError_eq_ok hmade⟩
            · exact .inl (Except.ok.inj hmade).symm

end Index

end LuaLens
