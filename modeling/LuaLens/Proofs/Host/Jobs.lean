import LuaLens.Host.Jobs
import LuaLens.Proofs.Shape
import Mathlib

/-!
The jobs that servers report on. After any notices the list has one job for each text of a token that has
begun and not ended since, with what was last said of it. Tokens are told apart by their texts alone: notices
of tokens with different texts never meet in one job, and a number and the name of its digits always do.
-/

namespace LuaLens

/-! ### Notices -/

/-- What a server calls a job. -/
inductive Token
  | number (n : Int)
  | name (s : String)
deriving DecidableEq, Repr

namespace Token

def toJson : Token → Json
  | number n => .int n
  | name s => .str s

/-- The text that a token is kept under. -/
def text (t : Token) : String := Jobs.tokenText t.toJson

/-- Only a number and the name of its digits have the same text. -/
theorem injOn_text_iff (s : Set Token) :
    s.InjOn text ↔ ∀ n, number n ∈ s → name (toString n) ∉ s := by
  constructor
  · intro h n hnumber hname
    cases h hnumber hname rfl
  · intro h t ht t' ht' heq
    match t, t' with
    | number n, number n' => exact congrArg number (Int.repr_inj.1 heq)
    | name s, name s' => exact congrArg name heq
    | number n, name s =>
      obtain rfl : toString n = s := heq
      exact absurd ht' (h n ht)
    | name s, number n =>
      obtain rfl : s = toString n := heq
      exact absurd ht (h n ht')

end Token

/-- What is said of a job. -/
inductive News
  | begun (title : String) (cancellable : Option Bool) (message : Option String)
      (percentage : Option Nat)
  | reported (cancellable : Option Bool) (message : Option String) (percentage : Option Nat)
  | ended (message : Option String)

namespace News

def members : News → List (String × Json)
  | begun title cancellable message percentage =>
    ("kind", .str "begin") :: ("title", .str title) ::
      (Json.optional "cancellable" .bool cancellable ++ (Json.optional "message" .str message ++
        Json.optional "percentage" .nat percentage))
  | reported cancellable message percentage =>
    ("kind", .str "report") ::
      (Json.optional "cancellable" .bool cancellable ++ (Json.optional "message" .str message ++
        Json.optional "percentage" .nat percentage))
  | ended message => ("kind", .str "end") :: Json.optional "message" .str message

/-- The message and the percentage of a beginning or a report. -/
def progress? : News → Option (Option String × Option Nat)
  | begun _ _ message percentage | reported _ message percentage => some (message, percentage)
  | ended _ => none

end News

structure Notice where
  token : Token
  news : News

namespace Notice

/-- A notice in normal form. -/
def toJson (n : Notice) : Json := .obj [("token", n.token.toJson), ("value", .obj n.news.members)]

/-- The job has the title and the flag of the notice, which begins it. -/
def Begins (n : Notice) (job : Job) : Prop :=
  ∃ cancellable message percentage, n.news = .begun job.title cancellable message percentage ∧
    job.token = n.token.text ∧ job.cancellable = cancellable.getD false

def IsReport (n : Notice) : Prop :=
  ∃ cancellable message percentage, n.news = .reported cancellable message percentage

/-- The job has the message and the percentage of the notice. -/
def Says (n : Notice) (job : Job) : Prop := n.news.progress? = some (job.message, job.percentage)

end Notice

/-- The job that notices of a kind leave: the last of them that begins one begins it and none after that ends
it, and the last one of all says how it goes. -/
def Standing (mine : Notice → Bool) (notices : List Notice) (job : Job) : Prop :=
  ∃ earlier first later, notices = earlier ++ first :: later ∧ mine first = true ∧ first.Begins job ∧
    (∀ n ∈ later, mine n = true → n.IsReport) ∧
    ∃ last, ((first :: later).filter mine).getLast? = some last ∧ last.Says job

/-! ### Normal forms -/

namespace Shape

variable {j k : Json}

theorem token_eq_some {i : Json} (h : token i = some j) : ∃ t : Token, j = t.toJson := by
  simp only [token, oneOf, List.findSome?_cons, List.findSome?_nil] at h
  cases hint : int i with
  | some k =>
    rw [hint] at h
    obtain rfl := Option.some.inj h
    obtain ⟨n, -, rfl⟩ := whole_eq_some hint
    exact ⟨.number n, rfl⟩
  | none =>
    rw [hint] at h
    cases htext : text i with
    | some k =>
      rw [htext] at h
      obtain rfl := Option.some.inj h
      obtain ⟨s, rfl⟩ := text_eq_some htext
      exact ⟨.name s, rfl⟩
    | none =>
      rw [htext] at h
      cases h

theorem optional_members {values : List (Option Json)} {members : List (String × Json)}
    (hlength : values.length = 3)
    (h : gather [opt "cancellable" bool, opt "message" text, opt "percentage" nat] values =
      some (.obj members)) :
    ∃ cancellable message percentage, members = Json.optional "cancellable" .bool cancellable ++
      (Json.optional "message" .str message ++ Json.optional "percentage" .nat percentage) := by
  obtain ⟨_, _, _, _, hcancellable, hlength₁, h₁, rfl⟩ := gather_cons hlength h
  obtain ⟨_, _, _, _, hmessage, hlength₂, h₂, rfl⟩ := gather_cons hlength₁ h₁
  obtain ⟨_, _, _, _, hpercentage, -, hlast, rfl⟩ := gather_cons hlength₂ h₂
  obtain ⟨cancellable, rfl⟩ := member_opt (fun _ _ => bool_eq_some) hcancellable
  obtain ⟨message, rfl⟩ := member_opt (fun _ _ => text_eq_some) hmessage
  obtain ⟨percentage, rfl⟩ := member_opt (fun _ _ => nat_eq_some) hpercentage
  exact ⟨cancellable, message, percentage, by rw [gather_nil hlast, List.append_nil]⟩

theorem workDone_eq_some (h : workDone j = some k) : ∃ news : News, k = .obj news.members := by
  obtain ⟨name, fields, body, members, hfields, hbody, rfl⟩ := variants_eq_some h
  obtain ⟨values, all, hlength, hgather, hall⟩ := gather_of_record hbody
  obtain rfl := Json.obj.inj hall
  simp only [List.lookup_cons] at hfields
  split at hfields
  · next hname =>
    obtain rfl := Option.some.inj hfields
    obtain rfl := eq_of_beq hname
    obtain ⟨_, _, _, _, htitle, hrest, hothers, rfl⟩ := gather_cons hlength hgather
    obtain ⟨_, _, htext, rfl⟩ := member_req htitle
    obtain ⟨title, rfl⟩ := text_eq_some htext
    obtain ⟨cancellable, message, percentage, rfl⟩ := optional_members hrest hothers
    exact ⟨.begun title cancellable message percentage, rfl⟩
  split at hfields
  · next hname =>
    obtain rfl := Option.some.inj hfields
    obtain rfl := eq_of_beq hname
    obtain ⟨cancellable, message, percentage, rfl⟩ := optional_members hlength hgather
    exact ⟨.reported cancellable message percentage, rfl⟩
  split at hfields
  · next hname =>
    obtain rfl := Option.some.inj hfields
    obtain rfl := eq_of_beq hname
    obtain ⟨_, _, _, _, hmessage, -, hothers, rfl⟩ := gather_cons hlength hgather
    obtain ⟨message, rfl⟩ := member_opt (fun _ _ => text_eq_some) hmessage
    exact ⟨.ended message, by rw [gather_nil hothers, List.append_nil]; rfl⟩
  · cases hfields

/-- What is told of a job is a notice in normal form. -/
theorem progress_eq_some (h : progress j = some k) : ∃ n : Notice, k = n.toJson := by
  obtain ⟨values, all, hlength, hgather, rfl⟩ := gather_of_record h
  obtain ⟨_, _, _, _, htoken, hrest, hothers, rfl⟩ := gather_cons hlength hgather
  obtain ⟨_, _, _, _, hnews, -, hlast, rfl⟩ := gather_cons hrest hothers
  obtain ⟨_, _, hfirst, rfl⟩ := member_req htoken
  obtain ⟨_, _, hsecond, rfl⟩ := member_req hnews
  obtain ⟨token, rfl⟩ := token_eq_some hfirst
  obtain ⟨news, rfl⟩ := workDone_eq_some hsecond
  exact ⟨⟨token, news⟩, by rw [gather_nil hlast]; rfl⟩

end Shape

/-! ### One notice more -/

section

variable {mine : Notice → Bool} {notices : List Notice} {n : Notice} {job : Job}

theorem Standing.exists_first (h : Standing mine notices job) :
    ∃ n ∈ notices, mine n = true ∧ n.Begins job := by
  obtain ⟨earlier, first, later, rfl, hmine, hbegins, -⟩ := h
  exact ⟨first, List.mem_append_right _ List.mem_cons_self, hmine, hbegins⟩

theorem not_standing_nil : ¬ Standing mine [] job := fun h => by
  obtain ⟨n, hn, -⟩ := h.exists_first
  cases hn

/-- Two kinds with the same notices leave the same job. -/
theorem standing_congr {mine' : Notice → Bool} (h : ∀ n ∈ notices, mine n = mine' n) :
    Standing mine notices job ↔ Standing mine' notices job := by
  have hof {mine mine' : Notice → Bool} (h : ∀ n ∈ notices, mine n = mine' n)
      (hs : Standing mine notices job) : Standing mine' notices job := by
    obtain ⟨earlier, first, later, rfl, hmine, hbegins, hreports, last, hlast, hstate⟩ := hs
    have htail : ∀ n ∈ first :: later, mine n = mine' n := fun n hn => h n (List.mem_append_right _ hn)
    refine ⟨earlier, first, later, rfl, ?_, hbegins, fun n hn hm => ?_, last, ?_, hstate⟩
    · rw [← htail first List.mem_cons_self, hmine]
    · exact hreports n hn (by rw [htail n (List.mem_cons_of_mem _ hn), hm])
    · rw [← List.filter_congr htail, hlast]
  exact ⟨hof h, hof fun n hn => (h n hn).symm⟩

/-- What a job was like before the last report on it. -/
theorem exists_says {later : List Notice} {first : Notice} (hmine : mine first = true)
    (hbegins : first.Begins job) (hreports : ∀ n ∈ later, mine n = true → n.IsReport) :
    ∃ message percentage last, ((first :: later).filter mine).getLast? = some last ∧
      last.Says { job with message, percentage } := by
  have hne : (first :: later).filter mine ≠ [] := by
    rw [List.filter_cons_of_pos hmine]
    exact List.cons_ne_nil _ _
  have hmem := List.mem_filter.1 (List.getLast_mem hne)
  have hlast := List.getLast?_eq_some_getLast hne
  obtain h | h := List.mem_cons.1 hmem.1
  · obtain ⟨_, message, percentage, hnews, -⟩ := hbegins
    refine ⟨message, percentage, _, hlast, ?_⟩
    rw [h, Notice.Says, hnews]
    rfl
  · obtain ⟨_, message, percentage, hnews⟩ := hreports _ h hmem.2
    refine ⟨message, percentage, _, hlast, ?_⟩
    rw [Notice.Says, hnews]
    rfl

theorem getLast?_filter_concat (mine : Notice → Bool) (notices : List Notice) (n : Notice) :
    ((notices ++ [n]).filter mine).getLast? =
      if mine n = true then some n else (notices.filter mine).getLast? := by
  rw [List.filter_append]
  split_ifs with h
  · rw [List.filter_cons_of_pos h, List.filter_nil, List.getLast?_concat]
  · rw [List.filter_cons_of_neg h, List.filter_nil, List.append_nil]

/-- A list with one more at its end is split behind its beginning, or in front of the last. -/
theorem concat_eq_append_cons {earlier later : List Notice} {first : Notice}
    (h : notices ++ [n] = earlier ++ first :: later) :
    earlier = notices ∧ first = n ∧ later = [] ∨
      ∃ before, later = before ++ [n] ∧ notices = earlier ++ first :: before := by
  obtain rfl | ⟨before, m, rfl⟩ := List.eq_nil_or_concat later
  · obtain ⟨rfl, hn⟩ := List.append_inj' h rfl
    exact .inl ⟨rfl, (List.cons.inj hn).1.symm, rfl⟩
  · rw [List.concat_eq_append, ← List.cons_append, ← List.append_assoc] at h
    obtain ⟨rfl, hn⟩ := List.append_inj' h rfl
    obtain rfl := (List.cons.inj hn).1
    exact .inr ⟨before, List.concat_eq_append, rfl⟩

/-- A notice of another kind changes nothing. -/
theorem standing_concat_of_neg (h : mine n = false) :
    Standing mine (notices ++ [n]) job ↔ Standing mine notices job := by
  have hneg : ¬ mine n = true := by simp [h]
  constructor
  · rintro ⟨earlier, first, later, heq, hmine, hbegins, hreports, last, hlast, hstate⟩
    obtain ⟨-, rfl, -⟩ | ⟨before, rfl, rfl⟩ := concat_eq_append_cons heq
    · exact absurd hmine hneg
    · rw [← List.cons_append, getLast?_filter_concat, if_neg hneg] at hlast
      exact ⟨earlier, first, before, rfl, hmine, hbegins,
        fun m hm => hreports m (List.mem_append_left _ hm), last, hlast, hstate⟩
  · rintro ⟨earlier, first, later, rfl, hmine, hbegins, hreports, last, hlast, hstate⟩
    refine ⟨earlier, first, later ++ [n], by simp, hmine, hbegins, ?_, last, ?_, hstate⟩
    · refine List.forall_mem_append.2 ⟨hreports, fun m hm hmine => ?_⟩
      obtain rfl := List.mem_singleton.1 hm
      exact absurd hmine hneg
    · rw [← List.cons_append, getLast?_filter_concat, if_neg hneg, hlast]

/-- A notice of the kind says how its job goes, and begins it or reports on the one there was. -/
theorem standing_concat_of_pos (h : mine n = true) :
    Standing mine (notices ++ [n]) job ↔ n.Says job ∧ (n.Begins job ∨ n.IsReport ∧
      ∃ message percentage, Standing mine notices { job with message, percentage }) := by
  constructor
  · rintro ⟨earlier, first, later, heq, hmine, hbegins, hreports, last, hlast, hstate⟩
    obtain ⟨rfl, rfl, rfl⟩ | ⟨before, rfl, rfl⟩ := concat_eq_append_cons heq
    · rw [List.filter_cons_of_pos hmine] at hlast
      obtain rfl := Option.some.inj hlast
      exact ⟨hstate, .inl hbegins⟩
    · rw [← List.cons_append, getLast?_filter_concat, if_pos h] at hlast
      obtain rfl := Option.some.inj hlast
      have hbefore : ∀ m ∈ before, mine m = true → m.IsReport := fun m hm =>
        hreports m (List.mem_append_left _ hm)
      obtain ⟨message, percentage, last, hlast, hsaid⟩ := exists_says hmine hbegins hbefore
      exact ⟨hstate, .inr ⟨hreports n (List.mem_append_right _ (by simp)) h, message, percentage,
        earlier, first, before, rfl, hmine, hbegins, hbefore, last, hlast, hsaid⟩⟩
  · rintro ⟨hstate, hbegins | ⟨hreport, message, percentage, earlier, first, later, rfl, hmine, hbegins,
      hreports, -⟩⟩
    · refine ⟨notices, n, [], rfl, h, hbegins, by simp, n, ?_, hstate⟩
      rw [List.filter_cons_of_pos h]
      rfl
    · refine ⟨earlier, first, later ++ [n], by simp, hmine, hbegins, ?_, n, ?_, hstate⟩
      · refine List.forall_mem_append.2 ⟨hreports, fun m hm _ => ?_⟩
        obtain rfl := List.mem_singleton.1 hm
        exact hreport
      · rw [← List.cons_append, getLast?_filter_concat, if_pos h]

theorem standing_concat : Standing mine (notices ++ [n]) job ↔
    mine n = false ∧ Standing mine notices job ∨
    mine n = true ∧ n.Says job ∧ (n.Begins job ∨ n.IsReport ∧
      ∃ message percentage, Standing mine notices { job with message, percentage }) := by
  cases h : mine n with
  | false => simp [standing_concat_of_neg h]
  | true => simp [standing_concat_of_pos h]

end

/-! ### Jobs by their texts -/

namespace Jobs

variable {jobs : Jobs} {job : Job}

theorem apply_begun (jobs : Jobs) (token : Token) (title : String) (cancellable : Option Bool)
    (message : Option String) (percentage : Option Nat) :
    jobs.apply (Notice.toJson ⟨token, .begun title cancellable message percentage⟩) =
      update (start token.text title (cancellable.getD false) jobs) token.text message percentage := by
  cases cancellable <;> cases message <;> cases percentage <;> rfl

theorem apply_reported (jobs : Jobs) (token : Token) (cancellable : Option Bool)
    (message : Option String) (percentage : Option Nat) :
    jobs.apply (Notice.toJson ⟨token, .reported cancellable message percentage⟩) =
      jobs.update token.text message percentage := by
  cases cancellable <;> cases message <;> cases percentage <;> rfl

theorem apply_ended (jobs : Jobs) (token : Token) (message : Option String) :
    jobs.apply (Notice.toJson ⟨token, .ended message⟩) = jobs.finish token.text := by
  cases message <;> rfl

/-- The first job that is kept under a text. -/
def get? (jobs : Jobs) (key : String) : Option Job := jobs.find? (·.token == key)

/-- No two jobs are kept under one text. -/
def InOrder (jobs : Jobs) : Prop := jobs.Pairwise (·.token < ·.token)

theorem get?_cons (first : Job) (jobs : Jobs) (key : String) :
    get? (first :: jobs) key = if first.token = key then some first else get? jobs key := by
  rw [get?, List.find?_cons, get?]
  by_cases h : first.token = key
  · rw [if_pos h, beq_iff_eq.2 h]
  · rw [if_neg h, beq_eq_false_iff_ne.2 h]

theorem InOrder.mem_iff (h : jobs.InOrder) : job ∈ jobs ↔ jobs.get? job.token = some job := by
  refine ⟨fun hm => ?_, List.mem_of_find?_eq_some⟩
  induction jobs with
  | nil => cases hm
  | cons first rest ih =>
    obtain ⟨hfirst, hrest⟩ := List.pairwise_cons.1 h
    rw [get?_cons]
    obtain rfl | hm := List.mem_cons.1 hm
    · rw [if_pos rfl]
    · rw [if_neg (hfirst job hm).ne, ih hrest hm]

theorem get?_start (jobs : Jobs) (token title : String) (cancellable : Bool) (key : String) :
    (start token title cancellable jobs).get? key =
      if token = key then some { token, title, cancellable } else jobs.get? key := by
  induction jobs with
  | nil => rw [start, get?_cons]
  | cons first rest ih =>
    rw [start]
    by_cases hsame : first.token = token
    · rw [if_pos (beq_iff_eq.2 hsame), get?_cons, get?_cons, hsame]
      split_ifs <;> rfl
    · rw [if_neg (by simpa using hsame)]
      split_ifs with hbefore hkey hkey
      · rw [get?_cons, if_pos hkey]
      · rw [get?_cons, if_neg hkey]
      · rw [get?_cons, if_neg (hkey ▸ hsame), ih, if_pos hkey]
      · rw [get?_cons, get?_cons, ih, if_neg hkey]

theorem get?_update (jobs : Jobs) (token : String) (message : Option String) (percentage : Option Nat)
    (key : String) : (jobs.update token message percentage).get? key =
      if token = key then (jobs.get? key).map fun job => { job with message, percentage }
      else jobs.get? key := by
  induction jobs with
  | nil => simp [update, get?]
  | cons first rest ih =>
    have hcons : update (first :: rest) token message percentage =
        (if first.token == token then { first with message, percentage } else first) ::
          update rest token message percentage := rfl
    by_cases hsame : first.token = token
    · rw [hcons, if_pos (beq_iff_eq.2 hsame), get?_cons, get?_cons, ih, hsame]
      by_cases hkey : token = key
      · simp only [if_pos hkey, Option.map_some, hsame]
      · simp only [if_neg hkey]
    · rw [hcons, if_neg (by simpa using hsame), get?_cons, get?_cons, ih]
      by_cases hkey : first.token = key
      · have hother : token ≠ key := fun h => hsame (hkey.trans h.symm)
        simp only [if_pos hkey, if_neg hother]
      · simp only [if_neg hkey]

theorem get?_finish (jobs : Jobs) (token key : String) :
    (jobs.finish token).get? key = if token = key then none else jobs.get? key := by
  rw [get?, finish, List.find?_filter, get?]
  split_ifs with h
  · rw [List.find?_eq_none]
    simp [h]
  · congr 1
    funext job
    by_cases hkey : job.token = key
    · simp [hkey, Ne.symm h]
    · simp [hkey]

theorem mem_start {token title : String} {cancellable : Bool} (h : job ∈ start token title cancellable jobs) :
    job.token = token ∨ job ∈ jobs := by
  induction jobs with
  | nil =>
    obtain rfl := List.mem_singleton.1 h
    exact .inl rfl
  | cons first rest ih =>
    rw [start] at h
    split_ifs at h with hsame hbefore
    · exact (List.mem_cons.1 h).imp (congrArg Job.token) (List.mem_cons_of_mem _)
    · exact (List.mem_cons.1 h).imp_left (congrArg Job.token)
    · obtain rfl | h := List.mem_cons.1 h
      · exact .inr List.mem_cons_self
      · exact (ih h).imp_right (List.mem_cons_of_mem _)

theorem InOrder.start (h : jobs.InOrder) (token title : String) (cancellable : Bool) :
    (Jobs.start token title cancellable jobs).InOrder := by
  induction jobs with
  | nil => exact List.pairwise_singleton _ _
  | cons first rest ih =>
    obtain ⟨hfirst, hrest⟩ := List.pairwise_cons.1 h
    rw [Jobs.start]
    split_ifs with hsame hbefore
    · rw [beq_iff_eq] at hsame
      exact List.pairwise_cons.2 ⟨hsame ▸ hfirst, hrest⟩
    · exact List.pairwise_cons.2
        ⟨List.forall_mem_cons.2 ⟨hbefore, fun job hm => hbefore.trans (hfirst job hm)⟩, h⟩
    · rw [beq_iff_eq] at hsame
      refine List.pairwise_cons.2 ⟨fun job hm => ?_, ih hrest⟩
      obtain htoken | hm := mem_start hm
      · rw [htoken]
        exact lt_of_le_of_ne (not_lt.1 hbefore) hsame
      · exact hfirst job hm

theorem InOrder.update (h : jobs.InOrder) (token : String) (message : Option String)
    (percentage : Option Nat) : (Jobs.update jobs token message percentage).InOrder := by
  have htoken (job : Job) :
      (if job.token == token then { job with message, percentage } else job).token = job.token := by
    split_ifs <;> rfl
  rw [InOrder, Jobs.update, List.pairwise_map]
  simp only [htoken]
  exact h

theorem InOrder.finish (h : jobs.InOrder) (token : String) : (Jobs.finish jobs token).InOrder :=
  List.Pairwise.filter _ h

/-- A job that was reported on is as before but for what was said last. -/
theorem map_reported_eq_some {old? : Option Job} {message : Option String} {percentage : Option Nat} :
    old?.map (fun job => { job with message, percentage }) = some job ↔
      (message = job.message ∧ percentage = job.percentage) ∧
        ∃ message percentage, old? = some { job with message, percentage } := by
  constructor
  · intro h
    obtain ⟨old, hold, rfl⟩ := Option.map_eq_some_iff.1 h
    exact ⟨⟨rfl, rfl⟩, old.message, old.percentage, hold⟩
  · rintro ⟨⟨rfl, rfl⟩, message, percentage, rfl⟩
    rfl

/-- A notice leaves the jobs under other texts, and makes or changes the one under its own. -/
theorem get?_apply (jobs : Jobs) (n : Notice) (key : String) :
    (jobs.apply n.toJson).get? key = some job ↔
      n.token.text ≠ key ∧ jobs.get? key = some job ∨
      n.token.text = key ∧ n.Says job ∧ (n.Begins job ∨ n.IsReport ∧
        ∃ message percentage, jobs.get? key = some { job with message, percentage }) := by
  obtain ⟨token, news⟩ := n
  cases news with
  | begun title cancellable message percentage =>
    rw [apply_begun, get?_update, get?_start]
    obtain rfl | hkey := eq_or_ne token.text key
    · rw [if_pos rfl, if_pos rfl, Option.map_some]
      constructor
      · intro h
        obtain rfl := Option.some.inj h
        exact .inr ⟨rfl, rfl, .inl ⟨cancellable, message, percentage, rfl, rfl, rfl⟩⟩
      · obtain ⟨token', title', message', percentage', cancellable'⟩ := job
        rintro (⟨hne, -⟩ | ⟨-, hstate, ⟨_, _, _, hnews, rfl, rfl⟩ | ⟨⟨_, _, _, hnews⟩, -⟩⟩)
        · exact absurd rfl hne
        · obtain ⟨rfl, rfl⟩ := Prod.mk.inj (Option.some.inj hstate)
          obtain ⟨rfl, rfl, -⟩ := News.begun.inj hnews
          rfl
        · cases hnews
    · simp [hkey]
  | reported cancellable message percentage =>
    rw [apply_reported, get?_update]
    by_cases hkey : token.text = key
    · rw [if_pos hkey, map_reported_eq_some]
      simp [hkey, Notice.Says, Notice.Begins, Notice.IsReport, News.progress?]
    · simp [hkey]
  | ended message =>
    rw [apply_ended, get?_finish]
    by_cases hkey : token.text = key
    · simp [hkey, Notice.Says, News.progress?]
    · simp [hkey]

/-! ### Runs -/

/-- The jobs after notices in normal form, from none. -/
def ofNotices (notices : List Notice) : Jobs := (notices.map Notice.toJson).foldl apply []

theorem ofNotices_concat (notices : List Notice) (n : Notice) :
    ofNotices (notices ++ [n]) = (ofNotices notices).apply n.toJson := by
  simp [ofNotices]

theorem inOrder_ofNotices (notices : List Notice) : (ofNotices notices).InOrder := by
  induction notices using List.reverseRecOn with
  | nil => exact .nil
  | append_singleton notices n ih =>
    rw [ofNotices_concat]
    obtain ⟨token, news⟩ := n
    cases news with
    | begun =>
      rw [apply_begun]
      exact (ih.start _ _ _).update _ _ _
    | reported =>
      rw [apply_reported]
      exact ih.update _ _ _
    | ended =>
      rw [apply_ended]
      exact ih.finish _

theorem get?_ofNotices {notices : List Notice} {key : String} :
    (ofNotices notices).get? key = some job ↔ Standing (·.token.text == key) notices job := by
  induction notices using List.reverseRecOn generalizing job with
  | nil => exact iff_of_false (by simp [ofNotices, get?]) not_standing_nil
  | append_singleton notices n ih =>
    rw [ofNotices_concat, get?_apply, standing_concat]
    simp only [ih, beq_iff_eq, beq_eq_false_iff_ne]

theorem mem_ofNotices {notices : List Notice} :
    job ∈ ofNotices notices ↔ Standing (·.token.text == job.token) notices job := by
  rw [(inOrder_ofNotices notices).mem_iff, get?_ofNotices]

/-! ### Jobs by their tokens -/

/-- There is one job for each token that notices leave one of, and it is made of the notices of that token
alone. -/
def ByToken (notices : List Notice) : Prop :=
  ∃ tokens : List Token, tokens.Nodup ∧
    (∀ t, t ∈ tokens ↔ ∃ job, Standing (·.token == t) notices job) ∧
    List.Forall₂ (fun t job => Standing (·.token == t) notices job) tokens (ofNotices notices)

theorem token_of_standing {notices : List Notice} {t : Token}
    (h : Standing (·.token == t) notices job) : job.token = t.text := by
  obtain ⟨n, -, hn, -, -, -, -, htoken, -⟩ := h.exists_first
  rw [htoken, eq_of_beq hn]

theorem exists_forall₂ {α β : Type} {r : α → β → Prop} {bs : List β} (h : ∀ b ∈ bs, ∃ a, r a b) :
    ∃ as, List.Forall₂ r as bs := by
  induction bs with
  | nil => exact ⟨[], .nil⟩
  | cons b bs ih =>
    obtain ⟨hb, hbs⟩ := List.forall_mem_cons.1 h
    obtain ⟨a, ha⟩ := hb
    obtain ⟨as, has⟩ := ih hbs
    exact ⟨a :: as, .cons ha has⟩

theorem exists_of_forall₂ {α β : Type} {r : α → β → Prop} {as : List α} {bs : List β}
    (h : List.Forall₂ r as bs) : (∀ a ∈ as, ∃ b, r a b) ∧ ∀ b ∈ bs, ∃ a ∈ as, r a b := by
  induction h with
  | nil => simp
  | cons hab _ ih =>
    refine ⟨List.forall_mem_cons.2 ⟨⟨_, hab⟩, ih.1⟩, List.forall_mem_cons.2 ⟨?_, fun b hb => ?_⟩⟩
    · exact ⟨_, List.mem_cons_self, hab⟩
    · obtain ⟨a, ha, hr⟩ := ih.2 b hb
      exact ⟨a, List.mem_cons_of_mem _ ha, hr⟩

/-- Where texts tell the tokens apart, the notices of a token are those of its text. -/
theorem standing_text_iff {notices : List Notice} {s : Set Token} (hinj : s.InjOn Token.text)
    (hs : ∀ n ∈ notices, n.token ∈ s) {t : Token} (ht : t ∈ s) :
    Standing (·.token.text == t.text) notices job ↔ Standing (·.token == t) notices job := by
  refine standing_congr fun n hn => ?_
  rw [Bool.eq_iff_iff, beq_iff_eq, beq_iff_eq]
  exact hinj.eq_iff (hs n hn) ht

theorem byToken_of_injOn {notices : List Notice} {s : Set Token} (hinj : s.InjOn Token.text)
    (hs : ∀ n ∈ notices, n.token ∈ s) : ByToken notices := by
  have hjob (job : Job) (hm : job ∈ ofNotices notices) :
      ∃ t, Standing (·.token == t) notices job := by
    have hstanding := mem_ofNotices.1 hm
    obtain ⟨n, hn, hmine, -⟩ := hstanding.exists_first
    rw [← eq_of_beq hmine] at hstanding
    exact ⟨n.token, (standing_text_iff hinj hs (hs n hn)).1 hstanding⟩
  obtain ⟨tokens, htokens⟩ := exists_forall₂ hjob
  have htexts : tokens.map Token.text = (ofNotices notices).map Job.token := by
    rw [← List.forall₂_eq_eq_eq, List.forall₂_map_left_iff, List.forall₂_map_right_iff]
    exact htokens.imp fun _ _ h => (token_of_standing h).symm
  refine ⟨tokens, ?_, fun t => ⟨fun ht => ?_, fun ⟨job, hstanding⟩ => ?_⟩, htokens⟩
  · refine List.Nodup.of_map Token.text ?_
    rw [htexts]
    exact (List.pairwise_map.2 (inOrder_ofNotices notices)).imp ne_of_lt
  · exact (exists_of_forall₂ htokens).1 t ht
  · -- The job is in the list, under a token that has the same text.
    obtain ⟨n, hn, hmine, -⟩ := hstanding.exists_first
    have ht : t ∈ s := eq_of_beq hmine ▸ hs n hn
    have htext := token_of_standing hstanding
    have hm : job ∈ ofNotices notices := by
      rw [mem_ofNotices, htext, standing_text_iff hinj hs ht]
      exact hstanding
    obtain ⟨t', ht', hstanding'⟩ := (exists_of_forall₂ htokens).2 job hm
    obtain ⟨n', hn', hmine', -⟩ := hstanding'.exists_first
    have heq : t' = t := hinj (eq_of_beq hmine' ▸ hs n' hn') ht
      ((token_of_standing hstanding').symm.trans htext)
    exact heq ▸ ht'

/-- A job that is begun under one token is ended under another one of the same text. -/
theorem ofNotices_ended {t t' : Token} (htext : t.text = t'.text) (title : String) :
    ofNotices [⟨t, .begun title none none none⟩, ⟨t', .ended none⟩] = [] := by
  simp [ofNotices, apply_begun, apply_ended, start, update, finish, htext]

theorem not_byToken {t t' : Token} (hne : t ≠ t') (htext : t.text = t'.text) (title : String) :
    ¬ ByToken [⟨t, .begun title none none none⟩, ⟨t', .ended none⟩] := by
  rintro ⟨tokens, -, hmem, hforall⟩
  have hstanding : Standing (·.token == t)
      ([⟨t, .begun title none none none⟩] ++ [⟨t', .ended none⟩]) { token := t.text, title } := by
    refine standing_concat.2 (.inl ⟨by simpa using Ne.symm hne, [], _, [], rfl, by simp,
      ⟨none, none, none, rfl, rfl, rfl⟩, by simp, ⟨t, .begun title none none none⟩, by simp, rfl⟩)
  have ht := (hmem t).2 ⟨_, hstanding⟩
  rw [ofNotices_ended htext, List.forall₂_nil_right_iff] at hforall
  rw [hforall] at ht
  cases ht

/-- Whatever is told of jobs is a notice in normal form. After any notices there is one job for each text
that the notices of that text leave one of, in the order of the texts. There is one for each token, made of
its own notices alone, in all runs of notices about the tokens of a set just when there is no number in it
together with the name of its digits. -/
theorem jobs_by_text (s : Set Token) :
    (∀ document params, Shape.progress document = some params → ∃ n : Notice, params = n.toJson) ∧
    (∀ notices, (ofNotices notices).InOrder ∧ ∀ job, job ∈ ofNotices notices ↔
      Standing (·.token.text == job.token) notices job) ∧
    ((∀ notices, (∀ n ∈ notices, n.token ∈ s) → ByToken notices) ↔
      ∀ n, Token.number n ∈ s → Token.name (toString n) ∉ s) := by
  refine ⟨fun _ _ => Shape.progress_eq_some, fun notices => ⟨inOrder_ofNotices notices, fun _ =>
    mem_ofNotices⟩, ?_⟩
  rw [← Token.injOn_text_iff]
  refine ⟨fun h t ht t' ht' htext => ?_, fun hinj notices hs => byToken_of_injOn hinj hs⟩
  by_contra hne
  refine not_byToken hne htext "" (h _ fun n hn => ?_)
  obtain rfl | hn := List.mem_cons.1 hn
  · exact ht
  · obtain rfl := List.mem_singleton.1 hn
    exact ht'

/-- Two jobs go on side by side under a number and a name that is not made of its digits, but not under a
number and the name of its digits. -/
theorem jobs_by_text_digits :
    (∃ params, Shape.progress (.obj [("token", .str "scan"), ("value", .obj [("kind", .str "end")])]) =
      some params ∧ ∃ n : Notice, params = n.toJson) ∧
    ByToken [⟨.number 5, .begun "Index" none none none⟩, ⟨.name "scan", .begun "Scan" none none none⟩,
      ⟨.number 5, .ended none⟩] ∧
    ¬ ∀ notices : List Notice, (∀ n ∈ notices, n.token ∈ ({.number 1, .name "1"} : Set Token)) →
      ByToken notices := by
  obtain ⟨hdocument, -, happart⟩ := jobs_by_text {.number 5, .name "scan"}
  obtain ⟨-, -, hdigits⟩ := jobs_by_text {.number 1, .name "1"}
  have hended : Shape.progress (.obj [("token", .str "scan"), ("value", .obj [("kind", .str "end")])]) =
      some (Notice.toJson ⟨.name "scan", .ended none⟩) := rfl
  refine ⟨⟨_, hended, hdocument _ _ hended⟩, ?_, fun h => ?_⟩
  · refine happart.2 (fun n hn => ?_) _ (by simp)
    obtain rfl : n = 5 := by simpa using hn
    simp [show toString (5 : Int) = "5" from rfl]
  · exact hdigits.1 h 1 (by simp) (by simp [show toString (1 : Int) = "1" from rfl])

end Jobs

end LuaLens
