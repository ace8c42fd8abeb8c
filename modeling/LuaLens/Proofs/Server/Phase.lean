import LuaLens.Proofs.Server.Synced

/-!
The phases of a server: new, at work once it was initialized, and leaving once it has answered a request
to shut down. The history of a server says in which phase it is, the phase says which requests are
refused and how, and nothing leads back to an earlier phase.
-/

namespace LuaLens

/-! ### Methods of requests -/

namespace ClientRequest

/-- The methods that are understood. -/
def methods : List String :=
  ["initialize", "shutdown", "textDocument/completion", "textDocument/hover",
    "textDocument/signatureHelp", "textDocument/definition", "textDocument/declaration",
    "textDocument/documentSymbol", "workspace/symbol", "textDocument/selectionRange"] ++ noResultMethods

/-- Only the two methods of the life cycle make requests of it. -/
theorem method_of_ofNormal? {method : String} {params : Json} {asked : ClientRequest}
    (h : ofNormal? method params = some asked) :
    (∀ root, asked = .setUp root → method = "initialize") ∧
      (asked = .shutdown → method = "shutdown") := by
  unfold ofNormal? at h
  split at h
  · obtain rfl := Option.some.inj h
    exact ⟨fun _ _ => rfl, by rintro ⟨⟩⟩
  · obtain rfl := Option.some.inj h
    exact ⟨by rintro _ ⟨⟩, fun _ => rfl⟩
  iterate 7
    obtain ⟨place, -, rfl⟩ := Option.map_eq_some_iff.1 h
    exact ⟨by rintro _ ⟨⟩, by rintro ⟨⟩⟩
  · simp only [Option.bind_eq_bind, Option.bind_eq_some_iff] at h
    obtain ⟨_, _, _, _, _, _, _, _, h⟩ := h
    obtain rfl := Option.some.inj h
    exact ⟨by rintro _ ⟨⟩, by rintro ⟨⟩⟩
  · obtain rfl := Option.some.inj h
    split <;> exact ⟨by rintro _ ⟨⟩, by rintro ⟨⟩⟩

theorem method_of_parse? {method : String} {params : Json} {asked : ClientRequest}
    (h : parse? method params = some asked) :
    (∀ root, asked = .setUp root → method = "initialize") ∧
      (asked = .shutdown → method = "shutdown") := by
  rw [parse?] at h
  split at h
  · obtain ⟨normal, -, h⟩ := Option.bind_eq_some_iff.1 h
    exact method_of_ofNormal? h
  · exact method_of_ofNormal? h

theorem parse?_initialize {params : Json} {asked : ClientRequest}
    (h : parse? "initialize" params = some asked) : ∃ root, asked = .setUp root := by
  obtain ⟨normal, -, h⟩ := Option.bind_eq_some_iff.1 h
  exact ⟨root? normal, (Option.some.inj h).symm⟩

theorem parse?_shutdown (params : Json) : parse? "shutdown" params = some .shutdown := rfl

theorem parse?_of_not_mem {method : String} (h : method ∉ methods) (params : Json) :
    parse? method params = some (.unknown method) := by
  simp only [methods, noResultMethods, List.cons_append, List.nil_append, List.mem_cons,
    List.not_mem_nil, or_false, not_or] at h
  obtain ⟨h₁, h₂, h₃, h₄, h₅, h₆, h₇, h₈, h₉, h₁₀, h₁₁, h₁₂, h₁₃, h₁₄⟩ := h
  have hshape : shape? method = none := by
    unfold shape?
    split <;> first | contradiction | rfl
  have hunknown : ofNormal? method params = some (.unknown method) := by
    unfold ofNormal?
    split <;> first | contradiction | simp [noResultMethods, *]
  rw [parse?, hshape]
  exact hunknown

end ClientRequest

/-! ### Phases -/

/-- How far a server has come. -/
inductive Phase
  | new
  | working
  | leaving
deriving DecidableEq, Repr

/-- The order of the phases. -/
def Phase.rank : Phase → Nat
  | .new => 0
  | .working => 1
  | .leaving => 2

instance : LE Phase := ⟨fun a b => a.rank ≤ b.rank⟩

/-- A request to set up whose parameters fit. -/
def Request.SetsUp (r : Request) : Prop :=
  r.method = "initialize" ∧ (ClientRequest.parse? r.method r.params).isSome = true

namespace Server

variable {s : Server} {fs : FileSystem}

def phase (s : Server) : Phase :=
  if s.stopping then .leaving else if s.initialized then .working else .new

/-- Whether a history holds a request to set up whose parameters fit. -/
def WasSetUp (history : List (FileSystem × Message)) : Prop :=
  ∃ e ∈ history, ∃ r : Request, e.2 = .request r ∧ r.SetsUp

/-- Whether a request to shut down was answered without an error in the course of a history. -/
def WasShutDown (s : Server) (history : List (FileSystem × Message)) : Prop :=
  ∃ before fs r rest, history = before ++ (fs, .request r) :: rest ∧ r.method = "shutdown" ∧
    ((s.attend before).handleRequest fs r).2.2.error = none

/-! ### One message -/

/-- What a request can come to: how it is answered, and whether the phase moves. -/
inductive Handled (s : Server) (r : Request) (s' : Server) (answer : Response) : Prop
  | tooLate (stopping : s.stopping = true) (same : s' = s)
      (refused : answer = refuse r.id .invalidRequest "server is shutting down")
  | unfit (stopping : s.stopping = false)
      (unfit : ClientRequest.parse? r.method r.params = none) (same : s' = s)
      (refused : answer = refuse r.id .invalidParams (s.complaint r))
  | setUp (stopping : s.stopping = false) (asked : r.SetsUp) (initialized : s'.initialized = true)
      (going : s'.stopping = false) (error : answer.error = none)
  | tooEarly (stopping : s.stopping = false) (initialized : s.initialized = false)
      (fits : (ClientRequest.parse? r.method r.params).isSome = true)
      (other : r.method ≠ "initialize") (same : s' = s)
      (refused : answer = refuse r.id .notInitialized "initialize first")
  | shutDown (stopping : s.stopping = false) (initialized : s.initialized = true)
      (asked : r.method = "shutdown") (still : s'.initialized = true) (leaving : s'.stopping = true)
      (error : answer.error = none)
  | answered (stopping : s.stopping = false) (initialized : s.initialized = true)
      (other : r.method ≠ "initialize" ∧ r.method ≠ "shutdown") (same : s' = s)

theorem handled (s : Server) (fs : FileSystem) (r : Request) :
    Handled s r (s.handleRequest fs r).1 (s.handleRequest fs r).2.2 := by
  rw [handleRequest]
  cases hs : s.stopping with
  | true => exact .tooLate hs rfl rfl
  | false =>
    rw [if_neg (by simp)]
    cases hparse : ClientRequest.parse? r.method r.params with
    | none => exact .unfit hs hparse rfl rfl
    | some asked =>
      obtain ⟨hinit, hshut⟩ := ClientRequest.method_of_parse? hparse
      have hsome : (ClientRequest.parse? r.method r.params).isSome = true := by rw [hparse]; rfl
      by_cases hmethod : r.method = "initialize"
      · obtain ⟨root, rfl⟩ := ClientRequest.parse?_initialize (hmethod ▸ hparse)
        cases root <;> exact .setUp hs ⟨hmethod, hsome⟩ rfl hs rfl
      · have hother (root : Option Path) : asked ≠ .setUp root := fun h => hmethod (hinit root h)
        split
        · cases ‹some asked = none›
        · exact absurd (Option.some.inj ‹_›) (hother _)
        · rename_i other _ heq
          obtain rfl := Option.some.inj heq
          cases hi : s.initialized with
          | false => exact .tooEarly hs hi hsome hmethod rfl rfl
          | true =>
            rw [if_neg (by simp)]
            by_cases hdown : asked = .shutdown
            · rw [if_pos hdown]
              exact .shutDown hs hi (hshut hdown) rfl rfl rfl
            · rw [if_neg hdown]
              refine .answered hs hi ⟨hmethod, fun h => hdown ?_⟩ rfl
              rw [h, ClientRequest.parse?_shutdown] at hparse
              exact (Option.some.inj hparse).symm

/-- Notifications touch nothing but the index and the documents. -/
theorem exists_handleNotification (s : Server) (fs : FileSystem) (n : Notification) :
    ∃ index documents, (s.handleNotification fs n).1 = { s with index, documents } := by
  have hupdate (uri : Uri) (text : String) :
      ∃ index documents, (s.updateDocument fs uri text).1 = { s with index, documents } := by
    unfold updateDocument
    split <;> exact ⟨_, _, rfl⟩
  have hclose (uri : Uri) :
      ∃ index documents, (s.closeDocument fs uri).1 = { s with index, documents } := by
    unfold closeDocument
    split
    · exact ⟨_, _, rfl⟩
    · dsimp only
      split
      · exact ⟨_, _, rfl⟩
      · split <;> exact ⟨_, _, rfl⟩
  rw [handleNotification]
  split
  · exact ⟨_, _, rfl⟩
  · exact hupdate _ _
  · exact hupdate _ _
  · exact hupdate _ _
  · split
    · exact hupdate _ _
    · exact ⟨_, _, rfl⟩
  · exact hclose _
  all_goals exact ⟨_, _, rfl⟩

/-- Notifications leave the phase as it is. -/
theorem flags_handleNotification (s : Server) (fs : FileSystem) (n : Notification) :
    (s.handleNotification fs n).1.initialized = s.initialized ∧
      (s.handleNotification fs n).1.stopping = s.stopping := by
  obtain ⟨index, documents, h⟩ := exists_handleNotification s fs n
  rw [h]
  exact ⟨rfl, rfl⟩

theorem handle_request (s : Server) (fs : FileSystem) (r : Request) :
    (s.handle fs (.request r)).1 = (s.handleRequest fs r).1 := rfl

theorem handle_notification (s : Server) (fs : FileSystem) (n : Notification) :
    (s.handle fs (.notification n)).1 = (s.handleNotification fs n).1 := rfl

/-- No message leads back to an earlier phase. -/
theorem phase_le_handle (s : Server) (fs : FileSystem) (m : Message) :
    s.phase ≤ (s.handle fs m).1.phase := by
  cases m with
  | response r => exact Nat.le_refl _
  | notification n =>
    obtain ⟨hi, hs⟩ := flags_handleNotification s fs n
    rw [handle_notification, phase, phase, hi, hs]
    exact Nat.le_refl _
  | request r =>
    have h := handled s fs r
    rw [handle_request]
    generalize (s.handleRequest fs r).1 = s' at h ⊢
    cases h with
    | tooLate _ same _ => rw [same]; exact Nat.le_refl _
    | unfit _ _ same _ => rw [same]; exact Nat.le_refl _
    | tooEarly _ _ _ _ same _ => rw [same]; exact Nat.le_refl _
    | answered _ _ _ same => rw [same]; exact Nat.le_refl _
    | setUp stopping _ initialized going _ =>
      simp only [phase, stopping, initialized, going, Bool.false_eq_true, ↓reduceIte]
      split <;> decide
    | shutDown stopping initialized _ _ leaving _ =>
      simp only [phase, stopping, initialized, leaving, Bool.false_eq_true, ↓reduceIte]
      decide

/-- The words for parameters that do not fit stay the same. -/
theorem explain_handle (s : Server) (fs : FileSystem) (m : Message) :
    (s.handle fs m).1.explain = s.explain := by
  cases m with
  | response r => rfl
  | notification n =>
    obtain ⟨index, documents, h⟩ := exists_handleNotification s fs n
    rw [handle_notification, h]
  | request r =>
    have hsetUp (root : Option Path) : (s.setUp fs root).1.explain = s.explain := by
      cases root <;> rfl
    rw [handle_request, handleRequest]
    split
    · rfl
    · split
      · rfl
      · exact hsetUp _
      · split
        · rfl
        · split <;> rfl

/-! ### Histories -/

theorem attend_concat (s : Server) (history : List (FileSystem × Message)) (e : FileSystem × Message) :
    s.attend (history ++ [e]) = ((s.attend history).handle e.1 e.2).1 := by
  rw [attend, List.foldl_append]
  rfl

theorem phase_le_attend (s : Server) (history : List (FileSystem × Message)) :
    s.phase ≤ (s.attend history).phase := by
  induction history using List.reverseRecOn with
  | nil => exact Nat.le_refl _
  | append_singleton history e ih =>
    rw [attend_concat]
    exact Nat.le_trans ih (phase_le_handle _ _ _)

theorem explain_attend (s : Server) (history : List (FileSystem × Message)) :
    (s.attend history).explain = s.explain := by
  induction history using List.reverseRecOn with
  | nil => rfl
  | append_singleton history e ih => rw [attend_concat, explain_handle, ih]

theorem wasSetUp_concat (history : List (FileSystem × Message)) (e : FileSystem × Message) :
    WasSetUp (history ++ [e]) ↔ WasSetUp history ∨ ∃ r : Request, e.2 = .request r ∧ r.SetsUp := by
  simp only [WasSetUp, List.mem_append, List.mem_singleton, or_and_right, exists_or,
    exists_eq_left]

theorem wasShutDown_concat (s : Server) (history : List (FileSystem × Message))
    (e : FileSystem × Message) :
    s.WasShutDown (history ++ [e]) ↔ s.WasShutDown history ∨ ∃ r : Request, e.2 = .request r ∧
      r.method = "shutdown" ∧ ((s.attend history).handleRequest e.1 r).2.2.error = none := by
  constructor
  · rintro ⟨before, fs, r, rest, hsplit, hmethod, herror⟩
    cases rest using List.reverseRecOn with
    | nil =>
      obtain ⟨rfl, he⟩ := List.append_inj' hsplit rfl
      obtain rfl := List.singleton_inj.1 he
      exact .inr ⟨r, rfl, hmethod, herror⟩
    | append_singleton rest last =>
      rw [← List.cons_append, ← List.append_assoc] at hsplit
      obtain ⟨hhistory, -⟩ := List.append_inj' hsplit rfl
      exact .inl ⟨before, fs, r, rest, hhistory, hmethod, herror⟩
  · rintro (⟨before, fs, r, rest, rfl, hmethod, herror⟩ | ⟨r, he, hmethod, herror⟩)
    · exact ⟨before, fs, r, rest ++ [e], by simp, hmethod, herror⟩
    · exact ⟨history, e.1, r, [], by rw [← he], hmethod, herror⟩

/-- The history of a new server says how far it has come. -/
theorem flags_attend {s : Server} (hinit : s.initialized = false) (hstop : s.stopping = false)
    (history : List (FileSystem × Message)) :
    ((s.attend history).initialized = true ↔ WasSetUp history) ∧
      ((s.attend history).stopping = true ↔ s.WasShutDown history) ∧
      ((s.attend history).stopping = true → (s.attend history).initialized = true) := by
  induction history using List.reverseRecOn with
  | nil => simp [attend, WasSetUp, WasShutDown, hinit, hstop]
  | append_singleton history e ih =>
    obtain ⟨hset, hshut, hboth⟩ := ih
    rw [attend_concat, wasSetUp_concat, wasShutDown_concat, ← hset, ← hshut]
    obtain ⟨fs, m⟩ := e
    generalize s.attend history = t at hset hshut hboth ⊢
    cases m with
    | response r => simpa [handle] using hboth
    | notification n =>
      obtain ⟨hi, hs⟩ := flags_handleNotification t fs n
      simpa [handle_notification, hi, hs] using hboth
    | request r =>
      have h := handled t fs r
      simp only [handle_request, Message.request.injEq, exists_eq_left']
      generalize (t.handleRequest fs r).1 = t' at h ⊢
      generalize (t.handleRequest fs r).2.2 = answer at h ⊢
      cases h with
      | tooLate stopping same refused =>
        subst same
        exact ⟨by simp [hboth stopping], by simp [stopping], hboth⟩
      | unfit stopping unfit same refused =>
        subst same
        simp [Request.SetsUp, unfit, refused, refuse, Response.fail, stopping]
      | setUp stopping asked initialized going error =>
        simp [initialized, asked, going, stopping, asked.1]
      | tooEarly stopping initialized fits other same refused =>
        subst same
        simp [Request.SetsUp, other, refused, refuse, Response.fail, stopping]
      | shutDown stopping initialized asked still leaving error =>
        simp [initialized, still, leaving, asked, error]
      | answered stopping initialized other same =>
        subst same
        simp [initialized, other.2, stopping]

/-! ### Answers -/

theorem phase_eq_leaving_iff (s : Server) : s.phase = .leaving ↔ s.stopping = true := by
  unfold phase
  split
  · simp [*]
  · split <;> simp [*]

theorem phase_eq_new_iff (h : s.stopping = true → s.initialized = true) :
    s.phase = .new ↔ ¬ s.initialized = true := by
  unfold phase
  split
  · simp [h ‹_›]
  · split <;> simp [*]

theorem answer_of_stopping (h : s.stopping = true) (fs : FileSystem) (r : Request) :
    (s.handleRequest fs r).2.2 = refuse r.id .invalidRequest "server is shutting down" := by
  rw [handleRequest, if_pos h]

/-- What comes too early is refused, and unfit parameters are refused first. -/
theorem answer_of_not_initialized (hi : ¬ s.initialized = true) (hs : ¬ s.stopping = true)
    (fs : FileSystem) {r : Request} (hr : r.method ≠ "initialize") :
    (s.handleRequest fs r).2.2 =
      if (ClientRequest.parse? r.method r.params).isSome then
        refuse r.id .notInitialized "initialize first"
      else refuse r.id .invalidParams (s.complaint r) := by
  have h := handled s fs r
  generalize (s.handleRequest fs r).2.2 = answer at h ⊢
  cases h with
  | tooLate stopping same refused => exact absurd stopping hs
  | unfit stopping unfit same refused => rw [refused, unfit]; rfl
  | setUp stopping asked initialized going error => exact absurd asked.1 hr
  | tooEarly stopping initialized fits other same refused => rw [refused, if_pos fits]
  | shutDown stopping initialized asked still leaving error => exact absurd initialized hi
  | answered stopping initialized other same => exact absurd initialized hi

theorem working_of_error_eq_none {r : Request} (hr : r.method ≠ "initialize")
    (h : (s.handleRequest fs r).2.2.error = none) :
    s.initialized = true ∧ ¬ s.stopping = true := by
  by_cases hs : s.stopping = true
  · rw [answer_of_stopping hs] at h
    cases h
  · refine ⟨by_contra fun hi => ?_, hs⟩
    rw [answer_of_not_initialized hi hs fs hr] at h
    split at h <;> cases h

/-- How the next request to a new server with a history is answered, and where messages lead. As long as
no request to set up had fitting parameters, requests of other methods are refused: for coming too early
if their parameters fit or their method is unknown, and for their parameters otherwise, in words that are
up to whoever made the server. Once a request to shut down was answered without an error, every request
is refused for coming too late. Nothing leads back to an earlier phase, and only in between there are
answers without an error. -/
theorem answers_by_phase (fs₀ : FileSystem) (cache : Path) (explain : String → Json → String)
    (history : List (FileSystem × Message)) :
    let new := (create fs₀ cache explain).1
    let s := new.attend history
    (¬ WasSetUp history → ∀ fs (r : Request), r.method ≠ "initialize" →
      ((ClientRequest.parse? r.method r.params).isSome = true ∨ r.method ∉ ClientRequest.methods →
        (s.handleRequest fs r).2.2 = refuse r.id .notInitialized "initialize first") ∧
      (ClientRequest.parse? r.method r.params = none →
        (s.handleRequest fs r).2.2 =
          refuse r.id .invalidParams (r.method ++ ": " ++ explain r.method r.params))) ∧
    (new.WasShutDown history → ∀ fs (r : Request),
      (s.handleRequest fs r).2.2 = refuse r.id .invalidRequest "server is shutting down") ∧
    (s.phase = .new ↔ ¬ WasSetUp history) ∧ (s.phase = .leaving ↔ new.WasShutDown history) ∧
    (∀ later, s.phase ≤ (s.attend later).phase) ∧
    ∀ fs (r : Request), r.method ≠ "initialize" → (s.handleRequest fs r).2.2.error = none →
      WasSetUp history ∧ ¬ new.WasShutDown history := by
  intro new s
  obtain ⟨hset, hshut, hboth⟩ := flags_attend (s := new) rfl rfl history
  rw [← hset, ← hshut]
  refine ⟨fun hi fs r hr => ?_, fun hs fs r => answer_of_stopping hs fs r, phase_eq_new_iff hboth,
    phase_eq_leaving_iff s, phase_le_attend s, fun fs r hr => working_of_error_eq_none hr⟩
  have hanswer := answer_of_not_initialized hi (fun hs => hi (hboth hs)) fs hr
  constructor
  · rintro (hfits | hunknown)
    · rw [hanswer, if_pos hfits]
    · rw [hanswer, ClientRequest.parse?_of_not_mem hunknown, if_pos Option.isSome_some]
  · intro hunfit
    have hwords : s.explain = explain := explain_attend new history
    rw [hanswer, hunfit, if_neg (by simp), complaint, hwords]

/-- A hover comes too early, is answered once the server is set up, and too late after that. -/
example :
    let hover : Request := { id := .number 3, method := "textDocument/hover", params := .obj [
      ("textDocument", .obj [("uri", .str "file:///a.lua")]),
      ("position", .obj [("line", .int 0), ("character", .int 0)])] }
    let setUp : Message := .request
      { id := .number 1, method := "initialize", params := .obj [("capabilities", .obj [])] }
    let down : Message := .request { id := .number 2, method := "shutdown" }
    let code (history : List Message) : Option Int :=
      ((((create {} ⟨"/c"⟩).1.attend (history.map ({}, ·))).handleRequest {} hover).2.2.error).map (·.code)
    code [] = some (-32002) ∧ code [setUp] = none ∧ code [setUp, down] = some (-32600) := by
  decide +kernel

end Server

end LuaLens
