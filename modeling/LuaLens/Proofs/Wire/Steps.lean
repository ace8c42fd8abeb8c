import LuaLens.Proofs.Wire.Conversation

/-!
What a connection does, step by step: it writes a request or a notification, finds that nobody reads,
takes a message off its queue, or sees the end of the input. All that a client does with its
connection is made of these steps, and each step says what it writes.
-/

namespace LuaLens

/-! ### What is written -/

/-- Whether a message asks or tells something, rather than answers. -/
def Message.isCall : Message → Bool
  | .response _ => false
  | _ => true

/-- The requests and notifications written on a connection, oldest first. -/
def World.sent (w : World) (n : Nat) : List Message :=
  ((w.log.filter fun entry => entry.1 == n && entry.2.isCall).map (·.2)).reverse

namespace World

theorem sent_cons (w : World) (files : FileSystem) {m : Message} (h : m.isCall = true) (k n : Nat) :
    ({ files, log := (k, m) :: w.log } : World).sent n = w.sent n ++ if k = n then [m] else [] := by
  by_cases hk : k = n <;> simp [sent, hk, h]

/-- Answers are no calls. -/
@[simp] theorem sent_answering (w : World) (k : Nat) (ms : List Message) (n : Nat) :
    (w.answering k ms).sent n = w.sent n := by
  have hnone : ((ms.filterMap Message.reply?).map fun r => (k, Message.response r)).reverse.filter
      (fun entry => entry.1 == n && entry.2.isCall) = [] := by
    simp only [List.filter_eq_nil_iff, List.mem_reverse, List.mem_map]
    rintro _ ⟨r, -, rfl⟩
    simp [Message.isCall]
  rw [sent, answering, List.filter_append, hnone, List.nil_append, sent]

end World

/-- The requests among the messages are numbered upward, from one place in their order to another; where
it is noticed that the numbers are used up, they are not. -/
def Numbered (checked : Bool) (start stop : Nat) (ms : List Message) : Prop :=
  ∃ ids : List Nat, ms.filterMap Message.requestId? = ids.map RequestId.ofCount ∧
    ids.Pairwise (· < ·) ∧ (∀ n ∈ ids, start ≤ n ∧ n < stop) ∧
    (checked = true → ∀ n ∈ ids, n < 2147483647)

namespace Numbered

variable {checked : Bool} {start mid stop : Nat} {ms ns : List Message}

theorem nil (checked : Bool) (start stop : Nat) : Numbered checked start stop [] :=
  ⟨[], rfl, .nil, by simp, by simp⟩

theorem append (h : Numbered checked start mid ms) (h' : Numbered checked mid stop ns)
    (hs : start ≤ mid) (hm : mid ≤ stop) : Numbered checked start stop (ms ++ ns) := by
  obtain ⟨ids, he, hp, hb, hc⟩ := h
  obtain ⟨ids', he', hp', hb', hc'⟩ := h'
  refine ⟨ids ++ ids', by simp [he, he'], ?_, ?_, fun hchecked n hn => ?_⟩
  · refine List.pairwise_append.2 ⟨hp, hp', fun a ha b hb'' => ?_⟩
    have := hb a ha
    have := hb' b hb''
    omega
  · intro n hn
    obtain hn | hn := List.mem_append.1 hn
    · have := hb n hn
      omega
    · have := hb' n hn
      omega
  · exact (List.mem_append.1 hn).elim (hc hchecked n) (hc' hchecked n)

/-- The numbers increase, unless they are used up and that is not noticed. -/
theorem exists_ids (h : Numbered checked start stop ms) :
    ∃ ids : List Int, ms.filterMap Message.requestId? = ids.map .number ∧
      (checked = true ∨ stop ≤ 2147483648 → ids.Pairwise (· < ·)) := by
  obtain ⟨ids, he, hp, hb, hc⟩ := h
  refine ⟨ids.map fun n => (Int32.ofNat n).toInt, by rw [he, List.map_map]; rfl, fun hroom => ?_⟩
  have hvalue : ∀ n ∈ ids, (Int32.ofNat n).toInt = n := by
    intro n hn
    have hlt : n < 2147483648 := by
      rcases hroom with hchecked | hstop
      · have := hc hchecked n hn
        omega
      · have := hb n hn
        omega
    exact Int32.toInt_ofNat_of_lt hlt
  refine List.pairwise_map.2 (hp.imp_of_mem fun ha hb hab => ?_)
  rw [hvalue _ ha, hvalue _ hb]
  exact Int.ofNat_lt.2 hab

end Numbered

/-! ### Steps -/

namespace Connection

variable {π : Type} [Peer π]

/-- One step of a connection, with what it writes. -/
inductive Step : Connection π → World → List Message → Connection π → World → Prop
  | asked {c : Connection π} {w : World} (unclosed : c.closed = false) (unspent : c.isSpent = false)
      (method : String) (params : Json) :
      Step c w [c.call method params] (c.asked w method params []) (c.record w (c.call method params))
  | told {c : Connection π} {w : World} (unclosed : c.closed = false) (n : Notification) :
      Step c w [.notification n] (c.heard w (.notification n) []) (c.record w (.notification n))
  /-- Nobody reads. A request has used up its number all the same. -/
  | unheard {c : Connection π} {w : World} {next : Nat} (later : c.nextId ≤ next) :
      Step c w [] { c with nextId := next, closed := true } w
  | took {c : Connection π} {w : World} {m : Message} {rest : List Message}
      (first : c.queue = m :: rest) :
      Step c w [] (c.took [m] rest c.closed) (w.answering c.number [m])
  /-- A request is taken that cannot be answered. -/
  | unanswered {c : Connection π} {w : World} {r : Request} {rest : List Message}
      (first : c.queue = .request r :: rest) :
      Step c w [] { c with queue := rest, closed := true } w
  /-- The end of the input is seen. -/
  | ended {c : Connection π} {w : World} (done : c.ended = true) (empty : c.queue = []) :
      Step c w [] { c with closed := true } w

/-- Any number of steps, with all that they write. -/
inductive Does : Connection π → World → List Message → Connection π → World → Prop
  | refl (c : Connection π) (w : World) : Does c w [] c w
  | step {c d e : Connection π} {w v u : World} {ms ns : List Message} (first : Step c w ms d v)
      (rest : Does d v ns e u) : Does c w (ms ++ ns) e u

variable {c d e : Connection π} {w v u : World} {ms ns : List Message}

theorem Step.does (h : Step c w ms d v) : Does c w ms d v := by
  simpa using Does.step h (.refl d v)

theorem Does.trans (h : Does c w ms d v) (h' : Does d v ns e u) : Does c w (ms ++ ns) e u := by
  induction h with
  | refl c w => exact h'
  | step first _ ih => exact List.append_assoc .. ▸ .step first (ih h')

theorem heard_number (c : Connection π) (w : World) (m : Message) (ss : List Sending) :
    (c.heard w m ss).number = c.number := receiveAll_number _ _

theorem heard_nextId (c : Connection π) (w : World) (m : Message) (ss : List Sending) :
    (c.heard w m ss).nextId = c.nextId := receiveAll_nextId _ _

/-! ### What every step keeps -/

theorem Step.number (h : Step c w ms d v) : d.number = c.number := by
  cases h with
  | asked unclosed unspent method params => exact heard_number _ _ _ _
  | told unclosed n => exact heard_number _ _ _ _
  | unheard | took | unanswered | ended => rfl

theorem Step.checked (h : Step c w ms d v) : d.checked = c.checked := by
  cases h with
  | asked unclosed unspent method params => exact receiveAll_checked _ _
  | told unclosed n => exact receiveAll_checked _ _
  | unheard | took | unanswered | ended => rfl

theorem Does.checked (h : Does c w ms d v) : d.checked = c.checked := by
  induction h with
  | refl => rfl
  | step first _ ih => exact ih.trans first.checked

theorem Does.number (h : Does c w ms d v) : d.number = c.number := by
  induction h with
  | refl => rfl
  | step first _ ih => exact ih.trans first.number

/-- What a step writes is entered under the number of the connection. -/
theorem Step.sent (h : Step c w ms d v) (n : Nat) :
    v.sent n = w.sent n ++ if c.number = n then ms else [] := by
  cases h with
  | asked unclosed unspent method params => exact World.sent_cons w _ rfl c.number n
  | told unclosed m => exact World.sent_cons w _ rfl c.number n
  | unheard | took | unanswered | ended => simp

theorem Does.sent_eq (h : Does c w ms d v) (n : Nat) :
    v.sent n = w.sent n ++ if c.number = n then ms else [] := by
  induction h with
  | refl => simp
  | step first _ ih =>
    rw [ih, first.sent, first.number]
    split <;> simp

theorem Does.sent (h : Does c w ms d v) : v.sent c.number = w.sent c.number ++ ms := by
  rw [h.sent_eq, if_pos rfl]

theorem Does.sent_of_ne (h : Does c w ms d v) {n : Nat} (hn : c.number ≠ n) :
    v.sent n = w.sent n := by
  rw [h.sent_eq, if_neg hn, List.append_nil]

/-- Nothing is written on a connection that is closed, and it stays so. -/
theorem Step.of_closed (h : Step c w ms d v) (hc : c.closed = true) : d.closed = true ∧ ms = [] := by
  cases h with
  | asked unclosed | told unclosed => simp [unclosed] at hc
  | took => exact ⟨hc, rfl⟩
  | unheard | unanswered | ended => exact ⟨rfl, rfl⟩

theorem Does.of_closed (h : Does c w ms d v) (hc : c.closed = true) : d.closed = true ∧ ms = [] := by
  induction h with
  | refl => exact ⟨hc, rfl⟩
  | step first _ ih =>
    obtain ⟨hd, rfl⟩ := first.of_closed hc
    exact ih hd

theorem Does.unclosed (h : Does c w ms d v) (hd : d.closed = false) : c.closed = false := by
  refine Bool.eq_false_iff.2 fun hc => ?_
  simp [(h.of_closed hc).1] at hd

/-- Only a connection that is not closed writes. -/
theorem Does.unclosed_of_ne (h : Does c w ms d v) (hms : ms ≠ []) : c.closed = false :=
  Bool.eq_false_iff.2 fun hc => hms (h.of_closed hc).2

theorem Step.numbered (h : Step c w ms d v) :
    c.nextId ≤ d.nextId ∧ Numbered c.checked c.nextId d.nextId ms := by
  cases h with
  | asked unclosed unspent method params =>
    have hnext : (c.asked w method params []).nextId = c.nextId + 1 := heard_nextId _ _ _ _
    have hroom (hc : c.checked = true) : c.nextId < 2147483647 := by
      simpa [isSpent, hc] using unspent
    rw [hnext]
    exact ⟨by omega, [c.nextId], rfl, List.pairwise_singleton _ _, by simp, by simpa using hroom⟩
  | told unclosed n =>
    rw [heard_nextId]
    exact ⟨Nat.le_refl _, [], rfl, .nil, by simp, by simp⟩
  | unheard later => exact ⟨later, .nil _ _ _⟩
  | took | unanswered | ended => exact ⟨Nat.le_refl _, .nil _ _ _⟩

theorem Does.numbered (h : Does c w ms d v) :
    c.nextId ≤ d.nextId ∧ Numbered c.checked c.nextId d.nextId ms := by
  induction h with
  | refl => exact ⟨Nat.le_refl _, .nil _ _ _⟩
  | step first _ ih =>
    obtain ⟨hle, hnum⟩ := first.numbered
    rw [first.checked] at ih
    exact ⟨Nat.le_trans hle ih.1, hnum.append ih.2 hle ih.1⟩

/-- What holds of the files and the far end whatever it hears holds after every step. -/
theorem Step.keeps {trees : FileSystem → Prop} {peers : π → Prop}
    (hear : ∀ p fs m, peers p → trees fs → peers (Peer.hear p fs m).1 ∧ trees (Peer.hear p fs m).2.1)
    (h : Step c w ms d v) (hp : peers c.peer) (ht : trees w.files) :
    peers d.peer ∧ trees v.files := by
  cases h with
  | asked unclosed unspent method params =>
    rw [Connection.asked, heard_peer]
    exact hear _ _ _ hp ht
  | told unclosed n =>
    rw [heard_peer]
    exact hear _ _ _ hp ht
  | unheard | took | unanswered | ended => exact ⟨hp, ht⟩

theorem Does.keeps {trees : FileSystem → Prop} {peers : π → Prop}
    (hear : ∀ p fs m, peers p → trees fs → peers (Peer.hear p fs m).1 ∧ trees (Peer.hear p fs m).2.1)
    (h : Does c w ms d v) (hp : peers c.peer) (ht : trees w.files) :
    peers d.peer ∧ trees v.files := by
  induction h with
  | refl => exact ⟨hp, ht⟩
  | step first _ ih =>
    obtain ⟨hp', ht'⟩ := first.keeps hear hp ht
    exact ih hp' ht'

/-! ### What calls do -/

/-- Taking in the first message of a queue, whether an answer to it is read or not. -/
theorem accept_step (c : Connection π) (w : World) (m : Message) (rest : List Message) :
    (∃ d, c.accept w m = (d, w.answering c.number [m], true) ∧
      Step { c with queue := m :: rest } w [] { d with queue := rest } (w.answering c.number [m])) ∨
    ∃ d, c.accept w m = (d, w, false) ∧
      Step { c with queue := m :: rest } w [] { d with queue := rest } w := by
  have hstep : Step { c with queue := m :: rest } w [] { c.absorb [m] with queue := rest }
      (w.answering c.number [m]) := .took (c := { c with queue := m :: rest }) rfl
  by_cases hr : Peer.reads c.peer = true
  · exact .inl ⟨c.absorb [m], accept_eq hr w m, hstep⟩
  · cases m with
    | request r =>
      refine .inr ⟨{ c with closed := true }, by simp [accept, respond, hr], ?_⟩
      exact .unanswered (c := { c with queue := .request r :: rest }) rfl
    | response r =>
      refine .inl ⟨c, rfl, ?_⟩
      rwa [absorb_response] at hstep
    | notification n => exact .inl ⟨c.absorb [.notification n], rfl, hstep⟩

/-- Waiting takes messages off the queue, or sees the end of the input. -/
theorem await_does (c : Connection π) (w : World) (id : RequestId) (q : List Message) :
    Does { c with queue := q } w [] (c.await w id q).1 (c.await w id q).2.1 := by
  induction q generalizing c w with
  | nil =>
    rw [await]
    split
    · next he => exact (Step.ended (c := { c with queue := [] }) he rfl).does
    · exact .refl _ _
  | cons m q ih =>
    have hother (hm : m.response? = none) :
        Does { c with queue := m :: q } w [] (c.await w id (m :: q)).1 (c.await w id (m :: q)).2.1 := by
      obtain ⟨d, hd, hstep⟩ | ⟨d, hd, hstep⟩ := accept_step c w m q
      · have he : c.await w id (m :: q) = d.await (w.answering c.number [m]) id q := by
          cases m with
          | response r => cases hm
          | request r | notification n => simp [await, hd]
        rw [he]
        exact .step hstep (ih d _)
      · have he : c.await w id (m :: q) = ({ d with queue := q }, w, some (.error .closed)) := by
          cases m with
          | response r => cases hm
          | request r | notification n => simp [await, hd]
        rw [he]
        exact hstep.does
    cases m with
    | response r =>
      have hstep : Step { c with queue := .response r :: q } w [] { c with queue := q } w := by
        have h := Step.took (c := { c with queue := .response r :: q }) (w := w) rfl
        rwa [World.answering_of_reply?_eq_none w _ rfl, took, absorb_response] at h
      rw [await]
      split
      · exact hstep.does
      · exact .step hstep (ih c w)
    | request r => exact hother rfl
    | notification n => exact hother rfl

/-- A request is written first of all, or not at all because the connection is closed by then or there is
no number for it. -/
theorem request_does (c : Connection π) (w : World) (method : String) (params : Json) :
    Does c w [c.call method params] (c.request w method params).1 (c.request w method params).2.1 ∨
      Does c w [] (c.request w method params).1 (c.request w method params).2.1 ∧
        (c.request w method params).1.closed = true ∧
        (c.request w method params).2.2 = some (.error .closed) ∨
      c.request w method params = (c, w, none) := by
  rw [request]
  split
  · next hc => exact .inr (.inl ⟨.refl c w, hc, rfl⟩)
  · next hc =>
    split
    · exact .inr (.inr rfl)
    · next hs =>
      by_cases hr : Peer.reads c.peer = true
      · have hstep := Step.asked (w := w) (Bool.eq_false_iff.2 hc) (Bool.eq_false_iff.2 hs) method params
        simp only [write, hr, ↓reduceIte]
        exact .inl (.step hstep (await_does (c.asked w method params []) _ _ _))
      · simp only [write, hr, Bool.false_eq_true, ↓reduceIte]
        exact .inr (.inl ⟨(Step.unheard (Nat.le_succ _)).does, trivial, trivial⟩)

/-- A notification is written, or the connection is closed by then. -/
theorem notify_does (c : Connection π) (w : World) (method : String) (params : Json) :
    Does c w [.notification { method, params }] (c.notify w method params).1
        (c.notify w method params).2.1 ∧ (c.notify w method params).2.2 = .ok () ∨
      Does c w [] (c.notify w method params).1 (c.notify w method params).2.1 ∧
        (c.notify w method params).1.closed = true ∧
        (c.notify w method params).2.2 = .error .closed := by
  cases hc : c.closed with
  | true => exact .inr (by simp [notify, hc, Does.refl])
  | false =>
    by_cases hr : Peer.reads c.peer = true
    · rw [notify_eq hc hr]
      exact .inl ⟨(Step.told hc { method, params }).does, rfl⟩
    · simp only [notify, write, hc, hr, Bool.false_eq_true, ↓reduceIte]
      exact .inr ⟨(Step.unheard (Nat.le_refl _)).does, trivial, trivial⟩

theorem takeAll_does (c : Connection π) (w : World) (taken : Nat) (q : List Message) :
    Does { c with queue := q } w [] (c.takeAll w taken q).1 (c.takeAll w taken q).2.1 := by
  induction q generalizing c w taken with
  | nil =>
    rw [takeAll]
    by_cases he : c.ended = true
    · rw [show (c.closed || c.ended) = true by simp [he]]
      exact (Step.ended (c := { c with queue := [] }) he rfl).does
    · rw [show (c.closed || c.ended) = c.closed by simp [he]]
      exact .refl _ w
  | cons m q ih =>
    obtain ⟨d, hd, hstep⟩ | ⟨d, hd, hstep⟩ := accept_step c w m q
    · simp only [takeAll, hd]
      exact .step hstep (ih d _ _)
    · simp only [takeAll, hd]
      exact hstep.does

theorem poll_does (c : Connection π) (w : World) :
    Does c w [] (c.poll w).1 (c.poll w).2.1 := takeAll_does c w 0 c.queue

end Connection

end LuaLens
