import Mathlib.Data.Option.Basic
import LuaLens.Host.Client
import LuaLens.Proofs.Wire.Steps

/-!
What the calls of a client come to. A call is run on a client and a world; for each of them it is said
once which steps its connection takes and what becomes of the rest of the client.
-/

namespace LuaLens

variable {π α β : Type}

/-! ### Running calls -/

namespace Call

/-- The outcome of a call, or nothing when it waits for an answer, and what is left behind. -/
def perform (call : Call π α) (s : Client π × World) :
    Option (Except ClientFault α) × Client π × World :=
  Id.run (StateT.run (OptionT.run (ExceptT.run call)) s)

theorem perform_bind (x : Call π α) (f : α → Call π β) (s : Client π × World) :
    perform (x >>= f) s = match x.perform s with
      | (some (.ok a), s') => (f a).perform s'
      | (some (.error fault), s') => (some (.error fault), s')
      | (none, s') => (none, s') := by
  rcases h : x.perform s with ⟨_ | _ | a, s'⟩ <;> simp only [perform] at h <;>
    simp [perform, ExceptT.run_bind, OptionT.run_bind, Option.elimM, StateT.run_bind, h]

theorem run_tryCatch (x : Call π α) (f : ClientFault → Call π α) :
    ExceptT.run (tryCatch x f) = ExceptT.run x >>= fun
      | .ok a => pure (.ok a)
      | .error fault => ExceptT.run (f fault) := by
  refine congrArg (ExceptT.run x >>= ·) (funext fun out => ?_)
  cases out <;> rfl

theorem perform_tryCatch (x : Call π α) (f : ClientFault → Call π α) (s : Client π × World) :
    perform (tryCatch x f) s = match x.perform s with
      | (some (.error fault), s') => (f fault).perform s'
      | out => out := by
  rcases h : x.perform s with ⟨_ | _ | a, s'⟩ <;> simp only [perform] at h <;>
    simp [perform, run_tryCatch, OptionT.run_bind, Option.elimM, StateT.run_bind, h]

@[simp] theorem perform_map (f : α → β) (x : Call π α) (s : Client π × World) :
    perform (f <$> x) s = ((x.perform s).1.map (Except.map f), (x.perform s).2) := by
  rw [map_eq_pure_bind, perform_bind]
  rcases x.perform s with ⟨_ | _ | a, s'⟩ <;> rfl

@[simp] theorem perform_pure (a : α) (s : Client π × World) :
    perform (pure a) s = (some (.ok a), s) := rfl

@[simp] theorem perform_throw (fault : ClientFault) (s : Client π × World) :
    perform (throw fault : Call π α) s = (some (.error fault), s) := rfl

@[simp] theorem perform_failure (s : Client π × World) :
    perform (ExceptT.lift failure : Call π α) s = (none, s) := rfl

@[simp] theorem perform_get (s : Client π × World) :
    perform (get : Call π _) s = (some (.ok s), s) := rfl

@[simp] theorem perform_set (s s' : Client π × World) :
    perform (set s' : Call π _) s = (some (.ok ()), s') := rfl

@[simp] theorem perform_modify (f : Client π × World → Client π × World) (s : Client π × World) :
    perform (modify f : Call π _) s = (some (.ok ()), f s) := rfl

end Call

namespace Client

variable [Peer π]

open Call

/-! ### Asking and telling -/

theorem perform_ask (method : String) (params : Json) (c : Client π) (w : World) :
    (ask method params).perform (c, w) =
      ((c.link.request w method params).2.2.map (Except.mapError .link),
        { c with link := (c.link.request w method params).1 },
        (c.link.request w method params).2.1) := by
  rcases h : c.link.request w method params with ⟨link, v, _ | _ | value⟩ <;>
    simp [ask, perform_bind, h, Except.mapError, Except.map]

theorem perform_tell (method : String) (params : Json) (c : Client π) (w : World) :
    (tell method params).perform (c, w) =
      (some ((c.link.notify w method params).2.2.mapError .link),
        { c with link := (c.link.notify w method params).1 },
        (c.link.notify w method params).2.1) := by
  rcases h : c.link.notify w method params with ⟨link, v, _ | _⟩ <;>
    simp [tell, perform_bind, h, Except.mapError]

theorem perform_poll (c : Client π) (w : World) :
    (poll : Call π Nat).perform (c, w) =
      (some ((c.link.poll w).2.2.mapError .link), { c with link := (c.link.poll w).1 },
        (c.link.poll w).2.1) := by
  rcases h : c.link.poll w with ⟨link, v, _ | _⟩ <;>
    simp [poll, perform_bind, h, Except.mapError, Except.map]

omit [Peer π] in
theorem perform_ready (c : Client π) (w : World) :
    (ready : Call π Unit).perform (c, w) =
      (some (if c.initialized then .ok () else .error .notInitialized), c, w) := by
  cases h : c.initialized <;> simp [ready, perform_bind, h]

/-- What a request can come to: it is refused before the handshake, and else it is written, unless the
connection is closed by then or there is no number for it. -/
inductive Asked (c : Client π) (w : World) (m : Message) :
    Option (Except ClientFault (Option Json)) × Client π × World → Prop
  | unready (fresh : c.initialized = false) : Asked c w m (some (.error .notInitialized), c, w)
  | heard {outcome : Option (Except ClientFault (Option Json))} {link : Connection π} {v : World}
      (ready : c.initialized = true) (does : c.link.Does w [m] link v) :
      Asked c w m (outcome, { c with link }, v)
  | unheard {link : Connection π} {v : World} (ready : c.initialized = true)
      (does : c.link.Does w [] link v) (closed : link.closed = true) :
      Asked c w m (some (.error (.link .closed)), { c with link }, v)
  | spent (ready : c.initialized = true) : Asked c w m (none, c, w)

/-- The value of an answer that has its shape. -/
def shaped (shape : Shape) : Option Json → Except ClientFault (Option Json)
  | none => .ok none
  | some value => (shape value).elim (.error .json) fun value => .ok (some value)

theorem perform_request (method : String) (params : Json) (shape : Shape) {c : Client π}
    (hi : c.initialized = true) (w : World) :
    (request method params shape).perform (c, w) =
      (((ask method params).perform (c, w)).1.map (·.bind (shaped shape)),
        ((ask method params).perform (c, w)).2) := by
  simp only [request, perform_bind, perform_ready, hi, ↓reduceIte]
  rcases (ask method params).perform (c, w) with ⟨_ | _ | _ | value, s⟩
  · rfl
  · rfl
  · rfl
  · cases hs : shape value <;> simp [shaped, hs, Except.bind]

theorem request_asked (method : String) (params : Json) (shape : Shape) (c : Client π) (w : World) :
    Asked c w (c.link.call method params) ((request method params shape).perform (c, w)) := by
  by_cases hi : c.initialized = true
  · rw [perform_request method params shape hi, perform_ask]
    obtain hdoes | ⟨hdoes, hclosed, houtcome⟩ | hspent := c.link.request_does w method params
    · exact .heard hi hdoes
    · rw [houtcome]
      exact .unheard hi hdoes hclosed
    · rw [hspent]
      exact .spent hi
  · have h : (request method params shape).perform (c, w) = (some (.error .notInitialized), c, w) := by
      simp [request, perform_bind, perform_ready, hi]
    rw [h]
    exact .unready (Bool.eq_false_iff.2 hi)

/-- What a notification can come to. -/
inductive Told (c : Client π) (w : World) (n : Notification) :
    Option (Except ClientFault Unit) × Client π × World → Prop
  | unready (fresh : c.initialized = false) : Told c w n (some (.error .notInitialized), c, w)
  | heard {link : Connection π} {v : World} (ready : c.initialized = true)
      (does : c.link.Does w [.notification n] link v) : Told c w n (some (.ok ()), { c with link }, v)
  | unheard {link : Connection π} {v : World} (ready : c.initialized = true)
      (does : c.link.Does w [] link v) (closed : link.closed = true) :
      Told c w n (some (.error (.link .closed)), { c with link }, v)

theorem notify_told (method : String) (params : Json) (c : Client π) (w : World) :
    Told c w { method, params } ((notify method params).perform (c, w)) := by
  by_cases hi : c.initialized = true
  · have h : (notify method params).perform (c, w) = (tell method params).perform (c, w) := by
      simp [notify, perform_bind, perform_ready, hi]
    rw [h, perform_tell]
    obtain ⟨hdoes, hok⟩ | ⟨hdoes, hclosed, herror⟩ := c.link.notify_does w method params
    · rw [hok]
      exact .heard hi hdoes
    · rw [herror]
      exact .unheard hi hdoes hclosed
  · have h : (notify method params).perform (c, w) = (some (.error .notInitialized), c, w) := by
      simp [notify, perform_bind, perform_ready, hi]
    rw [h]
    exact .unready (Bool.eq_false_iff.2 hi)

/-! ### Documents -/

/-- What shows the server a text under an identifier: all of it at first, and later as a change. -/
def showing (c : Client π) (b : Buffer) (uri : Uri) : Notification :=
  if (c.opened.lookup uri).isSome then
    { method := "textDocument/didChange"
      params := .obj [("textDocument", .obj [("uri", .str uri.text), ("version", .int b.version)]),
        ("contentChanges", .arr [.obj [("text", .str b.text)]])] }
  else
    { method := "textDocument/didOpen"
      params := .obj [("textDocument", .obj [("uri", .str uri.text),
        ("languageId", .str (b.language.getD c.language)), ("version", .int b.version),
        ("text", .str b.text)])] }

/-- What showing the server a buffer can come to. -/
inductive Synced (c : Client π) (w : World) (b : Buffer) :
    Option (Except ClientFault Uri) × Client π × World → Prop
  | refused {fault : ClientFault} : Synced c w b (some (.error fault), c, w)
  | current {uri : Uri} (named : b.uri? w.files = some uri)
      (same : c.opened.lookup uri = some (b.version : Int)) : Synced c w b (some (.ok uri), c, w)
  | shown {uri : Uri} {link : Connection π} {v : World} (named : b.uri? w.files = some uri)
      (ready : c.initialized = true) (does : c.link.Does w [.notification (c.showing b uri)] link v) :
      Synced c w b (some (.ok uri),
        { c with link, opened := (uri, b.version) :: c.opened.filter (·.1 != uri) }, v)
  | unheard {link : Connection π} {v : World} (ready : c.initialized = true)
      (does : c.link.Does w [] link v) (closed : link.closed = true) :
      Synced c w b (some (.error (.link .closed)), { c with link }, v)

/-- Showing a text is telling it, and then noting its version. -/
theorem synced_of_told {c : Client π} {w : World} {b : Buffer} {uri : Uri}
    (named : b.uri? w.files = some uri)
    (h : (sync b).perform (c, w) =
      (do notify (c.showing b uri).method (c.showing b uri).params
          noteOpened uri b.version
          pure uri : Call π Uri).perform (c, w)) :
    Synced c w b ((sync b).perform (c, w)) := by
  have htold := notify_told (c.showing b uri).method (c.showing b uri).params c w
  rw [h, perform_bind]
  generalize (notify (c.showing b uri).method (c.showing b uri).params).perform (c, w) = out at htold
  obtain ⟨out, d, v⟩ := out
  cases htold with
  | unready => exact .refused
  | heard ready does => exact .shown named ready does
  | unheard ready does closed => exact .unheard ready does closed

theorem sync_synced (b : Buffer) (c : Client π) (w : World) :
    Synced c w b ((sync b).perform (c, w)) := by
  cases hu : b.uri? w.files with
  | none =>
    have h : (sync b).perform (c, w) = (some (.error .unsaved), c, w) := by
      simp [sync, perform_bind, hu]
    rw [h]
    exact .refused
  | some uri =>
    cases hv : c.opened.lookup uri with
    | none =>
      apply synced_of_told hu
      simp [sync, perform_bind, hu, hv, didOpen, showing]
    | some version =>
      by_cases hs : version = b.version
      · have h : (sync b).perform (c, w) = (some (.ok uri), c, w) := by
          simp [sync, perform_bind, hu, hv, hs]
        rw [h]
        exact .current hu (hs ▸ hv)
      · apply synced_of_told hu
        simp [sync, perform_bind, hu, hv, didChange, showing, hs]

/-- What takes back a document. -/
def withdrawal (uri : Uri) : Notification :=
  { method := "textDocument/didClose", params := .obj [("textDocument", documentJson uri)] }

/-- What taking back a document can come to. -/
inductive TookBack (c : Client π) (w : World) (uri : Uri) :
    Option (Except ClientFault Unit) × Client π × World → Prop
  | unknown (unopened : c.opened.lookup uri = none) : TookBack c w uri (some (.ok ()), c, w)
  | told {out : Option (Except ClientFault Unit) × Client π × World}
      (opened : (c.opened.lookup uri).isSome = true)
      (rest : Told { c with opened := c.opened.filter (·.1 != uri) } w (withdrawal uri) out) :
      TookBack c w uri out

theorem didClose_tookBack (uri : Uri) (c : Client π) (w : World) :
    TookBack c w uri ((didClose uri).perform (c, w)) := by
  cases hv : c.opened.lookup uri with
  | none =>
    have h : (didClose uri).perform (c, w) = (some (.ok ()), c, w) := by
      simp [didClose, perform_bind, isOpen, hv]
    rw [h]
    exact .unknown hv
  | some version =>
    have h : (didClose uri).perform (c, w) = (notify "textDocument/didClose"
        (.obj [("textDocument", documentJson uri)])).perform
          ({ c with opened := c.opened.filter (·.1 != uri) }, w) := by
      simp [didClose, perform_bind, isOpen, hv]
    rw [h]
    exact .told (by simp [hv]) (notify_told _ _ _ _)

/-! ### The handshake and the end -/

/-- What the handshake can come to: it fails or waits before or after the request was written, or it is
complete. -/
inductive SetUp (c : Client π) (w : World) (options : Option Json) :
    Option (Except ClientFault Json) × Client π × World → Prop
  | unheard {out : Option (Except ClientFault Json)} {link : Connection π} {v : World}
      (does : c.link.Does w [] link v) (failed : ∀ value, out ≠ some (.ok value)) :
      SetUp c w options (out, { c with link }, v)
  | unanswered {out : Option (Except ClientFault Json)} {abilities : Abilities}
      {link : Connection π} {v : World}
      (does : c.link.Does w [c.link.call "initialize" (setUpParams c.root options)] link v)
      (failed : ∀ value, out ≠ some (.ok value)) :
      SetUp c w options (out, { c with link, abilities }, v)
  | complete {result value : Json} {abilities : Abilities} {mid link : Connection π} {u v : World}
      (asked : c.link.request w "initialize" (setUpParams c.root options) =
        (mid, u, some (.ok (some value))))
      (written : c.link.Does w [c.link.call "initialize" (setUpParams c.root options)] mid u)
      (does : mid.Does u [.notification { method := "initialized", params := .obj [] }] link v) :
      SetUp c w options (some (.ok result), { c with link, abilities, initialized := true }, v)

theorem setUp_setUp (options : Option Json) (c : Client π) (w : World) :
    SetUp c w options ((setUp options).perform (c, w)) := by
  have hdoes := c.link.request_does w "initialize" (setUpParams c.root options)
  rcases hr : c.link.request w "initialize" (setUpParams c.root options) with ⟨mid, u, outcome⟩
  rw [hr] at hdoes
  have hfail (out : Option (Except ClientFault Json))
      (h : (setUp options).perform (c, w) = (out, { c with link := mid }, u))
      (hout : ∀ value, out ≠ some (.ok value)) :
      SetUp c w options ((setUp options).perform (c, w)) := by
    rw [h]
    obtain hdoes | ⟨hdoes, -⟩ | hspent := hdoes
    · exact .unanswered hdoes hout
    · exact .unheard hdoes hout
    · obtain ⟨rfl, rfl, -⟩ : mid = c.link ∧ u = w ∧ _ := by simpa using hspent
      exact .unheard (.refl _ _) hout
  rcases outcome with _ | fault | _ | value
  · exact hfail none (by simp [setUp, perform_bind, perform_ask, hr]) (by simp)
  · exact hfail (some (.error (.link fault)))
      (by simp [setUp, perform_bind, perform_ask, hr, Except.mapError]) (by simp)
  · exact hfail (some (.error (.protocol "initialize returned null")))
      (by simp [setUp, perform_bind, perform_ask, hr, Except.mapError]) (by simp)
  · cases hs : Shape.initializeResult value with
    | none =>
      exact hfail (some (.error .json))
        (by simp [setUp, perform_bind, perform_ask, hr, Except.mapError, hs]) (by simp)
    | some result =>
      have hwritten : c.link.Does w [c.link.call "initialize" (setUpParams c.root options)] mid u := by
        obtain hdoes | ⟨-, -, hclosed⟩ | hspent := hdoes
        · exact hdoes
        · cases hclosed
        · cases hspent
      have hnotify := mid.notify_does u "initialized" (.obj [])
      rcases hn : mid.notify u "initialized" (.obj []) with ⟨link, v, out⟩
      rw [hn] at hnotify
      obtain ⟨hdoes, rfl⟩ | ⟨hdoes, hclosed, rfl⟩ := hnotify
      · have h : (setUp options).perform (c, w) = (some (.ok result),
            { c with link, abilities := ⟨(result.get? "capabilities").getD (.obj [])⟩,
                     initialized := true }, v) := by
          simp [setUp, perform_bind, perform_ask, perform_tell, hr, Except.mapError, hs, hn, Except.map]
        rw [h]
        exact .complete hr hwritten hdoes
      · have h : (setUp options).perform (c, w) = (some (.error (.link .closed)),
            { c with link, abilities := ⟨(result.get? "capabilities").getD (.obj [])⟩ }, v) := by
          simp [setUp, perform_bind, perform_ask, perform_tell, hr, Except.mapError, hs, hn]
        rw [h]
        exact .unanswered (by simpa using hwritten.trans hdoes) (by simp)

/-- What taking leave can come to: nothing without a handshake; else a request and a notification, as
far as they can be written, and the client is as before its handshake unless the answer is waited
for. -/
inductive TookLeave (c : Client π) (w : World) :
    Option (Except ClientFault Unit) × Client π × World → Prop
  | idle (fresh : c.initialized = false) : TookLeave c w (some (.ok ()), c, w)
  | waiting {link : Connection π} {v : World} {asked : List Message} (ready : c.initialized = true)
      (does : c.link.Does w asked link v)
      (called : asked = [] ∨ asked = [c.link.call "shutdown" .null]) :
      TookLeave c w (none, { c with link }, v)
  | left {out : Except ClientFault Unit} {mid link : Connection π} {u v : World}
      {asked told : List Message} (ready : c.initialized = true)
      (first : c.link.Does w asked mid u)
      (called : asked = [] ∨ asked = [c.link.call "shutdown" .null])
      (last : mid.Does u told link v)
      (bade : told = [] ∨ told = [.notification { method := "exit", params := .null }]) :
      TookLeave c w (some out, { c with link, initialized := false, opened := [] }, v)

/-- The answer to the request does not matter, once there is one. -/
theorem tookLeave_of_asked {c d : Client π} {w u : World} {out : Except ClientFault (Option Json)}
    {mid : Connection π} {asked : List Message} (ready : c.initialized = true)
    (hr : (request "shutdown" .null fun _ => none).perform (c, w) = (some out, d, u))
    (hd : d = { c with link := mid }) (first : c.link.Does w asked mid u)
    (called : asked = [] ∨ asked = [c.link.call "shutdown" .null]) :
    TookLeave c w ((shutDown : Call π Unit).perform (c, w)) := by
  have htold := notify_told "exit" .null d u
  rcases hn : (notify "exit" .null).perform (d, u) with ⟨told, e, v⟩
  rw [hn] at htold
  have h : (shutDown : Call π Unit).perform (c, w) = match told with
      | some told => (some told, { e with initialized := false, opened := [] }, v)
      | none => (none, e, v) := by
    rcases out with _ | _ <;> rcases told with _ | _ | _ <;>
      simp [shutDown, perform_bind, perform_tryCatch, ready, hr, hn, Except.map]
  rw [h]
  subst hd
  cases htold with
  | unready fresh => simp [ready] at fresh
  | heard _ does => exact .left ready first called does (.inr rfl)
  | unheard _ does closed => exact .left ready first called does (.inl rfl)

theorem shutDown_tookLeave (c : Client π) (w : World) :
    TookLeave c w ((shutDown : Call π Unit).perform (c, w)) := by
  by_cases hi : c.initialized = true
  · have hasked := request_asked "shutdown" .null (fun _ => none) c w
    rcases hr : (request "shutdown" .null fun _ => none).perform (c, w) with ⟨out, d, u⟩
    rw [hr] at hasked
    have hwaiting (hout : out = none) : shutDown.perform (c, w) = (none, d, u) := by
      simp [shutDown, perform_bind, perform_tryCatch, hi, hr, hout]
    cases hasked with
    | unready fresh => simp [hi] at fresh
    | heard ready does =>
      cases out with
      | some out => exact tookLeave_of_asked hi hr rfl does (.inr rfl)
      | none =>
        rw [hwaiting rfl]
        exact .waiting hi does (.inr rfl)
    | unheard ready does closed => exact tookLeave_of_asked hi hr rfl does (.inl rfl)
    | spent ready =>
      rw [hwaiting rfl]
      exact .waiting hi (.refl _ _) (.inl rfl)
  · have h : shutDown.perform (c, w) = (some (.ok ()), c, w) := by
      simp [shutDown, perform_bind, hi]
    rw [h]
    exact .idle (Bool.eq_false_iff.2 hi)

/-! ### Steps of calls -/

/-- Whether a call changes its connection and the world by steps alone. -/
def Speaks (call : Call π α) : Prop :=
  ∀ (c : Client π) (w : World),
    ∃ ms, c.link.Does w ms (call.perform (c, w)).2.1.link (call.perform (c, w)).2.2

theorem Speaks.bind {x : Call π α} {f : α → Call π β} (hx : Speaks x) (hf : ∀ a, Speaks (f a)) :
    Speaks (x >>= f) := by
  intro c w
  obtain ⟨ms, hms⟩ := hx c w
  rw [perform_bind]
  rcases h : x.perform (c, w) with ⟨_ | _ | a, d, v⟩ <;> rw [h] at hms
  · exact ⟨ms, hms⟩
  · exact ⟨ms, hms⟩
  · obtain ⟨ns, hns⟩ := hf a d v
    exact ⟨ms ++ ns, hms.trans hns⟩

theorem request_speaks (method : String) (params : Json) (shape : Shape) :
    Speaks (request (π := π) method params shape) := by
  intro c w
  have h := request_asked method params shape c w
  generalize (request method params shape).perform (c, w) = out at h
  cases h with
  | unready | spent => exact ⟨[], .refl _ _⟩
  | heard _ does | unheard _ does => exact ⟨_, does⟩

theorem Told.speaks {c d : Client π} {w v : World} {n : Notification}
    {out : Option (Except ClientFault Unit)} (h : Told c w n (out, d, v)) :
    ∃ ms, c.link.Does w ms d.link v := by
  cases h with
  | unready => exact ⟨[], .refl _ _⟩
  | heard _ does | unheard _ does => exact ⟨_, does⟩

theorem notify_speaks (method : String) (params : Json) : Speaks (notify (π := π) method params) :=
  fun c w => (notify_told method params c w).speaks

theorem sync_speaks (b : Buffer) : Speaks (sync (π := π) b) := by
  intro c w
  have h := sync_synced b c w
  generalize (sync b).perform (c, w) = out at h
  cases h with
  | refused | current => exact ⟨[], .refl _ _⟩
  | shown _ _ does | unheard _ does => exact ⟨_, does⟩

theorem didClose_speaks (uri : Uri) : Speaks (didClose (π := π) uri) := by
  intro c w
  have h := didClose_tookBack uri c w
  generalize (didClose uri).perform (c, w) = out at h
  cases h with
  | unknown => exact ⟨[], .refl _ _⟩
  | told _ rest => exact rest.speaks

theorem setUp_speaks (options : Option Json) : Speaks (setUp (π := π) options) := by
  intro c w
  have h := setUp_setUp options c w
  generalize (setUp options).perform (c, w) = out at h
  cases h with
  | unheard does | unanswered does => exact ⟨_, does⟩
  | complete _ written does => exact ⟨_, written.trans does⟩

end Client

end LuaLens
