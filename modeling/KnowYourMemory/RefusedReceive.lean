import KnowYourMemory.DirectRead
import KnowYourMemory.ReceiveQueue

/-!
# Refused receives of direct read

The peer announces a message with a request, which a receive call takes from the receive
queue. Three calls read the message into a region of the caller. They refuse a region that
is too small, and any region while too many reads are outstanding; the request is taken
and its buffer is posted again before either is checked.
-/

set_option autoImplicit false

namespace KYM.RefusedReceive
open KYM.Run KYM.RingBuffer KYM.DirectRead KYM.ReceiveQueue

/-- A receiver with its receive queue. `announced` are the requests in the order of their
arrival, each with the buffer that it is in; the completions of the first `taken` are
polled. `accepted` are the places of those that `ReadInto` has given an id, in the order
of the ids. -/
structure Receiver where
  sys : System
  rq : Queue
  announced : List (UInt32 × ReadRequest)
  taken : ℕ
  accepted : List ℕ

def init (fence : Bool) (rq : Queue) : Receiver := ⟨DirectRead.init fence, rq, [], 0, []⟩

def regionToSmall : Status := ⟨.invalidArgument, "Recieve Region to small"⟩

def receiveRequest (r : Receiver) : Option (StatusOr ReadRequest × Receiver) :=
  match r.announced[r.taken]? with
  | none => none
  | some (wrId, req) =>
    match r.rq.postMR wrId with
    | none => some (.error postFailed, { r with taken := r.taken+1 })
    | some rq => some (.ok req, { r with taken := r.taken+1, rq := rq })

def Receiver.readInto (r : Receiver) (addr : UInt64) (key : UInt32) (req : ReadRequest) :
    StatusOr ℕ × Receiver :=
  match DirectRead.readInto r.sys.conn addr key req with
  | .error e => (.error e, r)
  | .ok (id, wrs, conn) =>
    (.ok id, { r with
      sys := { r.sys with
        conn := conn
        sendQueue := r.sys.sendQueue++wrs
        requests := r.sys.requests++[req]
        posted := r.sys.posted++wrs }
      accepted := r.accepted++[r.taken-1] })

/-- `Receive(reg)` up to its `WaitReceive`: the id that is waited for, and the length
that is returned in the end. -/
def receive (r : Receiver) (reg : KeyedRegion) : Option (StatusOr (ℕ × UInt32) × Receiver) :=
  match receiveRequest r with
  | none => none
  | some (.error e, r) => some (.error e, r)
  | some (.ok req, r) =>
    if reg.length < req.length then some (.error regionToSmall, r)
    else
      match r.readInto reg.addr reg.lkey req with
      | (.error e, r) => some (.error e, r)
      | (.ok id, r) => some (.ok (id, req.length), r)

def receiveAsync (r : Receiver) (reg : KeyedRegion) (length : Option UInt32) :
    Option (StatusOr ℕ × Option UInt32 × Receiver) :=
  match receiveRequest r with
  | none => none
  | some (.error e, r) => some (.error e, length, r)
  | some (.ok req, r) =>
    if reg.length < req.length then some (.error regionToSmall, length, r)
    else
      some ((r.readInto reg.addr reg.lkey req).1, length.map (fun _ => req.length),
        (r.readInto reg.addr reg.lkey req).2)

def receiveNew (r : Receiver) (alloc : StatusOr (UInt64 × UInt32)) :
    Option (StatusOr ℕ × Receiver) :=
  match receiveRequest r with
  | none => none
  | some (.error e, r) => some (.error e, r)
  | some (.ok req, r) =>
    match alloc with
    | .error e => some (.error e, r)
    | .ok (addr, lkey) => some (r.readInto addr lkey req)

/-- The calls that are given a region. -/
inductive Call where
  | receive (reg : KeyedRegion)
  | receiveAsync (reg : KeyedRegion)
  | receiveAsyncLength (reg : KeyedRegion) (length : UInt32)
  deriving DecidableEq, Repr

def Call.answer (r : Receiver) : Call → Option (Option Status × Receiver)
  | .receive reg => (RefusedReceive.receive r reg).map (fun x => (refusal x.1, x.2))
  | .receiveAsync reg => (RefusedReceive.receiveAsync r reg none).map (fun x => (refusal x.1, x.2.2))
  | .receiveAsyncLength reg length =>
    (RefusedReceive.receiveAsync r reg (some length)).map (fun x => (refusal x.1, x.2.2))

inductive Event where
  | announce (i : ℕ) (req : ReadRequest)
  | call (c : Call)
  | receiveNew (alloc : StatusOr (UInt64 × UInt32))
  | waitReceive (id : ℕ)
  | perform (i : ℕ)

def step (r : Receiver) : Event → Option Receiver
  | .announce i req =>
    match r.rq.posted[i]? with
    | none => none
    | some p =>
      some { r with
        rq := { r.rq with posted := r.rq.posted.eraseIdx i }
        announced := r.announced++[(p.wrId.toUInt32, req)] }
  | .call c => (c.answer r).map Prod.snd
  | .receiveNew alloc => (receiveNew r alloc).map Prod.snd
  | .waitReceive id => (DirectRead.step r.sys (.waitReceive id)).map (fun sys => { r with sys := sys })
  | .perform i => (DirectRead.step r.sys (.perform i)).map (fun sys => { r with sys := sys })

/-- `WaitReceive` is called with ids that were returned. -/
def Returned (r : Receiver) : Event → Prop
  | .waitReceive id => 1 ≤ id ∧ id < r.sys.conn.nextRcvId
  | _ => True

instance (r : Receiver) : ∀ e : Event, Decidable (Returned r e)
  | .waitReceive id => inferInstanceAs (Decidable (1 ≤ id ∧ id < r.sys.conn.nextRcvId))
  | .announce _ _ | .call _ | .receiveNew _ | .perform _ => isTrue trivial

/-- A later call can still take the request. -/
def Available (r : Receiver) (k : ℕ) : Prop := r.taken ≤ k

/-- The write that ends the wait for the request has taken effect. -/
def Answered (r : Receiver) (k : ℕ) : Prop :=
  ∃ i, r.accepted[i]? = some k ∧ ∃ w ∈ r.sys.done, w.opcode = .rdmaWrite ∧ w.wrId = i+1

/-- Some write has set the byte in front of a region. -/
def ByteSet (r : Receiver) (addr : UInt64) : Prop :=
  ∃ w ∈ r.sys.done, w.opcode = .rdmaWrite ∧ w.remoteAddr = addr-1

structure Took (r t : Receiver) (req : ReadRequest) : Prop where
  found : ∃ wrId, r.announced[r.taken]? = some (wrId, req)
  sys : t.sys = r.sys
  announced : t.announced = r.announced
  taken : t.taken = r.taken+1
  accepted : t.accepted = r.accepted

/-- The call took the request `req` and posted its read. -/
def Accepted (r t : Receiver) (req : ReadRequest) : Prop :=
  ∃ m addr key id, Took r m req ∧ m.readInto addr key req = (.ok id, t)

section Calls

variable {r t : Receiver} {req : ReadRequest}

theorem receiveRequest_cases {x : StatusOr ReadRequest} (h : receiveRequest r = some (x, t)) :
    ∃ req, Took r t req ∧ (x = .ok req ∨ x = .error postFailed) := by
  unfold receiveRequest at h
  split at h
  · cases h
  · next wrId req hreq =>
    split at h <;>
    · obtain ⟨rfl, rfl⟩ := Prod.mk.inj (Option.some.inj h)
      exact ⟨req, ⟨⟨wrId, hreq⟩, rfl, rfl, rfl, rfl⟩, by simp⟩

theorem readInto_cases (r : Receiver) (addr : UInt64) (key : UInt32) (req : ReadRequest) :
    r.readInto addr key req = (.error rateLimit, r) ∨
      ∃ id t, r.readInto addr key req = (.ok id, t) := by
  unfold Receiver.readInto
  split
  · next e he =>
    unfold DirectRead.readInto at he
    split at he
    · obtain rfl := Except.error.inj he
      exact Or.inl rfl
    · split at he <;> cases he
  · next id wrs conn _ => exact Or.inr ⟨id, _, rfl⟩

theorem refused_request {e : Status} (h : receiveRequest r = some (.error e, t)) :
    ∃ req, Took r t req := by
  obtain ⟨req, htook, -⟩ := receiveRequest_cases h
  exact ⟨req, htook⟩

theorem taken_request (h : receiveRequest r = some (.ok req, t)) : Took r t req := by
  obtain ⟨req', htook, hx⟩ := receiveRequest_cases h
  obtain rfl : req = req' := by simpa using hx
  exact htook

theorem readInto_settles {m : Receiver} (htook : Took r m req) (addr : UInt64) (key : UInt32) :
    (refusal (m.readInto addr key req).1 ≠ none ∧ Took r (m.readInto addr key req).2 req) ∨
      (refusal (m.readInto addr key req).1 = none ∧
        Accepted r (m.readInto addr key req).2 req) := by
  rcases readInto_cases m addr key req with hr | ⟨id, t, hr⟩
  · rw [hr]
    exact Or.inl ⟨by simp [refusal], htook⟩
  · rw [hr]
    exact Or.inr ⟨rfl, m, addr, key, id, htook, hr⟩

theorem receive_cases {x : StatusOr (ℕ × UInt32)} {reg : KeyedRegion} (h : receive r reg = some (x, t)) :
    ∃ req, (refusal x ≠ none ∧ Took r t req) ∨ (refusal x = none ∧ Accepted r t req) := by
  unfold receive at h
  split at h
  · cases h
  · next e m hm =>
    obtain ⟨rfl, rfl⟩ := Prod.mk.inj (Option.some.inj h)
    obtain ⟨req, htook⟩ := refused_request hm
    exact ⟨req, Or.inl ⟨by simp [refusal], htook⟩⟩
  · next req m hm =>
    have htook := taken_request hm
    refine ⟨req, ?_⟩
    split at h
    · obtain ⟨rfl, rfl⟩ := Prod.mk.inj (Option.some.inj h)
      exact Or.inl ⟨by simp [refusal], htook⟩
    · have hread := readInto_settles htook reg.addr reg.lkey
      split at h <;>
      · next hr =>
        obtain ⟨rfl, rfl⟩ := Prod.mk.inj (Option.some.inj h)
        rw [hr] at hread
        simpa [refusal] using hread

theorem receiveAsync_cases {x : StatusOr ℕ} {reg : KeyedRegion} {length length' : Option UInt32}
    (h : receiveAsync r reg length = some (x, length', t)) :
    ∃ req, (refusal x ≠ none ∧ Took r t req) ∨ (refusal x = none ∧ Accepted r t req) := by
  unfold receiveAsync at h
  split at h
  · cases h
  · next e m hm =>
    simp only [Option.some.injEq, Prod.mk.injEq] at h
    obtain ⟨rfl, -, rfl⟩ := h
    obtain ⟨req, htook⟩ := refused_request hm
    exact ⟨req, Or.inl ⟨by simp [refusal], htook⟩⟩
  · next req m hm =>
    have htook := taken_request hm
    refine ⟨req, ?_⟩
    split at h
    · simp only [Option.some.injEq, Prod.mk.injEq] at h
      obtain ⟨rfl, -, rfl⟩ := h
      exact Or.inl ⟨by simp [refusal], htook⟩
    · simp only [Option.some.injEq, Prod.mk.injEq] at h
      obtain ⟨rfl, -, rfl⟩ := h
      exact readInto_settles htook reg.addr reg.lkey

theorem receiveNew_cases {x : StatusOr ℕ} {alloc : StatusOr (UInt64 × UInt32)}
    (h : receiveNew r alloc = some (x, t)) : ∃ req, Took r t req ∨ Accepted r t req := by
  unfold receiveNew at h
  split at h
  · cases h
  · next e m hm =>
    obtain ⟨rfl, rfl⟩ := Prod.mk.inj (Option.some.inj h)
    exact (refused_request hm).imp fun _ => Or.inl
  · next req m hm =>
    have htook := taken_request hm
    refine ⟨req, ?_⟩
    split at h
    · obtain ⟨rfl, rfl⟩ := Prod.mk.inj (Option.some.inj h)
      exact Or.inl htook
    · next addr lkey =>
      have hread := readInto_settles htook addr lkey
      rw [Option.some.inj h] at hread
      exact hread.imp And.right And.right

/-- A call with a region either returns an error and has taken its request, or it has
posted the read. -/
theorem call_cases (c : Call) {a : Option Status} (h : c.answer r = some (a, t)) :
    ∃ req, (a ≠ none ∧ Took r t req) ∨ (a = none ∧ Accepted r t req) := by
  cases c with
  | receive reg =>
    obtain ⟨⟨x, u⟩, hx, he⟩ := Option.map_eq_some_iff.mp h
    obtain ⟨rfl, rfl⟩ := Prod.mk.inj he
    exact receive_cases hx
  | receiveAsync reg =>
    obtain ⟨⟨x, l, u⟩, hx, he⟩ := Option.map_eq_some_iff.mp h
    obtain ⟨rfl, rfl⟩ := Prod.mk.inj he
    exact receiveAsync_cases hx
  | receiveAsyncLength reg length =>
    obtain ⟨⟨x, l, u⟩, hx, he⟩ := Option.map_eq_some_iff.mp h
    obtain ⟨rfl, rfl⟩ := Prod.mk.inj he
    exact receiveAsync_cases hx

end Calls

def Lost (r : Receiver) (k : ℕ) : Prop := k < r.taken ∧ k ∉ r.accepted

def For (r : Receiver) (w : SendWr) : Prop :=
  w.opcode = .rdmaWrite → ∃ k ∈ r.accepted, ∃ wrId req,
    r.announced[k]? = some (wrId, req) ∧ w.remoteAddr = req.addr-1

structure Sound (r : Receiver) : Prop where
  lt : ∀ k ∈ r.accepted, k < r.taken
  queue : ∀ w ∈ r.sys.sendQueue, For r w
  done : ∀ w ∈ r.sys.done, For r w
  table : r.sys.conn.fence = false → ∀ id, 1 ≤ id → id < r.sys.conn.nextRcvId →
    For r (r.sys.conn.outstandingReadWr (id%maxRcv))

def Moves (r t : Receiver) : Prop :=
  (t.taken = r.taken ∧ t.accepted = r.accepted) ∨
    (t.taken = r.taken+1 ∧ (t.accepted = r.accepted ∨ t.accepted = r.accepted++[r.taken]))

section Runs

variable {r t : Receiver} {req : ReadRequest} {k : ℕ}

theorem For.mono {w : SendWr} (h : For r w) (hacc : ∀ k ∈ r.accepted, k ∈ t.accepted)
    (hann : ∀ (k : ℕ) (x : UInt32 × ReadRequest), r.announced[k]? = some x →
      t.announced[k]? = some x) : For t w := by
  intro hop
  obtain ⟨k, hk, wrId, req, hreq, haddr⟩ := h hop
  exact ⟨k, hacc k hk, wrId, req, hann k _ hreq, haddr⟩

theorem Sound.keep (h : Sound r) (hsys : t.sys = r.sys) (hacc : t.accepted = r.accepted)
    (htaken : r.taken ≤ t.taken)
    (hann : ∀ (k : ℕ) (x : UInt32 × ReadRequest), r.announced[k]? = some x →
      t.announced[k]? = some x) : Sound t where
  lt k hk := (h.lt k (hacc ▸ hk)).trans_le htaken
  queue w hw := (h.queue w (hsys ▸ hw)).mono (by simp [hacc]) hann
  done w hw := (h.done w (hsys ▸ hw)).mono (by simp [hacc]) hann
  table := by
    rw [hsys]
    exact fun hf id h1 h2 => (h.table hf id h1 h2).mono (by simp [hacc]) hann

theorem accepted_eq (h : Accepted r t req) :
    t.taken = r.taken+1 ∧ t.accepted = r.accepted++[r.taken] ∧ t.announced = r.announced := by
  obtain ⟨m, addr, key, id, htook, hread⟩ := h
  unfold Receiver.readInto at hread
  split at hread
  · cases hread
  · obtain ⟨-, rfl⟩ := Prod.mk.inj hread
    exact ⟨htook.taken, by simp [htook.accepted, htook.taken], htook.announced⟩

theorem accepted_posts (h : Accepted r t req) : ∃ addr key,
    t.sys.done = r.sys.done ∧
    t.sys.sendQueue = r.sys.sendQueue++
      wrData r.sys.conn.fence r.sys.conn.nextRcvId addr key req::
        (if r.sys.conn.fence then [wrAck true r.sys.conn.nextRcvId req] else []) ∧
    t.sys.conn = { r.sys.conn with
      nextRcvId := r.sys.conn.nextRcvId+1
      outstandingReadWr := if r.sys.conn.fence then r.sys.conn.outstandingReadWr else
        Function.update r.sys.conn.outstandingReadWr (r.sys.conn.nextRcvId%maxRcv)
          (wrAck false r.sys.conn.nextRcvId req) } := by
  obtain ⟨m, addr, key, id, htook, hread⟩ := h
  rw [Receiver.readInto, htook.sys] at hread
  rcases Nat.lt_or_ge (r.sys.conn.ackdRcvId+maxRcv) r.sys.conn.nextRcvId with hl | hl
  · rw [DirectRead.readInto, if_pos hl] at hread
    cases hread
  · rw [readInto_ok r.sys.conn addr key req hl] at hread
    obtain ⟨-, rfl⟩ := Prod.mk.inj hread
    exact ⟨addr, key, rfl, rfl, rfl⟩

theorem Sound.accept (h : Sound r) (ha : Accepted r t req) : Sound t := by
  obtain ⟨htaken, hacc, hann⟩ := accepted_eq ha
  obtain ⟨addr, key, hdone, hqueue, hconn⟩ := accepted_posts ha
  obtain ⟨m, -, -, -, htook, -⟩ := ha
  obtain ⟨wrId, hfound⟩ := htook.found
  have hmono : ∀ w, For r w → For t w := fun w hw =>
    hw.mono (fun k hk => by rw [hacc]; exact List.mem_append_left _ hk) (fun k x hx => hann ▸ hx)
  have hack : ∀ f j, For t (wrAck f j req) := fun f j _ =>
    ⟨r.taken, by simp [hacc], wrId, req, hann ▸ hfound, rfl⟩
  have hdata : ∀ f j, For t (wrData f j addr key req) := by
    intro f j hop
    cases hop
  refine ⟨?_, ?_, fun w hw => hmono w (h.done w (hdone ▸ hw)), ?_⟩
  · rw [hacc, htaken]
    intro k hk
    rcases List.mem_append.mp hk with hk | hk
    · exact (h.lt k hk).trans (Nat.lt_succ_self _)
    · rw [List.mem_singleton.mp hk]
      exact Nat.lt_succ_self _
  · rw [hqueue]
    intro w hw
    rcases List.mem_append.mp hw with hw | hw
    · exact hmono w (h.queue w hw)
    rcases List.mem_cons.mp hw with rfl | hw
    · exact hdata _ _
    · split at hw
      · exact List.mem_singleton.mp hw ▸ hack _ _
      · cases hw
  · rw [hconn]
    intro hf j h1 h2
    simp only at hf h2 ⊢
    rw [if_neg (by simp [hf])]
    -- The slot of the new id holds the new acknowledgement, the others are kept.
    by_cases hj : j%maxRcv = r.sys.conn.nextRcvId%maxRcv
    · rw [hj, Function.update_self]
      exact hack _ _
    · rw [Function.update_of_ne hj]
      refine hmono _ (h.table hf j h1 ?_)
      rcases Nat.lt_succ_iff_lt_or_eq.mp h2 with hlt | rfl
      · exact hlt
      · exact absurd rfl hj

theorem Sound.waitReceive (h : Sound r) (id : ℕ) (hid : 1 ≤ id ∧ id < r.sys.conn.nextRcvId)
    (hs : step r (.waitReceive id) = some t) : Sound t ∧ t.taken = r.taken ∧ t.accepted = r.accepted := by
  obtain ⟨sys, hsys, rfl⟩ := Option.map_eq_some_iff.mp hs
  simp only [DirectRead.step, DirectRead.waitReceive] at hsys
  cases hp : CompletionQueue.pollUntil CompletionQueue.last id r.sys.conn.ackdRcvId r.sys.sendCq with
  | none => simp [hp] at hsys
  | some p =>
    simp only [hp, Option.some.injEq] at hsys
    obtain rfl := hsys
    refine ⟨⟨h.lt, ?_, h.done, h.table⟩, rfl, rfl⟩
    intro w hw
    rcases List.mem_append.mp hw with hw | hw
    · exact h.queue w hw
    · split at hw
      · simp at hw
      · next hf =>
        rw [List.mem_singleton.mp hw]
        exact h.table (by simpa using hf) id hid.1 hid.2

theorem Sound.perform (h : Sound r) (i : ℕ) (hs : step r (.perform i) = some t) :
    Sound t ∧ t.taken = r.taken ∧ t.accepted = r.accepted := by
  obtain ⟨sys, hsys, rfl⟩ := Option.map_eq_some_iff.mp hs
  obtain ⟨ws, w, vs, hq, -, rfl⟩ := perform_views i hsys
  refine ⟨⟨h.lt, ?_, ?_, h.table⟩, rfl, rfl⟩
  · exact fun v hv => h.queue v (hq ▸ mem_around hv)
  · intro v hv
    rcases List.mem_append.mp hv with hv | hv
    · exact h.done v hv
    · rw [List.mem_singleton.mp hv]
      exact h.queue w (by simp [hq])

theorem Sound.took (h : Sound r) (ht : Took r t req) : Sound t ∧ Moves r t :=
  ⟨h.keep ht.sys ht.accepted (by rw [ht.taken]; omega) (fun k x hx => ht.announced ▸ hx),
    Or.inr ⟨ht.taken, Or.inl ht.accepted⟩⟩

theorem Sound.accepted (h : Sound r) (ha : Accepted r t req) : Sound t ∧ Moves r t :=
  ⟨h.accept ha, Or.inr ⟨(accepted_eq ha).1, Or.inr (accepted_eq ha).2.1⟩⟩

theorem Sound.step (h : Sound r) (e : Event) (hz : Returned r e) (hs : step r e = some t) :
    Sound t ∧ Moves r t := by
  cases e with
  | announce i req =>
    simp only [RefusedReceive.step] at hs
    split at hs
    · cases hs
    · obtain rfl := Option.some.inj hs
      refine ⟨h.keep rfl rfl (le_refl _) (fun k x hx => ?_), Or.inl ⟨rfl, rfl⟩⟩
      have hlt := (List.getElem?_eq_some_iff.mp hx).1
      simpa [List.getElem?_append_left hlt] using hx
  | call c =>
    obtain ⟨⟨a, u⟩, hx, rfl⟩ := Option.map_eq_some_iff.mp hs
    obtain ⟨req, ⟨-, ht⟩ | ⟨-, ha⟩⟩ := call_cases c hx
    · exact h.took ht
    · exact h.accepted ha
  | receiveNew alloc =>
    obtain ⟨⟨x, u⟩, hx, rfl⟩ := Option.map_eq_some_iff.mp hs
    obtain ⟨req, ht | ha⟩ := receiveNew_cases hx
    · exact h.took ht
    · exact h.accepted ha
  | waitReceive id =>
    obtain ⟨hsound, hkeep⟩ := h.waitReceive id hz hs
    exact ⟨hsound, Or.inl hkeep⟩
  | perform i =>
    obtain ⟨hsound, hkeep⟩ := h.perform i hs
    exact ⟨hsound, Or.inl hkeep⟩

theorem Lost.step (hl : Lost r k) (h : Sound r) (e : Event) (hz : Returned r e)
    (hs : step r e = some t) : Lost t k := by
  have hlt := hl.1
  obtain ⟨-, ⟨ht, ha⟩ | ⟨ht, ha | ha⟩⟩ := h.step e hz hs
  · exact ⟨ht ▸ hlt, ha ▸ hl.2⟩
  · exact ⟨by omega, ha ▸ hl.2⟩
  · refine ⟨by omega, ?_⟩
    rw [ha]
    intro hk
    rcases List.mem_append.mp hk with hk | hk
    · exact hl.2 hk
    · have := List.mem_singleton.mp hk
      omega

theorem init_sound (fence : Bool) (rq : Queue) : Sound (init fence rq) where
  lt := by simp [init]
  queue := by simp [init, DirectRead.init]
  done := by simp [init, DirectRead.init]
  table := by
    intro _ id h1 h2
    change id < 1 at h2
    omega

end Runs

/-- A call with a region that returns an error has taken a request that no later call can
take. The request is never answered, and if no other message was announced from the same
address, the byte that its sender waits for is never set. -/
theorem refused_request_lost (fence : Bool) (rq : Queue) (es fs : List Event) (c : Call)
    (r t u : Receiver) (e : Status) (hes : Meets step Returned es (init fence rq))
    (hr : run step es (init fence rq) = some r) (hc : c.answer r = some (some e, t))
    (hfs : Meets step Returned fs t) (hu : run step fs t = some u) :
    ∃ wrId req, r.announced[r.taken]? = some (wrId, req) ∧
      ¬Available u r.taken ∧ ¬Answered u r.taken ∧
      ((∀ j b q, u.announced[j]? = some (b, q) → q.addr = req.addr → j = r.taken) →
        ¬ByteSet u req.addr) := by
  have hsound : Sound r := run_keeps step Returned Sound (fun _ e _ h hz hs => (h.step e hz hs).1)
    es _ r (init_sound fence rq) hes hr
  obtain ⟨req, ⟨-, htook⟩ | ⟨hnone, -⟩⟩ := call_cases c hc
  · obtain ⟨wrId, hfound⟩ := htook.found
    have hlost : Lost t r.taken := by
      refine ⟨by rw [htook.taken]; omega, fun hk => ?_⟩
      rw [htook.accepted] at hk
      exact Nat.lt_irrefl _ (hsound.lt _ hk)
    obtain ⟨hu, hlt, hacc⟩ := run_keeps step Returned (fun s => Sound s ∧ Lost s r.taken)
      (fun _ e _ h hz hs => ⟨(h.1.step e hz hs).1, h.2.step h.1 e hz hs⟩) fs t u
      ⟨(hsound.took htook).1, hlost⟩ hfs hu
    refine ⟨wrId, req, hfound, Nat.not_le.mpr hlt, ?_, ?_⟩
    · rintro ⟨i, hi, -⟩
      exact hacc (List.mem_of_getElem? hi)
    · rintro hsole ⟨w, hw, hop, haddr⟩
      obtain ⟨j, hj, b, q, hq, hwq⟩ := hu.done w hw hop
      have hsame : q.addr = req.addr := by
        rw [← UInt64.sub_add_cancel q.addr 1, ← hwq, haddr, UInt64.sub_add_cancel]
      exact hacc (hsole j b q hq hsame ▸ hj)
  · cases hnone

def twoBuffers : Queue := (setup 8 8192 5 16 2).get (by decide)

def twoAnnounced : List Event := [.announce 0 ⟨4097, 3, 100⟩, .announce 0 ⟨4225, 3, 10⟩]

def smallCall : Call := .receiveAsync ⟨⟨0, 65536, 50⟩, 9⟩

def nextReceived : List Event := [.call smallCall, .perform 0, .waitReceive 1, .perform 0]

def twoWaiting : Receiver := (run step twoAnnounced (init false twoBuffers)).get (by decide)

def oneRefused : Receiver := ((smallCall.answer twoWaiting).get (by decide)).2

theorem refused_request_lost_small : ∃ u,
    smallCall.answer twoWaiting = some (some regionToSmall, oneRefused) ∧
    run step nextReceived oneRefused = some u ∧ u.sys.done.length = 2 ∧
    ∃ wrId req, twoWaiting.announced[twoWaiting.taken]? = some (wrId, req) ∧
      ¬Available u twoWaiting.taken ∧ ¬Answered u twoWaiting.taken := by
  have hc : smallCall.answer twoWaiting = some (some regionToSmall, oneRefused) := rfl
  have hu : (run step nextReceived oneRefused).isSome := by decide
  obtain ⟨wrId, req, hfound, hav, hans, -⟩ := refused_request_lost false twoBuffers twoAnnounced
    nextReceived smallCall twoWaiting oneRefused _ regionToSmall (by decide) (run_get _ _ _ _)
    hc (by decide) (run_get _ _ _ hu)
  exact ⟨_, hc, run_get _ _ _ hu, rfl, wrId, req, hfound, hav, hans⟩

/-- The request is gone, nothing was posted, and the next call polls an empty queue. -/
theorem small_region_loses_request : ∃ r t,
    run step [.announce 0 ⟨4097, 3, 100⟩] (init false twoBuffers) = some r ∧
    smallCall.answer r = some (some regionToSmall, t) ∧
    ¬Available t 0 ∧ ¬Answered t 0 ∧ ¬ByteSet t 4097 ∧ t.sys.posted = [] ∧
    smallCall.answer t = none := by
  refine ⟨_, _, rfl, rfl, ?_, ?_, ?_, rfl, rfl⟩
  · exact Nat.not_succ_le_zero 0
  · rintro ⟨i, hi, -⟩
    cases hi
  · rintro ⟨w, hw, -⟩
    cases hw

end KYM.RefusedReceive
