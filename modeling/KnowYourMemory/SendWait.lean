import KnowYourMemory.Run
import KnowYourMemory.WriteAtomic
import Mathlib.Data.List.Basic

/-!
# Waiting for sends

One counter numbers the calls that post work requests, `Wait` overwrites the last
number it has seen, and only the last request of a batch is signaled. Requests of a
queue pair complete in posting order. `SendReceiveConnection` posts sends only; a
`WriteAtomicConnection` also posts and waits for the fetch-and-add and the head reads
inside of `SendAsync`. The numbers are 64-bit words in the source and natural numbers here.
-/

set_option autoImplicit false

namespace KYM.SendWait
open KYM.Run KYM.RingBuffer

structure Wr where
  id : ℕ
  signaled : Bool
  deriving DecidableEq, Repr

/-- The counters of a connection, the requests that are posted and have not completed,
the completions that are not polled, and the argument of the `Wait` that runs.
`returned` pairs the ids that `SendAsync` has returned with the number of requests
posted until then. -/
structure Connection where
  ackdId : ℕ
  nextId : ℕ
  flight : List Wr
  cq : List ℕ
  posted : ℕ
  completed : ℕ
  returned : List (ℕ × ℕ)
  waiting : Option ℕ
  deriving DecidableEq, Repr

def init : Connection := ⟨0, 1, [], [], 0, 0, [], none⟩

def Connection.post (c : Connection) (unsignaled : ℕ) : Connection :=
  { c with
    nextId := c.nextId+1
    flight := c.flight++(List.replicate unsignaled ⟨c.nextId, false⟩++[⟨c.nextId, true⟩])
    posted := c.posted+(unsignaled+1) }

def Connection.return (c : Connection) : Connection :=
  { c with returned := c.returned++[(c.nextId-1, c.posted)] }

def Connection.complete (c : Connection) : Option Connection :=
  match c.flight with
  | [] => none
  | w::flight => some { c with
      flight := flight
      cq := if w.signaled then c.cq++[w.id] else c.cq
      completed := c.completed+1 }

def Connection.pollSendCq (c : Connection) : Connection :=
  match c.cq with
  | [] => c
  | w::cq => { c with ackdId := w, cq := cq }

def Connection.toCome (c : Connection) : List ℕ :=
  c.cq++(c.flight.filter Wr.signaled).map Wr.id

namespace SendReceive

inductive Event where
  | sendAsync
  | sendBatch (size : ℕ)
  | wait (id : ℕ)
  | check
  | complete
  deriving DecidableEq, Repr

/-- `Wait` is called for ids that were returned. `check` evaluates its loop condition
and runs the body or returns. -/
def step (c : Connection) : Event → Option Connection
  | .sendAsync => if c.waiting = none then some (c.post 0).return else none
  | .sendBatch size =>
    if c.waiting = none ∧ size ≠ 0 then some (c.post (size-1)).return else none
  | .wait id =>
    if c.waiting = none ∧ id ∈ c.returned.map Prod.fst then some { c with waiting := some id }
    else none
  | .check =>
    match c.waiting with
    | none => none
    | some id =>
      if c.ackdId < id then some c.pollSendCq else some { c with waiting := none }
  | .complete => c.complete

end SendReceive

namespace WriteAtomic

/-- What the running `Wait` belongs to: the caller, or a `SendAsync` of so many bytes
that waits for its fetch-and-add or for a head read. -/
inductive Caller where
  | application
  | fetching (length : UInt32)
  | reading (length : UInt32)
  deriving DecidableEq, Repr

structure State where
  conn : Connection
  ring : KYM.WriteAtomic.Connection
  caller : Caller
  deriving DecidableEq, Repr

inductive Event where
  | sendAsync (length : UInt32)
  | wait (id : ℕ)
  | check (value : UInt64)
  | complete
  deriving DecidableEq, Repr

def init (rbufVaddr : UInt64) (rbufSize : UInt32) : State :=
  ⟨SendWait.init, KYM.WriteAtomic.newConnection rbufVaddr rbufSize, .application⟩

def State.await (s : State) (caller : Caller) : State :=
  let conn := s.conn.post 0
  { s with conn := { conn with waiting := some s.conn.nextId }, caller := caller }

def State.afterWait (s : State) (length : UInt32) : State :=
  if s.ring.waits length then s.await (.reading length)
  else { s with
    conn := { (s.conn.post 0).return with waiting := none }
    ring := s.ring.post.2.2
    caller := .application }

def step (s : State) : Event → Option State
  | .sendAsync length =>
    if s.conn.waiting ≠ none then none
    else if length ≥ s.ring.rbufSize then some s
    else some (s.await (.fetching length))
  | .wait id =>
    if s.conn.waiting = none ∧ id ∈ s.conn.returned.map Prod.fst then
      some { s with conn := { s.conn with waiting := some id }, caller := .application }
    else none
  | .check value =>
    match s.conn.waiting with
    | none => none
    | some id =>
      if s.conn.ackdId < id then some { s with conn := s.conn.pollSendCq }
      else
        match s.caller with
        | .application => some { s with conn := { s.conn with waiting := none } }
        | .fetching length => some (State.afterWait
            { s with ring := { s.ring with tail := value, pending := some length } } length)
        | .reading length => some (State.afterWait
            { s with ring := { s.ring with head := value } } length)
  | .complete => s.conn.complete.map (fun conn => { s with conn := conn })

end WriteAtomic

/-- Ids to come rise strictly, the newest id is recorded or to come, and an id that is
recorded, or about to be, has all requests behind it completed. -/
structure Sound (c : Connection) : Prop where
  count : c.posted = c.completed+c.flight.length
  sorted : (c.ackdId::c.toCome).Pairwise (· < ·)
  below : ∀ w ∈ c.ackdId::c.toCome, w < c.nextId
  newest : c.nextId = c.ackdId+1 ∨ c.nextId-1 ∈ c.toCome
  returned : ∀ p ∈ c.returned, p.1 < c.nextId ∧ p.2 ≤ c.posted
  recorded : ∀ p ∈ c.returned, ∀ w ∈ c.ackdId::c.cq, p.1 ≤ w → p.2 ≤ c.completed
  flight : ∀ (i : ℕ) (w : Wr), c.flight[i]? = some w → w.signaled = true →
    ∀ p ∈ c.returned, p.1 ≤ w.id → p.2 ≤ c.completed+(i+1)
  waiting : ∀ id, c.waiting = some id → id < c.nextId

section Operations

variable {c c' : Connection}

theorem init_sound : Sound init where
  count := rfl
  sorted := by decide
  below := by decide
  newest := Or.inl rfl
  returned := by simp [init]
  recorded := by simp [init]
  flight := by simp [init]
  waiting := by simp [init]

theorem toCome_post (c : Connection) (k : ℕ) : (c.post k).toCome = c.toCome++[c.nextId] := by
  simp [Connection.toCome, Connection.post, List.filter_append]

theorem flight_post (c : Connection) (k i : ℕ) (w : Wr) (h : (c.post k).flight[i]? = some w)
    (hw : w.signaled = true) :
    c.flight[i]? = some w ∨ (i = c.flight.length+k ∧ w.id = c.nextId) := by
  simp only [Connection.post] at h
  rcases Nat.lt_or_ge i c.flight.length with hi | hi
  · rw [List.getElem?_append_left hi] at h
    exact Or.inl h
  · rw [List.getElem?_append_right hi, List.getElem?_append, List.getElem?_replicate] at h
    simp only [List.length_replicate] at h
    split at h
    · obtain rfl := Option.some.inj h
      cases hw
    · rw [List.getElem?_singleton] at h
      split at h
      · obtain rfl := Option.some.inj h
        exact Or.inr ⟨by omega, rfl⟩
      · cases h

theorem mem_toCome (i : ℕ) (w : Wr) (h : c.flight[i]? = some w) (hw : w.signaled = true) :
    w.id ∈ c.toCome := by
  refine List.mem_append_right _ (List.mem_map_of_mem (List.mem_filter.mpr ⟨?_, hw⟩))
  exact List.mem_of_getElem? h

theorem Sound.post (h : Sound c) (k : ℕ) : Sound (c.post k) := by
  have hcount := h.count
  refine ⟨?_, ?_, ?_, ?_, ?_, h.recorded, ?_, ?_⟩
  · simp only [Connection.post, List.length_append, List.length_replicate, List.length_singleton]
    omega
  · rw [toCome_post, ← List.cons_append]
    refine List.pairwise_append.mpr ⟨h.sorted, List.pairwise_singleton _ _, fun w hw v hv => ?_⟩
    rw [List.mem_singleton.mp hv]
    exact h.below w hw
  · intro w hw
    rw [toCome_post, ← List.cons_append] at hw
    change w < c.nextId+1
    rcases List.mem_append.mp hw with hw | hw
    · exact Nat.lt_succ_of_lt (h.below w hw)
    · rw [List.mem_singleton.mp hw]
      exact Nat.lt_succ_self _
  · right
    rw [toCome_post]
    exact List.mem_append_right _ (List.mem_singleton.mpr rfl)
  · intro p hp
    obtain ⟨h1, h2⟩ := h.returned p hp
    exact ⟨Nat.lt_succ_of_lt h1, h2.trans (Nat.le_add_right _ _)⟩
  · intro i w hi hw p hp hle
    rcases flight_post c k i w hi hw with hold | ⟨rfl, -⟩
    · exact h.flight i w hold hw p hp hle
    · have := (h.returned p hp).2
      change p.2 ≤ c.completed+_
      omega
  · intro id hid
    exact Nat.lt_succ_of_lt (h.waiting id hid)

theorem Sound.return (h : Sound c) (k : ℕ) : Sound (c.post k).return := by
  have hpost := h.post k
  have hcount := h.count
  have hnext : (c.post k).nextId-1 = c.nextId := rfl
  have hposted : (c.post k).posted = c.posted+(k+1) := rfl
  have hnew : ∀ p ∈ (c.post k).return.returned,
      p ∈ (c.post k).returned ∨ p = (c.nextId, c.posted+(k+1)) := by
    intro p hp
    rcases List.mem_append.mp hp with hp | hp
    · exact Or.inl hp
    · exact Or.inr (List.mem_singleton.mp hp)
  refine ⟨hpost.count, hpost.sorted, hpost.below, hpost.newest, ?_, ?_, ?_, hpost.waiting⟩
  · intro p hp
    rcases hnew p hp with hp | rfl
    · exact hpost.returned p hp
    · exact ⟨Nat.lt_succ_self _, le_refl _⟩
  · intro p hp w hw hle
    rcases hnew p hp with hp | rfl
    · exact hpost.recorded p hp w hw hle
    · have hlt := h.below w (List.mem_cons.mpr ((List.mem_cons.mp hw).imp_right
        (List.mem_append_left _)))
      simp only at hle
      omega
  · intro i w hi hw p hp hle
    rcases hnew p hp with hp | rfl
    · exact hpost.flight i w hi hw p hp hle
    · rcases flight_post c k i w hi hw with hold | ⟨rfl, -⟩
      · have hlt := h.below w.id (List.mem_cons_of_mem _ (mem_toCome i w hold hw))
        simp only at hle
        omega
      · change c.posted+(k+1) ≤ c.completed+_
        omega

theorem Sound.complete (h : Sound c) (hs : c.complete = some c') : Sound c' := by
  unfold Connection.complete at hs
  split at hs
  · cases hs
  next w flight hf =>
  obtain rfl := Option.some.inj hs
  have hcount := h.count
  have hto : Connection.toCome { c with
      flight := flight
      cq := if w.signaled then c.cq++[w.id] else c.cq
      completed := c.completed+1 } = c.toCome := by
    cases hw : w.signaled <;> simp [Connection.toCome, hf, hw]
  refine ⟨?_, hto ▸ h.sorted, hto ▸ h.below, hto ▸ h.newest, h.returned, ?_, ?_, h.waiting⟩
  · rw [hf, List.length_cons] at hcount
    simp only
    omega
  · intro p hp v hv hle
    simp only at hv ⊢
    by_cases hold : v ∈ c.ackdId::c.cq
    · exact (h.recorded p hp v hold hle).trans (Nat.le_succ _)
    · have hvw : w.signaled = true ∧ v = w.id := by
        cases hw : w.signaled
        · rw [hw] at hv
          exact absurd hv hold
        · rw [hw] at hv
          simp only [if_true, List.mem_cons, List.mem_append, List.not_mem_nil, or_false] at hv hold
          tauto
      have := h.flight 0 w (by rw [hf]; rfl) hvw.1 p hp (hvw.2 ▸ hle)
      omega
  · intro i v hi hv p hp hle
    have := h.flight (i+1) v (by rw [hf]; exact hi) hv p hp hle
    simp only
    omega

theorem Sound.poll (h : Sound c) : Sound c.pollSendCq ∧ c.ackdId ≤ c.pollSendCq.ackdId := by
  unfold Connection.pollSendCq
  split
  · exact ⟨h, le_refl _⟩
  next w cq hcq =>
  have hto : c.toCome = w::Connection.toCome { c with ackdId := w, cq := cq } := by
    simp [Connection.toCome, hcq]
  have hsorted := h.sorted
  have hbelow := h.below
  have hnewest := h.newest
  rw [hto] at hsorted hbelow hnewest
  obtain ⟨hlt, hsorted⟩ := List.pairwise_cons.mp hsorted
  refine ⟨⟨h.count, hsorted, fun v hv => hbelow v (List.mem_cons_of_mem _ hv), ?_, h.returned,
    ?_, h.flight, h.waiting⟩, (hlt w List.mem_cons_self).le⟩
  · rcases hnewest with he | hm
    · have := hlt w List.mem_cons_self
      have := hbelow w (List.mem_cons_of_mem _ List.mem_cons_self)
      omega
    · rcases List.mem_cons.mp hm with he | hm
      · exact Or.inl (by
          have := hbelow c.ackdId List.mem_cons_self
          simp only
          omega)
      · exact Or.inr hm
  · intro p hp v hv
    exact h.recorded p hp v (List.mem_cons_of_mem _ (by rw [hcq]; exact hv))

theorem Sound.waitFor (h : Sound c) (id : ℕ) (hid : id < c.nextId) :
    Sound { c with waiting := some id } :=
  ⟨h.count, h.sorted, h.below, h.newest, h.returned, h.recorded, h.flight,
    fun _ hw => Option.some.inj hw ▸ hid⟩

theorem Sound.idle (h : Sound c) : Sound { c with waiting := none } :=
  ⟨h.count, h.sorted, h.below, h.newest, h.returned, h.recorded, h.flight, fun _ hw => by cases hw⟩

theorem Sound.mem_lt (h : Sound c) (id : ℕ) (hid : id ∈ c.returned.map Prod.fst) :
    id < c.nextId := by
  obtain ⟨p, hp, rfl⟩ := List.mem_map.mp hid
  exact (h.returned p hp).1

theorem Sound.toward (h : Sound c) (id : ℕ) (hid : c.waiting = some id) (hlt : c.ackdId < id) :
    ∃ w ∈ c.toCome, id ≤ w := by
  have := h.waiting id hid
  rcases h.newest with he | hm
  · omega
  · exact ⟨_, hm, by omega⟩

theorem Sound.done (h : Sound c) (p : ℕ × ℕ) (hp : p ∈ c.returned) (hle : p.1 ≤ c.ackdId) :
    p.2 ≤ c.completed := h.recorded p hp c.ackdId List.mem_cons_self hle

end Operations

/-- A call of `Wait` returns once the requests it stands for have completed, the last
id only grows, a recorded id is not polled for, and a poll is never in vain for good. -/
structure WaitSound {σ ε : Type*} (step : σ → ε → Option σ) (conn : σ → Connection)
    (wait : ℕ → ε) (check : ε → Prop) (s : σ) : Prop where
  returns : ∀ p ∈ (conn s).returned, ∀ e t, check e → (conn s).waiting = some p.1 →
    step s e = some t → (conn t).waiting = none → p.2 ≤ (conn t).completed
  grows : ∀ e t, step s e = some t → (conn s).ackdId ≤ (conn t).ackdId
  recorded : ∀ id ∈ (conn s).returned.map Prod.fst, id ≤ (conn s).ackdId →
    (conn s).waiting = none → ∀ e, check e →
    ∃ t, run step [wait id, e] s = some t ∧ conn t = conn s
  polls : ∀ id, (conn s).waiting = some id → (conn s).ackdId < id →
    ∃ w ∈ (conn s).toCome, id ≤ w

namespace SendReceive

variable {c c' : Connection}

theorem step_sound (e : Event) (h : Sound c) (hs : step c e = some c') :
    Sound c' ∧ c.ackdId ≤ c'.ackdId := by
  cases e with
  | sendAsync =>
    simp only [step, Option.ite_none_right_eq_some] at hs
    obtain ⟨-, hs⟩ := hs
    obtain rfl := Option.some.inj hs
    exact ⟨h.return 0, le_refl _⟩
  | sendBatch size =>
    simp only [step, Option.ite_none_right_eq_some] at hs
    obtain ⟨-, hs⟩ := hs
    obtain rfl := Option.some.inj hs
    exact ⟨h.return _, le_refl _⟩
  | wait id =>
    simp only [step, Option.ite_none_right_eq_some] at hs
    obtain ⟨⟨-, hid⟩, hs⟩ := hs
    obtain rfl := Option.some.inj hs
    exact ⟨h.waitFor id (h.mem_lt id hid), le_refl _⟩
  | check =>
    simp only [step] at hs
    split at hs
    · cases hs
    · split at hs <;> obtain rfl := Option.some.inj hs
      · exact h.poll
      · exact ⟨h.idle, le_refl _⟩
  | complete =>
    refine ⟨h.complete hs, ?_⟩
    simp only [step, Connection.complete] at hs
    split at hs
    · cases hs
    · obtain rfl := Option.some.inj hs
      exact le_refl _

theorem run_sound (es : List Event) (hr : run step es SendWait.init = some c) : Sound c :=
  run_keeps step (fun _ _ => True) Sound (fun _ e _ h _ hs => (step_sound e h hs).1) es _ _
    init_sound (meets_of_forall _ _ es (fun _ _ _ => trivial) _) hr

theorem Sound.waitSound (h : Sound c) : WaitSound step (fun c => c) .wait (· = .check) c where
  returns := by
    rintro p hp e t rfl hw hs ht
    simp only [step, hw] at hs
    split at hs <;> obtain rfl := Option.some.inj hs
    · unfold Connection.pollSendCq at ht
      split at ht <;> simp [hw] at ht
    · exact h.done p hp (by omega)
  grows := fun e t hs => (step_sound e h hs).2
  recorded := by
    rintro id hid hle hw e rfl
    refine ⟨c, ?_, rfl⟩
    have hlt : ¬ c.ackdId < id := by omega
    simp only [run, step, hw, hid, hlt, and_self, if_true, if_false, Option.bind_some]
    rw [← hw]
  polls := h.toward

end SendReceive

namespace WriteAtomic

variable {s t : State}

theorem Sound.await (h : Sound s.conn) (caller : Caller) : Sound (s.await caller).conn :=
  (h.post 0).waitFor _ (Nat.lt_succ_self _)

theorem Sound.afterWait (h : Sound s.conn) (ring : KYM.WriteAtomic.Connection)
    (length : UInt32) : Sound (State.afterWait { s with ring := ring } length).conn := by
  unfold State.afterWait
  split
  · exact Sound.await (by exact h) _
  · exact (h.return 0).idle

theorem afterWait_ackdId (s : State) (ring : KYM.WriteAtomic.Connection) (length : UInt32) :
    (State.afterWait { s with ring := ring } length).conn.ackdId = s.conn.ackdId := by
  unfold State.afterWait
  split <;> rfl

theorem afterWait_completed (s : State) (ring : KYM.WriteAtomic.Connection) (length : UInt32) :
    (State.afterWait { s with ring := ring } length).conn.completed = s.conn.completed := by
  unfold State.afterWait
  split <;> rfl

theorem step_sound (e : Event) (h : Sound s.conn) (hs : step s e = some t) :
    Sound t.conn ∧ s.conn.ackdId ≤ t.conn.ackdId := by
  cases e with
  | sendAsync length =>
    simp only [step] at hs
    split at hs
    · cases hs
    split at hs <;> obtain rfl := Option.some.inj hs
    · exact ⟨h, le_refl _⟩
    · exact ⟨Sound.await h _, le_refl _⟩
  | wait id =>
    simp only [step, Option.ite_none_right_eq_some] at hs
    obtain ⟨⟨-, hid⟩, hs⟩ := hs
    obtain rfl := Option.some.inj hs
    exact ⟨h.waitFor id (h.mem_lt id hid), le_refl _⟩
  | check value =>
    simp only [step] at hs
    split at hs
    · cases hs
    split at hs
    · obtain rfl := Option.some.inj hs
      exact h.poll
    · split at hs <;> obtain rfl := Option.some.inj hs
      · exact ⟨h.idle, le_refl _⟩
      · exact ⟨Sound.afterWait h _ _, (afterWait_ackdId s _ _).ge⟩
      · exact ⟨Sound.afterWait h _ _, (afterWait_ackdId s _ _).ge⟩
  | complete =>
    obtain ⟨conn, hc, rfl⟩ := Option.map_eq_some_iff.mp hs
    exact SendReceive.step_sound .complete h hc

theorem run_sound (rbufVaddr : UInt64) (rbufSize : UInt32) (es : List Event)
    (hr : run step es (init rbufVaddr rbufSize) = some t) : Sound t.conn :=
  run_keeps step (fun _ _ => True) (fun s => Sound s.conn)
    (fun _ e _ h _ hs => (step_sound e h hs).1) es _ _ init_sound
    (meets_of_forall _ _ es (fun _ _ _ => trivial) _) hr

theorem Sound.waitSound (h : Sound s.conn) :
    WaitSound step State.conn .wait (fun e => ∃ value, e = .check value) s where
  returns := by
    rintro p hp e t ⟨value, rfl⟩ hw hs ht
    simp only [step, hw] at hs
    split at hs
    · obtain rfl := Option.some.inj hs
      simp only [Connection.pollSendCq] at ht
      split at ht <;> simp [hw] at ht
    · have hdone : p.2 ≤ s.conn.completed := h.done p hp (by omega)
      split at hs <;> obtain rfl := Option.some.inj hs
      · exact hdone
      · exact hdone.trans (afterWait_completed s _ _).ge
      · exact hdone.trans (afterWait_completed s _ _).ge
  grows := fun e t hs => (step_sound e h hs).2
  recorded := by
    rintro id hid hle hw e ⟨value, rfl⟩
    have hlt : ¬ s.conn.ackdId < id := by omega
    refine ⟨{ s with caller := .application }, ?_, rfl⟩
    simp only [run, step, hw, hid, hlt, and_self, if_true, if_false, Option.bind_some]
    rw [← hw]
  polls := h.toward

end WriteAtomic

/-- In every run of either connection, `Wait` is sound. -/
theorem wait_sound :
    (∀ es c, run SendReceive.step es init = some c →
      WaitSound SendReceive.step (fun c => c) .wait (· = .check) c) ∧
    (∀ rbufVaddr rbufSize es s,
      run WriteAtomic.step es (WriteAtomic.init rbufVaddr rbufSize) = some s →
      WaitSound WriteAtomic.step WriteAtomic.State.conn .wait
        (fun e => ∃ value, e = .check value) s) :=
  ⟨fun es _ hr => SendReceive.Sound.waitSound (SendReceive.run_sound es hr),
    fun rbufVaddr rbufSize es _ hr =>
      WriteAtomic.Sound.waitSound (WriteAtomic.run_sound rbufVaddr rbufSize es hr)⟩

def batchTrace : List SendReceive.Event :=
  [.sendAsync, .sendBatch 3, .complete, .complete, .wait 2, .check, .complete, .check, .complete,
    .check, .check, .wait 1]

def headTrace : List WriteAtomic.Event :=
  [.sendAsync 60, .complete, .check 0, .check 0, .sendAsync 60, .complete, .complete, .check 0,
    .check 0, .check 60, .complete, .check 0, .check 60, .wait 2]

theorem wait_sound_older :
    (∃ c, run SendReceive.step batchTrace init = some c ∧ c.waiting = some 1 ∧ c.ackdId = 2 ∧
      WaitSound SendReceive.step (fun c => c) .wait (· = .check) c) ∧
    (∃ s, run WriteAtomic.step headTrace (WriteAtomic.init 0 100) = some s ∧
      s.conn.waiting = some 2 ∧ s.conn.ackdId = 4 ∧
      WaitSound WriteAtomic.step WriteAtomic.State.conn .wait
        (fun e => ∃ value, e = .check value) s) := by
  constructor
  · have hr := run_get SendReceive.step batchTrace init (by decide +kernel)
    exact ⟨_, hr, by decide +kernel, by decide +kernel, wait_sound.1 _ _ hr⟩
  · have hr := run_get WriteAtomic.step headTrace (WriteAtomic.init 0 100) (by decide +kernel)
    exact ⟨_, hr, by decide +kernel, by decide +kernel, wait_sound.2 _ _ _ _ hr⟩

end KYM.SendWait
