import KnowYourMemory.Run
import KnowYourMemory.DirectWrite
import KnowYourMemory.CompletionQueue

/-!
# Both directions of one direct write connection

Messages and freed buffers are written over the same queue pair. `Free` polls away
every completion that is there before it writes the entry of the buffer, whose number
is the context of the region; `Wait` records the last number it has polled.
-/

set_option autoImplicit false

namespace KYM.DirectDuplex
open KYM.Run KYM.RingBuffer KYM.MagicMemory KYM.CompletionQueue
open KYM.DirectWrite (DirectWriteConnection DirectWriteReceiveBuffer newConnection filled
  getLengthOff)

/-- One end of a connection. `issued` are the sends so far; the number of a send is the
count that includes it, as long as `next_id_` does not wrap around. `setup` are the
buffers that the setup has still to free. -/
structure Connection where
  conn : DirectWriteConnection
  bufs : UInt64 → ℕ → UInt8
  setup : List KeyedRegion
  queue : SendQueue
  ackdId : ℕ
  issued : ℕ
  held : List KeyedRegion

def init (nrBuffers : UInt64) (bufSize : UInt32) (bufs : List (UInt64 × UInt32)) :
    Connection where
  conn := newConnection nrBuffers bufSize
  bufs := fun _ _ => 0
  setup := bufs.map (fun b => ⟨⟨0, b.1, 0⟩, b.2⟩)
  queue := .empty
  ackdId := 0
  issued := 0
  held := []

/-- `announce` and `arrive` are the writes of the peer, of an entry and of a message. -/
inductive Event where
  | setup
  | sendAsync (payload : List UInt8)
  | wait (id : ℕ)
  | receive
  | free (i : ℕ)
  | announce (i : ℕ) (buf : DirectWriteReceiveBuffer)
  | arrive (addr : UInt64) (bytes : List UInt8)
  | complete
  deriving DecidableEq, Repr

def sendAsync (c : Connection) (payload : List UInt8) : Option Connection :=
  match DirectWrite.sendAsync c.conn (filled c.conn.bufSize payload) with
  | none => none
  | some (_, conn) =>
    some { c with conn := conn, queue := c.queue.post (c.issued+1), issued := c.issued+1 }

def wait (c : Connection) (id : ℕ) : Option Connection :=
  match c.queue.wait last id c.ackdId with
  | none => none
  | some (ackd, q) => some { c with ackdId := ackd, queue := q }

def free (c : Connection) (region : KeyedRegion) : Connection :=
  { c with
    conn := (DirectWrite.free c.conn region).2
    bufs := Function.update c.bufs region.addr
      (put (c.bufs region.addr) (getLengthOff c.conn.bufSize) (putU32 0))
    queue := c.queue.drain.post region.context.toNat }

def step (c : Connection) : Event → Option Connection
  | .setup =>
    match c.setup with
    | [] => none
    | region::rest => some (free { c with setup := rest } region)
  | .sendAsync payload => if c.setup.isEmpty then sendAsync c payload else none
  | .wait id => if c.setup.isEmpty then wait c id else none
  | .receive =>
    match c.setup, DirectWrite.receive c.conn c.bufs with
    | [], some (region, conn) => some { c with conn := conn, held := c.held++[region] }
    | _, _ => none
  | .free i =>
    match c.setup, c.held[i]? with
    | [], some region => some (free { c with held := c.held.eraseIdx i } region)
    | _, _ => none
  | .announce i buf =>
    some { c with conn := { c.conn with targetBuf := Function.update c.conn.targetBuf i buf } }
  | .arrive addr bytes =>
    some { c with bufs := Function.update c.bufs addr (put (c.bufs addr) 0 bytes) }
  | .complete =>
    match c.queue.complete with
    | none => none
    | some q => some { c with queue := q }

/-- No buffer is freed while the completion of the last send is there and not polled. -/
def Undrained (c : Connection) : Event → Prop
  | .free _ => c.issued ∉ c.queue.wrs.take c.queue.completed ∨ c.issued = 0
  | _ => True

instance (c : Connection) : ∀ e : Event, Decidable (Undrained c e)
  | .free _ => inferInstanceAs (Decidable (_ ∨ _))
  | .setup | .sendAsync _ | .wait _ | .receive | .announce _ _ | .arrive _ _ | .complete =>
    isTrue trivial

/-- For every id that was returned the completion is recorded or still to be polled,
and `Wait` returns. -/
def Awaited (c : Connection) : Prop :=
  ∀ id, 1 ≤ id → id ≤ c.issued →
    (id ≤ c.ackdId ∨ ∃ w ∈ c.queue.wrs, id ≤ w) ∧ ∃ c', step c (.wait id) = some c'

structure LastOwed (c : Connection) : Prop where
  setup : c.setup ≠ [] → c.issued = 0
  owed : c.queue.Owed c.issued c.ackdId

section Steps

variable {c c' : Connection}

theorem free_owed (h : c.queue.Owed c.issued c.ackdId) (region : KeyedRegion)
    (hd : c.issued ∉ c.queue.wrs.take c.queue.completed ∨ c.issued = 0) :
    (free c region).queue.Owed c.issued c.ackdId := by
  rcases hd with hd | h0
  · exact (h.drain hd).post _
  · exact Or.inl (by omega)

theorem lastOwed_sendAsync (payload : List UInt8)
    (hs : step c (.sendAsync payload) = some c') : LastOwed c' := by
  simp only [step, sendAsync] at hs
  split at hs
  · next he =>
    split at hs
    · cases hs
    · obtain rfl := Option.some.inj hs
      refine ⟨fun hne => absurd (List.isEmpty_iff.mp he) hne, SendQueue.owed_post _ _ _⟩
  · cases hs

theorem LastOwed.wait (h : LastOwed c) (id : ℕ) (hs : step c (.wait id) = some c') :
    LastOwed c' := by
  simp only [step, DirectDuplex.wait] at hs
  split at hs
  · cases hw : c.queue.wait last id c.ackdId with
    | none => simp [hw] at hs
    | some p =>
      simp only [hw] at hs
      obtain rfl := Option.some.inj hs
      exact ⟨h.setup, h.owed.wait le_last hw⟩
  · cases hs

theorem LastOwed.step (h : LastOwed c) (e : Event) (he : Undrained c e)
    (hs : step c e = some c') : LastOwed c' := by
  cases e with
  | setup =>
    simp only [DirectDuplex.step] at hs
    cases hset : c.setup with
    | nil => simp [hset] at hs
    | cons region rest =>
      have h0 := h.setup (by simp [hset])
      simp only [hset] at hs
      obtain rfl := Option.some.inj hs
      exact ⟨fun _ => h0, free_owed (c := { c with setup := rest }) h.owed region (Or.inr h0)⟩
  | sendAsync payload => exact lastOwed_sendAsync payload hs
  | wait id => exact h.wait id hs
  | receive =>
    simp only [DirectDuplex.step] at hs
    split at hs
    · obtain rfl := Option.some.inj hs
      exact ⟨h.setup, h.owed⟩
    · cases hs
  | free i =>
    simp only [DirectDuplex.step] at hs
    split at hs
    · next hset _ =>
      obtain rfl := Option.some.inj hs
      exact ⟨h.setup, free_owed (c := { c with held := c.held.eraseIdx i }) h.owed _ he⟩
    · cases hs
  | announce i buf =>
    obtain rfl := Option.some.inj hs
    exact ⟨h.setup, h.owed⟩
  | arrive addr bytes =>
    obtain rfl := Option.some.inj hs
    exact ⟨h.setup, h.owed⟩
  | complete =>
    simp only [DirectDuplex.step] at hs
    cases hc : c.queue.complete with
    | none => simp [hc] at hs
    | some q =>
      simp only [hc] at hs
      obtain rfl := Option.some.inj hs
      exact ⟨h.setup, h.owed.complete hc⟩

theorem LastOwed.awaited (h : LastOwed c) : Awaited c := by
  intro id h1 hle
  have hset : c.setup = [] := by
    by_contra hne
    have := h.setup hne
    omega
  constructor
  · rcases h.owed with hr | hm
    · exact Or.inl (hle.trans hr)
    · exact Or.inr ⟨_, hm, hle⟩
  · obtain ⟨b, q, hw⟩ := h.owed.wait_returns le_last hle
    refine ⟨{ c with ackdId := b, queue := q }, ?_⟩
    simp only [DirectDuplex.step, hset, List.isEmpty_nil, if_true, DirectDuplex.wait, hw]

end Steps

/-- A direct write connection loses no completion that `Wait` needs in the runs where
no `Free` drains the completion of the last send. -/
theorem drains_keep_completions (nrBuffers : UInt64) (bufSize : UInt32)
    (bufs : List (UInt64 × UInt32)) (es : List Event) (c : Connection)
    (hm : Meets step Undrained es (init nrBuffers bufSize bufs))
    (hr : run step es (init nrBuffers bufSize bufs) = some c) : Awaited c :=
  (run_keeps step Undrained LastOwed (fun _ e _ h he hs => h.step e he hs) es _ c
    ⟨fun _ => rfl, Or.inl (le_refl _)⟩ hm hr).awaited

/-- Both ends with two buffers of eight bytes: the peer has announced its buffers, and
a message of one byte is in buffer 4096. -/
def begin : List Event :=
  [.setup, .setup, .announce 1 ⟨8192, 5, true⟩, .announce 0 ⟨8200, 5, true⟩,
    .arrive 4096 [7, 0, 0, 0, 1, 0, 0, 0]]

def keptTrace : List Event :=
  begin++[.sendAsync [1], .complete, .receive, .free 0, .complete, .wait 1]

theorem drains_keep_completions_free : ∃ c,
    run step keptTrace (init 2 8 [(4096, 3), (4104, 3)]) = some c ∧ Awaited c := by
  have hr := run_get step keptTrace (init 2 8 [(4096, 3), (4104, 3)]) (by decide +kernel)
  exact ⟨_, hr, drains_keep_completions 2 8 [(4096, 3), (4104, 3)] keptTrace _
    (by decide +kernel) hr⟩

def drainedTrace : List Event :=
  begin++[.sendAsync [1], .complete, .complete, .complete, .receive, .free 0]

theorem completion_drained : ∃ c,
    run step drainedTrace (init 2 8 [(4096, 3), (4104, 3)]) = some c ∧ c.issued = 1 ∧
      step c (.wait 1) = none ∧ ¬Awaited c := by
  have hr := run_get step drainedTrace (init 2 8 [(4096, 3), (4104, 3)]) (by decide +kernel)
  have hi : ((run step drainedTrace (init 2 8 [(4096, 3), (4104, 3)])).get
      (by decide +kernel)).issued = 1 := by decide +kernel
  have hw : (step ((run step drainedTrace (init 2 8 [(4096, 3), (4104, 3)])).get
      (by decide +kernel)) (.wait 1)).isNone = true := by decide +kernel
  rw [Option.isNone_iff_eq_none] at hw
  refine ⟨_, hr, hi, hw, ?_⟩
  intro h
  obtain ⟨-, c', hc⟩ := h 1 (le_refl 1) hi.ge
  rw [hw] at hc
  cases hc

end KYM.DirectDuplex
