import KnowYourMemory.Run
import Mathlib.Data.List.Basic
import Mathlib.Data.List.Pairwise
import Mathlib.Order.Nat
import Mathlib.Data.Nat.Digits.Defs

/-!
# Reading the head

`Get` of the acknowledgement receiver posts a read of the remote head with request number 0
and polls the send queue until a completion carries that number. The completions of earlier
sends are in front of it; their numbers are a 64-bit counter, and the loop keeps what it
polls in an `int`. Heads are positions in the stream.
-/

set_option autoImplicit false

namespace KYM.HeadRead
open KYM.Run

structure Wr where
  wrId : UInt64
  get : Option ℕ
  deriving DecidableEq, Repr

structure Wc where
  wrId : UInt64
  get : Option ℕ
  fetched : ℕ
  deriving DecidableEq, Repr

/-- A `Get` that returned: the numbers that were in the queue when it was called, the
completion it stopped at, the head, and the numbers that were left in the queue. -/
structure Result where
  serial : ℕ
  pending : List UInt64
  polled : Wc
  head : ℕ
  left : List UInt64
  deriving DecidableEq, Repr

inductive Caller where
  | get (pending : List UInt64)
  | wait (id : UInt64)
  deriving DecidableEq, Repr

/-- A sender with its acknowledgement receiver. `remote` is the head that the peer
publishes. -/
structure Connection where
  nextId : UInt64
  ackdId : UInt64
  sendQueue : List Wr
  sendCq : List Wc
  remote : ℕ
  currOffset : ℕ
  caller : Option Caller
  gets : List Result
  deriving DecidableEq, Repr

def init : Connection := ⟨1, 0, [], [], 0, 0, none, []⟩

inductive Event where
  | ack (n : ℕ)
  | send
  | complete
  | get
  | wait (id : UInt64)
  | poll
  deriving DecidableEq, Repr

/-- `int id = wr_id`. -/
def narrow (wrId : UInt64) : Int32 := wrId.toUInt32.toInt32

def Connection.ids (c : Connection) : List UInt64 :=
  c.sendCq.map Wc.wrId++c.sendQueue.map Wr.wrId

def Connection.post (c : Connection) (wrId : UInt64) (get : Option ℕ) : Connection :=
  { c with sendQueue := c.sendQueue++[⟨wrId, get⟩] }

def Connection.complete (c : Connection) : Option Connection :=
  match c.sendQueue with
  | [] => none
  | w::ws =>
    some { c with
      sendQueue := ws
      sendCq := c.sendCq++[⟨w.wrId, w.get, c.remote⟩]
      currOffset := if w.get.isSome then c.remote else c.currOffset }

def Connection.pollGet (c : Connection) (pending : List UInt64) : Option Connection :=
  match c.sendCq with
  | [] => none
  | w::ws =>
    if narrow w.wrId = 0 then
      some { c with
        sendCq := ws
        caller := none
        gets := c.gets++[⟨c.gets.length, pending, w, c.currOffset,
          ws.map Wc.wrId++c.sendQueue.map Wr.wrId⟩] }
    else some { c with sendCq := ws }

def Connection.pollWait (c : Connection) (id : UInt64) : Option Connection :=
  match c.sendCq with
  | [] => none
  | w::ws =>
    some { c with
      sendCq := ws
      ackdId := w.wrId
      caller := if w.wrId < id then some (.wait id) else none }

def step (c : Connection) : Event → Option Connection
  | .ack n => some { c with remote := c.remote+n }
  | .complete => c.complete
  | .send =>
    if c.caller = none then some ({ c with nextId := c.nextId+1 }.post c.nextId none) else none
  | .get =>
    if c.caller = none then
      some ({ c with caller := some (.get c.ids) }.post 0 (some c.gets.length))
    else none
  | .wait id =>
    if c.caller = none then
      some { c with caller := if c.ackdId < id then some (.wait id) else none }
    else none
  | .poll =>
    match c.caller with
    | none => none
    | some (.get pending) => c.pollGet pending
    | some (.wait id) => c.pollWait id

/-- The call stopped at the completion of its own read, returned what that read fetched,
and left no completion with the number of a read. -/
def Result.Own (r : Result) : Prop :=
  r.polled.get = some r.serial ∧ r.head = r.polled.fetched ∧ 0 ∉ r.left

/-- No number in the queue narrows to the number of a read. -/
def Result.Clear (r : Result) : Prop := ∀ w ∈ r.pending, w.toNat%2^32 ≠ 0

theorem narrow_iff (wrId : UInt64) : narrow wrId = 0 ↔ wrId.toNat%2^32 = 0 := by
  have hz : narrow wrId = 0 ↔ wrId.toUInt32 = 0 := by
    constructor
    · intro h
      have hback : wrId.toUInt32 = Int32.toUInt32 0 := by
        simpa [narrow] using congrArg Int32.toUInt32 h
      exact hback
    · intro h
      rw [narrow, h]
      rfl
  rw [hz, ← UInt32.toNat_inj, UInt64.toNat_toUInt32]
  rfl

def Older (k : ℕ) (gets : List (Option ℕ)) : Prop := ∀ s, some s ∈ gets → s < k

structure Reading (c : Connection) (pending seen : List UInt64) : Prop where
  foreign : ∀ w ∈ seen, narrow w ≠ 0
  own : (∃ vs, c.sendQueue = vs++[⟨0, some c.gets.length⟩] ∧
      pending = seen++c.sendCq.map Wc.wrId++vs.map Wr.wrId ∧
      Older c.gets.length (c.sendCq.map Wc.get++vs.map Wr.get)) ∨
    (c.sendQueue = [] ∧ ∃ ws, c.sendCq = ws++[⟨0, some c.gets.length, c.currOffset⟩] ∧
      pending = seen++ws.map Wc.wrId ∧ Older c.gets.length (ws.map Wc.get))

structure Sound (c : Connection) : Prop where
  heads : (c.gets.map Result.head).Pairwise (· ≤ ·)
  bound : ∀ r ∈ c.gets, r.head ≤ c.currOffset
  local_le : c.currOffset ≤ c.remote
  results : ∀ r ∈ c.gets, r.Own ↔ r.Clear
  idle : (∀ pending, c.caller ≠ some (.get pending)) →
    Older c.gets.length (c.sendCq.map Wc.get++c.sendQueue.map Wr.get)
  reading : ∀ pending, c.caller = some (.get pending) → ∃ seen, Reading c pending seen

section Steps

variable {c d : Connection}

theorem Older.mono {k k' : ℕ} {xs ys : List (Option ℕ)} (h : Older k xs) (hk : k ≤ k')
    (hs : ys ⊆ xs) : Older k' ys := fun s hy => (h s (hs hy)).trans_le hk

theorem init_sound : Sound init where
  heads := List.Pairwise.nil
  bound := by simp [init]
  local_le := le_refl 0
  results := by simp [init]
  idle := by simp [init, Older]
  reading := by simp [init]

theorem Sound.complete (h : Sound c) (hs : c.complete = some d) : Sound d := by
  unfold Connection.complete at hs
  cases hq : c.sendQueue with
  | nil => simp [hq] at hs
  | cons w ws =>
    simp only [hq, Option.some.injEq] at hs
    subst hs
    have hle : c.currOffset ≤ if w.get.isSome then c.remote else c.currOffset := by
      split
      · exact h.local_le
      · exact le_refl _
    refine ⟨h.heads, fun r hr => (h.bound r hr).trans hle, ?_, h.results, ?_, ?_⟩
    · simp only
      split
      · exact le_refl _
      · exact h.local_le
    · intro hidle
      refine (h.idle hidle).mono (le_refl _) ?_
      intro x hx
      simpa [hq, or_assoc] using hx
    · intro pending hp
      obtain ⟨seen, hseen, ⟨vs, hvs, hpend, hold⟩ | ⟨hnil, -⟩⟩ := h.reading pending hp
      · cases vs with
        | nil =>
          obtain ⟨rfl, rfl⟩ := List.cons.inj (hq.symm.trans hvs)
          refine ⟨seen, hseen, Or.inr ⟨rfl, c.sendCq, ?_, by simpa using hpend, by simpa using hold⟩⟩
          simp
        | cons v vs =>
          obtain ⟨rfl, rfl⟩ := List.cons.inj (hq.symm.trans hvs)
          exact ⟨seen, hseen, Or.inl ⟨vs, rfl, by simpa using hpend, by simpa using hold⟩⟩
      · rw [hq] at hnil
        cases hnil

theorem Result.own_iff_of_left {r : Result} (hz : narrow r.polled.wrId = 0)
    (hmem : r.polled.wrId ∈ r.pending) (hleft : 0 ∈ r.left) : r.Own ↔ r.Clear :=
  ⟨fun ho => absurd hleft ho.2.2, fun hc => absurd ((narrow_iff _).mp hz) (hc _ hmem)⟩

theorem Sound.record (h : Sound c) (ws : List Wc) (r : Result) (hr : r.head = c.currOffset)
    (hiff : r.Own ↔ r.Clear)
    (hold : Older (c.gets.length+1) (ws.map Wc.get++c.sendQueue.map Wr.get)) :
    Sound { c with sendCq := ws, caller := none, gets := c.gets++[r] } := by
  refine ⟨?_, ?_, h.local_le, ?_, fun _ => by simpa using hold, by simp⟩
  · rw [List.map_append, List.pairwise_append]
    refine ⟨h.heads, List.pairwise_singleton _ _, ?_⟩
    simp only [List.map_cons, List.map_nil, List.mem_singleton, forall_eq, hr]
    intro x hx
    obtain ⟨r', hr', rfl⟩ := List.mem_map.mp hx
    exact h.bound r' hr'
  · intro r' hr'
    rcases List.mem_append.mp hr' with hr' | hr'
    · exact h.bound r' hr'
    · rw [List.mem_singleton.mp hr']
      exact hr.le
  · intro r' hr'
    rcases List.mem_append.mp hr' with hr' | hr'
    · exact h.results r' hr'
    · rw [List.mem_singleton.mp hr']
      exact hiff

theorem Sound.stop (h : Sound c) {pending seen : List UInt64} (hread : Reading c pending seen)
    {w : Wc} {ws : List Wc} (hq : c.sendCq = w::ws) (hz : narrow w.wrId = 0) :
    Sound { c with
      sendCq := ws
      caller := none
      gets := c.gets++[⟨c.gets.length, pending, w, c.currOffset,
        ws.map Wc.wrId++c.sendQueue.map Wr.wrId⟩] } := by
  obtain ⟨hseen, ⟨vs, hvs, hpend, hold⟩ | ⟨hnil, ws', hcq, hpend, hold⟩⟩ := hread
  · refine h.record ws _ rfl (Result.own_iff_of_left hz (by simp [hpend, hq]) (by simp [hvs])) ?_
    intro s hs
    simp only [hvs, List.map_append, List.map_cons, List.map_nil, List.mem_append,
      List.mem_singleton, Option.some.injEq] at hs
    rcases hs with hs | hs | rfl
    · exact (hold s (by simp [hq, hs])).trans (Nat.lt_succ_self _)
    · exact (hold s (by simp [hs])).trans (Nat.lt_succ_self _)
    · exact Nat.lt_succ_self _
  · rw [hq] at hcq
    cases ws' with
    | nil =>
      obtain ⟨rfl, rfl⟩ := List.cons.inj hcq
      refine h.record [] _ rfl ⟨fun _ x hx => ?_, fun _ => ⟨rfl, rfl, by simp [hnil]⟩⟩
        (by simp [hnil, Older])
      rw [Ne, ← narrow_iff]
      exact hseen x (by simpa [hpend] using hx)
    | cons v ws' =>
      obtain ⟨rfl, rfl⟩ := List.cons.inj hcq
      refine h.record _ _ rfl (Result.own_iff_of_left hz (by simp [hpend]) (by simp)) ?_
      intro s hs
      simp only [hnil, List.append_eq, List.map_append, List.mem_append, List.map_cons,
        List.map_nil, List.mem_singleton, Option.some.injEq, List.not_mem_nil, or_false] at hs
      rcases hs with hs | rfl
      · exact (hold s (by simp [hs])).trans (Nat.lt_succ_self _)
      · exact Nat.lt_succ_self _

theorem Reading.skip {pending seen : List UInt64} (h : Reading c pending seen) {w : Wc}
    {ws : List Wc} (hq : c.sendCq = w::ws) (hz : narrow w.wrId ≠ 0) :
    Reading { c with sendCq := ws } pending (seen++[w.wrId]) := by
  refine ⟨fun x hx => ?_, ?_⟩
  · rcases List.mem_append.mp hx with hx | hx
    · exact h.foreign x hx
    · rw [List.mem_singleton.mp hx]
      exact hz
  rcases h.own with ⟨vs, hvs, hpend, hold⟩ | ⟨hnil, ws', hcq, hpend, hold⟩
  · refine Or.inl ⟨vs, hvs, by simp [hpend, hq], hold.mono (le_refl _) ?_⟩
    intro x hx
    simp only [hq, List.map_cons, List.cons_append, List.mem_cons]
    exact Or.inr hx
  · rw [hq] at hcq
    cases ws' with
    | nil =>
      obtain ⟨rfl, -⟩ := List.cons.inj hcq
      exact absurd (show narrow 0 = 0 by decide) hz
    | cons v ws' =>
      obtain ⟨rfl, rfl⟩ := List.cons.inj hcq
      refine Or.inr ⟨hnil, ws', rfl, by simp [hpend], hold.mono (le_refl _) ?_⟩
      exact List.subset_cons_self _ _

theorem Sound.pollGet (h : Sound c) (pending : List UInt64) (hp : c.caller = some (.get pending))
    (hs : c.pollGet pending = some d) : Sound d := by
  obtain ⟨seen, hread⟩ := h.reading pending hp
  unfold Connection.pollGet at hs
  cases hq : c.sendCq with
  | nil => simp [hq] at hs
  | cons w ws =>
    simp only [hq] at hs
    split at hs
    · next hz =>
      obtain rfl := Option.some.inj hs
      exact h.stop hread hq hz
    · next hz =>
      obtain rfl := Option.some.inj hs
      refine ⟨h.heads, h.bound, h.local_le, h.results, fun hi => absurd hp (hi pending), ?_⟩
      intro pending' hp'
      obtain rfl := Caller.get.inj (Option.some.inj (hp.symm.trans hp'))
      exact ⟨_, hread.skip hq hz⟩

theorem Sound.pollWait (h : Sound c) (id : UInt64) (hp : c.caller = some (.wait id))
    (hs : c.pollWait id = some d) : Sound d := by
  unfold Connection.pollWait at hs
  cases hq : c.sendCq with
  | nil => simp [hq] at hs
  | cons w ws =>
    simp only [hq, Option.some.injEq] at hs
    subst hs
    refine ⟨h.heads, h.bound, h.local_le, h.results, fun _ => ?_, fun pending hg => ?_⟩
    · refine (h.idle (by simp [hp])).mono (le_refl _) ?_
      intro x hx
      simp only [hq, List.map_cons, List.cons_append, List.mem_cons]
      exact Or.inr hx
    · simp only at hg
      split at hg <;> cases hg

theorem Sound.send (h : Sound c) (hs : step c .send = some d) : Sound d := by
  simp only [HeadRead.step] at hs
  split at hs
  · next hc =>
    obtain rfl := Option.some.inj hs
    refine ⟨h.heads, h.bound, h.local_le, h.results, fun hi => ?_, fun pending hp => ?_⟩
    · intro s hs
      simp only [Connection.post, List.map_append, List.map_cons, List.map_nil, List.mem_append,
        List.mem_singleton, reduceCtorEq, or_false] at hs
      exact h.idle hi s (List.mem_append.mpr hs)
    · cases hc.symm.trans hp
  · cases hs

theorem Sound.get (h : Sound c) (hs : step c .get = some d) : Sound d := by
  simp only [HeadRead.step] at hs
  split at hs
  · next hc =>
    obtain rfl := Option.some.inj hs
    refine ⟨h.heads, h.bound, h.local_le, h.results, fun hi => absurd rfl (hi _), ?_⟩
    intro pending hp
    obtain rfl := Caller.get.inj (Option.some.inj hp)
    exact ⟨[], by simp, Or.inl ⟨c.sendQueue, rfl, rfl, h.idle (by simp [hc])⟩⟩
  · cases hs

theorem Sound.wait (h : Sound c) (id : UInt64) (hs : step c (.wait id) = some d) : Sound d := by
  simp only [HeadRead.step] at hs
  split at hs
  · next hc =>
    obtain rfl := Option.some.inj hs
    refine ⟨h.heads, h.bound, h.local_le, h.results, fun _ => h.idle (by simp [hc]),
      fun pending hp => ?_⟩
    simp only at hp
    split at hp <;> cases hp
  · cases hs

theorem Sound.step (h : Sound c) (e : Event) (hs : step c e = some d) : Sound d := by
  cases e with
  | ack n =>
    obtain rfl := Option.some.inj hs
    refine ⟨h.heads, h.bound, h.local_le.trans (Nat.le_add_right _ _), h.results, h.idle,
      fun pending hp => ?_⟩
    obtain ⟨seen, hseen, hown⟩ := h.reading pending hp
    exact ⟨seen, hseen, hown⟩
  | complete => exact h.complete hs
  | send => exact h.send hs
  | get => exact h.get hs
  | wait id => exact h.wait id hs
  | poll =>
    simp only [HeadRead.step] at hs
    split at hs
    · cases hs
    · next pending hp => exact h.pollGet pending hp hs
    · next id hp => exact h.pollWait id hp hs

end Steps

/-- In every run the heads that were returned never go backwards, and a `Get` returns what
its own read fetched, and leaves no read behind, exactly when no number that was in the
queue is a multiple of `2^32`. -/
theorem head_read_own (es : List Event) (c : Connection) (hr : run step es init = some c) :
    (c.gets.map Result.head).Pairwise (· ≤ ·) ∧ ∀ r ∈ c.gets, r.Own ↔ r.Clear := by
  have h : Sound c := run_keeps step (fun _ _ => True) Sound (fun _ e _ h _ hs => h.step e hs)
    es init c init_sound (meets_of_forall _ _ es (fun _ _ _ => trivial) init) hr
  exact ⟨h.heads, h.results⟩

def foreignTrace : List Event :=
  [.send, .send, .complete, .get, .ack 3, .complete, .poll, .complete, .ack 4, .poll, .poll,
    .get, .complete, .poll]

theorem head_read_own_foreign : ∃ c, run step foreignTrace init = some c ∧
    c.gets.map Result.head = [3, 7] ∧ (c.gets.map Result.head).Pairwise (· ≤ ·) ∧
    ∀ r ∈ c.gets, r.Own ↔ r.Clear := by
  have hc : (run step foreignTrace init).isSome := by decide
  exact ⟨_, run_get _ _ _ hc, rfl, head_read_own foreignTrace _ (run_get _ _ _ hc)⟩

def sends : ℕ → List Event
  | 0 => []
  | n+1 => sends n++[.send, .complete, .wait (UInt64.ofNat (n+1)), .poll]

def after (n : ℕ) : Connection :=
  ⟨UInt64.ofNat (n+1), UInt64.ofNat n, [], [], 0, 0, none, []⟩

theorem run_sends (n : ℕ) (hn : n < 2^64) : run step (sends n) init = some (after n) := by
  induction n with
  | zero => rfl
  | succ n ih =>
    have hlt : UInt64.ofNat n < UInt64.ofNat n+1 := by
      rw [← UInt64.ofNat_one, ← UInt64.ofNat_add, UInt64.lt_iff_toNat_lt,
        UInt64.toNat_ofNat_of_lt' (by simp only [UInt64.size]; omega),
        UInt64.toNat_ofNat_of_lt' (by simp only [UInt64.size]; omega)]
      exact Nat.lt_succ_self n
    rw [sends, run_append, ih (by omega)]
    simp [run, step, after, Connection.post, Connection.complete, Connection.pollWait, hlt]

/-- Behind `2^32-1` sends: another one, a head that moves, and a `Get` that takes the send
for its read. The next `Wait` takes the read for a send. -/
def strayTrace : List Event :=
  [.send, .complete, .ack 5, .get, .poll, .complete, .wait 4294967296, .poll]

theorem stray_head_read : ∃ c, run step (sends (2^32-1)++strayTrace) init = some c ∧
    (∃ r ∈ c.gets, r.head = 0 ∧ r.left = [0] ∧ ¬r.Own) ∧
    c.ackdId = 0 ∧ c.caller = some (.wait 4294967296) ∧ c.ids = [] := by
  have hc : (run step strayTrace (after (2^32-1))).isSome := by decide
  refine ⟨(run step strayTrace (after (2^32-1))).get hc, ?_, ⟨_, List.mem_cons_self, ?_⟩, ?_⟩
  · rw [run_append, run_sends _ (by decide)]
    exact run_get _ _ _ hc
  · exact ⟨rfl, rfl, fun ho => absurd ho.2.2 (by decide)⟩
  · exact ⟨rfl, rfl, rfl⟩

end KYM.HeadRead
