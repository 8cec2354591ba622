import KnowYourMemory.ReceiveBuffers.Listener

/-!
# Conservation of receive buffers

A shared receive queue serves all connections, and the buffers that they give back wait in
their stub queues. Neither way of receiving loses a buffer or has it twice.
-/

set_option autoImplicit false

namespace KYM.ReceiveBuffers
open KYM.Run KYM.RingBuffer KYM.ReceiveQueue

structure Stub where
  recvCq : ℕ
  queue : List UInt32
  deriving DecidableEq, Repr

/-- `SendReceiveListener` with a shared receive queue. With a single receiver all
connections share the first completion queue. -/
structure Shared where
  srq : Queue
  singleReceiver : Bool
  cqs : List (List Wc)
  stubs : List Stub
  held : List ReceiveRegion

namespace Shared

/-- Regions are received from some completion queue and freed by the listener or by
the connection with the given number. -/
inductive Event where
  | accept
  | arrive (j i : ℕ) (qpNum byteLen : UInt32)
  | receive (cq : ℕ)
  | free (k : ℕ) (conn : Option ℕ)
  | run (j : ℕ)
  deriving DecidableEq, Repr

def init (srq : Queue) (singleReceiver : Bool) : Shared := ⟨srq, singleReceiver, [], [], []⟩

def accept (s : Shared) : Shared :=
  { s with
    cqs := if s.singleReceiver ∧ s.cqs ≠ [] then s.cqs else s.cqs++[[]]
    stubs := s.stubs++[⟨if s.singleReceiver then 0 else s.cqs.length, []⟩] }

def arrive (s : Shared) (j i : ℕ) (qpNum byteLen : UInt32) : Option Shared := do
  let c ← s.stubs[j]?
  let cq ← s.cqs[c.recvCq]?
  let r ← s.srq.posted[i]?
  some { s with
    srq := { s.srq with posted := s.srq.posted.eraseIdx i }
    cqs := s.cqs.set c.recvCq (cq++[⟨r.wrId, qpNum, byteLen⟩]) }

def receive (s : Shared) (cq : ℕ) : Option Shared :=
  match s.cqs[cq]? with
  | some (wc::rest) => some { s with
      cqs := s.cqs.set cq rest
      held := s.held++[⟨wc.wrId, (s.srq.getMR wc.wrId.toUInt32).1, wc.byteLen⟩] }
  | _ => none

/-- `SharedReceiveQueueStub::PostMR`: the third-party queue is first in, first out,
and `hasRoom` is its answer to `try_enqueue`. When it has no room the region stays
with the application. -/
def postStub (hasRoom : List UInt32 → Bool) (c : Stub) (wrId : UInt32) : Option Stub :=
  if hasRoom c.queue then some { c with queue := c.queue++[wrId] } else none

def free (hasRoom : List UInt32 → Bool) (s : Shared) (k : ℕ) : Option ℕ → Option Shared
  | none => do
    let reg ← s.held[k]?
    let srq ← s.srq.postShared reg.context.toUInt32
    some { s with srq := srq, held := s.held.eraseIdx k }
  | some j => do
    let reg ← s.held[k]?
    let c ← s.stubs[j]?
    match postStub hasRoom c reg.context.toUInt32 with
    | none => some s
    | some c' => some { s with stubs := s.stubs.set j c', held := s.held.eraseIdx k }

def serve (s : Shared) (j : ℕ) : Option Shared := do
  let c ← s.stubs[j]?
  match c.queue with
  | [] => some s
  | wrId::rest =>
    let srq ← s.srq.postShared wrId
    some { s with srq := srq, stubs := s.stubs.set j { c with queue := rest } }

def step (hasRoom : List UInt32 → Bool) (s : Shared) : Event → Option Shared
  | .accept => some (accept s)
  | .arrive j i qpNum byteLen => arrive s j i qpNum byteLen
  | .receive cq => receive s cq
  | .free k conn => free hasRoom s k conn
  | .run j => serve s j

def unpolled (s : Shared) : List ℕ := s.cqs.flatten.map (fun wc => wc.wrId.toNat)

def heldOf (s : Shared) : List ℕ := s.held.map (fun reg => reg.context.toUInt32.toNat)

def queued (s : Shared) : List ℕ := (s.stubs.map Stub.queue).flatten.map UInt32.toNat

def Sound (s : Shared) : Prop := Ready s.srq ∧ Once s.srq (unpolled s) (heldOf s) (queued s)

theorem flatten_set {β : Type} (l : List (List β)) (j : ℕ) (a b : List β) (h : l[j]? = some b) :
    (b++(l.set j a).flatten).Perm (a++l.flatten) := by
  induction l generalizing j with
  | nil => simp at h
  | cons c l ih =>
    cases j with
    | zero =>
      obtain rfl : c = b := by simpa using h
      exact List.perm_append_comm_assoc c a l.flatten
    | succ j =>
      have hp := ih j (by simpa using h)
      simp only [List.set_cons_succ, List.flatten_cons]
      exact (List.perm_append_comm_assoc b c _).trans
        ((hp.append_left c).trans (List.perm_append_comm_assoc c a _))

theorem count_flatten_set {β : Type} (f : β → ℕ) (l : List (List β)) (j : ℕ) (a b : List β)
    (h : l[j]? = some b) (x : ℕ) : (b.map f).count x+((l.set j a).flatten.map f).count x =
      (a.map f).count x+(l.flatten.map f).count x := by
  have hp := ((flatten_set l j a b h).map f).count_eq x
  rwa [List.map_append, List.map_append, List.count_append, List.count_append] at hp

theorem count_erase_held (s : Shared) (k : ℕ) (reg : ReceiveRegion) (h : s.held[k]? = some reg)
    (x : ℕ) : (heldOf s).count x = [reg.context.toUInt32.toNat].count x+
      ((s.held.eraseIdx k).map (fun reg => reg.context.toUInt32.toNat)).count x := by
  obtain ⟨hlt, rfl⟩ := List.getElem?_eq_some_iff.mp h
  have hp := ((List.getElem_cons_eraseIdx_perm hlt).map
    (fun reg => reg.context.toUInt32.toNat)).count_eq x
  rw [heldOf, ← hp, List.map_cons, ← List.singleton_append, List.count_append]

theorem init_sound (capacity : UInt32) (mrAddr : UInt64) (lkey : UInt32)
    (transferSize inflight : UInt64) (srq : Queue) (single : Bool)
    (h : getSharedReceiveQueue capacity mrAddr lkey transferSize inflight = some srq) :
    Sound (init srq single) := by
  obtain ⟨hready, hn, hb, hp⟩ := setup_ready _ _ _ _ _ srq h
  refine ⟨hready, fun x => ?_⟩
  simp only [init, hb, hp, hn, List.nodup_range.count, unpolled, heldOf, queued, ids_nil]
  simp

theorem accept_sound (s : Shared) (hs : Sound s) : Sound (accept s) := by
  refine ⟨hs.1, fun x => ?_⟩
  have hx := hs.2 x
  have hu : unpolled (accept s) = unpolled s := by
    simp only [unpolled, accept]
    split <;> simp
  have hq : queued (accept s) = queued s := by simp [queued, accept]
  rw [hu, hq]
  exact hx

theorem arrive_sound (s s' : Shared) (hs : Sound s) (j i : ℕ) (qpNum byteLen : UInt32)
    (h : arrive s j i qpNum byteLen = some s') : Sound s' := by
  simp only [arrive, Option.bind_eq_bind, Option.bind_eq_some_iff] at h
  obtain ⟨c, -, cq, hcq, r, hr, h⟩ := h
  obtain rfl := Option.some.inj h
  refine hs.2.complete hs.1 i r hr (fun x => ?_)
  have := count_flatten_set (fun wc : Wc => wc.wrId.toNat) s.cqs c.recvCq
    (cq++[⟨r.wrId, qpNum, byteLen⟩]) cq hcq x
  simp only [unpolled, List.map_append, List.map_cons, List.map_nil, List.count_append] at this ⊢
  omega

theorem receive_sound (s s' : Shared) (hs : Sound s) (n : ℕ) (h : receive s n = some s') :
    Sound s' := by
  unfold receive at h
  split at h
  · next wc rest hcq =>
    obtain rfl := Option.some.inj h
    have hmem : wc.wrId.toNat ∈ unpolled s := List.mem_map_of_mem
      (List.mem_flatten.mpr ⟨_, List.mem_of_getElem? hcq, List.mem_cons_self⟩)
    have hsmall : wc.wrId.toNat < 2^32 :=
      (hs.2.lt _ (by simp [hmem])).trans hs.1.small
    have hctx : wc.wrId.toUInt32.toNat = wc.wrId.toNat := by
      rw [UInt64.toNat_toUInt32, Nat.mod_eq_of_lt hsmall]
    refine ⟨hs.1, fun x => ?_⟩
    have hcount := count_flatten_set (fun wc : Wc => wc.wrId.toNat) s.cqs n rest _ hcq x
    have hx := hs.2 x
    simp only [unpolled, heldOf, queued, List.map_append, List.map_cons, List.map_nil, hctx,
      List.count_append, List.count_cons, List.count_nil] at hx hcount ⊢
    omega
  · cases h

theorem free_sound (hasRoom : List UInt32 → Bool) (s s' : Shared) (hs : Sound s) (k : ℕ)
    (conn : Option ℕ) (h : free hasRoom s k conn = some s') : Sound s' := by
  cases conn with
  | none =>
    simp only [free, Option.bind_eq_bind, Option.bind_eq_some_iff] at h
    obtain ⟨reg, hreg, srq, hsrq, h⟩ := h
    obtain rfl := Option.some.inj h
    refine hs.2.repost hs.1 reg.context.toUInt32 hsrq (fun x => ?_)
    have := count_erase_held s k reg hreg x
    simp only [heldOf, queued] at this ⊢
    omega
  | some j =>
    simp only [free, Option.bind_eq_bind, Option.bind_eq_some_iff] at h
    obtain ⟨reg, hreg, c, hc, h⟩ := h
    split at h
    · exact Option.some.inj h ▸ hs
    · next c' hc' =>
      obtain rfl := Option.some.inj h
      unfold postStub at hc'
      split at hc'
      · obtain rfl := Option.some.inj hc'
        refine ⟨hs.1, fun x => ?_⟩
        have hx := hs.2 x
        have herase := count_erase_held s k reg hreg x
        have hcount := count_flatten_set UInt32.toNat (s.stubs.map Stub.queue) j
          (c.queue++[reg.context.toUInt32]) c.queue (by rw [List.getElem?_map, hc]; rfl) x
        simp only [unpolled, heldOf, queued, List.map_set, List.map_append, List.map_cons,
          List.map_nil, List.count_append] at hx herase hcount ⊢
        omega
      · cases hc'

theorem serve_sound (s s' : Shared) (hs : Sound s) (j : ℕ) (h : serve s j = some s') :
    Sound s' := by
  simp only [serve, Option.bind_eq_bind, Option.bind_eq_some_iff] at h
  obtain ⟨c, hc, h⟩ := h
  split at h
  · exact Option.some.inj h ▸ hs
  · next wrId rest hqueue =>
    obtain ⟨srq, hsrq, h⟩ := Option.bind_eq_some_iff.mp h
    obtain rfl := Option.some.inj h
    refine hs.2.repost hs.1 wrId hsrq (fun x => ?_)
    have hcount := count_flatten_set UInt32.toNat (s.stubs.map Stub.queue) j rest c.queue
      (by rw [List.getElem?_map, hc]; rfl) x
    rw [hqueue, List.map_cons, ← List.singleton_append, List.count_append] at hcount
    simp only [heldOf, queued, List.map_set] at hcount ⊢
    omega

theorem step_sound (hasRoom : List UInt32 → Bool) (s s' : Shared) (e : Event) (hs : Sound s)
    (h : step hasRoom s e = some s') : Sound s' := by
  cases e with
  | accept => exact Option.some.inj h ▸ accept_sound s hs
  | arrive j i qpNum byteLen => exact arrive_sound s s' hs j i qpNum byteLen h
  | receive cq => exact receive_sound s s' hs cq h
  | free k conn => exact free_sound hasRoom s s' hs k conn h
  | run j => exact serve_sound s s' hs j h

theorem run_sound (hasRoom : List UInt32 → Bool) (capacity : UInt32) (mrAddr : UInt64)
    (lkey : UInt32) (transferSize inflight : UInt64) (srq : Queue) (single : Bool)
    (hsrq : getSharedReceiveQueue capacity mrAddr lkey transferSize inflight = some srq)
    (es : List Event) (s : Shared) (h : run (step hasRoom) es (init srq single) = some s) :
    Sound s :=
  run_keeps (step hasRoom) (fun _ _ => True) Sound
    (fun s e t hs _ h => step_sound hasRoom s t e hs h) es _ s
    (init_sound capacity mrAddr lkey transferSize inflight srq single hsrq)
    (meets_of_forall _ _ es (fun _ _ _ => trivial) _) h

end Shared

/-- In every run of a listener, with one receive queue for each queue pair or with a
shared one, no buffer is lost or doubled. -/
theorem buffers_conserved :
    (∀ (es : List Listener.Event) (s : Listener) (qpNum : UInt32) (q : Queue),
      run Listener.step es Listener.init = some s → s.rqs qpNum = some q →
      Conserved q (s.unpolled qpNum) (s.heldOf qpNum) []) ∧
    (∀ (hasRoom : List UInt32 → Bool) (capacity : UInt32) (mrAddr : UInt64) (lkey : UInt32)
      (transferSize inflight : UInt64) (srq : Queue) (single : Bool) (es : List Shared.Event)
      (s : Shared),
      getSharedReceiveQueue capacity mrAddr lkey transferSize inflight = some srq →
      run (Shared.step hasRoom) es (Shared.init srq single) = some s →
      Conserved s.srq s.unpolled s.heldOf s.queued) := by
  constructor
  · intro es s qpNum q hr hq
    obtain ⟨hready, honce⟩ := (Listener.run_sound es s hr).queues qpNum q hq
    exact conserved_of hready honce
  · intro hasRoom capacity mrAddr lkey transferSize inflight srq single es s hsrq hr
    obtain ⟨hready, honce⟩ := Shared.run_sound hasRoom capacity mrAddr lkey transferSize inflight
      srq single hsrq es s hr
    exact conserved_of hready honce

def listenerTrace : List Listener.Event := List.flatten
  [[.accept 5 128 65536 9 16384 65, .accept 6 128 8388608 9 16384 65, .arrive 6 0 100, .receive],
    (List.replicate 64 [.arrive 5 0 100, .receive, .free 1]).flatten]

def sharedTrace : List Shared.Event := List.flatten
  [[.accept, .accept], (List.replicate 32 [.arrive 0 0 5 100, .arrive 1 0 6 100, .receive 0,
    .receive 1, .free 1 (some 0), .free 0 (some 1), .run 0, .run 1]).flatten]

theorem buffers_conserved_chain :
    (∃ s q, run Listener.step listenerTrace Listener.init = some s ∧ s.rqs 5 = some q ∧
      Conserved q (s.unpolled 5) (s.heldOf 5) []) ∧
    (∃ srq s, getSharedReceiveQueue 1024 65536 9 16384 70 = some srq ∧
      run (Shared.step fun _ => true) sharedTrace (Shared.init srq false) = some s ∧
      Conserved s.srq s.unpolled s.heldOf s.queued) := by
  constructor
  · have h : ((run Listener.step listenerTrace Listener.init).bind (·.rqs 5)).isSome := by
      decide +kernel
    obtain ⟨q, h⟩ := Option.isSome_iff_exists.mp h
    obtain ⟨s, hr, hq⟩ := Option.bind_eq_some_iff.mp h
    exact ⟨s, q, hr, hq, buffers_conserved.1 _ s 5 q hr hq⟩
  · have h : ((getSharedReceiveQueue 1024 65536 9 16384 70).bind (fun srq =>
        run (Shared.step fun _ => true) sharedTrace (Shared.init srq false))).isSome := by
      decide +kernel
    obtain ⟨s, h⟩ := Option.isSome_iff_exists.mp h
    obtain ⟨srq, hq, hr⟩ := Option.bind_eq_some_iff.mp h
    exact ⟨srq, s, hq, hr, buffers_conserved.2 _ _ _ _ _ _ srq _ _ s hq hr⟩

end KYM.ReceiveBuffers
