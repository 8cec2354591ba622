import KnowYourMemory.ReceiveQueue
import Mathlib.Logic.Function.Basic

/-!
# Receive buffers of a listener

Every buffer index of a receive queue is in exactly one place: posted to the device, in a
completion that nobody has polled, held by the application, in a stub queue, or in the
batch. A request counts as posted until its completion is polled. A listener owns a queue
for each of its connections.
-/

set_option autoImplicit false

namespace KYM.ReceiveBuffers
open KYM.Run KYM.RingBuffer KYM.ReceiveQueue

def Once (q : Queue) (unpolled held queued : List ℕ) : Prop :=
  ∀ x, (ids q.posted).count x+unpolled.count x+held.count x+queued.count x+(ids q.batch).count x =
    if x < q.inflight then 1 else 0

/-- The places of the indices, what a posted chain contains, and how many buffers
stay posted. -/
structure Conserved (q : Queue) (unpolled held queued : List ℕ) : Prop where
  once : Once q unpolled held queued
  own : ∀ r ∈ q.posted, q.Own r
  chain : ∀ (wrId : UInt32) (q' : Queue), q.repost wrId = some q' →
    (q'.posted = q.posted ∧ ids q'.batch = wrId.toNat::ids q.batch) ∨
      ∃ rs, q'.posted = q.posted++rs ∧ ids rs = wrId.toNat::ids q.batch ∧
        (∀ r ∈ rs, q.Own r) ∧ q'.batch = []
  stay : q.inflight-held.length-queued.length-63 ≤ q.posted.length+unpolled.length

section Queue

variable {q q' : Queue} {unpolled held queued : List ℕ}

theorem ids_nil : ids [] = [] := rfl

theorem ids_cons (r : Request) (rs : List Request) : ids (r::rs) = r.wrId.toNat::ids rs := rfl

theorem ids_append (rs ss : List Request) : ids (rs++ss) = ids rs++ids ss := List.map_append

theorem Once.lt (h : Once q unpolled held queued) (x : ℕ)
    (hx : x ∈ ids q.posted++unpolled++held++queued++ids q.batch) : x < q.inflight := by
  have hpos := List.count_pos_iff.mpr hx
  have := h x
  simp only [List.count_append] at hpos
  split at this <;> omega

theorem Once.perm (h : Once q unpolled held queued) :
    (ids q.posted++unpolled++held++queued++ids q.batch).Perm (List.range q.inflight) := by
  refine List.perm_iff_count.mpr (fun x => ?_)
  simp only [List.count_append, h x]
  rw [List.nodup_range.count]
  simp only [List.mem_range]

theorem Once.total (h : Once q unpolled held queued) :
    q.posted.length+unpolled.length+held.length+queued.length+q.batch.length = q.inflight := by
  have := h.perm.length_eq
  simp only [ids, List.length_append, List.length_map, List.length_range] at this
  exact this

theorem conserved_of (hq : Ready q) (h : Once q unpolled held queued) :
    Conserved q unpolled held queued := by
  refine ⟨h, hq.posted, fun wrId q' hs => ?_, ?_⟩
  · obtain ⟨-, -, -, ⟨hp, hb⟩ | ⟨hp, hb⟩⟩ := repost_cases hq hs
    · exact Or.inl ⟨hp, by rw [hb, ids_cons]; simp [Queue.request]⟩
    · exact Or.inr ⟨_, hp, by rw [ids_cons]; simp [Queue.request], fill_own _ hq, hb⟩
  · have htotal := h.total
    have hlen := hq.batch_length
    have := hq.pos
    omega

theorem Once.repost (hq : Ready q) {held' queued' : List ℕ} (wrId : UInt32)
    (h : Once q unpolled held queued) (hs : q.repost wrId = some q')
    (hmove : ∀ x, held.count x+queued.count x =
      held'.count x+queued'.count x+[wrId.toNat].count x) :
    Ready q' ∧ Once q' unpolled held' queued' := by
  obtain ⟨hr, hn, -, hcases⟩ := repost_cases hq hs
  refine ⟨hr, fun x => ?_⟩
  have hx := h x
  have hm := hmove x
  have hreq : (q.request wrId.toUInt64).wrId.toNat = wrId.toNat := by simp [Queue.request]
  rw [hn]
  rcases hcases with ⟨hp, hb⟩ | ⟨hp, hb⟩ <;>
  · simp only [hp, hb, ids_append, ids_cons, ids_nil, hreq, List.count_append, List.count_cons,
      List.count_nil] at hx hm ⊢
    omega

theorem Once.complete (hq : Ready q) {unpolled' : List ℕ} (i : ℕ) (r : Request)
    (hi : q.posted[i]? = some r) (h : Once q unpolled held queued)
    (hmove : ∀ x, unpolled'.count x = unpolled.count x+[r.wrId.toNat].count x) :
    Ready { q with posted := q.posted.eraseIdx i } ∧
      Once { q with posted := q.posted.eraseIdx i } unpolled' held queued := by
  obtain ⟨hlt, rfl⟩ := List.getElem?_eq_some_iff.mp hi
  refine ⟨hq.posting _ (fun r hr => hq.posted r (List.mem_of_mem_eraseIdx hr)), fun x => ?_⟩
  have hx := h x
  have hm := hmove x
  have hp := ((List.getElem_cons_eraseIdx_perm hlt).map (fun r => r.wrId.toNat)).count_eq x
  simp only [Queue.batch, ids, List.map_cons, List.count_cons, List.count_nil] at hx hm hp ⊢
  omega

end Queue

/-- `SendReceiveListener` with a single receiver and no shared queue. -/
structure Listener where
  rqs : UInt32 → Option Queue
  rcvCq : List Wc
  held : List ReceiveRegion

namespace Listener

inductive Event where
  | accept (qpNum capacity : UInt32) (mrAddr : UInt64) (lkey : UInt32)
      (transferSize inflight : UInt64)
  | arrive (qpNum : UInt32) (i : ℕ) (byteLen : UInt32)
  | receive
  | free (k : ℕ)
  deriving DecidableEq, Repr

def init : Listener := ⟨fun _ => none, [], []⟩

def context (qpNum : UInt32) (wrId : UInt64) : UInt64 := (qpNum.toUInt64 <<< 32)|||wrId

def qpOf (context : UInt64) : UInt32 := (context >>> 32).toUInt32

def wrOf (context : UInt64) : UInt32 := (context&&&0xFFFFFFFF).toUInt32

def accept (s : Listener) (qpNum capacity : UInt32) (mrAddr : UInt64) (lkey : UInt32)
    (transferSize inflight : UInt64) : Option Listener :=
  match s.rqs qpNum with
  | some _ => none
  | none => (getReceiveQueue capacity mrAddr lkey transferSize inflight).map (fun q =>
      { s with rqs := Function.update s.rqs qpNum (some q) })

def arrive (s : Listener) (qpNum : UInt32) (i : ℕ) (byteLen : UInt32) : Option Listener := do
  let q ← s.rqs qpNum
  let r ← q.posted[i]?
  some { s with
    rqs := Function.update s.rqs qpNum (some { q with posted := q.posted.eraseIdx i })
    rcvCq := s.rcvCq++[⟨r.wrId, qpNum, byteLen⟩] }

def receive (s : Listener) : Option Listener :=
  match s.rcvCq with
  | [] => none
  | wc::rest =>
    (s.rqs wc.qpNum).map (fun q => { s with
      rcvCq := rest
      held := s.held++[⟨context wc.qpNum wc.wrId, (q.getMR wc.wrId.toUInt32).1, wc.byteLen⟩] })

def free (s : Listener) (k : ℕ) : Option Listener := do
  let reg ← s.held[k]?
  let q ← s.rqs (qpOf reg.context)
  let q' ← q.postMR (wrOf reg.context)
  some { s with
    rqs := Function.update s.rqs (qpOf reg.context) (some q')
    held := s.held.eraseIdx k }

def step (s : Listener) : Event → Option Listener
  | .accept qpNum capacity mrAddr lkey transferSize inflight =>
    accept s qpNum capacity mrAddr lkey transferSize inflight
  | .arrive qpNum i byteLen => arrive s qpNum i byteLen
  | .receive => receive s
  | .free k => free s k

def unpolled (s : Listener) (qpNum : UInt32) : List ℕ :=
  s.rcvCq.filterMap (fun wc => if wc.qpNum = qpNum then some wc.wrId.toNat else none)

def heldOf (s : Listener) (qpNum : UInt32) : List ℕ :=
  s.held.filterMap (fun reg =>
    if qpOf reg.context = qpNum then some (wrOf reg.context).toNat else none)

theorem context_toNat (qpNum : UInt32) (wrId : UInt64) (h : wrId.toNat < 2^32) :
    (context qpNum wrId).toNat = qpNum.toNat*2^32+wrId.toNat := by
  have hq := qpNum.toNat_lt
  rw [context, UInt64.toNat_or, UInt64.toNat_shiftLeft, UInt32.toNat_toUInt64]
  change (qpNum.toNat <<< 32%2^64)|||wrId.toNat = _
  rw [Nat.mod_eq_of_lt (by rw [Nat.shiftLeft_eq]; omega),
    ← Nat.shiftLeft_add_eq_or_of_lt h, Nat.shiftLeft_eq]

theorem qpOf_context (qpNum : UInt32) (wrId : UInt64) (h : wrId.toNat < 2^32) :
    qpOf (context qpNum wrId) = qpNum := by
  have hq := qpNum.toNat_lt
  apply UInt32.toNat_inj.mp
  rw [qpOf, UInt64.toNat_toUInt32, UInt64.toNat_shiftRight, context_toNat qpNum wrId h]
  change (qpNum.toNat*2^32+wrId.toNat) >>> 32%2^32 = _
  rw [Nat.shiftRight_eq_div_pow]
  omega

theorem wrOf_context (qpNum : UInt32) (wrId : UInt64) (h : wrId.toNat < 2^32) :
    (wrOf (context qpNum wrId)).toNat = wrId.toNat := by
  rw [wrOf, UInt64.toNat_toUInt32, UInt64.toNat_and, context_toNat qpNum wrId h]
  change ((qpNum.toNat*2^32+wrId.toNat)&&&(2^32-1))%2^32 = _
  rw [Nat.and_two_pow_sub_one_eq_mod]
  omega

/-- Every queue of the listener is ready and keeps its indices, and nothing refers to
a queue that is not there. -/
structure Sound (s : Listener) : Prop where
  known : ∀ qpNum, s.rqs qpNum = none → unpolled s qpNum = [] ∧ heldOf s qpNum = []
  queues : ∀ qpNum q, s.rqs qpNum = some q →
    Ready q ∧ Once q (unpolled s qpNum) (heldOf s qpNum) []

theorem init_sound : Sound init := ⟨fun _ _ => ⟨rfl, rfl⟩, fun _ _ h => by cases h⟩

theorem Sound.update {s s' : Listener} (hs : Sound s) (qpNum : UInt32) (q : Queue)
    (hrqs : s'.rqs = Function.update s.rqs qpNum (some q))
    (hframe : ∀ qp, qp ≠ qpNum →
      (unpolled s' qp).Perm (unpolled s qp) ∧ (heldOf s' qp).Perm (heldOf s qp))
    (hq : Ready q ∧ Once q (unpolled s' qpNum) (heldOf s' qpNum) []) : Sound s' := by
  refine ⟨fun qp hqp => ?_, fun qp q' hqp => ?_⟩ <;> rw [hrqs] at hqp <;> by_cases he : qp = qpNum
  · subst he
    simp at hqp
  · rw [Function.update_of_ne he] at hqp
    obtain ⟨hu, hh⟩ := hs.known qp hqp
    obtain ⟨hpu, hph⟩ := hframe qp he
    exact ⟨(hu ▸ hpu).eq_nil, (hh ▸ hph).eq_nil⟩
  · subst he
    rw [Function.update_self] at hqp
    obtain rfl := Option.some.inj hqp
    exact hq
  · rw [Function.update_of_ne he] at hqp
    obtain ⟨hready, honce⟩ := hs.queues qp q' hqp
    obtain ⟨hpu, hph⟩ := hframe qp he
    exact ⟨hready, fun x => by rw [hpu.count_eq, hph.count_eq]; exact honce x⟩

theorem accept_sound (s s' : Listener) (hs : Sound s) (qpNum capacity : UInt32) (mrAddr : UInt64)
    (lkey : UInt32) (transferSize inflight : UInt64)
    (h : accept s qpNum capacity mrAddr lkey transferSize inflight = some s') : Sound s' := by
  unfold accept at h
  split at h
  · cases h
  · next hnone =>
    obtain ⟨q, hq, rfl⟩ := Option.map_eq_some_iff.mp h
    obtain ⟨hready, hn, hb, hp⟩ := setup_ready _ _ _ _ _ q hq
    obtain ⟨hu, hh⟩ := hs.known qpNum hnone
    refine hs.update qpNum q rfl (fun _ _ => ⟨List.Perm.refl _, List.Perm.refl _⟩) ⟨hready, fun x => ?_⟩
    change _+(unpolled s qpNum).count x+(heldOf s qpNum).count x+_+_ = _
    rw [hu, hh, hb, hp, hn, List.nodup_range.count]
    simp [ids_nil]

theorem arrive_sound (s s' : Listener) (hs : Sound s) (qpNum : UInt32) (i : ℕ) (byteLen : UInt32)
    (h : arrive s qpNum i byteLen = some s') : Sound s' := by
  simp only [arrive, Option.bind_eq_bind, Option.bind_eq_some_iff] at h
  obtain ⟨q, hq, r, hr, h⟩ := h
  obtain rfl := Option.some.inj h
  obtain ⟨hready, honce⟩ := hs.queues qpNum q hq
  refine hs.update qpNum _ rfl (fun qp hqp => ⟨?_, List.Perm.refl _⟩)
    (honce.complete hready i r hr fun x => ?_)
  · simp [unpolled, List.filterMap_append, Ne.symm hqp]
  · simp [unpolled, List.filterMap_append]

theorem receive_sound (s s' : Listener) (hs : Sound s) (h : receive s = some s') : Sound s' := by
  unfold receive at h
  split at h
  · cases h
  · next wc rest hcq =>
    obtain ⟨q, hq, rfl⟩ := Option.map_eq_some_iff.mp h
    obtain ⟨hready, honce⟩ := hs.queues wc.qpNum q hq
    have hsmall : wc.wrId.toNat < 2^32 :=
      (honce.lt _ (by simp [unpolled, hcq])).trans hready.small
    have hqp := qpOf_context wc.qpNum wc.wrId hsmall
    have hwr := wrOf_context wc.qpNum wc.wrId hsmall
    refine hs.update wc.qpNum q (Function.update_eq_self_iff.mpr hq.symm).symm (fun qp hne => ?_)
      ⟨hready, fun x => ?_⟩
    · simp [unpolled, heldOf, hcq, hqp, Ne.symm hne, List.filterMap_append]
    · have hx := honce x
      simp only [unpolled, heldOf, hcq, List.filterMap_cons, List.filterMap_append, hqp, hwr,
        if_true, List.count_cons, List.count_append, List.filterMap_nil, List.count_nil] at hx ⊢
      omega

theorem free_sound (s s' : Listener) (hs : Sound s) (k : ℕ) (h : free s k = some s') :
    Sound s' := by
  simp only [free, Option.bind_eq_bind, Option.bind_eq_some_iff] at h
  obtain ⟨reg, hreg, q, hq, q', hq', h⟩ := h
  obtain rfl := Option.some.inj h
  obtain ⟨hready, honce⟩ := hs.queues (qpOf reg.context) q hq
  obtain ⟨hlt, hget⟩ := List.getElem?_eq_some_iff.mp hreg
  have hperm : ∀ qp, (heldOf s qp).Perm ((if qpOf reg.context = qp then
      [(wrOf reg.context).toNat] else [])++heldOf { s with held := s.held.eraseIdx k } qp) := by
    intro qp
    have hp := (List.getElem_cons_eraseIdx_perm hlt).filterMap (fun reg =>
      if qpOf reg.context = qp then some (wrOf reg.context).toNat else none)
    rw [hget, List.filterMap_cons] at hp
    refine hp.symm.trans (List.Perm.of_eq ?_)
    by_cases he : qpOf reg.context = qp <;> simp [he, heldOf]
  refine hs.update (qpOf reg.context) q' rfl (fun qp hne => ⟨List.Perm.refl _, ?_⟩)
    (honce.repost hready (wrOf reg.context) hq' fun x => ?_)
  · have hp := hperm qp
    rw [if_neg (Ne.symm hne)] at hp
    exact hp.symm
  · have hx := (hperm (qpOf reg.context)).count_eq x
    rw [if_pos rfl, List.count_append] at hx
    change _+_ = (heldOf { s with held := s.held.eraseIdx k } (qpOf reg.context)).count x+_+_
    omega

theorem step_sound (s s' : Listener) (e : Event) (hs : Sound s) (h : step s e = some s') :
    Sound s' := by
  cases e with
  | accept qpNum capacity mrAddr lkey transferSize inflight =>
    exact accept_sound s s' hs qpNum capacity mrAddr lkey transferSize inflight h
  | arrive qpNum i byteLen => exact arrive_sound s s' hs qpNum i byteLen h
  | receive => exact receive_sound s s' hs h
  | free k => exact free_sound s s' hs k h

theorem run_sound (es : List Event) (s : Listener) (h : run step es init = some s) : Sound s :=
  run_keeps step (fun _ _ => True) Sound (fun s e t hs _ h => step_sound s t e hs h) es _ s
    init_sound (meets_of_forall step _ es (fun _ _ _ => trivial) _) h

end Listener

end KYM.ReceiveBuffers
