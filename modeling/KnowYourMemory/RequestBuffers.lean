import KnowYourMemory.ReceiveBuffers
import KnowYourMemory.RefusedReceive

/-!
# Buffers of the requests

The requests of a direct read arrive in the buffers of its receive queue. A call copies the
request out of its buffer and gives the buffer back before it looks at the request, so a
buffer is away only as long as its request waits. Nothing waits for room to post.
-/

set_option autoImplicit false

namespace KYM.RequestBuffers
open KYM.Run KYM.RingBuffer KYM.ReceiveQueue KYM.ReceiveBuffers KYM.RefusedReceive
open KYM.DirectRead (ReadRequest)

def waiting (r : Receiver) : List ℕ := (r.announced.drop r.taken).map (fun x => x.1.toNat)

structure Kept (r : Receiver) : Prop where
  arrived : r.taken ≤ r.announced.length
  stocked : Stocked r.rq (r.announced.length-r.taken)
  once : Once r.rq (waiting r) [] []

def SameRequests (r t : Receiver) : Prop :=
  t.rq = r.rq ∧ t.announced = r.announced ∧ t.taken = r.taken

section Calls

variable {r m t : Receiver} {reg : KeyedRegion} {req : ReadRequest}

theorem Kept.same (h : Kept r) (hs : SameRequests r t) : Kept t := by
  obtain ⟨hq, ha, ht⟩ := hs
  refine ⟨?_, ?_, ?_⟩
  · rw [ha, ht]
    exact h.arrived
  · rw [hq, ha, ht]
    exact h.stocked
  · rw [hq, waiting, ha, ht]
    exact h.once

theorem waiting_length (r : Receiver) : (waiting r).length = r.announced.length-r.taken := by
  rw [waiting, List.length_map, List.length_drop]

theorem readInto_same (r : Receiver) (addr : UInt64) (key : UInt32) (req : ReadRequest) :
    SameRequests r (r.readInto addr key req).2 := by
  unfold Receiver.readInto
  split <;> exact ⟨rfl, rfl, rfl⟩

def Begins (r t : Receiver) : Prop :=
  ∃ x m, receiveRequest r = some (x, m) ∧ SameRequests m t

theorem receive_begins {x : StatusOr (ℕ × UInt32)} (h : receive r reg = some (x, t)) : Begins r t := by
  unfold receive at h
  split at h
  · cases h
  · next e m hm =>
    obtain ⟨-, rfl⟩ := Prod.mk.inj (Option.some.inj h)
    exact ⟨_, m, hm, rfl, rfl, rfl⟩
  next req m hm =>
  have hsame := readInto_same m reg.addr reg.lkey req
  split at h
  · obtain ⟨-, rfl⟩ := Prod.mk.inj (Option.some.inj h)
    exact ⟨_, m, hm, rfl, rfl, rfl⟩
  split at h <;>
  · next hr =>
    obtain ⟨-, rfl⟩ := Prod.mk.inj (Option.some.inj h)
    rw [hr] at hsame
    exact ⟨_, m, hm, hsame⟩

theorem receiveAsync_begins {x : StatusOr ℕ} {length length' : Option UInt32}
    (h : receiveAsync r reg length = some (x, length', t)) : Begins r t := by
  unfold receiveAsync at h
  split at h
  · cases h
  · next e m hm =>
    simp only [Option.some.injEq, Prod.mk.injEq] at h
    obtain ⟨-, -, rfl⟩ := h
    exact ⟨_, m, hm, rfl, rfl, rfl⟩
  next req m hm =>
  split at h <;> simp only [Option.some.injEq, Prod.mk.injEq] at h
  · obtain ⟨-, -, rfl⟩ := h
    exact ⟨_, m, hm, rfl, rfl, rfl⟩
  · obtain ⟨-, -, rfl⟩ := h
    exact ⟨_, m, hm, readInto_same m reg.addr reg.lkey req⟩

theorem receiveNew_begins {x : StatusOr ℕ} {alloc : StatusOr (UInt64 × UInt32)}
    (h : receiveNew r alloc = some (x, t)) : Begins r t := by
  unfold receiveNew at h
  split at h
  · cases h
  · next e m hm =>
    obtain ⟨-, rfl⟩ := Prod.mk.inj (Option.some.inj h)
    exact ⟨_, m, hm, rfl, rfl, rfl⟩
  next req m hm =>
  split at h
  · obtain ⟨-, rfl⟩ := Prod.mk.inj (Option.some.inj h)
    exact ⟨_, m, hm, rfl, rfl, rfl⟩
  · next addr lkey =>
    have hsame := readInto_same m addr lkey req
    rw [Option.some.inj h] at hsame
    exact ⟨_, m, hm, hsame⟩

theorem call_begins (c : Call) {a : Option Status} (h : c.answer r = some (a, t)) : Begins r t := by
  cases c with
  | receive reg =>
    obtain ⟨⟨x, u⟩, hx, he⟩ := Option.map_eq_some_iff.mp h
    obtain ⟨-, rfl⟩ := Prod.mk.inj he
    exact receive_begins hx
  | receiveAsync reg =>
    obtain ⟨⟨x, l, u⟩, hx, he⟩ := Option.map_eq_some_iff.mp h
    obtain ⟨-, rfl⟩ := Prod.mk.inj he
    exact receiveAsync_begins hx
  | receiveAsyncLength reg length =>
    obtain ⟨⟨x, l, u⟩, hx, he⟩ := Option.map_eq_some_iff.mp h
    obtain ⟨-, rfl⟩ := Prod.mk.inj he
    exact receiveAsync_begins hx

end Calls

section Runs

variable {r t : Receiver}

theorem init_kept (fence : Bool) {capacity lkey : UInt32} {mrAddr transferSize inflight : UInt64}
    {rq : Queue} (h : getReceiveQueue capacity mrAddr lkey transferSize inflight = some rq) :
    Kept (init fence rq) where
  arrived := le_refl 0
  stocked := (setup_stocked capacity mrAddr lkey transferSize inflight h).1
  once x := by
    obtain ⟨-, hn, hbatch, hids⟩ := setup_ready capacity mrAddr lkey transferSize inflight rq h
    simp only [init, waiting, hn, hbatch, hids, List.nodup_range.count, List.mem_range]
    simp [ids]

theorem Kept.announce (h : Kept r) (i : ℕ) (req : ReadRequest)
    (hs : step r (.announce i req) = some t) : Kept t ∧ t.rq.inflight = r.rq.inflight := by
  simp only [step] at hs
  split at hs
  · cases hs
  next p hp =>
  obtain rfl := Option.some.inj hs
  have harrived := h.arrived
  have hi : i < r.rq.posted.length := (List.getElem?_eq_some_iff.mp hp).1
  have hlt : p.wrId.toNat < r.rq.inflight := by
    apply h.once.lt
    have hmem : p.wrId.toNat ∈ ids r.rq.posted := List.mem_map_of_mem (List.mem_of_getElem? hp)
    simp [hmem]
  have hsmall := h.stocked.ready.small
  have hid : p.wrId.toUInt32.toNat = p.wrId.toNat := by
    rw [UInt64.toNat_toUInt32]
    omega
  have hwaiting : ∀ q, waiting { r with rq := q, announced := r.announced++[(p.wrId.toUInt32, req)] } =
      waiting r++[p.wrId.toNat] := by
    intro q
    rw [waiting, List.drop_append_of_le_length harrived, List.map_append, List.map_singleton, hid]
    rfl
  refine ⟨⟨?_, ?_, ?_⟩, rfl⟩
  · simp only [List.length_append]
    omega
  · simp only [List.length_append, List.length_singleton, Nat.sub_add_comm harrived]
    exact h.stocked.arrive i hi
  · rw [hwaiting]
    exact (h.once.complete h.stocked.ready i p hp (fun x => List.count_append)).2

theorem Kept.request (h : Kept r) (hw : waiting r ≠ []) :
    ∃ req t, receiveRequest r = some (.ok req, t) ∧ Kept t ∧ t.rq.inflight = r.rq.inflight := by
  have hlt : r.taken < r.announced.length := by
    by_contra hge
    rw [waiting, List.drop_eq_nil_of_le (by omega)] at hw
    exact hw rfl
  obtain ⟨⟨wrId, req⟩, hget⟩ : ∃ x, r.announced[r.taken]? = some x :=
    ⟨_, List.getElem?_eq_getElem hlt⟩
  have hwaiting : waiting r = wrId.toNat::(r.announced.drop (r.taken+1)).map (fun x => x.1.toNat) := by
    rw [waiting, List.drop_eq_getElem_cons hlt, (List.getElem?_eq_some_iff.mp hget).2, List.map_cons]
  have hstocked := h.stocked
  rw [show r.announced.length-r.taken = r.announced.length-(r.taken+1)+1 by omega] at hstocked
  obtain ⟨rq, hrq, hkept, hn⟩ := hstocked.repost wrId
  -- the completion is polled before its buffer is given back
  have hheld : Once r.rq ((r.announced.drop (r.taken+1)).map (fun x => x.1.toNat)) [wrId.toNat] [] := by
    intro x
    have hx := h.once x
    rw [hwaiting, List.count_cons] at hx
    simp only [List.count_cons, List.count_nil] at hx ⊢
    omega
  have honce : Ready rq ∧ Once rq ((r.announced.drop (r.taken+1)).map (fun x => x.1.toNat)) [] [] :=
    hheld.repost h.stocked.ready wrId hrq (fun x => by simp)
  refine ⟨req, { r with taken := r.taken+1, rq := rq }, ?_, ⟨hlt, hkept, honce.2⟩, hn⟩
  simp only [receiveRequest, hget, Queue.postMR, hrq]

theorem Kept.begins (h : Kept r) (hb : Begins r t) : Kept t ∧ t.rq.inflight = r.rq.inflight := by
  obtain ⟨x, m, hm, hsame⟩ := hb
  have hw : waiting r ≠ [] := by
    intro hnil
    have hlen := waiting_length r
    rw [hnil, List.length_nil] at hlen
    rw [receiveRequest, List.getElem?_eq_none (by omega)] at hm
    cases hm
  obtain ⟨req, u, hu, hkept, hn⟩ := h.request hw
  rw [hu] at hm
  obtain ⟨-, rfl⟩ := Prod.mk.inj (Option.some.inj hm)
  refine ⟨hkept.same hsame, ?_⟩
  rw [hsame.1]
  exact hn

theorem Kept.step (h : Kept r) (e : Event) (hs : step r e = some t) :
    Kept t ∧ t.rq.inflight = r.rq.inflight := by
  cases e with
  | announce i req => exact h.announce i req hs
  | call c =>
    obtain ⟨⟨a, u⟩, hu, rfl⟩ := Option.map_eq_some_iff.mp hs
    exact h.begins (call_begins c hu)
  | receiveNew alloc =>
    obtain ⟨⟨x, u⟩, hu, rfl⟩ := Option.map_eq_some_iff.mp hs
    exact h.begins (receiveNew_begins hu)
  | waitReceive id =>
    obtain ⟨sys, -, rfl⟩ := Option.map_eq_some_iff.mp hs
    exact ⟨h.same ⟨rfl, rfl, rfl⟩, rfl⟩
  | perform i =>
    obtain ⟨sys, -, rfl⟩ := Option.map_eq_some_iff.mp hs
    exact ⟨h.same ⟨rfl, rfl, rfl⟩, rfl⟩

/-- Every buffer of the receive queue is in exactly one place: posted, with a request that
waits, or in the batch. No call fails to post a buffer again, and the next request finds
one that is posted exactly while not all of them wait or are in the batch. -/
theorem request_buffers_kept (capacity lkey : UInt32) (mrAddr transferSize inflight : UInt64)
    (rq : Queue) (h : getReceiveQueue capacity mrAddr lkey transferSize inflight = some rq)
    (fence : Bool) (es : List Event) (r : Receiver) (hr : run step es (init fence rq) = some r) :
    (ids r.rq.posted++waiting r++ids r.rq.batch).Perm (List.range inflight.toNat) ∧
    r.rq.batch.length < 64 ∧
    (waiting r ≠ [] → ∃ req t, receiveRequest r = some (.ok req, t)) ∧
    ∀ req, (∃ i, (step r (.announce i req)).isSome) ↔
      (waiting r).length+r.rq.batch.length < inflight.toNat := by
  obtain ⟨hkept, hn⟩ : Kept r ∧ r.rq.inflight = inflight.toNat :=
    run_keeps step (fun _ _ => True) (fun r => Kept r ∧ r.rq.inflight = inflight.toNat)
      (fun r e t hk _ hs => by
        obtain ⟨ht, he⟩ := hk.1.step e hs
        exact ⟨ht, he.trans hk.2⟩)
      es _ r ⟨init_kept fence h, (setup_stocked capacity mrAddr lkey transferSize inflight h).2⟩
      (meets_of_forall step _ es (fun _ _ _ => trivial) _) hr
  have hperm := hkept.once.perm
  rw [List.append_nil, List.append_nil, hn] at hperm
  refine ⟨hperm, hkept.stocked.batch_lt, fun hw => ?_, fun req => ?_⟩
  · obtain ⟨req, t, ht, -⟩ := hkept.request hw
    exact ⟨req, t, ht⟩
  have htotal := hperm.length_eq
  simp only [List.length_append, ids, List.length_map, List.length_range] at htotal
  constructor
  · rintro ⟨i, hi⟩
    have hlt : i < r.rq.posted.length := by
      by_contra hge
      rw [step, List.getElem?_eq_none (by omega)] at hi
      cases hi
    omega
  · intro hroom
    have hpos : 0 < r.rq.posted.length := by omega
    refine ⟨0, ?_⟩
    simp only [step, List.getElem?_eq_getElem hpos, Option.isSome_some]

/-- With both buffers taken a third request finds none. -/
theorem request_buffers_kept_two : ∃ r, run step twoAnnounced (init false twoBuffers) = some r ∧
    ∀ req, ¬∃ i, (step r (.announce i req)).isSome := by
  have hr := run_get step twoAnnounced (init false twoBuffers) (by decide +kernel)
  obtain ⟨-, -, -, hnext⟩ := request_buffers_kept 8 5 8192 16 2 twoBuffers
    (Option.some_get _).symm false twoAnnounced _ hr
  refine ⟨_, hr, fun req hreq => ?_⟩
  exact absurd ((hnext req).mp hreq) (by decide +kernel)

end Runs

end KYM.RequestBuffers
