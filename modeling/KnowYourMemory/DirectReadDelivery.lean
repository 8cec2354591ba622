import KnowYourMemory.DirectReadDelivery.Steps

/-!
# Delivery by direct reads

A region of the sender is left alone until its wait has returned, a region of the receiver
until the application gives it back. Then both ends with their memories are a mailbox, and a
wait that returns comes behind the read.
-/

set_option autoImplicit false

namespace KYM.DirectReadDelivery
open KYM.Run KYM.MagicMemory KYM.DirectRead KYM.ReadOrder KYM.Mailbox
open KYM.RefusedReceive (Receiver)

/-- Direct read delivers every message that is not refused, and in order: what the receiver
finds in a region that it has waited for is the message that the mailbox holds. -/
theorem direct_read_is_mailbox (fence : Bool) (rq : ReceiveQueue.Queue) (smem rmem : ℕ → UInt8)
    (es : List Event) (s : System) (hm : Meets step Careful es (init fence rq smem rmem))
    (hr : run step es (init fence rq smem rmem) = some s) :
    ∃ a, run Mailbox.step (trace step calls es (init fence rq smem rmem)) Mailbox.empty = some a ∧
      a.held.length = s.held.length ∧
      ∀ (k : ℕ) (x : Held), s.held[k]? = some x → x.id ∈ s.rcv.sys.waited →
        a.held[k]? = some ((), fetch s.rmem x.addr.toNat x.length.toNat) := by
  obtain ⟨a, ha, hsound, hmatch⟩ := run_traces step calls Careful Mailbox.step
    (fun s a => Sound s ∧ Matches s a)
    (fun s e t a h he hs => by
      obtain ⟨hsound, hnext⟩ := step_simulates h.1 e he hs
      obtain ⟨b, hb, hmatch⟩ := hnext a h.2
      exact ⟨b, hb, hsound, hmatch⟩)
    es _ s Mailbox.empty ⟨init_sound fence rq smem rmem, ⟨rfl, rfl⟩⟩ hm hr
  refine ⟨a, ha, by rw [hmatch.held, List.length_map], fun k x hx hw => ?_⟩
  have hread := hsound.order.read_waited x.id (hsound.kept.known x (List.mem_of_getElem? hx)).1 hw
  rw [hmatch.held, List.getElem?_map, hx, Option.map_some, System.bytes, if_pos hread]

def oneMessage : List Event :=
  [.getMemoryRegion ⟨4096, 5, 7⟩, .store 4097 [1, 2, 3], .sendAsync 0 3, .announce 0,
    .call (.receiveAsync ⟨⟨0, 65536, 50⟩, 9⟩), .perform 0, .waitReceive 1, .perform 0]

def sentAgain : List Event :=
  [.wait 4096, .store 4097 [8, 9], .sendAsync 0 2, .announce 0,
    .call (.receive ⟨⟨0, 65600, 16⟩, 9⟩), .perform 0, .waitReceive 2]

theorem direct_read_is_mailbox_again : ∃ s a,
    run step (oneMessage++sentAgain) (init false RefusedReceive.twoBuffers (fun _ => 0) fun _ => 0) =
      some s ∧
    run Mailbox.step (trace step calls (oneMessage++sentAgain)
      (init false RefusedReceive.twoBuffers (fun _ => 0) fun _ => 0)) Mailbox.empty = some a ∧
    a.held[0]? = some ((), [1, 2, 3]) ∧ a.held[1]? = some ((), [8, 9]) := by
  have hr := run_get step (oneMessage++sentAgain)
    (init false RefusedReceive.twoBuffers (fun _ => 0) fun _ => 0) (by decide +kernel)
  obtain ⟨a, ha, -, hheld⟩ := direct_read_is_mailbox false RefusedReceive.twoBuffers (fun _ => 0)
    (fun _ => 0) (oneMessage++sentAgain) _ (by decide +kernel) hr
  refine ⟨_, a, hr, ha, ?_, ?_⟩
  · exact (hheld 0 ⟨1, 65536, 3⟩ (by decide +kernel) (by decide +kernel)).trans (by decide +kernel)
  · exact (hheld 1 ⟨2, 65600, 2⟩ (by decide +kernel) (by decide +kernel)).trans (by decide +kernel)

/-- A wait of the sender can only return when its message was read, without fences when the
receiver has waited for it, and nothing that is still to be done reads the region. -/
theorem direct_read_wait_safe (fence : Bool) (rq : ReceiveQueue.Queue) (smem rmem : ℕ → UInt8)
    (es : List Event) (s : System) (hm : Meets step Careful es (init fence rq smem rmem))
    (hr : run step es (init fence rq smem rmem) = some s) (p : Pending) (hp : p ∈ s.pending)
    (hw : (step s (.wait p.block.addr)).isSome) :
    (∃ i, p.since ≤ i ∧ s.rcv.sys.requests[i]? = some p.req ∧ ReadIn s.rcv.sys.done (i+1) ∧
      (s.rcv.sys.conn.fence = true ∨ i+1 ∈ s.rcv.sys.waited)) ∧
    (∀ req ∈ s.waiting, req.addr ≠ p.req.addr) ∧
    ∀ w ∈ s.rcv.sys.sendQueue, w.opcode = .rdmaRead → w.remoteAddr ≠ p.req.addr := by
  have h : Sound s := run_keeps step Careful Sound
    (fun _ e _ h he hs => (step_simulates h e he hs).1) es _ s (init_sound fence rq smem rmem) hm hr
  have hset : s.smem p.block.addr.toNat ≠ 0 := by
    intro hz
    simp [step, wait, hz] at hw
  rw [Ne, h.lent.flag p hp] at hset
  push Not at hset
  obtain ⟨id, hstage⟩ := hset
  obtain ⟨hsince, hreq⟩ := h.tracked.asked p hp id (Or.inr hstage)
  have hsole : ∀ q ∈ s.pending, q.req.addr = p.req.addr → ∃ id, q.stage = .acked id := by
    intro q hq ha
    exact ⟨id, by rw [h.lent.eq_of_req hq hp ha, hstage]⟩
  obtain ⟨i, rfl⟩ : ∃ i, id = i+1 := ⟨id-1, by omega⟩
  obtain ⟨w, hwm⟩ := List.exists_mem_of_ne_nil _ (h.tracked.acked p hp _ hstage)
  obtain ⟨hwd, hop⟩ := List.mem_filter.mp hwm
  have hop := of_decide_eq_true hop
  refine ⟨⟨i, by omega, by simpa using hreq, ?_, ?_⟩, fun req hq ha => ?_, fun v hv hvop ha => ?_⟩
  · obtain ⟨j, hj⟩ := List.mem_iff_getElem?.mp hwd
    exact hop.2 ▸ (h.rcv.follows j w hj hop.1).mono (List.take_subset _ _)
  · by_contra hnot
    push Not at hnot
    have hasked : ¬Asked s.rcv.sys (i+1) := fun ha => ha.2.2.elim hnot.1 hnot.2
    exact h.tracked.acked p hp _ hstage (acks_asked h (i+1) hasked)
  · obtain ⟨q, hqp, hqs, rfl⟩ := h.tracked.queued req hq
    obtain ⟨id, hid⟩ := hsole q hqp ha
    rw [hqs] at hid
    cases hid
  · obtain ⟨x, hx, hxid, -, req, hxr, haddr⟩ := h.kept.queue v hv hvop
    obtain ⟨q, hq, hna, -, hqr⟩ := h.unread x hx (hxid ▸ h.order.queued_not_done v hv hvop)
    obtain rfl : q.req = req := Option.some.inj (hqr.symm.trans hxr)
    obtain ⟨id, hid⟩ := hsole q hq (haddr.symm.trans ha)
    exact hna id hid

theorem direct_read_wait_safe_one : ∃ s,
    run step oneMessage (init false RefusedReceive.twoBuffers (fun _ => 0) fun _ => 0) = some s ∧
    ∃ i, s.rcv.sys.requests[i]? = some ⟨4097, 7, 3⟩ ∧ ReadIn s.rcv.sys.done (i+1) := by
  have hr := run_get step oneMessage (init false RefusedReceive.twoBuffers (fun _ => 0) fun _ => 0)
    (by decide +kernel)
  obtain ⟨⟨i, -, hreq, hread, -⟩, -⟩ := direct_read_wait_safe false RefusedReceive.twoBuffers
    (fun _ => 0) (fun _ => 0) oneMessage _ (by decide +kernel) hr ⟨⟨4096, 5, 7⟩, 3, 0, .acked 1⟩
    (by decide +kernel) (by decide +kernel)
  exact ⟨_, hr, i, hreq, hread⟩

end KYM.DirectReadDelivery
