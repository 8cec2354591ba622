import KnowYourMemory.ReadDuplex

/-!
# When a sender has its answer

The wait of a direct-read sender is ended by the byte that the receiver writes. It is
written when the network has carried out what the receiver has posted. A request that was
refused is not answered, and neither is one that without fences was not waited for.
-/

set_option autoImplicit false

namespace KYM.ReadAnswers
open KYM.Run KYM.DirectReadDelivery
open KYM.DirectRead (acksOf Asked issue_views wait_views perform_views)
open KYM.RefusedReceive (Receiver)

/-- What the network does by itself. -/
def Network : Event → Prop
  | .announce _ | .perform _ => True
  | _ => False

structure Settled (s : System) : Prop where
  only : ∀ p ∈ s.pending, ∀ i, p.since ≤ i → s.rcv.sys.requests[i]? = some p.req →
    p.stage = .taken (i+1) ∨ p.stage = .acked (i+1)
  unacked : ∀ p ∈ s.pending, ∀ id, p.stage = .taken id → acksOf id s.rcv.sys.done = []

section Steps

variable {s t : System}

theorem init_settled (fence : Bool) (rq : ReceiveQueue.Queue) (smem rmem : ℕ → UInt8) :
    Settled (init fence rq smem rmem) where
  only _ h := by cases h
  unacked _ h := by cases h

theorem Settled.keep (h : Settled s) (hp : t.pending ⊆ s.pending)
    (hr : t.rcv.sys.requests = s.rcv.sys.requests) (hd : t.rcv.sys.done = s.rcv.sys.done) :
    Settled t where
  only p hm i := by
    rw [hr]
    exact h.only p (hp hm) i
  unacked p hm id := by
    rw [hd]
    exact h.unacked p (hp hm) id

theorem Settled.send (h : Settled s) (k : ℕ) (length : UInt32)
    (hs : sendAsync s k length = some t) : Settled t := by
  unfold sendAsync at hs
  split at hs
  · cases hs
  next b hb =>
  obtain rfl := Option.some.inj hs
  refine ⟨fun p hp i hi hreq => ?_, fun p hp id hid => ?_⟩
  · rcases List.mem_append.mp hp with hp | hp
    · exact h.only p hp i hi hreq
    · rw [List.mem_singleton.mp hp] at hi
      have hlt := (List.getElem?_eq_some_iff.mp hreq).1
      exact absurd hlt (Nat.not_lt.mpr hi)
  · rcases List.mem_append.mp hp with hp | hp
    · exact h.unacked p hp id hid
    · rw [List.mem_singleton.mp hp] at hid
      cases hid

theorem Settled.take (h : Settled s) (hsound : Sound s) (addr : UInt64) (length : UInt32)
    (x : Option (Option RingBuffer.Status × Receiver)) (hx : Serves s.rcv addr length x)
    (hs : DirectReadDelivery.take s addr x = some t) : Settled t := by
  unfold DirectReadDelivery.take at hs
  split at hs
  · cases hs
  · next e rcv =>
    obtain rfl := Option.some.inj hs
    obtain ⟨req, htook⟩ := hx.refused e rcv rfl
    exact h.keep (List.Subset.refl _) (by rw [htook.sys]) (by rw [htook.sys])
  next rcv =>
  obtain rfl := Option.some.inj hs
  obtain ⟨m, req, key, id, htook, -, hread⟩ := hx.accepted rcv rfl
  obtain ⟨hnext, hwaiting, -⟩ := waiting_cons s m req htook
  obtain ⟨hstep, hrequests, -⟩ := readInto_step htook hread
  have hdone : rcv.sys.done = s.rcv.sys.done := by
    rcases issue_views addr key req hstep with he | ⟨-, acks, table, -, -, he⟩ <;> rw [he]
  have hlast : rcv.sys.requests.length = s.rcv.sys.requests.length+1 := by
    rw [hrequests, List.length_append, List.length_singleton]
  have htracked := hsound.tracked
  rw [hwaiting] at htracked
  have hposted := (htracked.accept hsound.lent).2
  refine ⟨fun p hp i hi hreq => ?_, fun p hp id hid => ?_⟩
  · simp only [accept, hnext, hlast] at hp
    simp only [accept, hrequests] at hreq
    obtain ⟨q, hq, rfl⟩ := List.mem_map.mp hp
    obtain ⟨-, -, hsince, hqreq⟩ := accepted_block req (s.rcv.sys.requests.length+1) q
    rw [hsince] at hi
    rw [hqreq] at hreq
    rcases BoundedStream.getElem?_concat_cases hreq with hold | ⟨rfl, hqr⟩
    · -- an older request of the same message: it is taken already, so this is another one
      have hstage := h.only q hq i hi hold
      have hne : q.req ≠ req := by
        intro he
        rw [hposted q hq he] at hstage
        simp at hstage
      rw [Pending.accepted, if_neg hne]
      exact hstage
    · rw [Pending.accepted, if_pos hqr]
      exact Or.inl rfl
  · simp only [accept, hnext, hlast, hdone] at hp ⊢
    obtain ⟨q, hq, rfl⟩ := List.mem_map.mp hp
    unfold Pending.accepted at hid
    split at hid
    · obtain rfl : s.rcv.sys.requests.length+1 = id := by simpa using hid
      apply acks_asked hsound
      rintro ⟨-, hle, -⟩
      omega
    · exact h.unacked q hq id hid

theorem Settled.perform (h : Settled s) (i : ℕ) (hs : perform s i = some t) : Settled t := by
  simp only [DirectReadDelivery.perform, Option.bind_eq_bind, Option.bind_eq_some_iff] at hs
  obtain ⟨w, hw, rcv, hrcv, hs⟩ := hs
  obtain rfl := Option.some.inj hs
  obtain ⟨sys, hsys, rfl⟩ := Option.map_eq_some_iff.mp hrcv
  simp only [DirectRead.step, DirectRead.perform, hw] at hsys
  split at hsys
  case isFalse => cases hsys
  obtain rfl := Option.some.inj hsys
  refine ⟨fun p hp j hj hreq => ?_, fun p hp id hid => ?_⟩
  · obtain ⟨q, hq, rfl⟩ := List.mem_map.mp hp
    obtain ⟨-, -, hsince, hqreq⟩ := ack_block w q
    rw [hsince] at hj
    rw [hqreq] at hreq
    have hstage := h.only q hq j hj hreq
    unfold Pending.ack
    split
    · next hack =>
      rw [hack.2] at hstage
      right
      simpa using hstage
    · exact hstage
  · obtain ⟨q, hq, rfl⟩ := List.mem_map.mp hp
    unfold Pending.ack at hid
    split at hid
    · cases hid
    · next hack =>
      have hother : ¬(w.opcode = .rdmaWrite ∧ w.wrId = id) := by
        rintro ⟨hop, rfl⟩
        exact hack ⟨hop, hid⟩
      simp only [acksOf_concat, if_neg hother, List.append_nil]
      exact h.unacked q hq id hid

theorem Settled.step (h : Settled s) (hsound : Sound s) (e : Event)
    (hs : DirectReadDelivery.step s e = some t) : Settled t := by
  cases e with
  | getMemoryRegion mr =>
    obtain rfl := Option.some.inj hs
    exact h.keep (List.Subset.refl _) rfl rfl
  | freeRegion k =>
    simp only [DirectReadDelivery.step, Option.ite_none_right_eq_some] at hs
    obtain rfl := Option.some.inj hs.2
    exact h.keep (List.Subset.refl _) rfl rfl
  | store addr bytes =>
    obtain rfl := Option.some.inj hs
    exact h.keep (List.Subset.refl _) rfl rfl
  | sendAsync k length => exact h.send k length hs
  | wait id =>
    simp only [DirectReadDelivery.step, wait, Option.ite_none_left_eq_some] at hs
    obtain rfl := Option.some.inj hs.2
    exact h.keep (List.filter_subset_self _) rfl rfl
  | announce i =>
    obtain ⟨hsys, hpending⟩ := announce_views hs
    exact h.keep (by rw [hpending]; exact List.Subset.refl _) (by rw [hsys]) (by rw [hsys])
  | call c => exact h.take hsound _ _ _ (call_serves s.rcv c) hs
  | receiveNew alloc => exact h.take hsound _ _ _ (new_serves s.rcv alloc) hs
  | waitReceive id =>
    obtain ⟨rcv, hrcv, rfl⟩ := Option.map_eq_some_iff.mp hs
    obtain ⟨sys, hsys, rfl⟩ := Option.map_eq_some_iff.mp hrcv
    obtain ⟨ackd, sendCq, wrs, -, -, rfl⟩ := wait_views id hsys
    exact h.keep (List.Subset.refl _) rfl rfl
  | perform i => exact h.perform i hs
  | release k =>
    simp only [DirectReadDelivery.step, Option.ite_none_right_eq_some] at hs
    obtain rfl := Option.some.inj hs.2
    exact h.keep (List.Subset.refl _) rfl rfl

end Steps

section Network

variable {s t : System}

theorem network_careful {e : Event} (he : Network e) (s : System) : Careful s e := by
  cases e <;> trivial

structure Follows (s t : System) : Prop where
  requests : t.rcv.sys.requests = s.rcv.sys.requests
  waited : t.rcv.sys.waited = s.rcv.sys.waited
  conn : t.rcv.sys.conn = s.rcv.sys.conn
  pending : ∀ p ∈ s.pending, ∃ q ∈ t.pending, q.block = p.block ∧ q.req = p.req ∧ q.since = p.since

theorem network_step {e : Event} (he : Network e) (hs : step s e = some t) : Follows s t := by
  cases e with
  | announce i =>
    obtain ⟨hsys, hpending⟩ := announce_views hs
    refine ⟨by rw [hsys], by rw [hsys], by rw [hsys], fun p hp => ⟨p, ?_, rfl, rfl, rfl⟩⟩
    rw [hpending]
    exact hp
  | perform i =>
    simp only [DirectReadDelivery.step, DirectReadDelivery.perform, Option.bind_eq_bind,
      Option.bind_eq_some_iff] at hs
    obtain ⟨w, hw, rcv, hrcv, hs⟩ := hs
    obtain rfl := Option.some.inj hs
    obtain ⟨sys, hsys, rfl⟩ := Option.map_eq_some_iff.mp hrcv
    obtain ⟨ws, v, vs, -, -, rfl⟩ := perform_views i hsys
    refine ⟨rfl, rfl, rfl, fun p hp => ⟨p.ack w, List.mem_map_of_mem hp, ?_⟩⟩
    obtain ⟨hblock, -, hsince, hreq⟩ := ack_block w p
    exact ⟨hblock, hreq, hsince⟩
  | getMemoryRegion | freeRegion | store | sendAsync | wait | call | receiveNew | waitReceive
  | release => exact he.elim

theorem network_run (es : List Event) (hes : ∀ e ∈ es, Network e) (hr : run step es s = some t) :
    Follows s t :=
  run_keeps step (fun _ e => Network e) (Follows s)
    (fun u e v h he hs => by
      have hn := network_step he hs
      refine ⟨hn.requests.trans h.requests, hn.waited.trans h.waited, hn.conn.trans h.conn, ?_⟩
      intro p hp
      obtain ⟨q, hq, hb, hreq, hsince⟩ := h.pending p hp
      obtain ⟨q', hq', hb', hreq', hsince'⟩ := hn.pending q hq
      exact ⟨q', hq', hb'.trans hb, hreq'.trans hreq, hsince'.trans hsince⟩)
    es s t ⟨rfl, rfl, rfl, fun p hp => ⟨p, hp, rfl, rfl, rfl⟩⟩
    (meets_of_forall _ _ es (fun e he _ => hes e he) s) hr

theorem queue_drains (n : ℕ) (h : Sound s) (hsettled : Settled s)
    (hn : s.rcv.sys.sendQueue.length = n) :
    ∃ es t, (∀ e ∈ es, Network e) ∧ run step es s = some t ∧ Sound t ∧ Settled t ∧
      t.rcv.sys.sendQueue = [] := by
  induction n generalizing s with
  | zero =>
    exact ⟨[], s, fun e he => (List.not_mem_nil he).elim, rfl, h, hsettled,
      List.eq_nil_of_length_eq_zero hn⟩
  | succ n ih =>
    obtain ⟨w, ws, hq⟩ := List.exists_cons_of_length_eq_add_one hn
    obtain ⟨u, hu, -, hqueue⟩ := ReadDuplex.perform_first hq
    have hlen : u.rcv.sys.sendQueue.length = n := by
      rw [hqueue]
      rw [hq, List.length_cons] at hn
      omega
    obtain ⟨es, t, hes, hrun, ht⟩ := ih (step_simulates h (.perform 0) trivial hu).1
      (hsettled.step h (.perform 0) hu) hlen
    refine ⟨.perform 0::es, t, ?_, (run_cons ..).mpr ⟨u, hu, hrun⟩, ht⟩
    intro e he
    rcases List.mem_cons.mp he with rfl | he
    · trivial
    · exact hes e he

theorem answered (h : Sound s) (p : Pending) (hp : p ∈ s.pending)
    (hw : (step s (.wait p.block.addr)).isSome) : ∃ i, p.since ≤ i ∧
      s.rcv.sys.requests[i]? = some p.req ∧
      (s.rcv.sys.conn.fence = true ∨ i+1 ∈ s.rcv.sys.waited) := by
  have hset : s.smem p.block.addr.toNat ≠ 0 := by
    intro hz
    simp [DirectReadDelivery.step, wait, hz] at hw
  rw [Ne, h.lent.flag p hp] at hset
  push Not at hset
  obtain ⟨id, hstage⟩ := hset
  obtain ⟨hsince, hreq⟩ := h.tracked.asked p hp id (Or.inr hstage)
  have hasked : Asked s.rcv.sys id := by
    by_contra hna
    exact h.tracked.acked p hp id hstage (acks_asked h id hna)
  refine ⟨id-1, by omega, hreq, ?_⟩
  rw [Nat.sub_add_cancel (by omega)]
  exact hasked.2.2

theorem returns (h : Sound s) (hsettled : Settled s) (hq : s.rcv.sys.sendQueue = []) (p : Pending)
    (hp : p ∈ s.pending) (i : ℕ) (hi : p.since ≤ i) (hreq : s.rcv.sys.requests[i]? = some p.req)
    (ha : s.rcv.sys.conn.fence = true ∨ i+1 ∈ s.rcv.sys.waited) :
    (step s (.wait p.block.addr)).isSome := by
  have hlt := (List.getElem?_eq_some_iff.mp hreq).1
  have honce := h.rcv.once i p.req hreq ⟨Nat.le_add_left 1 i, hlt, ha⟩
  have hacks : acksOf (i+1) s.rcv.sys.done ≠ [] := by
    intro hnil
    have hperm : (acksOf (i+1) (s.rcv.sys.done++s.rcv.sys.sendQueue)).Perm
        (acksOf (i+1) s.rcv.sys.posted) := h.order.perm.filter _
    rw [hq, List.append_nil, hnil, honce] at hperm
    exact List.cons_ne_nil _ _ hperm.nil_eq.symm
  have hstage : p.stage = .acked (i+1) := by
    rcases hsettled.only p hp i hi hreq with hs | hs
    · exact absurd (hsettled.unacked p hp _ hs) hacks
    · exact hs
  have hset : s.smem p.block.addr.toNat ≠ 0 := by
    rw [Ne, h.lent.flag p hp]
    intro hnone
    exact hnone _ hstage
  simp [DirectReadDelivery.step, wait, hset]

end Network

/-- The network alone ends the wait for a message exactly if the receiver has accepted its
request and, without fences, waited for it. -/
theorem direct_read_wait_iff (fence : Bool) (rq : ReceiveQueue.Queue) (smem rmem : ℕ → UInt8)
    (es : List Event) (s : System) (hm : Meets step Careful es (init fence rq smem rmem))
    (hr : run step es (init fence rq smem rmem) = some s) (p : Pending) (hp : p ∈ s.pending) :
    (∃ ns t, (∀ e ∈ ns, Network e) ∧ run step ns s = some t ∧
      (step t (.wait p.block.addr)).isSome) ↔
    ∃ i, p.since ≤ i ∧ s.rcv.sys.requests[i]? = some p.req ∧
      (s.rcv.sys.conn.fence = true ∨ i+1 ∈ s.rcv.sys.waited) := by
  obtain ⟨h, hsettled⟩ : Sound s ∧ Settled s := run_keeps step Careful (fun s => Sound s ∧ Settled s)
    (fun s e t h he hs => ⟨(step_simulates h.1 e he hs).1, h.2.step h.1 e hs⟩) es _ s
    ⟨init_sound fence rq smem rmem, init_settled fence rq smem rmem⟩ hm hr
  constructor
  · rintro ⟨ns, t, hns, hrun, hw⟩
    have hsound : Sound t := run_keeps step Careful Sound
      (fun _ e _ h he hs => (step_simulates h e he hs).1) ns s t h
      (meets_of_forall step Careful ns (fun e he u => network_careful (hns e he) u) s) hrun
    have hf := network_run ns hns hrun
    obtain ⟨q, hq, hblock, hreq, hsince⟩ := hf.pending p hp
    rw [← hblock] at hw
    have hanswer := answered hsound q hq hw
    rwa [hf.requests, hf.waited, hf.conn, hreq, hsince] at hanswer
  · rintro ⟨i, hi, hreq, ha⟩
    obtain ⟨ns, t, hns, hrun, hsound, hset, hqueue⟩ := queue_drains _ h hsettled rfl
    have hf := network_run ns hns hrun
    obtain ⟨q, hq, hblock, hqreq, hsince⟩ := hf.pending p hp
    refine ⟨ns, t, hns, hrun, ?_⟩
    rw [← hblock]
    apply returns hsound hset hqueue q hq i
    · rw [hsince]
      exact hi
    · rw [hf.requests, hqreq]
      exact hreq
    · rw [hf.conn, hf.waited]
      exact ha

/-- The acknowledgement is posted and not carried out; the wait still ends. -/
theorem direct_read_wait_iff_posted : ∃ s ns t,
    run step (oneMessage.take 7) (init false RefusedReceive.twoBuffers (fun _ => 0) fun _ => 0) =
      some s ∧ run step ns s = some t ∧ (step t (.wait 4096)).isSome := by
  have hr := run_get step (oneMessage.take 7)
    (init false RefusedReceive.twoBuffers (fun _ => 0) fun _ => 0) (by decide +kernel)
  have hiff := direct_read_wait_iff false RefusedReceive.twoBuffers (fun _ => 0) (fun _ => 0)
    (oneMessage.take 7) _ (by decide +kernel) hr ⟨⟨4096, 5, 7⟩, 3, 0, .taken 1⟩ (by decide +kernel)
  obtain ⟨ns, t, -, hrun, hw⟩ := hiff.mpr ⟨0, by decide +kernel, by decide +kernel, by decide +kernel⟩
  exact ⟨_, ns, t, hr, hrun, hw⟩

end KYM.ReadAnswers
