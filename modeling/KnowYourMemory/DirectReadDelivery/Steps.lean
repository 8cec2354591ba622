import KnowYourMemory.DirectReadDelivery.Calls

/-!
# Direct read simulates a mailbox

Every step of the receiver and of the network, and with the sender's every step, is one of
the mailbox.
-/

set_option autoImplicit false

namespace KYM.DirectReadDelivery
open KYM.Run KYM.MagicMemory KYM.DirectRead KYM.ReadOrder KYM.Mailbox
open KYM.RefusedReceive (Receiver)

section Receiver

variable {s t : System}

theorem waiting_cons (s : System) (rcv : Receiver) (req : ReadRequest)
    (htook : RefusedReceive.Took s.rcv rcv req) : next s.rcv = req ∧
      s.waiting = req::((rcv.announced.drop rcv.taken).map Prod.snd++s.wire) ∧
      rcv.taken ≤ rcv.announced.length := by
  obtain ⟨wrId, hfound⟩ := htook.found
  obtain ⟨hlt, hget⟩ := List.getElem?_eq_some_iff.mp hfound
  refine ⟨by simp [next, hfound], ?_, ?_⟩
  · rw [System.waiting, List.drop_eq_getElem_cons hlt, hget, htook.announced, htook.taken]
    rfl
  · rw [htook.announced, htook.taken]
    exact hlt

theorem refused_sound (h : Sound s) (rcv : Receiver) (req : ReadRequest)
    (htook : RefusedReceive.Took s.rcv rcv req) :
    Simulates s [.receive (), .free s.held.length] { s with rcv := rcv } := by
  obtain ⟨-, hwaiting, harrived⟩ := waiting_cons s rcv req htook
  have htracked := h.tracked
  rw [hwaiting] at htracked
  refine ⟨⟨htook.sys ▸ h.rcv, htook.sys ▸ h.order, h.lent, htook.sys ▸ htracked.refuse,
    htook.sys ▸ h.kept, harrived⟩, fun a ha => ?_⟩
  have hqueue := ha.queue
  rw [hwaiting, List.map_cons] at hqueue
  have hlen : a.held.length = s.held.length := by rw [ha.held, List.length_map]
  have hdrop := run_drop a () (content s.smem req) _ hqueue
  rw [hlen] at hdrop
  refine ⟨⟨_, _, _⟩, hdrop, ?_, ?_⟩
  · simp only [Function.update_self]
    rfl
  · rw [ha.held]
    refine List.map_congr_left (fun x _ => ?_)
    simp only [System.bytes, htook.sys]

theorem readInto_step {r m t : Receiver} {req : ReadRequest} {addr : UInt64} {key : UInt32} {id : ℕ}
    (htook : RefusedReceive.Took r m req) (hread : m.readInto addr key req = (.ok id, t)) :
    DirectRead.step r.sys (.readInto addr key req) = some t.sys ∧
      t.sys.requests = r.sys.requests++[req] ∧ t.announced = m.announced ∧ t.taken = m.taken := by
  unfold Receiver.readInto at hread
  split at hread
  · cases hread
  next wrs conn hok =>
  obtain ⟨-, rfl⟩ := Prod.mk.inj hread
  refine ⟨?_, by rw [htook.sys], rfl, rfl⟩
  rw [← htook.sys]
  simp only [DirectRead.step, hok]

theorem accepted_sound (h : Sound s) (rcv m : Receiver) (req : ReadRequest) (addr : UInt64)
    (length key : UInt32) (id : ℕ) (htook : RefusedReceive.Took s.rcv m req)
    (hlen : req.length ≤ length) (hread : m.readInto addr key req = (.ok id, rcv))
    (hc : Clear s addr length) : Simulates s [.receive ()] (accept s rcv addr) := by
  obtain ⟨hnext, hwaiting, harrived⟩ := waiting_cons s m req htook
  obtain ⟨hstep, hrequests, hann, htaken⟩ := readInto_step htook hread
  rw [← hann, ← htaken] at hwaiting harrived
  have hlast : rcv.sys.requests.length = s.rcv.sys.requests.length+1 := by
    rw [hrequests, List.length_append, List.length_singleton]
  have hregular : Regular s.rcv.sys (.readInto addr key req) := ⟨trivial, hc.2⟩
  have hknown : ∀ x ∈ s.held, x.id ≤ s.rcv.sys.requests.length := by
    intro x hx
    obtain ⟨h1, r, hr, -⟩ := h.kept.known x hx
    have := (List.getElem?_eq_some_iff.mp hr).1
    omega
  have hnew : ∀ x ∈ s.held, Apart (addr.toNat, req.length.toNat) x.range := by
    intro x hx
    have hap := hc.1 x hx
    have hle := UInt32.le_iff_toNat_le.mp hlen
    simp only [Apart] at hap ⊢
    omega
  have hqueue : ∃ f acks, rcv.sys.sendQueue = s.rcv.sys.sendQueue++
      wrData f (s.rcv.sys.requests.length+1) addr key req::acks ∧ rcv.sys.done = s.rcv.sys.done ∧
      ∀ w ∈ acks, w.opcode = .rdmaWrite := by
    rcases issue_views addr key req hstep with he | ⟨-, acks, table, hacks, -, he⟩
    · rw [he] at hlast
      omega
    · refine ⟨_, acks, by rw [he, h.rcv.next], by rw [he], fun w hw => ?_⟩
      rw [hacks] at hw
      split at hw
      · rw [List.mem_singleton.mp hw]
        rfl
      · cases hw
  obtain ⟨f, acks, hqueue, hdone, hacks⟩ := hqueue
  have htracked := h.tracked
  rw [hwaiting] at htracked
  obtain ⟨htracked, hposted⟩ := htracked.accept h.lent
  have hlent : Lent s.blocks (s.pending.map (Pending.accepted req (s.rcv.sys.requests.length+1)))
      s.smem := by
    refine h.lent.map _ _ (fun p => (accepted_block req _ p).1) (fun p => (accepted_block req _ p).2.1)
      (fun _ _ _ => rfl) (fun p hp => (h.lent.flag p hp).trans ?_)
    unfold Pending.accepted
    split
    · next hpr => simp [hposted p hp hpr]
    · rfl
  refine ⟨⟨h.rcv.step _ hregular hstep, h.order.step h.rcv _ hregular hstep, ?_, ?_, ?_, harrived⟩,
    fun a ha => ?_⟩
  · simp only [accept, hnext, hlast]
    exact hlent
  · simp only [accept, hnext, hrequests, hdone, System.waiting, List.length_append,
      List.length_singleton]
    exact htracked
  · simp only [accept, hnext, hrequests, hqueue, List.length_append, List.length_singleton]
    exact h.kept.accept addr key f hknown hnew hacks
  have hq := ha.queue
  rw [hwaiting, List.map_cons] at hq
  refine ⟨⟨Function.update a.queue () _, a.held++[((), content s.smem req)], _⟩,
    by simp only [run, Mailbox.step, hq]; rfl, ?_, ?_⟩
  · simp only [Function.update_self]
    rfl
  · rw [ha.held]
    simp only [accept, List.map_append, List.map_cons, List.map_nil]
    congr 1
    · refine List.map_congr_left (fun x hx => ?_)
      obtain ⟨-, r, hr, -⟩ := h.kept.known x hx
      simp only [System.bytes, hdone, hrequests,
        List.getElem?_append_left (List.getElem?_eq_some_iff.mp hr).1]
    · have hunread : s.rcv.sys.requests.length+1 ∉ reads s.rcv.sys.done := by
        intro hin
        have hle := (h.order.mem_done.mp hin).2
        have hlen := congrArg List.length h.order.order
        rw [List.length_append, List.length_range'] at hlen
        omega
      simp [System.bytes, hdone, hrequests, hunread]

theorem take_sound (h : Sound s) (addr : UInt64) (length : UInt32)
    (x : Option (Option RingBuffer.Status × Receiver)) (hx : Serves s.rcv addr length x)
    (hc : Clear s addr length) (hs : take s addr x = some t) : Simulates s (takes s x) t := by
  unfold take at hs
  split at hs
  · cases hs
  · next e rcv =>
    obtain rfl := Option.some.inj hs
    obtain ⟨req, htook⟩ := hx.refused e rcv rfl
    exact refused_sound h rcv req htook
  · next rcv =>
    obtain rfl := Option.some.inj hs
    obtain ⟨m, req, key, id, htook, hlen, hread⟩ := hx.accepted rcv rfl
    exact accepted_sound h rcv m req addr length key id htook hlen hread hc

theorem waitReceive_sound (h : Sound s) (id : ℕ) (hc : Careful s (.waitReceive id))
    (hs : step s (.waitReceive id) = some t) : Simulates s [] t := by
  obtain ⟨rcv, hrcv, rfl⟩ := Option.map_eq_some_iff.mp hs
  obtain ⟨sys, hsys, rfl⟩ := Option.map_eq_some_iff.mp hrcv
  have hregular : Regular s.rcv.sys (.waitReceive id) := ⟨hc, trivial⟩
  have hsound := h.rcv.step _ hregular hsys
  have horder := h.order.step h.rcv _ hregular hsys
  obtain ⟨req, -, hack⟩ := wait_posts h.rcv id hc
  obtain ⟨ackd, sendCq, wrs, -, hwrs, rfl⟩ := wait_views id hsys
  have hwrites : ∀ w ∈ wrs, w.opcode = .rdmaWrite := by
    intro w hw
    rw [hwrs] at hw
    split at hw
    · cases hw
    · next hf =>
      rw [List.mem_singleton.mp hw, hack (by simpa using hf)]
      rfl
  exact ⟨⟨hsound, horder, h.lent, h.tracked, h.kept.wait hwrites, h.arrived⟩,
    fun a ha => ⟨a, rfl, ha.keep h (fun _ _ _ => rfl) rfl rfl rfl rfl rfl⟩⟩

theorem release_sound (h : Sound s) (k : ℕ) (hc : Careful s (.release k)) (hk : k < s.held.length) :
    Simulates s [.free k] { s with held := s.held.eraseIdx k } := by
  refine ⟨⟨h.rcv, h.order, h.lent, h.tracked, h.kept.release k (fun x hx w hw hop he => ?_),
    h.arrived⟩, fun a ha => ?_⟩
  · have hread := h.order.read_waited x.id (h.kept.known x (List.mem_of_getElem? hx)).1 (hc x hx)
    exact h.order.queued_not_done w hw hop (he ▸ hread)
  · have hlen : a.held.length = s.held.length := by rw [ha.held, List.length_map]
    refine ⟨⟨a.queue, a.held.eraseIdx k, a.taken⟩, by simp [run, Mailbox.step, hlen, hk], ha.queue, ?_⟩
    rw [ha.held, List.eraseIdx_map]
    rfl

theorem read_sound (h : Sound s) (w : SendWr) (hw : w ∈ s.rcv.sys.sendQueue)
    (hop : w.opcode = .rdmaRead) (sys : DirectRead.System) (hsys : DirectRead.Sound sys)
    (horder : Ordered sys) (hrequests : sys.requests = s.rcv.sys.requests)
    (hdone : sys.done = s.rcv.sys.done++[w]) (hqueue : sys.sendQueue ⊆ s.rcv.sys.sendQueue) :
    Simulates s [] { s with
      rcv := { s.rcv with sys := sys }
      smem := (effect s.smem s.rmem w).1
      rmem := (effect s.smem s.rmem w).2
      pending := s.pending.map (Pending.ack w) } := by
  obtain ⟨x, hx, hid, ⟨lkey, hsge⟩, req, hreq, haddr⟩ := h.kept.queue w hw hop
  obtain ⟨-, req', hreq', hlen⟩ := h.kept.known x hx
  obtain rfl : req' = req := Option.some.inj (hreq'.symm.trans hreq)
  have hack : s.pending.map (Pending.ack w) = s.pending := by
    refine (List.map_congr_left (fun p _ => ?_)).trans (List.map_id _)
    simp [Pending.ack, hop]
  have heffect : effect s.smem s.rmem w =
      (s.smem, put s.rmem x.addr.toNat (content s.smem req')) := by
    simp only [effect, hop, hsge, haddr, content, hlen]
  have hreads : reads sys.done = reads s.rcv.sys.done++[x.id] := by
    rw [hdone, reads_append, reads_cons, if_pos hop, hid]
    rfl
  have htracked := h.tracked.perform w
  rw [hack] at htracked
  have hbytes : (content s.smem req').length = x.length.toNat := by
    rw [content, fetch_length, hlen]
  rw [heffect, hack]
  refine ⟨⟨hsys, horder, h.lent, ?_, ⟨?_, h.kept.once, h.kept.apart, fun v hv hvop => ?_⟩, h.arrived⟩,
    fun a ha => ⟨a, rfl, ha.queue, ?_⟩⟩
  · simp only [hrequests, hdone]
    exact htracked
  · simp only [hrequests]
    exact h.kept.known
  · simp only [hrequests]
    exact h.kept.queue v (hqueue hv) hvop
  rw [ha.held]
  refine List.map_congr_left (fun y hy => ?_)
  simp only [System.bytes, hreads, hrequests, List.mem_append, List.mem_singleton, Prod.mk.injEq,
    true_and]
  by_cases hyx : y.id = x.id
  · obtain rfl : y = x := List.inj_on_of_nodup_map h.kept.once hy hx hyx
    have hunread : y.id ∉ reads s.rcv.sys.done := hid ▸ h.order.queued_not_done w hw hop
    rw [if_neg hunread, if_pos (Or.inr rfl), hreq, ← hbytes, fetch_put]
    rfl
  · have hap := h.kept.apart x hx y hy (Ne.symm hyx)
    have hsame := fetch_put_apart s.rmem x.addr.toNat (content s.smem req') y.range (hbytes ▸ hap)
    simp only [Held.range] at hsame
    simp only [hyx, or_false, hsame]

theorem ack_sound (h : Sound s) (w : SendWr) (hw : w ∈ s.rcv.sys.sendQueue)
    (hop : w.opcode = .rdmaWrite) (sys : DirectRead.System) (hsys : DirectRead.Sound sys)
    (horder : Ordered sys) (hrequests : sys.requests = s.rcv.sys.requests)
    (hdone : sys.done = s.rcv.sys.done++[w]) (hqueue : sys.sendQueue ⊆ s.rcv.sys.sendQueue) :
    Simulates s [] { s with
      rcv := { s.rcv with sys := sys }
      smem := (effect s.smem s.rmem w).1
      rmem := (effect s.smem s.rmem w).2
      pending := s.pending.map (Pending.ack w) } := by
  obtain ⟨i, req, hreq, hwr, hnil⟩ := queued_ack h.rcv h.order w hw hop
  obtain ⟨p, hp, hstage, rfl⟩ := h.tracked.taken i req hreq hnil
  obtain ⟨hblock, -⟩ := h.lent.inside p hp
  have hid : w.wrId = i+1 := by rw [hwr]; rfl
  have heffect : effect s.smem s.rmem w = (put s.smem p.block.addr.toNat [1], s.rmem) := by
    rw [hwr, ← (h.lent.place hp).2.2.1]
    rfl
  have hreads : reads sys.done = reads s.rcv.sys.done := by
    rw [hdone, reads_append, reads_cons, if_neg (by simp [hop])]
    exact List.append_nil _
  have hsole : ∀ q ∈ s.pending, q.stage = .taken w.wrId → q = p := by
    intro q hq hqs
    have hqr := (h.tracked.asked q hq _ (Or.inl hqs)).2
    rw [hid, Nat.add_sub_cancel, hreq, Option.some.injEq] at hqr
    exact h.lent.eq_of_req hq hp (by rw [hqr])
  have hlent : Lent s.blocks (s.pending.map (Pending.ack w)) (put s.smem p.block.addr.toNat [1]) := by
    refine h.lent.map _ _ (fun q => (ack_block w q).1) (fun q => (ack_block w q).2.1)
      (fun b hb hi => ?_) (fun q hq => ?_)
    · exact other_flag _ _ _ (fun he : p.block.addr = b.addr => hi (he ▸ List.mem_map_of_mem hp)) 1
    · by_cases hqp : q.stage = .taken w.wrId
      · rw [hsole q hq hqp, put_self, Pending.ack, if_pos ⟨hop, hid ▸ hstage⟩]
        simp
      · have hne : p.block.addr ≠ q.block.addr := by
          intro he
          rw [← h.lent.eq_of_addr hp hq he, hid] at hqp
          exact hqp hstage
        rw [other_flag _ _ _ hne, Pending.ack, if_neg (fun hc => hqp hc.2)]
        exact h.lent.flag q hq
  rw [heffect]
  refine ⟨⟨hsys, horder, hlent, ?_, ⟨?_, h.kept.once, h.kept.apart, fun v hv hvop => ?_⟩, h.arrived⟩,
    fun a ha => ⟨a, rfl, ha.keep h (fun q hq _ => h.lent.content_flag hq _ hblock 1) rfl rfl rfl
      hrequests hreads⟩⟩
  · simp only [hrequests, hdone]
    exact h.tracked.perform w
  · simp only [hrequests]
    exact h.kept.known
  · simp only [hrequests]
    exact h.kept.queue v (hqueue hv) hvop

theorem perform_sound (h : Sound s) (i : ℕ) (hs : perform s i = some t) : Simulates s [] t := by
  simp only [perform, Option.bind_eq_bind, Option.bind_eq_some_iff] at hs
  obtain ⟨w, hw, rcv, hrcv, hs⟩ := hs
  obtain rfl := Option.some.inj hs
  obtain ⟨sys, hsys, rfl⟩ := Option.map_eq_some_iff.mp hrcv
  have hregular : Regular s.rcv.sys (.perform i) := ⟨trivial, trivial⟩
  have hsound := h.rcv.step _ hregular hsys
  have horder := h.order.step h.rcv _ hregular hsys
  simp only [DirectRead.step, DirectRead.perform, hw] at hsys
  split at hsys
  case isFalse => cases hsys
  obtain rfl := Option.some.inj hsys
  have hin : w ∈ s.rcv.sys.sendQueue := List.mem_of_getElem? hw
  have hsub : s.rcv.sys.sendQueue.eraseIdx i ⊆ s.rcv.sys.sendQueue := List.eraseIdx_subset
  cases hop : w.opcode with
  | rdmaRead => exact read_sound h w hin hop _ hsound horder rfl rfl hsub
  | rdmaWrite => exact ack_sound h w hin hop _ hsound horder rfl rfl hsub

theorem step_simulates (h : Sound s) (e : Event) (he : Careful s e) (hs : step s e = some t) :
    Simulates s (calls s e) t := by
  cases e with
  | getMemoryRegion mr =>
    obtain rfl := Option.some.inj hs
    exact getMemoryRegion_sound h mr he
  | freeRegion k =>
    simp only [step, Option.ite_none_right_eq_some] at hs
    obtain ⟨-, hs⟩ := hs
    obtain rfl := Option.some.inj hs
    exact ⟨⟨h.rcv, h.order, h.lent.free k he, h.tracked, h.kept, h.arrived⟩, fun a ha => ⟨a, rfl,
      ha.keep h (fun _ _ _ => rfl) rfl rfl rfl rfl rfl⟩⟩
  | store addr bytes =>
    obtain rfl := Option.some.inj hs
    exact store_sound h addr bytes he
  | sendAsync k length => exact sendAsync_sound h k length he hs
  | wait id => exact sender_wait_sound h id he hs
  | announce i => exact announce_sound h i hs
  | call c => exact take_sound h _ _ _ (call_serves s.rcv c) he hs
  | receiveNew alloc => exact take_sound h _ _ _ (new_serves s.rcv alloc) he hs
  | waitReceive id => exact waitReceive_sound h id he hs
  | perform i => exact perform_sound h i hs
  | release k =>
    simp only [step, Option.ite_none_right_eq_some] at hs
    obtain ⟨hk, hs⟩ := hs
    obtain rfl := Option.some.inj hs
    exact release_sound h k he hk

theorem announce_views {i : ℕ} (hs : announce s i = some t) :
    t.rcv.sys = s.rcv.sys ∧ t.pending = s.pending := by
  unfold announce at hs
  split at hs
  · cases hs
  obtain ⟨rcv, hrcv, rfl⟩ := Option.map_eq_some_iff.mp hs
  simp only [RefusedReceive.step] at hrcv
  split at hrcv
  · cases hrcv
  · obtain rfl := Option.some.inj hrcv
    exact ⟨rfl, rfl⟩

theorem acks_asked (h : Sound s) (id : ℕ) (hna : ¬Asked s.rcv.sys id) :
    acksOf id s.rcv.sys.done = [] := by
  have hperm : (acksOf id (s.rcv.sys.done++s.rcv.sys.sendQueue)).Perm (acksOf id s.rcv.sys.posted) :=
    h.order.perm.filter _
  rw [h.rcv.unasked id hna, List.perm_nil, acksOf_append] at hperm
  exact (List.append_eq_nil_iff.mp hperm).1

end Receiver

end KYM.DirectReadDelivery
