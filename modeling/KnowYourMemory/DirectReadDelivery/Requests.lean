import KnowYourMemory.DirectReadDelivery.Invariant

/-!
# Requests and regions on their way

What becomes of a request when it is taken, refused, read and acknowledged, and of a region
when it is handed out, read into and given back.
-/

set_option autoImplicit false

namespace KYM.DirectReadDelivery
open KYM.Run KYM.MagicMemory KYM.DirectRead KYM.ReadOrder KYM.Mailbox
open KYM.RefusedReceive (Receiver)

section Requests

variable {blocks : List Region} {pending : List Pending} {smem : ℕ → UInt8}
  {waiting requests : List ReadRequest} {done : List SendWr} {req : ReadRequest}

theorem Tracked.send {b : Region} {length : UInt32} (h : Tracked pending waiting requests done)
    (hl : Lent blocks (pending++[⟨b, length, requests.length, .posted⟩]) smem) :
    Tracked (pending++[⟨b, length, requests.length, .posted⟩])
      (waiting++[Pending.req ⟨b, length, requests.length, .posted⟩]) requests done := by
  set p₀ : Pending := ⟨b, length, requests.length, .posted⟩
  have hlast : p₀ ∈ pending++[p₀] := by simp
  have hold : ∀ p ∈ pending, p ∈ pending++[p₀] := fun p hp => List.mem_append_left _ hp
  refine ⟨fun r hr => ?_, ?_, fun p hp => ?_, fun i r hi ha => ?_, fun p hp id hid => ?_,
    fun p hp id hid => ?_⟩
  · rcases List.mem_append.mp hr with hr | hr
    · obtain ⟨p, hp, hrest⟩ := h.queued r hr
      exact ⟨p, hold p hp, hrest⟩
    · exact ⟨p₀, hlast, rfl, (List.mem_singleton.mp hr).symm⟩
  · rw [List.map_append, List.nodup_append]
    refine ⟨h.once, List.nodup_singleton _, fun x hx y hy he => ?_⟩
    obtain ⟨r, hr, rfl⟩ := List.mem_map.mp hx
    obtain ⟨p, hp, -, rfl⟩ := h.queued r hr
    have hpp : p = p₀ := hl.eq_of_req (hold p hp) hlast (he.trans (List.mem_singleton.mp hy))
    have hnodup := hl.distinct
    rw [List.map_append] at hnodup
    exact (List.nodup_append.mp hnodup).2.2 p.block.addr (List.mem_map_of_mem hp) p₀.block.addr
      (by simp) (by rw [hpp])
  · rcases List.mem_append.mp hp with hp | hp
    · exact h.since p hp
    · exact List.mem_singleton.mp hp ▸ le_refl _
  · obtain ⟨p, hp, hrest⟩ := h.taken i r hi ha
    exact ⟨p, hold p hp, hrest⟩
  · rcases List.mem_append.mp hp with hp | hp
    · exact h.asked p hp id hid
    · rw [List.mem_singleton.mp hp] at hid
      simp [p₀] at hid
  · rcases List.mem_append.mp hp with hp | hp
    · exact h.acked p hp id hid
    · rw [List.mem_singleton.mp hp] at hid
      simp [p₀] at hid

theorem Tracked.refuse (h : Tracked pending (req::waiting) requests done) :
    Tracked pending waiting requests done :=
  ⟨fun r hr => h.queued r (List.mem_cons_of_mem _ hr), (List.nodup_cons.mp h.once).2, h.since, h.taken,
    h.asked, h.acked⟩

theorem Tracked.wait (h : Tracked pending waiting requests done) (keep : Pending → Bool)
    (hk : ∀ p ∈ pending, keep p = false → ∃ id, p.stage = .acked id) :
    Tracked (pending.filter keep) waiting requests done := by
  have hmem : ∀ p ∈ pending, (∀ id, p.stage ≠ .acked id) → p ∈ pending.filter keep := by
    intro p hp hna
    refine List.mem_filter.mpr ⟨hp, ?_⟩
    by_contra hf
    obtain ⟨id, hid⟩ := hk p hp (by simpa using hf)
    exact hna id hid
  refine ⟨fun r hr => ?_, h.once, fun p hp => h.since p (List.mem_of_mem_filter hp), fun i r hi ha => ?_,
    fun p hp => h.asked p (List.mem_of_mem_filter hp), fun p hp => h.acked p (List.mem_of_mem_filter hp)⟩
  · obtain ⟨p, hp, hstage, hreq⟩ := h.queued r hr
    exact ⟨p, hmem p hp (by simp [hstage]), hstage, hreq⟩
  · obtain ⟨p, hp, hstage, hreq⟩ := h.taken i r hi ha
    exact ⟨p, hmem p hp (by simp [hstage]), hstage, hreq⟩

theorem accepted_block (req : ReadRequest) (id : ℕ) (p : Pending) :
    (p.accepted req id).block = p.block ∧ (p.accepted req id).length = p.length ∧
      (p.accepted req id).since = p.since ∧ (p.accepted req id).req = p.req := by
  unfold Pending.accepted
  split <;> exact ⟨rfl, rfl, rfl, rfl⟩

theorem Tracked.accept (h : Tracked pending (req::waiting) requests done)
    (hl : Lent blocks pending smem) :
    Tracked (pending.map (Pending.accepted req (requests.length+1))) waiting (requests++[req]) done ∧
      ∀ p ∈ pending, p.req = req → p.stage = .posted := by
  obtain ⟨p₀, hp₀, hstage₀, hreq₀⟩ := h.queued req (by simp)
  have hsole : ∀ p ∈ pending, p.req = req → p = p₀ := fun p hp hpr =>
    hl.eq_of_req hp hp₀ (by rw [hpr, hreq₀])
  have hother : ∀ p ∈ pending, p.req ≠ req →
      p ∈ pending.map (Pending.accepted req (requests.length+1)) := fun p hp hne =>
    List.mem_map.mpr ⟨p, hp, if_neg hne⟩
  refine ⟨⟨fun r hr => ?_, (List.nodup_cons.mp h.once).2, fun p hp => ?_, fun i r hi ha => ?_,
    fun p hp id hid => ?_, fun p hp id hid => ?_⟩, fun p hp hpr => hsole p hp hpr ▸ hstage₀⟩
  · obtain ⟨p, hp, hstage, hpr⟩ := h.queued r (List.mem_cons_of_mem _ hr)
    refine ⟨p, hother p hp (fun he => ?_), hstage, hpr⟩
    exact (List.nodup_cons.mp h.once).1 (by rw [← he, hpr]; exact List.mem_map_of_mem hr)
  · obtain ⟨q, hq, rfl⟩ := List.mem_map.mp hp
    rw [(accepted_block req _ q).2.2.1, List.length_append]
    exact (h.since q hq).trans (Nat.le_add_right _ _)
  · rcases BoundedStream.getElem?_concat_cases hi with hold | ⟨rfl, rfl⟩
    · obtain ⟨p, hp, hstage, hpr⟩ := h.taken i r hold ha
      refine ⟨p, hother p hp (fun he => ?_), hstage, hpr⟩
      rw [hsole p hp he, hstage₀] at hstage
      cases hstage
    · exact ⟨_, List.mem_map_of_mem hp₀, by rw [Pending.accepted, if_pos hreq₀],
        by rw [(accepted_block _ _ p₀).2.2.2, hreq₀]⟩
  · obtain ⟨q, hq, rfl⟩ := List.mem_map.mp hp
    rw [(accepted_block req _ q).2.2.1, (accepted_block req _ q).2.2.2]
    unfold Pending.accepted at hid
    split at hid
    · next hqr =>
      obtain rfl : requests.length+1 = id := by simpa using hid
      exact ⟨Nat.lt_succ_of_le (h.since q hq), by simp [hqr]⟩
    · obtain ⟨h1, h2⟩ := h.asked q hq id hid
      exact ⟨h1, by rw [List.getElem?_append_left (List.getElem?_eq_some_iff.mp h2).1, h2]⟩
  · obtain ⟨q, hq, rfl⟩ := List.mem_map.mp hp
    unfold Pending.accepted at hid
    split at hid
    · cases hid
    · exact h.acked q hq id hid

theorem ack_block (w : SendWr) (p : Pending) : (p.ack w).block = p.block ∧
    (p.ack w).length = p.length ∧ (p.ack w).since = p.since ∧ (p.ack w).req = p.req := by
  unfold Pending.ack
  split <;> exact ⟨rfl, rfl, rfl, rfl⟩

theorem acksOf_concat (id : ℕ) (w : SendWr) (ws : List SendWr) : acksOf id (ws++[w]) =
    acksOf id ws++if w.opcode = .rdmaWrite ∧ w.wrId = id then [w] else [] := by
  rw [acksOf_append, acksOf_cons]
  rfl

theorem Tracked.perform (h : Tracked pending waiting requests done) (w : SendWr) :
    Tracked (pending.map (Pending.ack w)) waiting requests (done++[w]) := by
  have hkeep : ∀ p ∈ pending, (w.opcode = .rdmaWrite → p.stage ≠ .taken w.wrId) →
      p ∈ pending.map (Pending.ack w) := fun p hp hne =>
    List.mem_map.mpr ⟨p, hp, if_neg (fun hc => hne hc.1 hc.2)⟩
  refine ⟨fun r hr => ?_, h.once, fun p hp => ?_, fun i r hi ha => ?_, fun p hp id hid => ?_,
    fun p hp id hid => ?_⟩
  · obtain ⟨p, hp, hstage, hpr⟩ := h.queued r hr
    exact ⟨p, hkeep p hp (by simp [hstage]), hstage, hpr⟩
  · obtain ⟨q, hq, rfl⟩ := List.mem_map.mp hp
    rw [(ack_block w q).2.2.1]
    exact h.since q hq
  · rw [acksOf_concat, List.append_eq_nil_iff] at ha
    obtain ⟨p, hp, hstage, hpr⟩ := h.taken i r hi ha.1
    refine ⟨p, hkeep p hp (fun hop he => ?_), hstage, hpr⟩
    rw [hstage, Stage.taken.injEq] at he
    simp [hop, he] at ha
  · obtain ⟨q, hq, rfl⟩ := List.mem_map.mp hp
    rw [(ack_block w q).2.2.1, (ack_block w q).2.2.2]
    unfold Pending.ack at hid
    split at hid
    · next hc =>
      obtain rfl : w.wrId = id := by simpa using hid
      exact h.asked q hq _ (Or.inl hc.2)
    · exact h.asked q hq id hid
  · obtain ⟨q, hq, rfl⟩ := List.mem_map.mp hp
    rw [acksOf_concat]
    unfold Pending.ack at hid
    split at hid
    · next hc =>
      obtain rfl : w.wrId = id := by simpa using hid
      simp [hc.1]
    · have hold := h.acked q hq id hid
      simp [hold]

end Requests

section Regions

variable {held : List Held} {requests : List ReadRequest} {sendQueue ws : List SendWr}
  {req : ReadRequest}

theorem Kept.accept (h : Kept held requests sendQueue) (addr : UInt64) (key : UInt32) (f : Bool)
    (hknown : ∀ x ∈ held, x.id ≤ requests.length)
    (hnew : ∀ x ∈ held, Apart (addr.toNat, req.length.toNat) x.range)
    (hws : ∀ w ∈ ws, w.opcode = .rdmaWrite) :
    Kept (held++[⟨requests.length+1, addr, req.length⟩]) (requests++[req])
      (sendQueue++wrData f (requests.length+1) addr key req::ws) := by
  have hreq : ∀ (i : ℕ) (r : ReadRequest), requests[i]? = some r → (requests++[req])[i]? = some r :=
    fun i r hi => by rw [List.getElem?_append_left (List.getElem?_eq_some_iff.mp hi).1, hi]
  refine ⟨fun x hx => ?_, ?_, fun x hx y hy hne => ?_, fun w hw hop => ?_⟩
  · rcases List.mem_append.mp hx with hx | hx
    · obtain ⟨h1, r, hr, hlen⟩ := h.known x hx
      exact ⟨h1, r, hreq _ r hr, hlen⟩
    · rw [List.mem_singleton.mp hx]
      exact ⟨Nat.le_add_left 1 _, req, by simp, rfl⟩
  · rw [List.map_append, List.nodup_append]
    refine ⟨h.once, List.nodup_singleton _, fun i hi j hj he => ?_⟩
    obtain ⟨x, hx, rfl⟩ := List.mem_map.mp hi
    have hle := hknown x hx
    have hj : j = requests.length+1 := List.mem_singleton.mp hj
    omega
  · rcases List.mem_append.mp hx with hx | hx <;> rcases List.mem_append.mp hy with hy | hy
    · exact h.apart x hx y hy hne
    · exact List.mem_singleton.mp hy ▸ (hnew x hx).symm
    · exact List.mem_singleton.mp hx ▸ hnew y hy
    · exact absurd (by rw [List.mem_singleton.mp hx, List.mem_singleton.mp hy]) hne
  · rcases List.mem_append.mp hw with hw | hw
    · obtain ⟨x, hx, hid, hsge, r, hr, haddr⟩ := h.queue w hw hop
      exact ⟨x, List.mem_append_left _ hx, hid, hsge, r, hreq _ r hr, haddr⟩
    · rcases List.mem_cons.mp hw with rfl | hw
      · refine ⟨_, List.mem_append_right _ (List.mem_singleton_self _), rfl, ⟨key, rfl⟩, req, ?_, rfl⟩
        simp
      · rw [hws w hw] at hop
        cases hop

theorem Kept.wait (h : Kept held requests sendQueue) (hws : ∀ w ∈ ws, w.opcode = .rdmaWrite) :
    Kept held requests (sendQueue++ws) := by
  refine ⟨h.known, h.once, h.apart, fun w hw hop => ?_⟩
  rcases List.mem_append.mp hw with hw | hw
  · exact h.queue w hw hop
  · rw [hws w hw] at hop
    cases hop

theorem Kept.release (h : Kept held requests sendQueue) (k : ℕ)
    (hk : ∀ x ∈ held[k]?, ∀ w ∈ sendQueue, w.opcode = .rdmaRead → w.wrId ≠ x.id) :
    Kept (held.eraseIdx k) requests sendQueue := by
  have hsub : ∀ x ∈ held.eraseIdx k, x ∈ held := fun x hx => List.mem_of_mem_eraseIdx hx
  refine ⟨fun x hx => h.known x (hsub x hx), ((List.eraseIdx_sublist held k).map _).nodup h.once,
    fun x hx y hy => h.apart x (hsub x hx) y (hsub y hy), fun w hw hop => ?_⟩
  obtain ⟨x, hx, hid, hrest⟩ := h.queue w hw hop
  obtain ⟨i, hi⟩ := List.mem_iff_getElem?.mp hx
  have hik : i ≠ k := by
    rintro rfl
    exact hk x hi w hw hop hid.symm
  exact ⟨x, List.mem_eraseIdx_iff_getElem?.mpr ⟨i, hik, hi⟩, hid, hrest⟩

end Regions

section Content

variable {s t : System} {a : Box Unit (List UInt8)}

theorem Sound.unread (h : Sound s) (x : Held) (hx : x ∈ s.held)
    (hr : x.id ∉ reads s.rcv.sys.done) : ∃ p ∈ s.pending, (∀ id, p.stage ≠ .acked id) ∧
      p.stage = .taken x.id ∧ s.rcv.sys.requests[x.id-1]? = some p.req := by
  obtain ⟨h1, req, hreq, -⟩ := h.kept.known x hx
  have hnil : acksOf x.id s.rcv.sys.done = [] := by
    refine List.eq_nil_iff_forall_not_mem.mpr (fun w hw => hr ?_)
    obtain ⟨hw, hop⟩ := List.mem_filter.mp hw
    have hop := of_decide_eq_true hop
    obtain ⟨i, hi⟩ := List.mem_iff_getElem?.mp hw
    rw [← hop.2, ← readIn_iff]
    exact (h.rcv.follows i w hi hop.1).mono (List.take_subset _ _)
  obtain ⟨p, hp, hstage, rfl⟩ := h.tracked.taken (x.id-1) req hreq (by rwa [Nat.sub_add_cancel h1])
  rw [Nat.sub_add_cancel h1] at hstage
  exact ⟨p, hp, by simp [hstage], hstage, hreq⟩

theorem Matches.keep (hm : Matches s a) (h : Sound s)
    (hcontent : ∀ p ∈ s.pending, (∀ id, p.stage ≠ .acked id) →
      content t.smem p.req = content s.smem p.req)
    (hwaiting : t.waiting = s.waiting) (hheld : t.held = s.held) (hrmem : t.rmem = s.rmem)
    (hrequests : t.rcv.sys.requests = s.rcv.sys.requests)
    (hreads : reads t.rcv.sys.done = reads s.rcv.sys.done) : Matches t a := by
  refine ⟨?_, ?_⟩
  · rw [hm.queue, hwaiting]
    refine List.map_congr_left (fun req hreq => ?_)
    obtain ⟨p, hp, hstage, rfl⟩ := h.tracked.queued req hreq
    exact (hcontent p hp (by simp [hstage])).symm
  · rw [hm.held, hheld]
    refine List.map_congr_left (fun x hx => ?_)
    unfold System.bytes
    rw [hreads, hrmem, hrequests]
    by_cases hr : x.id ∈ reads s.rcv.sys.done
    · rw [if_pos hr, if_pos hr]
    · obtain ⟨p, hp, hna, -, hreq⟩ := h.unread x hx hr
      rw [if_neg hr, if_neg hr, hreq, Option.map_some, Option.map_some, hcontent p hp hna]

end Content

end KYM.DirectReadDelivery
