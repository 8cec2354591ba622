import KnowYourMemory.ListenerDelivery.System

/-!
# Delivery to a listener

Any number of connections send to one listener, which polls one completion queue. It sees them
as a mailbox in which every connection has a queue.
-/

set_option autoImplicit false

namespace KYM.ListenerDelivery
open KYM.Run KYM.RingBuffer KYM.ReceiveQueue KYM.ReceiveBuffers KYM.Mailbox KYM.SendRegions
open KYM.ReceiveBuffers.Listener (qpOf wrOf)

section Steps

variable {s t : System}

theorem init_sound (mem : ℕ → UInt8) (mems : UInt32 → ℕ → UInt8) : Sound (init mem mems) where
  ln := Listener.init_sound
  senders qpNum := SendRegions.init_sound (mems qpNum)
  areas _ _ h := by cases h
  allocated _ h := by cases h
  apart := List.Pairwise.nil
  unpolled _ h := by cases h
  held _ h := by cases h

theorem areas_apart (h : Sound s) (qp qp' : UInt32) (A B : Area) (hA : s.areaOf qp = some A)
    (hB : s.areaOf qp' = some B) (hne : qp ≠ qp') : A.Apart B :=
  h.apart.forall (h.areas qp A hA) (h.areas qp' B hB) (fun he => hne (Prod.mk.inj he).1)

theorem In.apart_of (h : Sound s) {qp qp' : UInt32} {A B : Area} {i j : ℕ} {p q : ℕ × ℕ}
    (hA : s.areaOf qp = some A) (hB : s.areaOf qp' = some B) (hp : A.In i p) (hq : B.In j q)
    (hne : qp' = qp → j ≠ i) : (plain : Medium (ℕ → UInt8) _ _).Apart p q := by
  by_cases he : qp' = qp
  · subst he
    obtain rfl := Option.some.inj (hA.symm.trans hB)
    exact In.apart hp hq (Ne.symm (hne rfl))
  · exact In.apart_areas (areas_apart h qp qp' A B hA hB (Ne.symm he)) hp hq

theorem place_congr (h : t.areaOf = s.areaOf) : t.place = s.place := by
  funext wc
  rw [System.place, System.place, h]

theorem mem_unpolled (wc : Wc) (h : wc ∈ s.ln.rcvCq) :
    wc.wrId.toNat ∈ s.ln.unpolled wc.qpNum :=
  List.mem_filterMap.mpr ⟨wc, h, if_pos rfl⟩

theorem mem_heldOf (reg : ReceiveRegion) (h : reg ∈ s.ln.held) :
    (wrOf reg.context).toNat ∈ s.ln.heldOf (qpOf reg.context) :=
  List.mem_filterMap.mpr ⟨reg, h, if_pos rfl⟩

theorem posted_unique {q : Queue} {unpolled held queued : List ℕ}
    (h : Once q unpolled held queued) (r : Request) (hr : r ∈ q.posted) :
    r.wrId.toNat < q.inflight ∧ r.wrId.toNat ∉ unpolled ∧ r.wrId.toNat ∉ held := by
  have hmem : r.wrId.toNat ∈ ids q.posted := List.mem_map_of_mem hr
  have hpos := List.count_pos_iff.mpr hmem
  have hcount := h r.wrId.toNat
  refine ⟨h.lt _ (by simp [hmem]), fun hu => ?_, fun hu => ?_⟩ <;>
  · have := List.count_pos_iff.mpr hu
    split at hcount <;> omega

theorem setup_area (capacity : UInt32) (mrAddr : UInt64) (lkey : UInt32)
    (transferSize inflight : UInt64) (q : Queue)
    (h : getReceiveQueue capacity mrAddr lkey transferSize inflight = some q) :
    area q = ⟨mrAddr, transferSize, inflight.toNat⟩ := by
  obtain ⟨posted, -, rfl⟩ := Option.map_eq_some_iff.mp h
  rfl

theorem repost_area {q q' : Queue} (wrId : UInt32) (h : q.repost wrId = some q') :
    area q' = area q := by
  simp only [Queue.repost] at h
  split at h
  · obtain ⟨posted, -, rfl⟩ := Option.map_eq_some_iff.mp h
    rfl
  · obtain rfl := Option.some.inj h
    rfl

theorem areaOf_update {qpNum : UInt32} {q : Queue} (q' : Queue) (hq : s.ln.rqs qpNum = some q)
    (ha : area q' = area q) (ht : t.ln.rqs = Function.update s.ln.rqs qpNum (some q')) :
    t.areaOf = s.areaOf := by
  funext qp
  unfold System.areaOf
  by_cases he : qp = qpNum
  · subst he
    rw [ht, Function.update_self, hq, Option.map_some, Option.map_some, ha]
  · rw [ht, Function.update_of_ne he]

theorem accept_views {qpNum capacity : UInt32} {mrAddr : UInt64} {lkey : UInt32}
    {transferSize inflight : UInt64}
    (hs : accept s qpNum capacity mrAddr lkey transferSize inflight = some t) :
    s.areaOf qpNum = none ∧
    (∀ qp, qp ≠ qpNum → t.areaOf qp = s.areaOf qp) ∧
    t.areaOf qpNum = some ⟨mrAddr, transferSize, inflight.toNat⟩ ∧
    s.ln.accept qpNum capacity mrAddr lkey transferSize inflight = some t.ln ∧
    t.ln.rcvCq = s.ln.rcvCq ∧ t.ln.held = s.ln.held ∧ t.mem = s.mem ∧ t.senders = s.senders ∧
    t.areas = s.areas++[(qpNum, ⟨mrAddr, transferSize, inflight.toNat⟩)] := by
  obtain ⟨ln, hln, rfl⟩ := Option.map_eq_some_iff.mp hs
  have haccept := hln
  unfold Listener.accept at hln
  split at hln
  · cases hln
  next hnone =>
  obtain ⟨q, hq, rfl⟩ := Option.map_eq_some_iff.mp hln
  refine ⟨by simp [System.areaOf, hnone], fun qp hqp => ?_, ?_, haccept, rfl, rfl, rfl, rfl, rfl⟩
  · simp [System.areaOf, Function.update_of_ne hqp]
  · simp [System.areaOf, setup_area _ _ _ _ _ q hq]

theorem accept_sound (h : Sound s) {qpNum capacity : UInt32} {mrAddr : UInt64} {lkey : UInt32}
    {transferSize inflight : UInt64}
    (hc : Careful s (.accept qpNum capacity mrAddr lkey transferSize inflight))
    (hs : accept s qpNum capacity mrAddr lkey transferSize inflight = some t) :
    Sound t ∧ t.transport = s.transport := by
  obtain ⟨hnone, hother, hself, hln, hcq, hheld, hmem, hsenders, hareas⟩ := accept_views hs
  have hknown : ∀ qp A, s.areaOf qp = some A → t.areaOf qp = some A := by
    intro qp A hA
    rw [hother qp (by rintro rfl; rw [hnone] at hA; cases hA)]
    exact hA
  have hplace : ∀ wc ∈ s.ln.rcvCq, t.place wc = s.place wc := by
    intro wc hwc
    obtain ⟨A, hA, -⟩ := h.unpolled wc hwc
    rw [System.place, System.place, hknown _ A hA, hA]
  refine ⟨⟨Listener.accept_sound _ _ h.ln _ _ _ _ _ _ hln, ?_, ?_, ?_, ?_, ?_, ?_⟩, ?_⟩
  · rw [hsenders]
    exact h.senders
  · intro qp A hA
    rw [hareas]
    by_cases he : qp = qpNum
    · subst he
      obtain rfl := Option.some.inj (hself.symm.trans hA)
      simp
    · rw [hother qp he] at hA
      exact List.mem_append_left _ (h.areas qp A hA)
  · rw [hareas]
    intro x hx
    rcases List.mem_append.mp hx with hx | hx
    · exact h.allocated x hx
    · rw [List.mem_singleton.mp hx]
      exact hc.1
  · rw [hareas]
    refine List.pairwise_append.mpr ⟨h.apart, List.pairwise_singleton _ _, fun x hx y hy => ?_⟩
    rw [List.mem_singleton.mp hy]
    exact hc.2 x hx
  · rw [hcq]
    intro wc hwc
    obtain ⟨A, hA, hin⟩ := h.unpolled wc hwc
    exact ⟨A, hknown _ A hA, hplace wc hwc ▸ hin⟩
  · rw [hheld]
    intro reg hreg
    obtain ⟨A, hA, hin⟩ := h.held reg hreg
    exact ⟨A, hknown _ A hA, hin⟩
  · unfold System.transport
    rw [hmem, hsenders, hcq, hheld]
    congr 1
    funext u
    exact List.map_congr_left (fun wc hwc => by rw [hplace wc hwc])

theorem deliver_views {qpNum : UInt32} {i : ℕ} (hs : deliver s qpNum i = some t) :
    ∃ m sender q r, transmit (s.senders qpNum) = some (m, sender) ∧ s.ln.rqs qpNum = some q ∧
      q.posted[i]? = some r ∧ m.length ≤ r.sge.length.toNat ∧
      s.ln.arrive qpNum i (UInt32.ofNat m.length) = some t.ln ∧
      t = { s with
        ln := { s.ln with
          rqs := Function.update s.ln.rqs qpNum (some { q with posted := q.posted.eraseIdx i })
          rcvCq := s.ln.rcvCq++[⟨r.wrId, qpNum, UInt32.ofNat m.length⟩] }
        mem := MagicMemory.put s.mem r.sge.addr.toNat m
        senders := Function.update s.senders qpNum sender } := by
  simp only [deliver, Option.bind_eq_bind, Option.bind_eq_some_iff, Prod.exists] at hs
  obtain ⟨m, sender, hm, q, hq, r, hr, ln, hln, hs⟩ := hs
  have harrive := hln
  simp only [Listener.arrive, hq, hr, Option.bind_eq_bind, Option.bind_some,
    Option.some.injEq] at hln
  subst hln
  split at hs
  · next hle =>
    obtain rfl := Option.some.inj hs
    exact ⟨m, sender, q, r, hm, hq, hr, hle, harrive, rfl⟩
  · cases hs

theorem toUInt32_toUInt64 (w : UInt64) (h : w.toNat < 2^32) : w.toUInt32.toUInt64 = w := by
  apply UInt64.toNat_inj.mp
  rw [UInt32.toNat_toUInt64, UInt64.toNat_toUInt32, Nat.mod_eq_of_lt h]

theorem posted_in {q : Queue} (hready : Ready q) (hA : (area q).Allocated) (r : Request)
    (hr : r ∈ q.posted) (hlt : r.wrId.toNat < q.inflight) (n : ℕ) (hn : n ≤ r.sge.length.toNat) :
    (area q).In r.wrId.toNat (r.sge.addr.toNat, n) ∧
      ((area q).bufferAddr r.wrId.toUInt32 = r.sge.addr ∧ (UInt32.ofNat n).toNat = n) := by
  have hsmall := hlt.trans hA.2.2
  have hw : r.wrId.toUInt32.toNat = r.wrId.toNat := by
    rw [UInt64.toNat_toUInt32, Nat.mod_eq_of_lt hsmall]
  have hown : r = q.request r.wrId := hready.posted r hr
  have haddr : r.sge.addr = (area q).bufferAddr r.wrId.toUInt32 := by
    rw [Area.bufferAddr, toUInt32_toUInt64 _ hsmall]
    exact congrArg (fun r => r.sge.addr) hown
  have hlen : r.sge.length.toNat = (area q).size.toNat := by
    have := congrArg (fun r => r.sge.length.toNat) hown
    simp only [Queue.request, UInt64.toNat_toUInt32] at this
    rw [this]
    exact Nat.mod_eq_of_lt hA.2.1
  refine ⟨⟨hlt, ?_, hlen ▸ hn⟩, haddr.symm, ?_⟩
  · simp only [haddr]
    rw [bufferAddr_toNat hA _ (hw ▸ hlt), hw]
  · exact UInt32.toNat_ofNat_of_lt' ((hlen ▸ hn).trans_lt hA.2.1)

theorem deliver_sound (h : Sound s) {qpNum : UInt32} {i : ℕ} (hs : deliver s qpNum i = some t) :
    Sound t ∧ ∀ a, Shows plain (fun _ => ()) s.transport a →
      Shows plain (fun _ => ()) t.transport a := by
  obtain ⟨m, sender, q, r, hm, hq, hr, hle, hln, rfl⟩ := deliver_views hs
  have hmem := List.mem_of_getElem? hr
  have hA : s.areaOf qpNum = some (area q) := by simp [System.areaOf, hq]
  obtain ⟨hsender, hcarried⟩ := transmit_sound (h.senders qpNum) m hm
  obtain ⟨hready, honce⟩ := h.ln.queues qpNum q hq
  obtain ⟨hlt, hunpolled, hheld⟩ := posted_unique honce r hmem
  obtain ⟨hin, haddr, hlen⟩ := posted_in hready (h.allocated _ (h.areas qpNum _ hA)) r hmem hlt
    m.length hle
  set t : System := { s with
    ln := { s.ln with
      rqs := Function.update s.ln.rqs qpNum (some { q with posted := q.posted.eraseIdx i })
      rcvCq := s.ln.rcvCq++[⟨r.wrId, qpNum, UInt32.ofNat m.length⟩] }
    mem := MagicMemory.put s.mem r.sge.addr.toNat m
    senders := Function.update s.senders qpNum sender } with ht
  have hareas : t.areaOf = s.areaOf :=
    areaOf_update { q with posted := q.posted.eraseIdx i } hq rfl rfl
  have hplace : t.place = s.place := place_congr hareas
  have hnew : s.place ⟨r.wrId, qpNum, UInt32.ofNat m.length⟩ = (r.sge.addr.toNat, m.length) := by
    simp only [System.place, hA, Option.map_some, Option.getD_some, haddr, hlen]
  refine ⟨⟨Listener.arrive_sound _ _ h.ln _ _ _ hln, fun qp => ?_, ?_, h.allocated, h.apart, ?_, ?_⟩,
    fun a ha => ?_⟩
  · by_cases he : qp = qpNum
    · subst he
      simpa [ht] using hsender
    · simpa [ht, Function.update_of_ne he] using h.senders qp
  · rw [hareas]
    exact h.areas
  · rw [hareas, hplace]
    intro wc hwc
    rcases List.mem_append.mp hwc with hwc | hwc
    · exact h.unpolled wc hwc
    · rw [List.mem_singleton.mp hwc]
      exact ⟨area q, hA, hnew ▸ hin⟩
  · rw [hareas]
    exact h.held
  · have harrive := ha.arrive qpNum (r.sge.addr.toNat, m.length) m sender.carried hcarried rfl ?_
    · have hcarries : (fun qp => (t.senders qp).carried) =
          Function.update s.transport.carried qpNum sender.carried :=
        Function.comp_update Sender.carried s.senders qpNum sender
      have hinbox : (fun u : Unit => t.ln.rcvCq.map (fun wc => (wc.qpNum, t.place wc))) =
          Function.update s.transport.inbox ()
            (s.transport.inbox ()++[(qpNum, r.sge.addr.toNat, m.length)]) := by
        funext u
        rw [Function.update_self, hplace, List.map_append, List.map_singleton, hnew]
        rfl
      unfold System.transport
      rw [hcarries, hinbox]
      exact harrive
    · rintro p (⟨_, x, hx, rfl⟩ | ⟨x, hx, rfl⟩)
      · obtain ⟨wc, hwc, rfl⟩ := List.mem_map.mp hx
        obtain ⟨B, hB, hinB⟩ := h.unpolled wc hwc
        exact In.apart_of h hA hB hin hinB
          (fun he hi => hunpolled (hi ▸ he ▸ mem_unpolled wc hwc))
      · obtain ⟨reg, hreg, rfl⟩ := List.mem_map.mp hx
        obtain ⟨B, hB, hinB⟩ := h.held reg hreg
        exact In.apart_of h hA hB hin hinB
          (fun he hi => hheld (hi ▸ he ▸ mem_heldOf reg hreg))

theorem sender_sound (h : Sound s) (qpNum : UInt32) (e : SendRegions.Event)
    (he : Leaves (s.senders qpNum) e) (hs : step s (.sender qpNum e) = some t) :
    Sound t ∧ ∀ a, Shows plain (fun _ => ()) s.transport a →
      ∃ b, run Mailbox.step (calls s (.sender qpNum e)) a = some b ∧
        Shows plain (fun _ => ()) t.transport b := by
  obtain ⟨sender, hsender, rfl⟩ := Option.map_eq_some_iff.mp hs
  obtain ⟨hsound, hcarried⟩ := SendRegions.step_sound (h.senders qpNum) e he hsender
  refine ⟨⟨h.ln, fun qp => ?_, h.areas, h.allocated, h.apart, h.unpolled, h.held⟩, fun a ha => ?_⟩
  · by_cases hqp : qp = qpNum
    · subst hqp
      simpa using hsound
    · simpa [Function.update_of_ne hqp] using h.senders qp
  · obtain ⟨b, hb, hshows⟩ := ha.sendAll qpNum (posts (s.senders qpNum) e)
    refine ⟨b, hb, ?_⟩
    unfold System.transport
    rw [carried_update s.senders qpNum _ hcarried]
    exact hshows

theorem receive_views (h : Sound s) {ln : Listener} (hs : s.ln.receive = some ln) :
    ∃ wc rest reg, s.ln.rcvCq = wc::rest ∧ ln = { s.ln with rcvCq := rest, held := s.ln.held++[reg] } ∧
      qpOf reg.context = wc.qpNum ∧ (wrOf reg.context).toNat = wc.wrId.toNat ∧
      regionPlace reg = s.place wc := by
  unfold Listener.receive at hs
  split at hs
  · cases hs
  next wc rest hcq =>
  obtain ⟨q, hq, rfl⟩ := Option.map_eq_some_iff.mp hs
  have hready := (h.ln.queues wc.qpNum q hq).1
  have honce := (h.ln.queues wc.qpNum q hq).2
  have hsmall : wc.wrId.toNat < 2^32 :=
    (honce.lt _ (by simp [Listener.unpolled, hcq])).trans hready.small
  refine ⟨wc, rest, _, hcq, rfl, Listener.qpOf_context _ _ hsmall,
    Listener.wrOf_context _ _ hsmall, ?_⟩
  simp only [regionPlace, System.place, System.areaOf, hq, Option.map_some, Option.getD_some]
  rfl

theorem receive_sound (h : Sound s) (hs : step s .receive = some t) :
    Sound t ∧ ∀ a, Shows plain (fun _ => ()) s.transport a →
      ∃ b, run Mailbox.step (calls s .receive) a = some b ∧
        Shows plain (fun _ => ()) t.transport b := by
  obtain ⟨ln, hln, rfl⟩ := Option.map_eq_some_iff.mp hs
  have hsound := Listener.receive_sound _ _ h.ln hln
  obtain ⟨wc, rest, reg, hcq, rfl, hqp, hwr, hplace⟩ := receive_views h hln
  refine ⟨⟨hsound, h.senders, h.areas, h.allocated, h.apart, fun v hv => ?_, fun r hr => ?_⟩,
    fun a ha => ?_⟩
  · exact h.unpolled v (by rw [hcq]; exact List.mem_cons_of_mem _ hv)
  · rcases List.mem_append.mp hr with hr | hr
    · exact h.held r hr
    · obtain ⟨A, hA, hin⟩ := h.unpolled wc (by simp [hcq])
      rw [List.mem_singleton.mp hr, hqp, hwr, hplace]
      exact ⟨A, hA, hin⟩
  · obtain ⟨b, hb, hshows⟩ := ha.receive () (wc.qpNum, s.place wc)
      (rest.map (fun wc => (wc.qpNum, s.place wc))) (by simp [System.transport, hcq])
    refine ⟨b, by simpa [calls, hcq, run] using hb, ?_⟩
    have hinbox : (fun _ : Unit => rest.map (fun wc => (wc.qpNum, s.place wc))) =
        Function.update s.transport.inbox () (rest.map (fun wc => (wc.qpNum, s.place wc))) := by
      funext u
      rw [Function.update_self]
    have hheld : (s.ln.held++[reg]).map (fun reg => (qpOf reg.context, regionPlace reg)) =
        s.transport.held++[(wc.qpNum, s.place wc)] := by
      rw [List.map_append, List.map_singleton, hqp, hplace]
      rfl
    unfold System.transport
    rw [hheld]
    rw [← hinbox] at hshows
    exact hshows

theorem free_sound (h : Sound s) (k : ℕ) (hs : step s (.free k) = some t) :
    Sound t ∧ ∀ a, Shows plain (fun _ => ()) s.transport a →
      ∃ b, run Mailbox.step (calls s (.free k)) a = some b ∧
        Shows plain (fun _ => ()) t.transport b := by
  obtain ⟨ln, hln, rfl⟩ := Option.map_eq_some_iff.mp hs
  have hsound := Listener.free_sound _ _ h.ln k hln
  simp only [Listener.free, Option.bind_eq_bind, Option.bind_eq_some_iff] at hln
  obtain ⟨reg, hreg, q, hq, q', hq', hln⟩ := hln
  obtain rfl := Option.some.inj hln
  set t : System := { s with ln := { s.ln with
    rqs := Function.update s.ln.rqs (qpOf reg.context) (some q')
    held := s.ln.held.eraseIdx k } } with ht
  have hareas : t.areaOf = s.areaOf := areaOf_update _ hq (repost_area _ hq') rfl
  have hplace : t.place = s.place := place_congr hareas
  refine ⟨⟨hsound, h.senders, ?_, h.allocated, h.apart, ?_, ?_⟩, fun a ha => ?_⟩
  · rw [hareas]
    exact h.areas
  · rw [hareas, hplace]
    exact h.unpolled
  · rw [hareas]
    exact fun r hr => h.held r (List.mem_of_mem_eraseIdx hr)
  · have hk : k < s.transport.held.length := by
      simpa [System.transport] using (List.getElem?_eq_some_iff.mp hreg).1
    obtain ⟨b, hb, hshows⟩ := ha.free k hk
    refine ⟨b, by simpa [calls, run] using hb, ?_⟩
    have hheld : (s.ln.held.eraseIdx k).map (fun reg => (qpOf reg.context, regionPlace reg)) =
        s.transport.held.eraseIdx k := List.eraseIdx_map _ _ _ |>.symm
    unfold System.transport
    rw [hplace]
    simp only [ht]
    rw [hheld]
    exact hshows

theorem step_shows (h : Sound s) (e : Event) (he : Careful s e) (hs : step s e = some t) :
    Sound t ∧ ∀ a, Shows plain (fun _ => ()) s.transport a →
      ∃ b, run Mailbox.step (calls s e) a = some b ∧
        Shows plain (fun _ => ()) t.transport b := by
  cases e with
  | accept qpNum capacity mrAddr lkey transferSize inflight =>
    obtain ⟨hsound, htransport⟩ := accept_sound h he hs
    exact ⟨hsound, fun a ha => ⟨a, rfl, htransport ▸ ha⟩⟩
  | sender qpNum e => exact sender_sound h qpNum e he hs
  | deliver qpNum i =>
    obtain ⟨hsound, hshows⟩ := deliver_sound h hs
    exact ⟨hsound, fun a ha => ⟨a, rfl, hshows a ha⟩⟩
  | receive => exact receive_sound h hs
  | free k => exact free_sound h k hs

end Steps

def System.regions (s : System) : List (UInt32 × List UInt8) :=
  s.ln.held.map (fun reg =>
    (qpOf reg.context, MagicMemory.fetch s.mem reg.addr.toNat reg.length.toNat))

/-- A listener with its senders is a mailbox: the calls that are made at it make up a run
of the mailbox, and every region that is held has the bytes of its message. -/
theorem listener_is_mailbox (mem : ℕ → UInt8) (mems : UInt32 → ℕ → UInt8) (es : List Event)
    (s : System) (hm : Meets step Careful es (init mem mems))
    (hr : run step es (init mem mems) = some s) :
    ∃ a, run Mailbox.step (trace step calls es (init mem mems)) Mailbox.empty = some a ∧
      s.regions = a.held := by
  obtain ⟨a, ha, -, hshows⟩ := run_traces step calls Careful Mailbox.step
    (fun s a => Sound s ∧ Shows plain (fun _ => ()) s.transport a)
    (fun s e t a h he hs => by
      obtain ⟨hsound, hnext⟩ := step_shows h.1 e he hs
      obtain ⟨b, hb, hshows⟩ := hnext a h.2
      exact ⟨b, hb, hsound, hshows⟩)
    es _ s Mailbox.empty ⟨init_sound mem mems, shows_empty mem plain _⟩ hm hr
  refine ⟨a, ha, ?_⟩
  rw [hshows.held, System.transport, List.map_map]
  rfl

/-- Two connections; the first one overwrites its region after `Wait` while its message
is still held, and the second message of the batch arrives in the freed buffer's place. -/
def twoClients : List Event :=
  [.accept 5 8 65536 9 16 2, .accept 6 8 131072 9 16 2, .sender 5 (.store 100 [1, 2, 3]),
    .sender 5 (.sendAsync ⟨0, 100, 3, 0⟩), .sender 6 (.store 200 [7, 8]),
    .sender 6 (.sendBatch [⟨0, 200, 1, 0⟩, ⟨0, 201, 1, 0⟩]), .deliver 6 0, .deliver 5 1, .receive,
    .receive, .sender 5 (.wait 1), .sender 5 .check, .sender 5 .check, .sender 5 (.store 100 [9]),
    .free 0, .deliver 6 0, .receive]

theorem listener_is_mailbox_twoClients :
    ∃ s a, run step twoClients (init (fun _ => 0) fun _ _ => 0) = some s ∧
      run Mailbox.step (trace step calls twoClients (init (fun _ => 0) fun _ _ => 0))
        Mailbox.empty = some a ∧
      s.regions = a.held ∧ s.regions = [(5, [1, 2, 3]), (6, [8])] := by
  have hr := run_get step twoClients (init (fun _ => 0) fun _ _ => 0) (by decide +kernel)
  obtain ⟨a, ha, hheld⟩ := listener_is_mailbox (fun _ => 0) (fun _ _ => 0) twoClients _
    (by decide +kernel) hr
  exact ⟨_, a, hr, ha, hheld, by decide +kernel⟩

end KYM.ListenerDelivery
