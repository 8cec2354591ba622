import KnowYourMemory.ListenerDelivery

/-!
# Delivery through a shared receive queue

All connections of a listener take their buffers from one receive queue, and each hands
back what it frees through a stub queue of its own, or the listener posts it at once.
Completions go to the queue of the connection, or all to that of the listener. A region
does not tell its sender; `sources` records it.
-/

set_option autoImplicit false

namespace KYM.SharedReceiveDelivery
open KYM.Run KYM.RingBuffer KYM.ReceiveQueue KYM.ReceiveBuffers KYM.Mailbox KYM.SendRegions
open KYM.ListenerDelivery

/-- Connection `j` has the queue pair with number `qpNums[j]`. -/
structure System where
  shared : Shared
  mem : ℕ → UInt8
  senders : UInt32 → Sender
  qpNums : List UInt32
  sources : List UInt32

inductive Event where
  | accept (qpNum : UInt32)
  | sender (qpNum : UInt32) (e : SendRegions.Event)
  | deliver (j i : ℕ)
  | receive (cq : ℕ)
  | free (k : ℕ) (conn : Option ℕ)
  | run (j : ℕ)
  deriving DecidableEq, Repr

def init (srq : Queue) (single : Bool) (mem : ℕ → UInt8) (mems : UInt32 → ℕ → UInt8) : System :=
  ⟨Shared.init srq single, mem, fun qpNum => SendRegions.init (mems qpNum), [], []⟩

def accept (s : System) (qpNum : UInt32) : Option System :=
  if qpNum ∈ s.qpNums then none
  else some { s with shared := s.shared.accept, qpNums := s.qpNums++[qpNum] }

def deliver (s : System) (j i : ℕ) : Option System := do
  let qpNum ← s.qpNums[j]?
  let (m, sender) ← transmit (s.senders qpNum)
  let r ← s.shared.srq.posted[i]?
  let shared ← s.shared.arrive j i qpNum (UInt32.ofNat m.length)
  if m.length ≤ r.sge.length.toNat then
    some { s with
      shared := shared
      mem := MagicMemory.put s.mem r.sge.addr.toNat m
      senders := Function.update s.senders qpNum sender }
  else none

def System.next (s : System) (cq : ℕ) : List Wc := ((s.shared.cqs[cq]?).getD []).take 1

def receive (s : System) (cq : ℕ) : Option System :=
  (s.shared.receive cq).map (fun shared => { s with
    shared := shared
    sources := s.sources++(s.next cq).map Wc.qpNum })

def System.accepts (hasRoom : List UInt32 → Bool) (s : System) : Option ℕ → Bool
  | none => true
  | some j => (s.shared.stubs[j]?).elim false (fun c => hasRoom c.queue)

def free (hasRoom : List UInt32 → Bool) (s : System) (k : ℕ) (conn : Option ℕ) : Option System :=
  (s.shared.free hasRoom k conn).map (fun shared => { s with
    shared := shared
    sources := if s.accepts hasRoom conn then s.sources.eraseIdx k else s.sources })

def step (hasRoom : List UInt32 → Bool) (s : System) : Event → Option System
  | .accept qpNum => accept s qpNum
  | .sender qpNum e => (SendRegions.step (s.senders qpNum) e).map (fun sender =>
      { s with senders := Function.update s.senders qpNum sender })
  | .deliver j i => deliver s j i
  | .receive cq => receive s cq
  | .free k conn => free hasRoom s k conn
  | .run j => (s.shared.serve j).map (fun shared => { s with shared := shared })

def calls (hasRoom : List UInt32 → Bool) (s : System) : Event → List (Call UInt32 (List UInt8))
  | .sender qpNum e => (posts (s.senders qpNum) e).map (.send qpNum)
  | .receive cq => (s.next cq).map (fun wc => .receive wc.qpNum)
  | .free k conn => if s.accepts hasRoom conn then [.free k] else []
  | .accept _ | .deliver .. | .run _ => []

/-- The senders keep to their regions. -/
def Careful (s : System) : Event → Prop
  | .sender qpNum e => Leaves (s.senders qpNum) e
  | _ => True

instance (s : System) : ∀ e : Event, Decidable (Careful s e)
  | .sender qpNum e => inferInstanceAs (Decidable (Leaves (s.senders qpNum) e))
  | .accept _ | .deliver .. | .receive _ | .free .. | .run _ => isTrue trivial

def System.area (s : System) : Area := ListenerDelivery.area s.shared.srq

def System.place (s : System) (wc : Wc) : ℕ × ℕ :=
  ((s.area.bufferAddr wc.wrId.toUInt32).toNat, wc.byteLen.toNat)

def System.route (s : System) (qpNum : UInt32) : ℕ :=
  ((s.shared.stubs[s.qpNums.idxOf qpNum]?).map Stub.recvCq).getD 0

def System.transport (s : System) : Transport (ℕ → UInt8) UInt32 ℕ (ℕ × ℕ) (List UInt8) where
  mem := s.mem
  carried qpNum := (s.senders qpNum).carried
  inbox k := ((s.shared.cqs[k]?).getD []).map (fun wc => (wc.qpNum, s.place wc))
  held := s.sources.zip (s.shared.held.map regionPlace)

structure Sound (s : System) : Prop where
  shared : Shared.Sound s.shared
  senders : ∀ qpNum, SendRegions.Sound (s.senders qpNum)
  area : s.area.Allocated
  stubs : s.shared.stubs.length = s.qpNums.length
  nodup : s.qpNums.Nodup
  routed : ∀ k wcs, s.shared.cqs[k]? = some wcs → ∀ wc ∈ wcs, wc.qpNum ∈ s.qpNums ∧
    s.route wc.qpNum = k ∧ s.area.In wc.wrId.toNat (s.place wc)
  sources : s.sources.length = s.shared.held.length
  held : ∀ reg ∈ s.shared.held, s.area.In reg.context.toUInt32.toNat (regionPlace reg)

section Lists

variable {β γ : Type}

theorem inbox_set (f : β → γ) (l : List (List β)) (i : ℕ) (x : List β) (hi : i < l.length) :
    (fun k => (((l.set i x)[k]?).getD []).map f) =
      Function.update (fun k => ((l[k]?).getD []).map f) i (x.map f) := by
  funext k
  by_cases hk : k = i
  · subst hk
    simp [hi]
  · rw [Function.update_of_ne hk, List.getElem?_set_ne (Ne.symm hk)]

theorem getD_concat (l : List (List β)) (k : ℕ) : ((l++[[]])[k]?).getD [] = (l[k]?).getD [] := by
  rcases Nat.lt_trichotomy k l.length with h | h | h
  · rw [List.getElem?_append_left h]
  · subst h
    simp
  · rw [List.getElem?_eq_none (by simp; omega), List.getElem?_eq_none h.le]

theorem zip_eraseIdx (l : List β) (m : List γ) (k : ℕ) :
    (l.eraseIdx k).zip (m.eraseIdx k) = (l.zip m).eraseIdx k := by
  induction l generalizing m k with
  | nil => simp
  | cons a l ih => cases m <;> cases k <;> simp [ih]

theorem recvCq_set (stubs : List Stub) (j : ℕ) (c c' : Stub) (hc : stubs[j]? = some c)
    (h : c'.recvCq = c.recvCq) : (stubs.set j c').map Stub.recvCq = stubs.map Stub.recvCq := by
  obtain ⟨hlt, rfl⟩ := List.getElem?_eq_some_iff.mp hc
  rw [List.map_set, h, ← List.getElem_map Stub.recvCq (h := by simpa using hlt),
    List.set_getElem_self]

end Lists

section Steps

variable {s t : System} {hasRoom : List UInt32 → Bool}

theorem init_sound (capacity : UInt32) (mrAddr : UInt64) (lkey : UInt32)
    (transferSize inflight : UInt64) (srq : Queue) (single : Bool) (mem : ℕ → UInt8)
    (mems : UInt32 → ℕ → UInt8)
    (h : getSharedReceiveQueue capacity mrAddr lkey transferSize inflight = some srq)
    (hA : Area.Allocated ⟨mrAddr, transferSize, inflight.toNat⟩) :
    Sound (init srq single mem mems) where
  shared := Shared.init_sound capacity mrAddr lkey transferSize inflight srq single h
  senders qpNum := SendRegions.init_sound (mems qpNum)
  area := by
    change (ListenerDelivery.area srq).Allocated
    rw [setup_area _ _ _ _ _ srq h]
    exact hA
  stubs := rfl
  nodup := List.nodup_nil
  routed k wcs hk := by simp [init, Shared.init] at hk
  sources := rfl
  held _ h := by cases h

theorem route_eq (h : Sound s) {j : ℕ} {qpNum : UInt32} {c : Stub} (hj : s.qpNums[j]? = some qpNum)
    (hc : s.shared.stubs[j]? = some c) : s.route qpNum = c.recvCq := by
  obtain ⟨hlt, rfl⟩ := List.getElem?_eq_some_iff.mp hj
  rw [System.route, h.nodup.idxOf_getElem j hlt, hc]
  rfl

theorem routed_inbox (h : Sound s) (k : ℕ) (x : UInt32 × ℕ × ℕ) (hx : x ∈ s.transport.inbox k) :
    s.route x.1 = k := by
  obtain ⟨wc, hwc, rfl⟩ := List.mem_map.mp hx
  cases hk : s.shared.cqs[k]? with
  | none => simp [hk] at hwc
  | some wcs =>
    rw [hk] at hwc
    exact (h.routed k wcs hk wc hwc).2.1

theorem mem_unpolled (k : ℕ) (wcs : List Wc) (hk : s.shared.cqs[k]? = some wcs) (wc : Wc)
    (h : wc ∈ wcs) : wc.wrId.toNat ∈ s.shared.unpolled :=
  List.mem_map_of_mem (List.mem_flatten.mpr ⟨wcs, List.mem_of_getElem? hk, h⟩)

theorem route_congr (hq : t.qpNums = s.qpNums)
    (hstubs : t.shared.stubs.map Stub.recvCq = s.shared.stubs.map Stub.recvCq) :
    t.route = s.route := by
  funext qpNum
  rw [System.route, System.route, hq, ← List.getElem?_map, hstubs, List.getElem?_map]

theorem place_congr (h : t.area = s.area) : t.place = s.place := by
  funext wc
  rw [System.place, System.place, h]

theorem Sound.hand (h : Sound s) (hshared : Shared.Sound t.shared) (harea : t.area = s.area)
    (hcqs : t.shared.cqs = s.shared.cqs)
    (hstubs : t.shared.stubs.map Stub.recvCq = s.shared.stubs.map Stub.recvCq)
    (hsources : t.sources.length = t.shared.held.length)
    (hheld : ∀ reg ∈ t.shared.held, reg ∈ s.shared.held)
    (hq : t.qpNums = s.qpNums) (hsenders : t.senders = s.senders) :
    Sound t ∧ t.route = s.route ∧ t.place = s.place := by
  have hroute := route_congr hq hstubs
  have hplace := place_congr harea
  have hlen := congrArg List.length hstubs
  rw [List.length_map, List.length_map] at hlen
  refine ⟨⟨hshared, ?_, ?_, ?_, ?_, ?_, hsources, fun reg hreg => ?_⟩, hroute, hplace⟩
  · rw [hsenders]
    exact h.senders
  · rw [harea]
    exact h.area
  · rw [hlen, hq]
    exact h.stubs
  · rw [hq]
    exact h.nodup
  · rw [hcqs, hq, hroute, hplace, harea]
    exact h.routed
  · rw [harea]
    exact h.held reg (hheld reg hreg)

theorem accept_sound (h : Sound s) (qpNum : UInt32) (hs : accept s qpNum = some t) :
    Sound t ∧ t.transport = s.transport := by
  simp only [accept, Option.ite_none_left_eq_some, Option.some.injEq] at hs
  obtain ⟨hnew, rfl⟩ := hs
  set t : System := { s with shared := s.shared.accept, qpNums := s.qpNums++[qpNum] } with ht
  have hroute : ∀ qp ∈ s.qpNums, t.route qp = s.route qp := by
    intro qp hqp
    have hlt := List.idxOf_lt_length_of_mem hqp
    simp only [System.route, ht, Shared.accept, List.idxOf_append_of_mem hqp]
    rw [List.getElem?_append_left (h.stubs ▸ hlt)]
  have hinbox : ∀ k : ℕ, (t.shared.cqs[k]?).getD [] = (s.shared.cqs[k]?).getD [] := by
    intro k
    simp only [ht, Shared.accept]
    split
    · rfl
    · exact getD_concat _ k
  refine ⟨⟨Shared.accept_sound _ h.shared, h.senders, h.area, ?_, ?_, ?_, h.sources, h.held⟩, ?_⟩
  · simp only [ht, Shared.accept, List.length_append, List.length_singleton, h.stubs]
  · exact List.nodup_append.mpr ⟨h.nodup, List.nodup_singleton _, fun a ha b hb => by
      rw [List.mem_singleton.mp hb]
      rintro rfl
      exact hnew ha⟩
  · intro k wcs hk wc hwc
    have hold := hinbox k
    rw [hk, Option.getD_some] at hold
    cases hc : s.shared.cqs[k]? with
    | none =>
      rw [hc] at hold
      rw [hold] at hwc
      cases hwc
    | some vs =>
      rw [hc, Option.getD_some] at hold
      subst hold
      obtain ⟨h1, h2, h3⟩ := h.routed k wcs hc wc hwc
      exact ⟨List.mem_append_left _ h1, (hroute _ h1).trans h2, h3⟩
  · unfold System.transport
    congr 1
    funext k
    rw [hinbox k]
    rfl

theorem deliver_views {j i : ℕ} (hs : deliver s j i = some t) :
    ∃ qpNum m sender c cq r, s.qpNums[j]? = some qpNum ∧
      transmit (s.senders qpNum) = some (m, sender) ∧ s.shared.stubs[j]? = some c ∧
      s.shared.cqs[c.recvCq]? = some cq ∧ s.shared.srq.posted[i]? = some r ∧
      m.length ≤ r.sge.length.toNat ∧
      s.shared.arrive j i qpNum (UInt32.ofNat m.length) = some t.shared ∧
      t = { s with
        shared := { s.shared with
          srq := { s.shared.srq with posted := s.shared.srq.posted.eraseIdx i }
          cqs := s.shared.cqs.set c.recvCq (cq++[⟨r.wrId, qpNum, UInt32.ofNat m.length⟩]) }
        mem := MagicMemory.put s.mem r.sge.addr.toNat m
        senders := Function.update s.senders qpNum sender } := by
  simp only [deliver, Option.bind_eq_bind, Option.bind_eq_some_iff, Prod.exists] at hs
  obtain ⟨qpNum, hqp, m, sender, hm, r, hr, shared, hshared, hs⟩ := hs
  have harrive := hshared
  simp only [Shared.arrive, Option.bind_eq_bind, Option.bind_eq_some_iff] at hshared
  obtain ⟨c, hc, cq, hcq, r', hr', hshared⟩ := hshared
  obtain rfl := Option.some.inj (hr.symm.trans hr')
  obtain rfl := Option.some.inj hshared
  split at hs
  · next hle =>
    obtain rfl := Option.some.inj hs
    exact ⟨qpNum, m, sender, c, cq, r, hqp, hm, hc, hcq, hr, hle, harrive, rfl⟩
  · cases hs

theorem deliver_sound (h : Sound s) {j i : ℕ} (hs : deliver s j i = some t) :
    Sound t ∧ ∀ a, Shows plain s.route s.transport a → Shows plain t.route t.transport a := by
  obtain ⟨qpNum, m, sender, c, cq, r, hqp, hm, hc, hcq, hr, hle, harrive, rfl⟩ := deliver_views hs
  have hmem := List.mem_of_getElem? hr
  obtain ⟨hsender, hcarried⟩ := transmit_sound (h.senders qpNum) m hm
  obtain ⟨hlt, hunpolled, hheld⟩ := posted_unique h.shared.2 r hmem
  obtain ⟨hin, haddr, hlen⟩ := posted_in h.shared.1 h.area r hmem hlt m.length hle
  have hroute := route_eq h hqp hc
  set wc : Wc := ⟨r.wrId, qpNum, UInt32.ofNat m.length⟩ with hwc
  set t : System := { s with
    shared := { s.shared with
      srq := { s.shared.srq with posted := s.shared.srq.posted.eraseIdx i }
      cqs := s.shared.cqs.set c.recvCq (cq++[wc]) }
    mem := MagicMemory.put s.mem r.sge.addr.toNat m
    senders := Function.update s.senders qpNum sender } with ht
  have hplace : t.place = s.place := place_congr rfl
  have hnew : s.place wc = (r.sge.addr.toNat, m.length) := by
    simp only [System.place, System.area, haddr, hlen, hwc]
  refine ⟨⟨Shared.arrive_sound _ _ h.shared _ _ _ _ harrive, fun qp => ?_, h.area, h.stubs, h.nodup,
    fun k wcs hk v hv => ?_, h.sources, h.held⟩, fun a ha => ?_⟩
  · by_cases he : qp = qpNum
    · subst he
      simpa [ht] using hsender
    · simpa [ht, Function.update_of_ne he] using h.senders qp
  · rw [hplace]
    by_cases hkc : k = c.recvCq
    · subst hkc
      have hlt := (List.getElem?_eq_some_iff.mp hcq).1
      simp only [ht, List.getElem?_set_self hlt, Option.some.injEq] at hk
      subst hk
      rcases List.mem_append.mp hv with hv | hv
      · exact h.routed _ cq hcq v hv
      · rw [List.mem_singleton.mp hv]
        exact ⟨List.mem_of_getElem? hqp, hroute, hnew ▸ hin⟩
    · simp only [ht, List.getElem?_set_ne (Ne.symm hkc)] at hk
      exact h.routed k wcs hk v hv
  · have hshows := ha.arrive qpNum (r.sge.addr.toNat, m.length) m sender.carried hcarried rfl ?_
    · have hcarries : (fun qp => (t.senders qp).carried) =
          Function.update s.transport.carried qpNum sender.carried :=
        Function.comp_update Sender.carried s.senders qpNum sender
      have hinbox : (fun k => ((t.shared.cqs[k]?).getD []).map (fun wc => (wc.qpNum, t.place wc))) =
          Function.update s.transport.inbox (s.route qpNum)
            (s.transport.inbox (s.route qpNum)++[(qpNum, r.sge.addr.toNat, m.length)]) := by
        have hlt := (List.getElem?_eq_some_iff.mp hcq).1
        have hset := inbox_set (fun wc => (wc.qpNum, s.place wc)) s.shared.cqs c.recvCq (cq++[wc]) hlt
        rw [List.map_append, List.map_singleton, hnew] at hset
        rw [hroute, hplace]
        simp only [System.transport, hcq, Option.getD_some]
        exact hset
      unfold System.transport
      rw [hcarries, hinbox]
      exact hshows
    · rintro p (⟨k, x, hx, rfl⟩ | ⟨x, hx, rfl⟩)
      · obtain ⟨v, hv, rfl⟩ := List.mem_map.mp hx
        cases hk : s.shared.cqs[k]? with
        | none => simp [hk] at hv
        | some wcs =>
          rw [hk] at hv
          refine In.apart hin (h.routed k wcs hk v hv).2.2 (fun he => hunpolled ?_)
          exact he ▸ mem_unpolled k wcs hk v hv
      · obtain ⟨reg, hreg, he⟩ := List.mem_map.mp (List.of_mem_zip hx).2
        rw [← he]
        refine In.apart hin (h.held reg hreg) (fun he => hheld ?_)
        exact he ▸ List.mem_map_of_mem hreg

theorem sender_sound (h : Sound s) (qpNum : UInt32) (e : SendRegions.Event)
    (he : Leaves (s.senders qpNum) e) (hs : step hasRoom s (.sender qpNum e) = some t) :
    Sound t ∧ ∀ a, Shows plain s.route s.transport a →
      ∃ b, run Mailbox.step (calls hasRoom s (.sender qpNum e)) a = some b ∧
        Shows plain t.route t.transport b := by
  obtain ⟨sender, hsender, rfl⟩ := Option.map_eq_some_iff.mp hs
  obtain ⟨hsound, hcarried⟩ := SendRegions.step_sound (h.senders qpNum) e he hsender
  refine ⟨⟨h.shared, fun qp => ?_, h.area, h.stubs, h.nodup, h.routed, h.sources, h.held⟩,
    fun a ha => ?_⟩
  · by_cases hqp : qp = qpNum
    · subst hqp
      simpa using hsound
    · simpa [Function.update_of_ne hqp] using h.senders qp
  · obtain ⟨b, hb, hshows⟩ := ha.sendAll qpNum (posts (s.senders qpNum) e)
    refine ⟨b, hb, ?_⟩
    unfold System.transport
    rw [carried_update s.senders qpNum _ hcarried]
    exact hshows

theorem receive_sound (h : Sound s) (cq : ℕ) (hs : step hasRoom s (.receive cq) = some t) :
    Sound t ∧ ∀ a, Shows plain s.route s.transport a →
      ∃ b, run Mailbox.step (calls hasRoom s (.receive cq)) a = some b ∧
        Shows plain t.route t.transport b := by
  obtain ⟨shared, hshared, rfl⟩ := Option.map_eq_some_iff.mp hs
  have hsound := Shared.receive_sound _ _ h.shared cq hshared
  unfold Shared.receive at hshared
  split at hshared
  case h_2 => cases hshared
  next wc rest hk =>
  obtain rfl := Option.some.inj hshared
  have hnext : s.next cq = [wc] := by simp [System.next, hk]
  obtain ⟨-, hrouted, hin⟩ := h.routed cq _ hk wc List.mem_cons_self
  have hsmall : wc.wrId.toNat < 2^32 := hin.1.trans h.area.2.2
  have hlt := (List.getElem?_eq_some_iff.mp hk).1
  rw [hnext]
  refine ⟨⟨hsound, h.senders, h.area, h.stubs, h.nodup, fun k wcs hkt v hv => ?_, ?_,
    fun reg hreg => ?_⟩, fun a ha => ?_⟩
  · by_cases hkc : k = cq
    · subst hkc
      simp only [List.getElem?_set_self hlt, Option.some.injEq] at hkt
      subst hkt
      exact h.routed k _ hk v (List.mem_cons_of_mem _ hv)
    · simp only [List.getElem?_set_ne (Ne.symm hkc)] at hkt
      exact h.routed k wcs hkt v hv
  · simp [h.sources]
  · rcases List.mem_append.mp hreg with hreg | hreg
    · exact h.held reg hreg
    · rw [List.mem_singleton.mp hreg]
      have hw : wc.wrId.toUInt32.toNat = wc.wrId.toNat := by
        rw [UInt64.toNat_toUInt32, Nat.mod_eq_of_lt hsmall]
      rw [hw]
      exact hin
  · obtain ⟨b, hb, hshows⟩ := ha.receive cq (wc.qpNum, s.place wc)
      (rest.map (fun wc => (wc.qpNum, s.place wc))) (by simp [System.transport, hk])
    refine ⟨b, by simpa [calls, hnext, run] using hb, ?_⟩
    have hinbox := inbox_set (fun wc => (wc.qpNum, s.place wc)) s.shared.cqs cq rest hlt
    have hheld : (s.sources++[wc.qpNum]).zip ((s.shared.held++[(⟨wc.wrId,
        (s.shared.srq.getMR wc.wrId.toUInt32).1, wc.byteLen⟩ : ReceiveRegion)]).map regionPlace) =
        s.transport.held++[(wc.qpNum, s.place wc)] := by
      rw [List.map_append, List.zip_append (by rw [List.length_map, h.sources])]
      rfl
    unfold System.transport at hshows ⊢
    simp only [List.map_singleton]
    rw [hheld]
    simp only [← hinbox] at hshows
    exact hshows

theorem free_shows (hroute : t.route = s.route) (hplace : t.place = s.place) (hmem : t.mem = s.mem)
    (hsenders : t.senders = s.senders) (hcqs : t.shared.cqs = s.shared.cqs) (k : ℕ)
    (hsources : t.sources = s.sources.eraseIdx k)
    (hheld : t.shared.held = s.shared.held.eraseIdx k) (hk : k < s.sources.length)
    (hk' : k < s.shared.held.length) (a : Box UInt32 (List UInt8))
    (ha : Shows plain s.route s.transport a) :
    ∃ b, run Mailbox.step [.free k] a = some b ∧ Shows plain t.route t.transport b := by
  obtain ⟨b, hb, hshows⟩ := ha.free k (by simp [System.transport, hk, hk'])
  refine ⟨b, by simpa [run] using hb, ?_⟩
  have hzip : t.sources.zip (t.shared.held.map regionPlace) = s.transport.held.eraseIdx k := by
    rw [hsources, hheld, ← List.eraseIdx_map, zip_eraseIdx]
    rfl
  unfold System.transport
  rw [hroute, hplace, hmem, hsenders, hcqs, hzip]
  exact hshows

theorem free_sound (h : Sound s) (k : ℕ) (conn : Option ℕ)
    (hs : step hasRoom s (.free k conn) = some t) :
    Sound t ∧ ∀ a, Shows plain s.route s.transport a →
      ∃ b, run Mailbox.step (calls hasRoom s (.free k conn)) a = some b ∧
        Shows plain t.route t.transport b := by
  obtain ⟨shared, hshared, rfl⟩ := Option.map_eq_some_iff.mp hs
  have hsound := Shared.free_sound hasRoom _ _ h.shared k conn hshared
  have herase : ∀ reg, s.shared.held[k]? = some reg → k < s.shared.held.length ∧
      k < s.sources.length ∧ (s.sources.eraseIdx k).length = (s.shared.held.eraseIdx k).length := by
    intro reg hreg
    have hk := (List.getElem?_eq_some_iff.mp hreg).1
    have hlen := h.sources
    rw [List.length_eraseIdx_of_lt hk, List.length_eraseIdx_of_lt (by omega)]
    omega
  cases conn with
  | none =>
    simp only [Shared.free, Option.bind_eq_bind, Option.bind_eq_some_iff] at hshared
    obtain ⟨reg, hreg, srq, hsrq, hshared⟩ := hshared
    obtain rfl := Option.some.inj hshared
    obtain ⟨hk', hk, hlen⟩ := herase reg hreg
    simp only [System.accepts, if_true, calls]
    obtain ⟨hnext, hroute, hplace⟩ := h.hand (t := { s with
      shared := { s.shared with srq := srq, held := s.shared.held.eraseIdx k }
      sources := s.sources.eraseIdx k }) hsound (repost_area _ hsrq) rfl rfl hlen
      (fun r hr => List.mem_of_mem_eraseIdx hr) rfl rfl
    exact ⟨hnext, free_shows hroute hplace rfl rfl rfl k rfl rfl hk hk'⟩
  | some j =>
    simp only [Shared.free, Option.bind_eq_bind, Option.bind_eq_some_iff] at hshared
    obtain ⟨reg, hreg, c, hc, hshared⟩ := hshared
    have haccepts : s.accepts hasRoom (some j) = hasRoom c.queue := by simp [System.accepts, hc]
    simp only [calls, haccepts]
    split at hshared
    · next hnone =>
      obtain rfl := Option.some.inj hshared
      have hroom : hasRoom c.queue = false := by simpa [Shared.postStub] using hnone
      simp only [hroom, Bool.false_eq_true, if_false]
      exact ⟨h, fun a ha => ⟨a, rfl, ha⟩⟩
    · next c' hc' =>
      obtain rfl := Option.some.inj hshared
      simp only [Shared.postStub, Option.ite_none_right_eq_some, Option.some.injEq] at hc'
      obtain ⟨hroom, rfl⟩ := hc'
      obtain ⟨hk', hk, hlen⟩ := herase reg hreg
      simp only [hroom, if_true]
      obtain ⟨hnext, hroute, hplace⟩ := h.hand (t := { s with
        shared := { s.shared with
          stubs := s.shared.stubs.set j { c with queue := c.queue++[reg.context.toUInt32] }
          held := s.shared.held.eraseIdx k }
        sources := s.sources.eraseIdx k }) hsound rfl rfl (recvCq_set _ _ _ _ hc rfl) hlen
        (fun r hr => List.mem_of_mem_eraseIdx hr) rfl rfl
      exact ⟨hnext, free_shows hroute hplace rfl rfl rfl k rfl rfl hk hk'⟩

theorem serve_sound (h : Sound s) (j : ℕ) (hs : step hasRoom s (.run j) = some t) :
    Sound t ∧ t.route = s.route ∧ t.transport = s.transport := by
  obtain ⟨shared, hshared, rfl⟩ := Option.map_eq_some_iff.mp hs
  have hsound := Shared.serve_sound _ _ h.shared j hshared
  simp only [Shared.serve, Option.bind_eq_bind, Option.bind_eq_some_iff] at hshared
  obtain ⟨c, hc, hshared⟩ := hshared
  split at hshared
  · obtain rfl := Option.some.inj hshared
    exact ⟨h, rfl, rfl⟩
  · next wrId rest hqueue =>
    obtain ⟨srq, hsrq, hshared⟩ := Option.bind_eq_some_iff.mp hshared
    obtain rfl := Option.some.inj hshared
    obtain ⟨hnext, hroute, hplace⟩ := h.hand (t := { s with shared := { s.shared with
      srq := srq, stubs := s.shared.stubs.set j { c with queue := rest } } }) hsound
      (repost_area _ hsrq) rfl (recvCq_set _ _ _ _ hc rfl) h.sources (fun _ hr => hr) rfl rfl
    refine ⟨hnext, hroute, ?_⟩
    unfold System.transport
    rw [hplace]

theorem step_shows (h : Sound s) (e : Event) (he : Careful s e) (hs : step hasRoom s e = some t) :
    Sound t ∧ ∀ a, Shows plain s.route s.transport a →
      ∃ b, run Mailbox.step (calls hasRoom s e) a = some b ∧
        Shows plain t.route t.transport b := by
  cases e with
  | accept qpNum =>
    obtain ⟨hsound, htransport⟩ := accept_sound h qpNum hs
    refine ⟨hsound, fun a ha => ⟨a, rfl, ?_⟩⟩
    have hshows : Shows plain s.route t.transport a := htransport ▸ ha
    exact hshows.reroute t.route (routed_inbox hsound)
  | sender qpNum e => exact sender_sound h qpNum e he hs
  | deliver j i =>
    obtain ⟨hsound, hshows⟩ := deliver_sound h hs
    exact ⟨hsound, fun a ha => ⟨a, rfl, hshows a ha⟩⟩
  | receive cq => exact receive_sound h cq hs
  | free k conn => exact free_sound h k conn hs
  | run j =>
    obtain ⟨hsound, hroute, htransport⟩ := serve_sound h j hs
    exact ⟨hsound, fun a ha => ⟨a, rfl, hroute.symm ▸ htransport.symm ▸ ha⟩⟩

end Steps

def System.regions (s : System) : List (UInt32 × List UInt8) :=
  s.sources.zip (s.shared.held.map (fun reg =>
    MagicMemory.fetch s.mem reg.addr.toNat reg.length.toNat))

/-- A shared receive queue is a mailbox as well, whichever way the buffers come back. -/
theorem shared_queue_is_mailbox (hasRoom : List UInt32 → Bool) (capacity : UInt32)
    (mrAddr : UInt64) (lkey : UInt32) (transferSize inflight : UInt64) (srq : Queue) (single : Bool)
    (mem : ℕ → UInt8) (mems : UInt32 → ℕ → UInt8)
    (hsrq : getSharedReceiveQueue capacity mrAddr lkey transferSize inflight = some srq)
    (hA : Area.Allocated ⟨mrAddr, transferSize, inflight.toNat⟩) (es : List Event) (s : System)
    (hm : Meets (step hasRoom) Careful es (init srq single mem mems))
    (hr : run (step hasRoom) es (init srq single mem mems) = some s) :
    ∃ a, run Mailbox.step (trace (step hasRoom) (calls hasRoom) es (init srq single mem mems))
      Mailbox.empty = some a ∧ s.regions = a.held := by
  obtain ⟨a, ha, -, hshows⟩ := run_traces (step hasRoom) (calls hasRoom) Careful Mailbox.step
    (fun s a => Sound s ∧ Shows plain s.route s.transport a)
    (fun s e t a h he hs => by
      obtain ⟨hsound, hnext⟩ := step_shows h.1 e he hs
      obtain ⟨b, hb, hshows⟩ := hnext a h.2
      exact ⟨b, hb, hsound, hshows⟩)
    es _ s Mailbox.empty ⟨init_sound capacity mrAddr lkey transferSize inflight srq single mem mems
      hsrq hA, shows_empty mem plain _⟩ hm hr
  refine ⟨a, ha, ?_⟩
  rw [hshows.held, System.transport, System.regions, List.zip_map_right, List.zip_map_right,
    List.map_map]
  rfl

/-- Three buffers for two connections with one completion queue each. The stub queue of the
first one is full when the second region is to be freed through it. -/
def fullStub : List Event :=
  [.accept 5, .accept 6, .sender 6 (.store 200 [7, 8, 9]), .sender 5 (.sendAsync ⟨0, 300, 2, 0⟩),
    .sender 6 (.sendBatch [⟨0, 200, 1, 0⟩, ⟨0, 201, 2, 0⟩]), .deliver 1 2, .deliver 0 1, .deliver 1 0,
    .receive 1, .receive 0, .free 1 (some 0), .free 0 (some 0), .run 0, .receive 1]

def threeBuffers : Queue := (getSharedReceiveQueue 8 65536 9 16 3).get (by decide +kernel)

theorem shared_queue_is_mailbox_fullStub :
    ∃ s a, run (step fun q => q.length < 1) fullStub
        (init threeBuffers false (fun _ => 0) fun _ _ => 0) = some s ∧
      run Mailbox.step (trace (step fun q => q.length < 1) (calls fun q => q.length < 1) fullStub
        (init threeBuffers false (fun _ => 0) fun _ _ => 0)) Mailbox.empty = some a ∧
      s.regions = a.held ∧ s.regions = [(6, [7]), (6, [8, 9])] := by
  have hq : getSharedReceiveQueue 8 65536 9 16 3 = some threeBuffers := (Option.some_get _).symm
  have hr := run_get (step fun q => q.length < 1) fullStub
    (init threeBuffers false (fun _ => 0) fun _ _ => 0) (by decide +kernel)
  obtain ⟨a, ha, hheld⟩ := shared_queue_is_mailbox (fun q => q.length < 1) 8 65536 9 16 3
    threeBuffers false (fun _ => 0) (fun _ _ => 0) hq (by decide) fullStub _ (by decide +kernel) hr
  exact ⟨_, a, hr, ha, hheld, by decide +kernel⟩

end KYM.SharedReceiveDelivery
