import KnowYourMemory.ReadBench.Steps

/-!
# The bandwidth benchmark over direct reads

The calls of the receiver are interleaved with the arrival of requests and with the work of
the queue pairs in any order.
-/

set_option autoImplicit false

namespace KYM.ReadBench
open KYM.Run KYM.RingBuffer KYM.DirectRead KYM.Outstanding
open KYM.RefusedReceive (Receiver Took regionToSmall)
open KYM.ReceiveQueue (postFailed)
open KYM.WriteConnection (wrap)

def Recent (b : Options) (s : State) (i : ℕ) : Prop :=
  ∀ k < i, i ≤ k+b.unack → (s.ids (k%b.unack)).conn = k%b.receivers

def Sources (b : Options) (s : State) : Prop :=
  match s.pc with
  | .fill i => i ≤ b.unack ∧ ∀ k < i, (s.ids k).conn = k%b.receivers
  | .turn i => b.unack ≤ i ∧ i ≤ max b.unack b.count ∧ Recent b s i
  | .reissue i => b.unack ≤ i ∧ i < b.count ∧ Recent b s i
  | .drain _ => Recent b s (max b.unack b.count)
  | .warm _ | .warmWait .. | .finished | .failed _ => True

section Sources

variable {b : Options} {conns : ℕ → Receiver} {ids : ℕ → Ticket} {t : State}

theorem refused_sources {s : State} {c : ℕ} {e : Status} (hr : Refused s t c e) : Sources b t := by
  unfold Sources
  rw [hr.pc]
  trivial

theorem fill_sources {i : ℕ} (h : Sources b ⟨conns, ids, .fill i⟩)
    (hs : next b ⟨conns, ids, .fill i⟩ = some t) : Sources b t := by
  obtain ⟨hle, hconn⟩ := h
  simp only [next] at hs
  split at hs
  · next hlt =>
    rcases receiveAsync_views hs with ⟨e, hr⟩ | ⟨id, -, hpc, hids⟩
    · exact refused_sources hr
    unfold Sources
    rw [hpc]
    refine ⟨hlt, fun k hk => ?_⟩
    rcases Nat.lt_succ_iff_lt_or_eq.mp hk with hk | rfl
    · rw [hids, Function.update_of_ne hk.ne, hconn k hk]
    · rw [hids, Function.update_self]
  · obtain rfl := Option.some.inj hs
    obtain rfl : i = b.unack := by omega
    exact ⟨le_refl _, Nat.le_max_left _ _,
      fun k hk _ => by rw [Nat.mod_eq_of_lt hk]; exact hconn k hk⟩

theorem reissue_sources {i : ℕ} (h : Sources b ⟨conns, ids, .reissue i⟩)
    (hs : next b ⟨conns, ids, .reissue i⟩ = some t) : Sources b t := by
  obtain ⟨hle, hlt, hconn⟩ := h
  rcases receiveAsync_views hs with ⟨e, hr⟩ | ⟨id, -, hpc, hids⟩
  · exact refused_sources hr
  unfold Sources
  rw [hpc]
  refine ⟨by omega, by omega, fun k hk hku => ?_⟩
  rcases Nat.lt_succ_iff_lt_or_eq.mp hk with hlt | rfl
  · have hne : k%b.unack ≠ i%b.unack := fun he => by
      have := eq_of_slot hk hku (Nat.lt_succ_self i) (by omega) he
      omega
    rw [hids, Function.update_of_ne hne, hconn k hlt (by omega)]
  · rw [hids, Function.update_self]

theorem Sources.step {s : State} (h : Sources b s) (e : Event)
    (hs : step b s e = some t) : Sources b t := by
  obtain ⟨conns, ids, pc⟩ := s
  cases e with
  | announce c i req =>
    obtain ⟨r, -, rfl⟩ := Option.map_eq_some_iff.mp hs
    exact h
  | perform c i =>
    obtain ⟨r, -, rfl⟩ := Option.map_eq_some_iff.mp hs
    exact h
  | next =>
    cases pc with
    | warm i =>
      simp only [ReadBench.step, next] at hs
      split at hs
      · rcases receive_views hs with ⟨e, hr⟩ | ⟨id, -, hpc⟩
        · exact refused_sources hr
        · unfold Sources
          rw [hpc]
          trivial
      · obtain rfl := Option.some.inj hs
        exact ⟨Nat.zero_le _, fun k hk => absurd hk (Nat.not_lt_zero k)⟩
    | warmWait i id =>
      obtain ⟨r, -, rfl⟩ := waitReceive_views hs
      trivial
    | fill i => exact fill_sources h hs
    | turn i =>
      obtain ⟨hle, hmax, hconn⟩ := h
      simp only [ReadBench.step, next] at hs
      split at hs
      · next hlt =>
        obtain ⟨r, -, rfl⟩ := waitReceive_views hs
        exact ⟨hle, hlt, hconn⟩
      · obtain rfl := Option.some.inj hs
        obtain rfl : i = max b.unack b.count := by omega
        exact hconn
    | reissue i => exact reissue_sources h hs
    | drain i =>
      simp only [ReadBench.step, next] at hs
      split at hs
      · obtain ⟨r, -, rfl⟩ := waitReceive_views hs
        exact h
      · obtain rfl := Option.some.inj hs
        trivial
    | finished => cases hs
    | failed e => cases hs

end Sources

def target : Sge → ℕ × ℕ
  | .one => (0, 0)
  | .region addr length _ => (addr.toNat, length.toNat)

/-- Inside the registered region. -/
def Within (b : Options) (area : ℕ × ℕ) : Prop :=
  b.addr.toNat ≤ area.1 ∧ area.1+area.2 ≤ b.addr.toNat+(registered b).toNat

theorem product_eq (i size : ℕ) (h : i*size < 2^31) :
    (product i size).toInt64.toUInt64 = UInt64.ofNat (i*size) := by
  rw [product, ← Int32.ofNat_mul, Int32.toInt64_ofNat' (by rw [Int32.toInt_maxValue]; omega),
    Int64.toUInt64_ofNat']

theorem registered_toNat (b : Options) (hint : b.unack*b.size < 2^31) :
    (registered b).toNat = b.unack*b.size := by
  rw [registered, product, ← Int32.ofNat_mul, Int32.toUInt32_ofNat', UInt32.toNat_ofNat']
  exact Nat.mod_eq_of_lt (by omega)

theorem slots_follow (size : ℕ) {j k : ℕ} (hjk : j < k) : j*size+size ≤ k*size := by
  rw [← Nat.succ_mul]
  exact Nat.mul_le_mul_right size hjk

theorem slot_addr (b : Options) (hint : b.unack*b.size < 2^31)
    (hfit : b.addr.toNat+b.unack*b.size ≤ 2^64) {j : ℕ} (hj : j < b.unack) :
    (slot b j).addr.toNat = b.addr.toNat+j*b.size := by
  have haddr := b.addr.toNat_lt
  have hle := slots_follow b.size hj
  have hlt : b.addr.toNat+j*b.size < 2^64 := by
    rcases Nat.eq_zero_or_pos b.size with h0 | hpos
    · rw [h0, Nat.mul_zero]
      exact haddr
    · omega
  rw [slot, product_eq j b.size (by omega), UInt64.toNat_add, UInt64.toNat_ofNat']
  omega

theorem slot_length (b : Options) {j : ℕ} {n : UInt32} (hn : n ≤ (slot b j).length) :
    n.toNat ≤ b.size := by
  have hle := UInt32.le_iff_toNat_le.mp hn
  rw [slot, UInt32.toNat_ofNat'] at hle
  exact hle.trans (Nat.mod_le _ _)

theorem slot_within (b : Options) (hint : b.unack*b.size < 2^31)
    (hfit : b.addr.toNat+b.unack*b.size ≤ 2^64) {j : ℕ} (hj : j < b.unack) {l x : UInt32}
    (hl : l ≤ (slot b j).length) : Within b (target (.region (slot b j).addr l x)) := by
  have hle := slots_follow b.size hj
  have hln := slot_length b hl
  simp only [Within, target, slot_addr b hint hfit hj, registered_toNat b hint]
  omega

theorem slot_apart (b : Options) (hint : b.unack*b.size < 2^31)
    (hfit : b.addr.toNat+b.unack*b.size ≤ 2^64) {j k : ℕ}
    (hj : j < b.unack) (hk : k < b.unack) (hne : j ≠ k) {l m x y : UInt32}
    (hl : l ≤ (slot b j).length) (hm : m ≤ (slot b k).length) :
    DirectReadDelivery.Apart (target (.region (slot b j).addr l x))
      (target (.region (slot b k).addr m y)) := by
  have hln := slot_length b hl
  have hmn := slot_length b hm
  simp only [DirectReadDelivery.Apart, target, slot_addr b hint hfit hj, slot_addr b hint hfit hk]
  rcases Nat.lt_or_gt_of_ne hne with hlt | hlt
  · have hle := slots_follow b.size hlt
    omega
  · have hle := slots_follow b.size hlt
    omega

/-- In the measuring part of the program. -/
def Pc.measures : Pc → Prop
  | .turn _ | .reissue _ | .drain _ | .finished => True
  | .warm _ | .warmWait .. | .fill _ | .failed _ => False

theorem Sound.fits {b : Options} {s : State} (h : Sound b s) (hm : s.pc.measures) :
    b.unack ≤ maxRcv*b.receivers := by
  obtain ⟨conns, ids, pc⟩ := s
  cases pc with
  | turn i => exact h.2.2.1
  | reissue i => exact h.2.2.1
  | drain i => exact h.2.1
  | finished => exact h.1
  | warm i => cases hm
  | warmWait i id => cases hm
  | fill i => cases hm
  | failed e => cases hm

theorem Sound.held {b : Options} {s : State} (h : Sound b s) (hturns : Turns b) :
    ∃ o, Held (slot b) b.unack s.conns o := by
  obtain ⟨conns, ids, pc⟩ := s
  cases pc with
  | warm i => exact ⟨_, h.2.held⟩
  | warmWait i id => exact ⟨_, h.2.held⟩
  | fill i => exact ⟨_, h.2.2.1.held⟩
  | turn i => exact ⟨_, (h.2.2.2 hturns).held⟩
  | reissue i => exact ⟨_, (h.2.2.2 hturns).held⟩
  | drain i => exact ⟨_, (h.2.2 hturns).held⟩
  | finished => exact ⟨_, (h.2 hturns).held⟩
  | failed e => exact (h hturns).1

theorem run_sound (b : Options) (fence : Bool) (rqs : ℕ → ReceiveQueue.Queue) (es : List Event)
    (s : State) (hn : 1 ≤ b.receivers) (hu : 1 ≤ b.unack)
    (hr : run (step b) es (init fence rqs) = some s) : Sound b s ∧ Sources b s :=
  run_keeps (step b) (fun _ _ => True) (fun s => Sound b s ∧ Sources b s)
    (fun _ e _ h _ hs => ⟨h.1.step hn hu e hs, h.2.step e hs⟩) es _ s
    ⟨init_sound fence rqs, trivial⟩ (meets_of_forall _ _ es (fun _ _ _ => trivial) _) hr

def twoReceivers : Options := ⟨2, 3, 64, 2, 65536, 9⟩

def threeMessages : List Event :=
  [.next, .announce 0 0 (request 0), .announce 1 0 (request 1), .next, .next, .next, .perform 0 0,
    .next, .announce 0 0 (request 2), .next, .next, .perform 1 0, .perform 0 0, .perform 0 0,
    .next, .next, .next]

/-- The measurement starts only with a table that is large enough. A wait of its loop is for
the connection's own id exactly if the slots come back to their connections, and a wait behind
the loop exactly if the slot did since the first receive into it. -/
theorem bandwidth_waits_iff (b : Options) (fence : Bool) (rqs : ℕ → ReceiveQueue.Queue)
    (es : List Event) (s : State) (hn : 1 ≤ b.receivers) (hu : 1 ≤ b.unack)
    (hr : run (step b) es (init fence rqs) = some s) :
    (s.pc.measures → b.unack ≤ maxRcv*b.receivers) ∧
    (∀ i, s.pc = .turn i →
      ((s.ids (i%b.unack)).conn = i%b.receivers ↔ b.receivers ∣ b.unack)) ∧
    ∀ i < b.unack, s.pc = .drain i → ((s.ids i).conn = i%b.receivers ↔
      b.receivers ∣ b.unack*((max b.unack b.count-1-i)/b.unack)) := by
  obtain ⟨hsound, hsources⟩ := run_sound b fence rqs es s hn hu hr
  refine ⟨hsound.fits, fun i hpc => ?_, fun i hi hpc => ?_⟩
  · unfold Sources at hsources
    rw [hpc] at hsources
    obtain ⟨hle, -, hconn⟩ := hsources
    have hslot := hconn (i-b.unack) (by omega) (by omega)
    rw [← Nat.mod_eq_sub_mod hle] at hslot
    rw [hslot]
    have hdvd := Nat.modEq_iff_dvd' (n := b.receivers) (Nat.sub_le i b.unack)
    rwa [Nat.sub_sub_self hle] at hdvd
  · unfold Sources at hsources
    rw [hpc] at hsources
    obtain ⟨hlt, hle, hmod⟩ := last_place (Nat.le_max_left b.unack b.count) hi
    have hslot := hsources _ hlt hle
    rw [hmod] at hslot
    rw [hslot]
    have hdvd := Nat.modEq_iff_dvd' (n := b.receivers)
      (Nat.le_add_right i (b.unack*((max b.unack b.count-1-i)/b.unack)))
    rw [Nat.add_sub_cancel_left] at hdvd
    rw [← hdvd]
    exact eq_comm

def oddSlots : Options := ⟨2, 4, 64, 3, 65536, 9⟩

def threeStarted : List Event :=
  [.next, .announce 0 0 (request 0), .announce 1 0 (request 1), .announce 0 0 (request 2), .next,
    .next, .next, .next]

theorem bandwidth_waits_iff_odd : ∃ s,
    run (step oddSlots) threeStarted (init true (fun _ => RefusedReceive.twoBuffers)) = some s ∧
    s.pc = .turn 3 ∧ (s.ids (3%3)).conn ≠ 3%2 := by
  have hr := run_get (step oddSlots) threeStarted (init true (fun _ => RefusedReceive.twoBuffers))
    (by decide +kernel)
  obtain ⟨-, hiff, -⟩ := bandwidth_waits_iff oddSlots true (fun _ => RefusedReceive.twoBuffers)
    threeStarted _ (by decide) (by decide) hr
  have hpc : ((run (step oddSlots) threeStarted (init true (fun _ =>
      RefusedReceive.twoBuffers))).get (by decide +kernel)).pc = .turn 3 := by decide +kernel
  exact ⟨_, hr, hpc, fun hconn => absurd ((hiff 3 hpc).mp hconn) (by decide)⟩

end KYM.ReadBench
