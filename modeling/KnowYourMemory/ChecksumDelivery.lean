import KnowYourMemory.ChecksumDelivery.Steps

/-!
# Delivery and free space of Checksummed Write

The receiver takes exactly the messages sent, in order, and outside the messages that are
unfreed the ring is clear.
-/

set_option autoImplicit false

namespace KYM.ChecksumDelivery
open KYM.Run KYM.Circle KYM.RingBuffer KYM.RingOffsets KYM.BoundedStream KYM.MagicMemory
open KYM.WriteSender (bytesAt storeAt written)
open KYM.WriteChecksum

variable {crc : List UInt8 → UInt32} {L : ℕ} {mem mem' : ℕ → UInt8} {m n : Span (List UInt8)}

def Next (c : Connection) (m : Message) : Prop :=
  c.sent[c.got.length]? = some m ∧ c.got.length < arrived c

/-- Free bytes are zero, a length word that is not zero is that of the next message,
the checksum loop ends in its second round, and the region returned last holds its
message until it is freed. -/
structure Exact (crc : List UInt8 → UInt32) (c : Connection) : Prop where
  blank : ∀ o, (∀ m ∈ unfreed c, o ∉ occupied c m) → c.mem o = 0
  quiet : c.phase = .polling → (polled c.rcv c.mem = 0 ↔ arrived c ≤ c.got.length)
  parsed : c.phase = .parsing → ∃ m, Next c m ∧ (polled c.rcv c.mem).toNat = m.payload.length+8
  checked : ∀ length reg result rounds, c.phase = .checking length reg result rounds →
    (∃ m, Next c m ∧ length.toNat = m.payload.length+8 ∧
      bytesAt c.rcv c.mem reg.addr reg.length.toNat = m.payload) ∧
    rounds ≤ 1 ∧ ∃ c', step crc c .check = some c' ∧ (rounds = 1 → c'.phase = .holding reg)
  returned : ∀ (k : ℕ) (reg : ReceiveRegion), c.got[k]? = some reg →
    ∃ m : Message, c.sent[k]? = some m ∧ reg.length.toNat = m.payload.length
  held : ∀ reg, c.phase = .holding reg → c.got.getLast? = some reg ∧
    ∃ m : Message, c.sent[c.got.length-1]? = some m ∧
      bytesAt c.rcv c.mem reg.addr reg.length.toNat = m.payload

section Facts

variable {c : Connection} {rcv : Buffer} {t : Tape (List UInt8) (L-1)}
  {a b : List (Span (List UInt8))}

theorem Sound.arrived_eq (h : Sound crc L c rcv t a b) : arrived c = c.got.length+a.length := by
  have hc := h.count
  rw [arrived, h.wire, List.length_map, hc.1, hc.2]
  simp only [Tape.live, h.split, List.length_append]
  omega

theorem Sound.unfreed_eq (h : Sound crc L c rcv t a b) :
    unfreed c = (t.held++a).map (messageOf L rcv.addr) := by
  have hn : arrived c-freed c = ((t.held++a).map (messageOf L rcv.addr)).length := by
    rw [h.arrived_eq, h.count.2, List.length_map, List.length_append]
    omega
  rw [unfreed, List.drop_take, h.sent, Tape.live, h.split, ← List.append_assoc, List.map_append, hn]
  exact List.take_left

theorem Sound.blank_outside (h : Sound crc L c rcv t a b) (h2 : 2*L < 2^32) (o : ℕ)
    (ho : ∀ m ∈ unfreed c, o ∉ occupied c m) : c.mem o = 0 := by
  apply h.blank o
  intro m hm
  have hml : m ∈ t.live := by
    rcases List.mem_append.mp hm with hm | hm
    · exact List.mem_append_left _ hm
    · exact List.mem_append_right _ (by simp [h.split, hm])
  have hL := (live_lt t h2 hml).1
  have hl : c.rcv.length.toNat = L := by rw [h.ring.2]; exact h.refines.receiver.length
  have hoff : (addrOf L rcv.addr m-rcv.addr).toNat = m.start%L := by
    rw [← UInt64.add_zero (addrOf L rcv.addr m)]
    exact Channel.slot_inside h2 hL rcv.addr m 0 (by decide)
  have hin := ho (messageOf L rcv.addr m) (by rw [h.unfreed_eq]; exact List.mem_map_of_mem hm)
  rw [occupied, hl, h.ring.1, messageOf, hoff, ← h.message m hml] at hin
  rwa [cells_congr L _ m.start _ (Nat.mod_mod _ _)] at hin

theorem Sound.next (h : Sound crc L c rcv t a b) (hh : t.held = []) (a' : List (Span (List UInt8)))
    (ha : a = m::a') : m ∈ t.live ∧ Next c (messageOf L rcv.addr m) := by
  have hlive : t.live = m::(a'++b) := by
    rw [Tape.live, hh, h.split, ha]
    rfl
  have hf : freed c = c.got.length := by rw [h.count.2, hh, List.length_nil, Nat.add_zero]
  refine ⟨by simp [hlive], hf ▸ h.oldest m _ hlive, ?_⟩
  rw [h.arrived_eq, ha, List.length_cons]
  omega

theorem Sound.quiet (h : Sound crc L c rcv t a b) (h2 : 2*L < 2^32) (hp : c.phase = .polling) :
    polled c.rcv c.mem = 0 ↔ arrived c ≤ c.got.length := by
  have hphase := h.phase
  simp only [Standing, hp] at hphase
  rw [h.arrived_eq]
  cases ha : a with
  | nil => simp [h.polled_zero hphase.2 ha]
  | cons m a' =>
    have hm := (h.next hphase.2 a' ha).1
    have hpos := (t.live_mem m hm).2.1
    rw [(h.first h2 hphase.1 m a' ha).2.1, ← UInt32.toNat_inj, len_word t h2 hm, List.length_cons]
    change m.len = 0 ↔ _
    omega

theorem Sound.exact (h : Sound crc L c rcv t a b) (h2 : 2*L < 2^32) : Exact crc c where
  blank := h.blank_outside h2
  quiet := h.quiet h2
  parsed := by
    intro hp
    have hphase := h.phase
    simp only [Standing, hp] at hphase
    obtain ⟨hr, hh, ha⟩ := hphase
    obtain ⟨m, a', ha⟩ := List.exists_cons_of_ne_nil ha
    obtain ⟨hm, hnext⟩ := h.next hh a' ha
    refine ⟨_, hnext, ?_⟩
    rw [(h.first h2 hr m a' ha).2.1]
    exact (len_word t h2 hm).trans (h.message m hm)
  checked := by
    intro length reg result rounds hp
    have hphase := h.phase
    simp only [Standing, hp] at hphase
    obtain ⟨rfl, hh, m, a', ha, rfl, rfl, hround⟩ := hphase
    obtain ⟨hm, hnext⟩ := h.next hh a' ha
    obtain ⟨hL, -, hlt⟩ := live_lt t h2 hm
    have hlen := h.message m hm
    refine ⟨⟨_, hnext, (len_word t h2 hm).trans hlen, ?_⟩, by omega, ?_⟩
    · exact bytes_payload h2 hL h.refines.receiver.length hlt hlen (h.stored m (by simp [ha]))
    · have hsum := (h.first h2 rfl m a' ha).2.2.1
      simp only [step, hp, hsum]
      split
      · next hne => exact ⟨_, rfl, fun h1 => absurd (hround.resolve_left (by omega)).2.symm hne⟩
      · exact ⟨_, rfl, fun _ => rfl⟩
  returned := h.returned
  held := by
    intro reg hp
    have hphase := h.phase
    simp only [Standing, hp] at hphase
    obtain ⟨rfl, m, hh, rfl, hlast, hst⟩ := hphase
    have hlive : t.live = m::t.unread := by rw [Tape.live, hh, List.singleton_append]
    have hm : m ∈ t.live := by simp [hlive]
    obtain ⟨hL, -, hlt⟩ := live_lt t h2 hm
    have hf : freed c = c.got.length-1 := by simp only [freed, hp]
    refine ⟨hlast, _, hf ▸ h.oldest m _ hlive, ?_⟩
    exact bytes_payload h2 hL h.refines.receiver.length hlt (h.message m hm) hst

end Facts

/-- Every run of the connection delivers exactly and keeps its free bytes zero,
whatever comes between the steps of `Receive` and `Free`. -/
theorem exact_delivery (crc : List UInt8 → UInt32) (addr : UInt64) (key size : UInt32)
    (h2 : 2*size.toNat < 2^32) (es : List Event) (c : Connection)
    (hm : Meets (step crc) (fun _ => Sized size.toNat) es (init addr key size))
    (hr : run (step crc) es (init addr key size) = some c) : Exact crc c := by
  obtain ⟨rcv, t, a, b, h⟩ := run_sound crc addr key size h2 es c hm hr
  exact h.exact h2

/-- Three messages in a ring of 24 bytes. The second one arrives while the first is
checked, and the third one wraps behind the region that was cleared. -/
def clearedTrace : List Event := List.flatten
  [[.send [1, 2, 3], .poll, .deliver, .poll, .parse, .send [7], .check, .deliver, .check, .free],
    List.replicate 11 .clear,
    [.ack, .updateHead, .send [9, 8, 7, 6], .poll, .deliver, .parse, .check, .check, .free],
    List.replicate 9 .clear, [.ack, .poll, .parse, .check, .check]]

theorem exact_delivery_cleared : ∃ c : Connection,
    run (step crc32) clearedTrace (init 65536 7 24) = some c ∧ c.got.length = 3 ∧
      Exact crc32 c := by
  have hr := run_get (step crc32) clearedTrace (init 65536 7 24) (by decide +kernel)
  refine ⟨_, hr, by decide +kernel, ?_⟩
  exact exact_delivery crc32 65536 7 24 (by decide) clearedTrace _ (by decide +kernel) hr

end KYM.ChecksumDelivery
