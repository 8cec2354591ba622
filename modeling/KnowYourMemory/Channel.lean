import KnowYourMemory.RingOffsets

/-!
# One sender, one receiver, one ring

The sender's and the receiver's view of a ring connected by read acknowledgement.
Messages that were sent and not freed are recorded where the sender placed them,
with the address that `Read` handed out. The channel simulates the bounded stream:
always over the magic ring, and over the reversed ring in the runs that never
free the oldest region while another one is outstanding.
-/

set_option autoImplicit false

namespace KYM.Channel
open KYM.Run KYM.Circle KYM.RingBuffer KYM.RingOffsets KYM.BoundedStream

structure Slot (α : Type) where
  addr : UInt64
  len : UInt32
  body : α
  deriving DecidableEq, Repr

structure Held (α : Type) where
  ptr : UInt64
  slot : Slot α
  deriving DecidableEq, Repr

structure Link (α : Type) where
  snd : RemoteBuffer
  rcv : Buffer
  currOffset : UInt32
  unread : List (Slot α)
  held : List (Held α)
  deriving DecidableEq, Repr

inductive Event (α : Type) where
  | send (len : UInt32) (body : α)
  | updateHead
  | read
  | free (i : ℕ)
  deriving DecidableEq, Repr

variable {α : Type}

def init (α : Type) (addr : UInt64) (key size : UInt32) : Link α where
  snd := newRemoteBuffer (newRingBuffer addr key size).getContext
  rcv := newRingBuffer addr key size
  currOffset := 0
  unread := []
  held := []

/-- Space is checked for `len` bytes and `len-slack` of them are claimed: `slack`
is the zero byte that the reversed sender leaves to the next message. -/
def send (d : Direction) (slack : UInt32) (c : Link α) (len : UInt32) (body : α) :
    Option (Link α) :=
  match getWriteAddr d c.snd len, write d c.snd (len-slack) with
  | .ok _, .ok (addr, snd) =>
    some { c with snd := snd, unread := c.unread++[⟨addr, len-slack, body⟩] }
  | _, _ => none

def acknowledge (d : Direction) (c : Link α) : Link α :=
  { c with snd := updateHead d c.snd c.currOffset }

def receive (d : Direction) (c : Link α) : Option (Link α) :=
  match c.unread with
  | [] => none
  | m::ms =>
    let (ptr, rcv) := RingBuffer.read d c.rcv m.len
    some { c with rcv := rcv, unread := ms, held := c.held++[⟨ptr, m⟩] }

def release (d : Direction) (c : Link α) (i : ℕ) : Option (Link α) :=
  match c.held[i]? with
  | none => none
  | some h =>
    let (head, rcv) := RingBuffer.free d c.rcv h.ptr
    some { c with rcv := rcv, currOffset := head, held := c.held.eraseIdx i }

def step (d : Direction) (slack : UInt32) (c : Link α) : Event α → Option (Link α)
  | .send len body => send d slack c len body
  | .updateHead => some (acknowledge d c)
  | .read => receive d c
  | .free i => release d c i

def live (c : Link α) : List (Slot α) := c.held.map Held.slot++c.unread

def bytes (c : Link α) (m : Slot α) : Finset ℕ :=
  cells c.rcv.length.toNat (c.rcv.regionStart m.addr).toNat m.len.toNat

def slotOf (d : Direction) (L : ℕ) (base : UInt64) (m : Span α) : Slot α :=
  ⟨base+(UInt32.ofNat (low d L m)).toUInt64, UInt32.ofNat m.len, m.body⟩

def heldOf (d : Direction) (L : ℕ) (base : UInt64) (m : Span α) : Held α :=
  ⟨(slotOf d L base m).addr, slotOf d L base m⟩

/-- The channel is in the state of the stream. -/
structure Refines (d : Direction) (L : ℕ) (c : Link α) (s : Tape α (L-1)) : Prop where
  base : c.snd.addr = c.rcv.addr
  sender : ∃ k, s.Credit k ∧ SenderAt d L c.snd k s.tail
  receiver : ReceiverAt d L c.rcv s.held s.head s.read
  published : c.currOffset = c.rcv.head
  unread : c.unread = s.unread.map (slotOf d L c.rcv.addr)
  held : c.held = s.held.map (heldOf d L c.rcv.addr)

def linkOf (d : Direction) (L : ℕ) (snd : RemoteBuffer) (rcv : Buffer) (currOffset : UInt32)
    (s : Tape α (L-1)) : Link α where
  snd := snd
  rcv := rcv
  currOffset := currOffset
  unread := s.unread.map (slotOf d L rcv.addr)
  held := s.held.map (heldOf d L rcv.addr)

/-- Conditions on events: the sizes that the callers send, and a release that
leaves the right head behind. -/
def Sized (slack : UInt32) (L : ℕ) : Event α → Prop
  | .send len _ => slack.toNat < len.toNat ∧ (slack = 0 → len.toNat < L)
  | _ => True

def HeadExact (d : Direction) (c : Link α) : Event α → Prop
  | .free i => d = .up ∨ i ≠ 0 ∨ c.held.length = 1
  | _ => True

def Regular (d : Direction) (slack : UInt32) (L : ℕ) (c : Link α) (e : Event α) : Prop :=
  Sized slack L e ∧ HeadExact d c e

instance (slack : UInt32) (L : ℕ) : ∀ e : Event α, Decidable (Sized slack L e)
  | .send len _ => inferInstanceAs (Decidable (slack.toNat < len.toNat ∧ (slack = 0 → len.toNat < L)))
  | .updateHead | .read | .free _ => isTrue trivial

instance (d : Direction) (c : Link α) : ∀ e : Event α, Decidable (HeadExact d c e)
  | .free i => inferInstanceAs (Decidable (d = .up ∨ i ≠ 0 ∨ c.held.length = 1))
  | .updateHead | .read | .send _ _ => isTrue trivial

instance (d : Direction) (slack : UInt32) (L : ℕ) (c : Link α) (e : Event α) :
    Decidable (Regular d slack L c e) := inferInstanceAs (Decidable (_ ∧ _))

theorem ring_length (size : UInt32) (h2 : 2*size.toNat < 2^32) : (2*size)/2 = size := by
  apply UInt32.toNat_inj.mp
  rw [UInt32.toNat_div, UInt32.toNat_mul]
  change 2*size.toNat%2^32/2 = size.toNat
  omega

theorem init_refines (d : Direction) (addr : UInt64) (key size : UInt32)
    (h2 : 2*size.toNat < 2^32) :
    Refines d size.toNat (init α addr key size) (Tape.empty α (size.toNat-1)) where
  base := rfl
  sender := ⟨0, Tape.credit_empty, congrArg UInt32.toNat (ring_length size h2),
    (offset_zero d _).symm, (offset_zero d _).symm, rfl⟩
  receiver := ⟨congrArg UInt32.toNat (ring_length size h2), (offset_zero d _).symm,
    (offset_zero d _).symm, rfl⟩
  published := rfl
  unread := rfl
  held := rfl

section Steps

variable {d : Direction} {slack : UInt32} {L : ℕ} {c c' : Link α} {s : Tape α (L-1)}

theorem Refines.relink (h : Refines d L c s) (snd : RemoteBuffer) (rcv : Buffer)
    (currOffset : UInt32) (h1 : c.snd = snd) (h2 : c.rcv = rcv) (h3 : c.currOffset = currOffset) :
    Refines d L (linkOf d L snd rcv currOffset s) s := by
  subst h1 h2 h3
  exact ⟨h.base, h.sender, h.receiver, h.published, rfl, rfl⟩

theorem slot_inside (h2 : 2*L < 2^32) (hL : 0 < L) (base : UInt64) (m : Span α) (i : UInt64)
    (hi : i.toNat < 2^32) :
    ((slotOf d L base m).addr+i-base).toNat = low d L m+i.toNat := by
  have hw : (UInt32.ofNat (low d L m)).toUInt64.toNat = low d L m := by
    rw [UInt32.toNat_toUInt64, word_of_low d h2 m hL]
  have hle := low_le d L m hL
  rw [slotOf, UInt64.add_assoc, UInt64.add_comm, UInt64.add_sub_cancel, UInt64.toNat_add, hw]
  exact Nat.mod_eq_of_lt (by omega)

theorem span_len_lt (s : Tape α (L-1)) (m : Span α) (hm : m ∈ s.live) : m.len < L := by
  have h := s.live_mem m hm
  have hw := s.window
  unfold Span.stop at h
  unfold Tape.head at h
  omega

theorem accepted_pos (hr : Refines d L c s) (len : UInt32) (hlen : 0 < len.toNat) (a : UInt64)
    (ha : getWriteAddr d c.snd len = .ok a) : 0 < L := by
  obtain ⟨k, hk, hsnd⟩ := hr.sender
  by_contra h0
  have := hk.space
  have := hk.le_tail
  obtain rfl : k = s.tail := by omega
  exact h0 (getWriteAddr_pos hsnd len hlen a ha)

theorem send_room (h2 : 2*L < 2^32) (hr : Refines d L c s) (len : UInt32)
    (hz : slack.toNat < len.toNat ∧ (slack = 0 → len.toNat < L)) (a : UInt64)
    (ha : getWriteAddr d c.snd len = .ok a) : 0 < L ∧ 0 < (len-slack).toNat ∧
      ∃ k, s.Credit k ∧ SenderAt d L c.snd k s.tail ∧ s.tail+len.toNat ≤ k+L ∧
        s.tail+(len-slack).toNat < k+L := by
  obtain ⟨k, hk, hsnd⟩ := hr.sender
  have hkt := hk.le_tail
  have hsp := hk.space
  have hclaim := sub_toNat len slack hz.1.le
  have hL := accepted_pos hr len (by omega) a ha
  have hfit := (getWriteAddr_iff hL h2 hsnd hkt (by omega) len).mp ⟨a, ha⟩
  refine ⟨hL, by omega, k, hk, hsnd, hfit.le, ?_⟩
  by_cases h0 : slack = 0
  · have hlen := hz.2 h0
    have hz0 : slack.toNat = 0 := by rw [h0]; rfl
    rcases hfit with hfit | hfit <;> omega
  · have : slack.toNat ≠ 0 := fun h => h0 (UInt32.toNat_inj.mp h)
    exact hfit.shrink (by omega)

theorem send_refines (h2 : 2*L < 2^32) (hr : Refines d L c s) (len : UInt32)
    (body : α) (hz : slack.toNat < len.toNat ∧ (slack = 0 → len.toNat < L))
    (hs : send d slack c len body = some c') :
    ∃ s', Tape.step s (.send (len-slack).toNat body) = some s' ∧ Refines d L c' s' := by
  have hw : ∃ a, getWriteAddr d c.snd len = .ok a := by
    unfold send at hs
    cases hg : getWriteAddr d c.snd len with
    | error e => simp [hg] at hs
    | ok a => exact ⟨a, rfl⟩
  obtain ⟨a, ha⟩ := hw
  obtain ⟨hL, hpos, k, hk, hsnd, -, hroom⟩ := send_room h2 hr len hz a ha
  have hkh := hk.le_head
  obtain ⟨o, r', hwr, hlow, haddr, -, hsnd'⟩ := write_ok hL h2 hsnd hk.le_tail _ hpos hroom
  simp only [send, ha, hwr, Option.some.injEq] at hs
  subst hs
  have hst : 0 < (len-slack).toNat ∧ s.tail+(len-slack).toNat ≤ s.head+(L-1) := by omega
  refine ⟨s.send _ body hst.1 hst.2, by simp only [Tape.step, dif_pos hst], ?_⟩
  refine ⟨haddr.trans hr.base, ⟨k, hk.send body hst.1 (by omega) hst.2, hsnd'⟩, hr.receiver,
    hr.published, ?_, hr.held⟩
  simp only [Tape.send, List.map_append, List.map_cons, List.map_nil, ← hr.unread, slotOf,
    ← hlow body, UInt32.ofNat_toNat, hr.base]

theorem sent_link (h2 : 2*L < 2^32) (hr : Refines d L c s) (len : UInt32) (body : α)
    (hz : slack.toNat < len.toNat ∧ (slack = 0 → len.toNat < L)) (a : UInt64)
    (ha : getWriteAddr d c.snd len = .ok a) :
    ∃ (addr : UInt64) (snd : RemoteBuffer) (s' : Tape α (L-1)),
      write d c.snd (len-slack) = .ok (addr, snd) ∧
      addr = (slotOf d L c.rcv.addr ⟨s.tail, (len-slack).toNat, body⟩).addr ∧
      Tape.step s (.send (len-slack).toNat body) = some s' ∧
      Refines d L (linkOf d L snd c.rcv c.currOffset s') s' := by
  obtain ⟨hL, hpos, k, hk, hsnd, -, hroom⟩ := send_room h2 hr len hz a ha
  obtain ⟨o, snd, hw, -⟩ := write_ok hL h2 hsnd hk.le_tail (len-slack) hpos hroom
  have hs : send d slack c len body = some { c with
      snd := snd
      unread := c.unread++[⟨c.snd.addr+o.toUInt64, len-slack, body⟩] } := by
    simp only [send, ha, hw]
  obtain ⟨s', hst, hr'⟩ := send_refines h2 hr len body hz hs
  have hu := hr'.unread
  simp only [(Tape.step_send s s' _ _ hst).2.2.2, List.map_append, ← hr.unread] at hu
  have haddr := congrArg Slot.addr (List.singleton_inj.mp (List.append_cancel_left hu))
  exact ⟨_, snd, s', hw, haddr, hst, hr'.relink snd c.rcv c.currOffset rfl rfl rfl⟩

theorem acknowledge_refines (hr : Refines d L c s) : Refines d L (acknowledge d c) s := by
  obtain ⟨k, hk, hsnd⟩ := hr.sender
  have ho : c.currOffset.toNat = offset d L s.head := by rw [hr.published, hr.receiver.head]
  have hu := updateHead_ok hsnd c.currOffset s.head ho
  refine ⟨?_, ⟨s.head, s.credit_head, hu⟩, hr.receiver, hr.published, hr.unread, hr.held⟩
  change (updateHead d c.snd c.currOffset).addr = c.rcv.addr
  rw [← hr.base]
  cases d <;> rfl

theorem receive_refines (h2 : 2*L < 2^32) (hr : Refines d L c s)
    (hs : receive d c = some c') : ∃ s', Tape.step s .take = some s' ∧ Refines d L c' s' := by
  cases hu : s.unread with
  | nil => simp [receive, hr.unread, hu] at hs
  | cons m ms =>
    have hm : m ∈ s.live := by simp [Tape.live, hu]
    have hlen := span_len_lt s m hm
    have hL : 0 < L := by omega
    have hpos := (s.live_mem m hm).2.1
    have hstart : m.start = s.read := by
      have := s.unread_tiles
      rw [hu] at this
      exact this.1
    have hn : (UInt32.ofNat m.len).toNat = m.len :=
      UInt32.toNat_ofNat_of_lt (by simp only [UInt32.size]; omega)
    obtain ⟨o, b', hrd, hlow, haddr, hrcv⟩ :=
      read_ok hL h2 hr.receiver (UInt32.ofNat m.len) (by omega) (by omega) m.body
    rw [hn, ← hstart] at hlow hrcv
    have hcu : c.unread = slotOf d L c.rcv.addr m::ms.map (slotOf d L c.rcv.addr) := by
      rw [hr.unread, hu]
      rfl
    simp only [receive, hcu, slotOf, hrd, Option.some.injEq] at hs
    subst hs
    refine ⟨s.take m ms hu, s.step_take m ms hu, ?_⟩
    obtain ⟨k, hk, hsnd⟩ := hr.sender
    have hpub : c.currOffset = b'.head := by
      rw [hr.published]
      exact UInt32.toNat_inj.mp (hr.receiver.head.trans hrcv.head.symm)
    refine ⟨hr.base.trans haddr.symm, ⟨k, hk.take m ms hu, hsnd⟩, ?_, hpub, ?_, ?_⟩
    · rw [s.take_head m ms hu]
      exact hrcv
    · simp only [haddr, Tape.take]
    · have ho : o = UInt32.ofNat (low d L m) := by
        rw [← show o.toNat = low d L m from hlow, UInt32.ofNat_toNat]
      simp only [Tape.take, List.map_append, List.map_cons, List.map_nil, haddr, hr.held,
        heldOf, slotOf, ho]

theorem taken_link (h2 : 2*L < 2^32) (hr : Refines d L c s) (m : Span α) (ms : List (Span α))
    (hu : s.unread = m::ms) (ptr : UInt64) (rcv : Buffer)
    (hrd : RingBuffer.read d c.rcv (UInt32.ofNat m.len) = (ptr, rcv)) :
    ptr = (slotOf d L c.rcv.addr m).addr ∧ rcv.addr = c.rcv.addr ∧
      Refines d L (linkOf d L c.snd rcv c.currOffset (s.take m ms hu)) (s.take m ms hu) := by
  have hcu : c.unread = slotOf d L c.rcv.addr m::ms.map (slotOf d L c.rcv.addr) := by
    rw [hr.unread, hu]
    rfl
  have hs : receive d c = some { c with
      rcv := rcv
      unread := ms.map (slotOf d L c.rcv.addr)
      held := c.held++[⟨ptr, slotOf d L c.rcv.addr m⟩] } := by
    simp only [receive, hcu]
    rw [show (slotOf d L c.rcv.addr m).len = UInt32.ofNat m.len from rfl, hrd]
  obtain ⟨s', hst, hr'⟩ := receive_refines h2 hr hs
  rw [s.step_take m ms hu] at hst
  obtain rfl := Option.some.inj hst
  have hbase : rcv.addr = c.rcv.addr := hr'.base.symm.trans hr.base
  have hh := hr'.held
  simp only [Tape.take, hr.held, hbase, List.map_append] at hh
  exact ⟨congrArg Held.ptr (List.singleton_inj.mp (List.append_cancel_left hh)), hbase,
    hr'.relink c.snd rcv c.currOffset rfl rfl rfl⟩

theorem readPtr_slot {c : Link α} (hr : Refines .up L c s) (m : Span α) (hm : m.start = s.read) :
    Magic.getReadPtr c.rcv = (slotOf .up L c.rcv.addr m).addr := by
  have hrp : c.rcv.readPtr.toNat = offset .up L s.read := hr.receiver.readPtr
  rw [Magic.getReadPtr, slotOf, low, hm, ← hrp, UInt32.ofNat_toNat]

/-- Outside the one case the guard excludes, the stored head is the start of the
oldest region that is left, or the read position. -/
theorem freedHead_eq (s : Tape α (L-1)) (i : ℕ) (hi : i < s.held.length)
    (hx : d = .up ∨ i ≠ 0 ∨ s.held.length = 1) :
    freedHead d L s.head s.read i s.held = offset d L (s.release i).head := by
  match i, hh : s.held with
  | 0, [m] => simp [freedHead, Tape.release, Tape.head, hh, headOf]
  | 0, m::n::ms =>
    have hup : d = .up := by
      rcases hx with h | h | h
      · exact h
      · exact absurd rfl h
      · simp [hh] at h
    subst hup
    simp [freedHead, Tape.release, Tape.head, hh, headOf, low]
  | i+1, m::ms => simp [freedHead, Tape.release, Tape.head, hh, headOf]
  | i, [] => simp [hh] at hi

theorem release_refines (h2 : 2*L < 2^32) (hr : Refines d L c s) (i : ℕ)
    (hx : HeadExact d c (.free i)) (hs : release d c i = some c') :
    ∃ s', Tape.step s (.release i) = some s' ∧ Refines d L c' s' := by
  have hheld := hr.held
  have hlen : c.held.length = s.held.length := by rw [hheld, List.length_map]
  unfold release at hs
  cases hg : c.held[i]? with
  | none => simp [hg] at hs
  | some w =>
    have hi : i < s.held.length := hlen ▸ (List.getElem?_eq_some_iff.mp hg).1
    have hw : w = heldOf d L c.rcv.addr s.held[i] := by
      rw [hheld, List.getElem?_map, List.getElem?_eq_getElem hi] at hg
      exact (Option.some.inj hg).symm
    have hL : 0 < L := by
      have := span_len_lt s s.held[i] (by simp [Tape.live])
      omega
    obtain ⟨b', hf, haddr, hl, hrp, hhead, hout⟩ := free_ok hr.receiver
      (low_nodup s (by omega)) i hi _ (word_of_low d h2 _ hL)
    have hx' : d = .up ∨ i ≠ 0 ∨ s.held.length = 1 := hlen ▸ hx
    simp only [hg, hw, heldOf, slotOf, hf, Option.some.injEq] at hs
    subst hs
    obtain ⟨k, hk, hsnd⟩ := hr.sender
    refine ⟨s.release i, by simp only [Tape.step, if_pos hi], ?_⟩
    refine ⟨hr.base.trans haddr.symm, ⟨k, hk.release i, hsnd⟩, ?_, rfl, ?_, ?_⟩
    · exact ⟨hl ▸ hr.receiver.length, hhead.trans (freedHead_eq s i hi hx'),
        hrp ▸ hr.receiver.readPtr, hout⟩
    · simp only [haddr, Tape.release, hr.unread]
    · simp only [haddr, Tape.release, hheld, List.eraseIdx_map]

theorem freed_link (h2 : 2*L < 2^32) (hr : Refines d L c s) (i : ℕ) (m : Span α)
    (hm : s.held[i]? = some m) (hx : d = .up ∨ i ≠ 0 ∨ s.held.length = 1) (head : UInt32)
    (rcv : Buffer) (hf : RingBuffer.free d c.rcv (slotOf d L c.rcv.addr m).addr = (head, rcv)) :
    rcv.addr = c.rcv.addr ∧
      Refines d L (linkOf d L c.snd rcv head (s.release i)) (s.release i) := by
  have hl : c.held[i]? = some (heldOf d L c.rcv.addr m) := by
    rw [hr.held, List.getElem?_map, hm, Option.map_some]
  have hs : release d c i = some { c with
      rcv := rcv, currOffset := head, held := c.held.eraseIdx i } := by
    simp only [release, hl]
    rw [show (heldOf d L c.rcv.addr m).ptr = (slotOf d L c.rcv.addr m).addr from rfl, hf]
  have hx' : HeadExact d c (.free i) := by
    have hlen : c.held.length = s.held.length := by rw [hr.held, List.length_map]
    simp only [HeadExact, hlen]
    exact hx
  obtain ⟨s', hst, hr'⟩ := release_refines h2 hr i hx' hs
  obtain rfl := s.step_release s' i hst
  exact ⟨hr'.base.symm.trans hr.base, hr'.relink c.snd rcv head rfl rfl rfl⟩

/-- Every regular step of the channel is a step of the stream, or none at all. -/
theorem step_refines (h2 : 2*L < 2^32) (hr : Refines d L c s) (e : Event α)
    (hreg : Regular d slack L c e) (hs : step d slack c e = some c') :
    ∃ fs s', run Tape.step fs s = some s' ∧ Refines d L c' s' := by
  cases e with
  | send len body =>
    obtain ⟨s', h1, h⟩ := send_refines h2 hr len body hreg.1 hs
    exact ⟨[.send (len-slack).toNat body], s', by simp [run, h1], h⟩
  | updateHead =>
    obtain rfl := Option.some.inj hs
    exact ⟨[], s, rfl, acknowledge_refines hr⟩
  | read =>
    obtain ⟨s', h1, h⟩ := receive_refines h2 hr hs
    exact ⟨[.take], s', by simp [run, h1], h⟩
  | free i =>
    obtain ⟨s', h1, h⟩ := release_refines h2 hr i hreg.2 hs
    exact ⟨[.release i], s', by simp [run, h1], h⟩

end Steps

/-- A regular run of the channel is a run of the bounded stream. -/
theorem channel_simulates (d : Direction) (slack : UInt32) (addr : UInt64) (key size : UInt32)
    (h2 : 2*size.toNat < 2^32) (es : List (Event α)) (c : Link α)
    (hm : Meets (step d slack) (Regular d slack size.toNat) es (init α addr key size))
    (hr : run (step d slack) es (init α addr key size) = some c) :
    ∃ fs s, run Tape.step fs (Tape.empty α (size.toNat-1)) = some s ∧
      Refines d size.toNat c s := by
  refine run_simulates (step d slack) (Regular d slack size.toNat) Tape.step
    (Refines d size.toNat) ?_ es _ c _ (init_refines d addr key size h2) hm hr
  intro c e c' s hcs hok hs
  exact step_refines h2 hcs e hok hs

end KYM.Channel
