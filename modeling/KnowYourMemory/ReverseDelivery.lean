import KnowYourMemory.ReverseDelivery.Receive

/-!
# In-order delivery of Write Reverse

Every run delivers in order, with each message intact from its arrival until it is freed.
-/

set_option autoImplicit false

namespace KYM.ReverseDelivery
open KYM.Run KYM.Circle KYM.RingBuffer KYM.RingOffsets KYM.BoundedStream KYM.MagicMemory
open KYM.WriteSender (bytesAt storeAt)
open KYM.WriteReverse

section Runs

instance (msg : Message) : Decidable (Fitting msg) :=
  inferInstanceAs (Decidable (msg.size.toNat+6 < 2^32))

def Sized : Event → Prop
  | .send msg => Fitting msg
  | _ => True

instance : ∀ e : Event, Decidable (Sized e)
  | .send msg => inferInstanceAs (Decidable (Fitting msg))
  | .updateHead | .arrive | .poll | .receive | .free => isTrue trivial

theorem step_sound (L : ℕ) (c c' : Connection) (hL : 0 < L) (h2 : 2*L < 2^32) (e : Event)
    (he : Sized e) (h : ∃ t a b, Sound L c t a b) (hs : step c e = some c') :
    ∃ t a b, Sound L c' t a b := by
  obtain ⟨t, a, b, h⟩ := h
  cases e with
  | send msg =>
    obtain ⟨t', b', h'⟩ := h.send h2 msg he hs
    exact ⟨t', a, b', h'⟩
  | updateHead => exact ⟨t, a, b, h.updateHead hs⟩
  | arrive =>
    obtain ⟨a', b', h'⟩ := h.arrive h2 hs
    exact ⟨t, a', b', h'⟩
  | poll => exact ⟨t, a, b, h.poll hL hs⟩
  | receive =>
    obtain ⟨t', a', h'⟩ := h.receive h2 hs
    exact ⟨t', a', b, h'⟩
  | free =>
    obtain ⟨t', h'⟩ := h.free h2 hs
    exact ⟨t', a, b, h'⟩

theorem run_sound (addr : UInt64) (key size : UInt32) (hL : 0 < size.toNat)
    (h2 : 2*size.toNat < 2^32) (es : List Event) (c : Connection)
    (hm : Meets step (fun _ => Sized) es (init addr key size))
    (hr : run step es (init addr key size) = some c) : ∃ t a b, Sound size.toNat c t a b := by
  refine run_keeps step (fun _ => Sized) (fun c => ∃ t a b, Sound size.toNat c t a b) ?_ es _ c
    ⟨_, [], [], init_sound addr key size h2⟩ hm hr
  intro c e c' hI he hs
  exact step_sound size.toNat c c' hL h2 e he hI hs

end Runs

/-- What a state promises: the polled byte tells whether the next message has arrived
completely, regions are the messages in order, both sides agree on where the next one
goes, and no access leaves the `2*L` mapping. -/
structure Delivers (L : ℕ) (c : Connection) : Prop where
  armed : polled c.rcv c.mem ≠ 0 ↔ c.got.length < c.sent.length-c.wire.length
  sizes : ∀ (k : ℕ) (reg : ReceiveRegion), c.got[k]? = some reg →
    ∃ msg : Message, c.sent[k]? = some msg ∧ reg.length.toNat = msg.size.toNat
  payload : ∀ reg : ReceiveRegion, c.phase = .holding reg →
    c.got[c.got.length-1]? = some reg ∧ ∃ msg : Message, c.sent[c.got.length-1]? = some msg ∧
      bytesAt c.rcv c.mem reg.addr reg.length.toNat =
        (List.range msg.size.toNat).map msg.payload
  agree : c.tails[c.got.length]? = some c.rcv.readPtr
  writes : ∀ e ∈ c.wire, (e.1-c.rcv.addr).toNat+e.2.length ≤ 2*L
  valid : (next c.rcv-c.rcv.addr).toNat+1 ≤ 2*L
  length : c.phase = .parsing → (msgLenAddr c.rcv-c.rcv.addr).toNat+4 ≤ 2*L
  region : ∀ reg : ReceiveRegion, c.phase = .holding reg →
    (reg.addr-c.rcv.addr).toNat+reg.length.toNat ≤ 2*L

section Delivery

variable {L : ℕ} {c : Connection} {t : Tape Item (L-1)} {a b : List (Span Item)}

theorem addrOf_sub (h2 : 2*L < 2^32) (c : Connection) (m : Span Item) (hL : 0 < L) :
    (addrOf L c m-c.rcv.addr).toNat = low .down L m := by
  rw [← UInt64.add_zero (addrOf L c m)]
  exact Channel.slot_inside h2 hL c.rcv.addr m 0 (by decide)

theorem payload_at (mem : ℕ → UInt8) (m : Span Item) (hst : Stored L mem m) (hL : 0 < L)
    (hlen : m.len = m.body.msg.size.toNat+5) :
    load L mem (low .down L m) m.body.msg.size.toNat =
      (List.range m.body.msg.size.toNat).map m.body.msg.payload := by
  apply List.map_congr_left
  intro i hi
  have hi := List.mem_range.mp hi
  have hcell := mirror_cell L _ m.start m.len i hL (low_anchored .down L m hL (by omega)) (by omega)
  rw [hcell]
  change mem (place .down L (m.start+(m.len-1-i))) = _
  rw [hst _ (by omega), hlen, byteOf, if_neg (by omega), if_pos (by omega)]
  congr 1
  omega

theorem Sound.holding (h : Sound L c t a b) (reg : ReceiveRegion) (hph : c.phase = .holding reg) :
    c.got[c.got.length-1]? = some reg ∧ ∃ m ∈ t.live, m.body.id = c.got.length-1 ∧
      reg.addr = addrOf L c m ∧ reg.length.toNat = m.body.msg.size.toNat ∧ Stored L c.mem m := by
  have hp := h.phase
  have hn := h.numbered
  simp only [Phased, hph] at hp
  simp only [heldIds, hph] at hn
  obtain ⟨m, hh, hid⟩ := List.map_eq_singleton_iff.mp hn.held
  have hm : m ∈ t.held := by simp [hh]
  have hml : m ∈ t.live := List.mem_append_left _ hm
  obtain ⟨msg, hmsg, hsize⟩ := h.returned _ reg hp.1
  have hsent := (h.message m hml).1
  rw [hid, hmsg] at hsent
  refine ⟨hp.1, m, hml, hid, hp.2 m hm, ?_, h.stored m (List.mem_append_left _ hm)⟩
  rw [hsize, Option.some.inj hsent]

theorem Sound.agree (h : Sound L c t a b) : c.tails[c.got.length]? = some c.rcv.readPtr := by
  have hrp : c.rcv.readPtr.toNat = offset .down L t.read := h.refines.receiver.readPtr
  have ht := congrArg (fun l => l[0]?) h.tails
  simp only [List.getElem?_drop, Nat.add_zero] at ht
  rw [ht]
  have htiles := h.refines.sender
  have hsp := t.unread_tiles
  cases hu : t.unread with
  | nil =>
    rw [hu] at hsp
    obtain ⟨k, -, hsnd⟩ := htiles
    have hst : c.snd.tail.toNat = offset .down L t.tail := hsnd.tail
    have he : t.read = t.tail := hsp
    simp only [List.map_nil, List.nil_append, List.getElem?_cons_zero]
    exact congrArg some (UInt32.toNat_inj.mp (by rw [hst, hrp, he]))
  | cons m ms =>
    rw [hu] at hsp
    simp only [List.map_cons, List.cons_append, List.getElem?_cons_zero]
    rw [hsp.1, ← hrp, UInt32.ofNat_toNat]

theorem Sound.delivers (h : Sound L c t a b) (hL : 0 < L) (h2 : 2*L < 2^32) : Delivers L c := by
  obtain ⟨j, hf, hj⟩ := h.inFlight
  have hrl : c.rcv.length.toNat = L := h.refines.receiver.length
  have hcount := h.numbered.count
  have hwire := hf.length
  have hoff := h.readOff hL
  have hlt : place .down L t.read < L := by
    simp only [place]
    omega
  rw [h.split, List.length_append] at hcount
  refine ⟨?_, h.returned, ?_, h.agree, ?_, ?_, ?_, ?_⟩
  · rw [h.polled_iff hL, ← List.length_pos_iff]
    omega
  · intro reg hph
    obtain ⟨hget, m, hml, hid, haddr, hsize, hst⟩ := h.holding reg hph
    obtain ⟨hsent, hlen⟩ := h.message m hml
    refine ⟨hget, m.body.msg, hid ▸ hsent, ?_⟩
    rw [bytesAt, hrl, haddr, addrOf_sub h2 c m hL, hsize]
    exact payload_at c.mem m hst hL hlen
  · apply hf.bounds h2
    · intro m hm
      exact (h.message m (by simp [Tape.live, h.split, hm])).2
    · exact fun m hm => (hj m hm).1
  · rw [next_sub, hrl, hoff]
    omega
  · intro hph
    have hp := h.phase
    simp only [Phased, hph] at hp
    obtain ⟨m, a', ha⟩ := List.exists_cons_of_ne_nil hp
    obtain ⟨hmem, -⟩ := h.first m a' ha
    have hlen := (h.message m hmem).2
    have := Channel.span_len_lt t m hmem
    have := msgLenAddr_sub c.rcv (by omega)
    omega
  · intro reg hph
    obtain ⟨-, m, hml, -, haddr, hsize, -⟩ := h.holding reg hph
    have hlen := (h.message m hml).2
    have := Channel.span_len_lt t m hml
    have := low_le .down L m hL
    rw [haddr, addrOf_sub h2 c m hL, hsize]
    omega

end Delivery

/-- In every run whose payloads leave room for their six extra bytes in 32 bits, every
state delivers. A ring of length zero cannot be mapped. -/
theorem reverse_delivery (addr : UInt64) (key size : UInt32) (hL : 0 < size.toNat)
    (h2 : 2*size.toNat < 2^32) (es : List Event) (c : Connection)
    (hm : Meets step (fun _ => Sized) es (init addr key size))
    (hr : run step es (init addr key size) = some c) : Delivers size.toNat c := by
  obtain ⟨t, a, b, h⟩ := run_sound addr key size hL h2 es c hm hr
  exact h.delivers hL h2

/-- Two messages in a ring of 16 bytes. The second one wraps, and is sent while the
first one is still arriving. -/
def wrappedTrace : List Event :=
  [.send ⟨3, fun i => UInt8.ofNat (i+1)⟩, .arrive, .send ⟨1, fun _ => 9⟩, .poll]++
    List.replicate 8 .arrive++[.poll, .receive, .arrive, .free, .updateHead]++
    List.replicate 6 .arrive++[.poll, .receive]

theorem reverse_delivery_wrapped : ∃ c : Connection,
    run step wrappedTrace (init 65536 7 16) = some c ∧ c.got.length = 2 ∧ Delivers 16 c := by
  have hr := run_get step wrappedTrace (init 65536 7 16) (by decide +kernel)
  refine ⟨_, hr, by decide +kernel, ?_⟩
  exact reverse_delivery 65536 7 16 (by decide) (by decide) wrappedTrace _ (by decide +kernel) hr

/-- A payload of `2^32-1` zero bytes: the space check is made for five bytes, and the
five bytes that are written leave the polled byte at zero for good. -/
def overflowTrace : List Event :=
  [.send ⟨4294967295, fun _ => 0⟩]++List.replicate 5 .arrive

theorem oversized_never_seen : ∃ c : Connection,
    run step overflowTrace (init 65536 7 4096) = some c ∧ c.wire = [] ∧ c.sent.length = 1 ∧
      polled c.rcv c.mem = 0 ∧ ¬Delivers 4096 c := by
  have hr := run_get step overflowTrace (init 65536 7 4096) (by decide +kernel)
  refine ⟨_, hr, by decide +kernel, by decide +kernel, by decide +kernel, ?_⟩
  intro h
  apply h.armed.mpr (by decide +kernel)
  decide +kernel

end KYM.ReverseDelivery
