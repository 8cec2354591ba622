import KnowYourMemory.Channel
import KnowYourMemory.WriteChecksum

/-!
# The ring of Checksummed Write

Every byte outside the messages that have arrived and are not freed is zero. So
a length word that is not zero is that of the next message. Between the two halves of
`Free` the stream still holds the message and the ring of the receiver is ahead of it.
-/

set_option autoImplicit false

namespace KYM.ChecksumDelivery
open KYM.Run KYM.Circle KYM.RingBuffer KYM.RingOffsets KYM.BoundedStream KYM.MagicMemory
open KYM.WriteSender (bytesAt storeAt written)
open KYM.WriteChecksum

variable {crc : List UInt8 → UInt32} {L : ℕ} {mem mem' : ℕ → UInt8} {m n : Span (List UInt8)}

section Frame

variable (crc) (p : List UInt8)

def crcOf : UInt32 := crc (putU32 (UInt32.ofNat (p.length+8))++p)

def frame : List UInt8 := putU32 (UInt32.ofNat (p.length+8))++(putU32 (crcOf crc p)++p)

theorem frame_length : (frame crc p).length = p.length+8 := by
  simp only [frame, List.length_append, putU32_length]
  omega

theorem sendAsync_ok (snd snd' : RemoteBuffer) (addr : UInt64) (bytes : List UInt8)
    (hp : p.length+8 < 2^32)
    (hs : sendAsync crc snd (getMemoryRegion p) = .ok (addr, bytes, snd')) :
    Magic.getWriteAddr snd (UInt32.ofNat (p.length+8)) = .ok addr ∧ bytes = frame crc p ∧
      snd' = written snd (UInt32.ofNat (p.length+8)) := by
  have hlen : UInt32.ofNat p.length+8 = UInt32.ofNat (p.length+8) := (UInt32.ofNat_add _ _).symm
  have hn : (UInt32.ofNat p.length).toNat = p.length :=
    UInt32.toNat_ofNat_of_lt (by simp only [UInt32.size]; omega)
  have hw : (UInt32.ofNat (p.length+8)).toNat = p.length+8 :=
    UInt32.toNat_ofNat_of_lt (by simp only [UInt32.size]; omega)
  simp only [sendAsync, getMemoryRegion, hlen] at hs
  cases hg : Magic.getWriteAddr snd (UInt32.ofNat (p.length+8)) with
  | error e =>
    simp only [hg] at hs
    cases hs
  | ok a =>
    simp only [hg, hn, hw, List.take_length, Except.ok.injEq, Prod.mk.injEq] at hs
    obtain ⟨rfl, rfl, rfl⟩ := hs
    have hf := frame_length crc p
    simp only [frame, crcOf, ← List.append_assoc] at hf
    refine ⟨rfl, ?_, rfl⟩
    rw [List.take_of_length_le (by rw [hf])]
    simp only [frame, crcOf, List.append_assoc]

end Frame

section Memory

def addrOf (L : ℕ) (base : UInt64) (m : Span (List UInt8)) : UInt64 :=
  (Channel.slotOf .up L base m).addr

def regionOf (L : ℕ) (base : UInt64) (m : Span (List UInt8)) : ReceiveRegion :=
  region (addrOf L base m) (UInt32.ofNat m.len)

def messageOf (L : ℕ) (base : UInt64) (m : Span (List UInt8)) : Message :=
  ⟨addrOf L base m, m.body⟩

def entryOf (crc : List UInt8 → UInt32) (L : ℕ) (base : UInt64) (m : Span (List UInt8)) :
    UInt64 × List UInt8 := (addrOf L base m, frame crc m.body)

def Stored (crc : List UInt8 → UInt32) (L : ℕ) (mem : ℕ → UInt8) (m : Span (List UInt8)) : Prop :=
  load L mem m.start m.len = frame crc m.body

theorem Stored.parts (h : Stored crc L mem m) (hlen : m.len = m.body.length+8) :
    load L mem m.start 4 = putU32 (UInt32.ofNat m.len) ∧
      load L mem (m.start+4) 4 = putU32 (crcOf crc m.body) ∧
      load L mem (m.start+8) m.body.length = m.body := by
  rw [Stored, hlen, show m.body.length+8 = 4+(4+m.body.length) by omega, load_append, load_append,
    frame] at h
  obtain ⟨h1, h⟩ := List.append_inj h (by rw [load_length, putU32_length])
  obtain ⟨h2, h3⟩ := List.append_inj h (by rw [load_length, putU32_length])
  exact ⟨hlen ▸ h1, h2, h3⟩

theorem Stored.frame (h : Stored crc L mem m)
    (hm : ∀ o ∈ cells L m.start m.len, mem' o = mem o) : Stored crc L mem' m := by
  rw [Stored, load_eq_of_cells L mem mem' _ _ hm]
  exact h

variable {rcv : Buffer}

theorem bytes_inside (h2 : 2*L < 2^32) (hL : 0 < L) (hl : rcv.length.toNat = L)
    (m : Span (List UInt8)) (i : UInt64) (hi : i.toNat < 2^32) (k : ℕ) :
    bytesAt rcv mem (addrOf L rcv.addr m+i) k = load L mem (m.start+i.toNat) k := by
  rw [bytesAt, hl, addrOf, Channel.slot_inside h2 hL rcv.addr m i hi]
  exact load_congr L mem _ _ k (Nat.mod_add_mod _ _ _)

theorem bytes_start (h2 : 2*L < 2^32) (hL : 0 < L) (hl : rcv.length.toNat = L)
    (m : Span (List UInt8)) (k : ℕ) :
    bytesAt rcv mem (addrOf L rcv.addr m) k = load L mem m.start k := by
  rw [← UInt64.add_zero (addrOf L rcv.addr m), bytes_inside h2 hL hl m 0 (by decide) k]
  rfl

theorem region_length (m : Span (List UInt8)) (base : UInt64) (hm : m.len < 2^32)
    (hlen : m.len = m.body.length+8) : (regionOf L base m).length.toNat = m.body.length := by
  have hw : (UInt32.ofNat m.len).toNat = m.len := UInt32.toNat_ofNat_of_lt hm
  have h8 : (8 : UInt32).toNat = 8 := rfl
  simp only [regionOf, region]
  rw [sub_toNat _ _ (by omega), hw, h8]
  omega

theorem bytes_payload (h2 : 2*L < 2^32) (hL : 0 < L) (hl : rcv.length.toNat = L)
    (hm : m.len < 2^32) (hlen : m.len = m.body.length+8) (hst : Stored crc L mem m) :
    bytesAt rcv mem (regionOf L rcv.addr m).addr (regionOf L rcv.addr m).length.toNat = m.body := by
  have h8 : (8 : UInt64).toNat = 8 := rfl
  rw [region_length m _ hm hlen, regionOf, region, bytes_inside h2 hL hl m 8 (by decide), h8]
  exact (hst.parts hlen).2.2

theorem region_header (base : UInt64) (m : Span (List UInt8)) :
    (regionOf L base m).addr-8 = addrOf L base m ∧
      (regionOf L base m).addr-4 = addrOf L base m+4 := by
  refine ⟨UInt64.add_sub_cancel _ _, ?_⟩
  rw [regionOf, region, show (8 : UInt64) = 4+4 from rfl, ← UInt64.add_assoc]
  exact UInt64.add_sub_cancel _ _

end Memory

/-- What each phase knows of the message at the read position. In `clearing` the ring
of the receiver is the one that `Free` left, and `rcv` the one before. -/
def Standing (crc : List UInt8 → UInt32) (L : ℕ) (c : Connection) (rcv : Buffer)
    (held a : List (Span (List UInt8))) : Prop :=
  match c.phase with
  | .polling => c.rcv = rcv ∧ held = []
  | .parsing => c.rcv = rcv ∧ held = [] ∧ a ≠ []
  | .checking length reg result rounds => c.rcv = rcv ∧ held = [] ∧ ∃ m a', a = m::a' ∧
    reg = regionOf L rcv.addr m ∧ length = UInt32.ofNat m.len ∧
    (rounds = 0 ∨ rounds = 1 ∧ result = crcOf crc m.body)
  | .holding reg => c.rcv = rcv ∧ ∃ m, held = [m] ∧ reg = regionOf L rcv.addr m ∧
    c.got.getLast? = some reg ∧ Stored crc L c.mem m
  | .clearing reg head k => ∃ m, held = [m] ∧ reg = regionOf L rcv.addr m ∧
    RingBuffer.free .up rcv (addrOf L rcv.addr m) = (head, c.rcv) ∧ k ≤ m.len ∧
    ∀ i < k, c.mem ((m.start+i)%L) = 0

structure Sound (crc : List UInt8 → UInt32) (L : ℕ) (c : Connection) (rcv : Buffer)
    (t : Tape (List UInt8) (L-1)) (a b : List (Span (List UInt8))) : Prop where
  refines : Channel.Refines .up L (Channel.linkOf .up L c.snd rcv c.currOffset t) t
  ring : c.rcv.addr = rcv.addr ∧ c.rcv.length = rcv.length
  split : t.unread = a++b
  wire : c.wire = b.map (entryOf crc L rcv.addr)
  sent : c.sent.drop (freed c) = t.live.map (messageOf L rcv.addr)
  count : c.sent.length = freed c+t.live.length ∧ c.got.length = freed c+t.held.length
  message : ∀ m ∈ t.live, m.len = m.body.length+8
  returned : ∀ (k : ℕ) (reg : ReceiveRegion), c.got[k]? = some reg →
    ∃ m : Message, c.sent[k]? = some m ∧ reg.length.toNat = m.payload.length
  stored : ∀ m ∈ a, Stored crc L c.mem m
  blank : ∀ o, (∀ m ∈ t.held++a, o ∉ cells L m.start m.len) → c.mem o = 0
  phase : Standing crc L c rcv t.held a

theorem init_sound (crc : List UInt8 → UInt32) (addr : UInt64) (key size : UInt32)
    (h2 : 2*size.toNat < 2^32) :
    Sound crc size.toNat (init addr key size) (newRingBuffer addr key size)
      (Tape.empty (List UInt8) _) [] [] where
  refines := Channel.init_refines .up addr key size h2
  ring := ⟨rfl, rfl⟩
  split := rfl
  wire := rfl
  sent := rfl
  count := ⟨rfl, rfl⟩
  message := by simp [Tape.live, Tape.empty]
  returned := by simp [init]
  stored := by simp
  blank := fun _ _ => rfl
  phase := ⟨rfl, rfl⟩

section Facts

variable {c c' : Connection} {rcv : Buffer} {t : Tape (List UInt8) (L-1)}
  {a b : List (Span (List UInt8))}

theorem live_lt (t : Tape (List UInt8) (L-1)) (h2 : 2*L < 2^32) (hm : m ∈ t.live) :
    0 < L ∧ m.len ≤ L ∧ m.len < 2^32 := by
  have h := Channel.span_len_lt t m hm
  omega

theorem len_word (t : Tape (List UInt8) (L-1)) (h2 : 2*L < 2^32) (hm : m ∈ t.live) :
    (UInt32.ofNat m.len).toNat = m.len := UInt32.toNat_ofNat_of_lt (live_lt t h2 hm).2.2

theorem Standing.deliver {held : List (Span (List UInt8))} (h : Standing crc L c rcv held a)
    (hm : ∀ m ∈ held, ∀ o ∈ cells L m.start m.len, mem' o = c.mem o)
    (wire : List (UInt64 × List UInt8)) (x : List (Span (List UInt8))) :
    Standing crc L { c with mem := mem', wire := wire } rcv held (a++x) := by
  cases hp : c.phase with
  | polling =>
    simp only [Standing, hp] at h ⊢
    exact h
  | parsing =>
    simp only [Standing, hp] at h ⊢
    obtain ⟨hr, hh, ha⟩ := h
    exact ⟨hr, hh, by simp [ha]⟩
  | checking length reg result rounds =>
    simp only [Standing, hp] at h ⊢
    obtain ⟨hr, hh, m, a', rfl, h⟩ := h
    exact ⟨hr, hh, m, a'++x, rfl, h⟩
  | holding reg =>
    simp only [Standing, hp] at h ⊢
    obtain ⟨hr, m, rfl, hreg, hg, hst⟩ := h
    exact ⟨hr, m, rfl, hreg, hg, hst.frame (hm m (by simp))⟩
  | clearing reg head k =>
    simp only [Standing, hp] at h ⊢
    obtain ⟨m, rfl, hreg, hf, hk, hz⟩ := h
    refine ⟨m, rfl, hreg, hf, hk, ?_⟩
    intro i hi
    rw [hm m (by simp) _ ((mem_cells L _ _ _).mpr ⟨i, by omega, rfl⟩)]
    exact hz i hi

theorem Sound.place (h : Sound crc L c rcv t a b) (h2 : 2*L < 2^32) (hL : 0 < L)
    (m : Span (List UInt8)) (i : UInt64) (hi : i.toNat < 2^32) (bytes : List UInt8) :
    storeAt c.rcv c.mem (addrOf L rcv.addr m+i) bytes =
      store L c.mem (m.start%L+i.toNat) bytes := by
  have hl : c.rcv.length.toNat = L := by rw [h.ring.2]; exact h.refines.receiver.length
  rw [storeAt, hl, h.ring.1, addrOf, Channel.slot_inside h2 hL rcv.addr m i hi]
  rfl

theorem Sound.polled_zero (h : Sound crc L c rcv t a b) (hh : t.held = []) (ha : a = []) :
    polled c.rcv c.mem = 0 := by
  have hz : ∀ o, c.mem o = 0 := fun o => h.blank o (by simp [hh, ha])
  have hw : bytesAt c.rcv c.mem (Magic.getReadPtr c.rcv) 4 = putU32 0 := by
    simp only [bytesAt, load, hz, putU32]
    decide
  rw [polled, hw, getU32_putU32]

theorem Sound.first (h : Sound crc L c rcv t a b) (h2 : 2*L < 2^32) (hr : c.rcv = rcv)
    (m : Span (List UInt8)) (a' : List (Span (List UInt8))) (ha : a = m::a') :
    Magic.getReadPtr c.rcv = addrOf L rcv.addr m ∧ polled c.rcv c.mem = UInt32.ofNat m.len ∧
      WriteChecksum.stored c.rcv c.mem (regionOf L rcv.addr m) = crcOf crc m.body ∧
      process crc c.rcv c.mem (regionOf L rcv.addr m) = crcOf crc m.body := by
  subst hr
  have hu : t.unread = m::(a'++b) := by rw [h.split, ha, List.cons_append]
  obtain ⟨hm, hstart⟩ := t.first_unread m _ hu
  obtain ⟨hL, hle, hlt⟩ := live_lt t h2 hm
  have hlen := h.message m hm
  have hl : c.rcv.length.toNat = L := h.refines.receiver.length
  have hptr : Magic.getReadPtr c.rcv = addrOf L c.rcv.addr m :=
    Channel.readPtr_slot h.refines m hstart
  have hst := h.stored m (by simp [ha])
  obtain ⟨h1, h3, -⟩ := hst.parts hlen
  have hword : bytesAt c.rcv c.mem (Magic.getReadPtr c.rcv) 4 = putU32 (UInt32.ofNat m.len) := by
    rw [hptr, bytes_start h2 hL hl, h1]
  refine ⟨hptr, ?_, ?_, ?_⟩
  · rw [polled, hword, getU32_putU32]
  · have h4 : (4 : UInt64).toNat = 4 := rfl
    rw [WriteChecksum.stored, (region_header _ m).2, bytes_inside h2 hL hl m 4 (by decide), h4, h3,
      getU32_putU32]
  · rw [process, hword, bytes_payload h2 hL hl hlt hlen hst, hlen, crcOf]

theorem Sound.oldest (h : Sound crc L c rcv t a b) (m : Span (List UInt8))
    (ms : List (Span (List UInt8))) (hl : t.live = m::ms) :
    c.sent[freed c]? = some (messageOf L rcv.addr m) := by
  have hs := congrArg List.head? h.sent
  rw [List.head?_drop, hl] at hs
  exact hs

end Facts

end KYM.ChecksumDelivery
