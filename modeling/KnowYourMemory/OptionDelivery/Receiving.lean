import KnowYourMemory.OptionDelivery.Sending

/-!
# Receiving and freeing

The oldest announced message is found where the log has it. A free clears what the next
poll looks at.
-/

set_option autoImplicit false

namespace KYM.OptionDelivery
open KYM.Run KYM.Circle KYM.RingBuffer KYM.RingOffsets KYM.RingPositions KYM.MagicMemory KYM.RingLog
open KYM.WriteConnection (Sender Acknowledger WriteOpts senderOf bufferOf writeBufSize written
  kAllocatorDumb kAcknowledgerSend kAcknowledgerRead kSenderWrite kSenderWriteImm
  kSenderWriteReverse kBufferMagic kBufferReverse)
open KYM.WriteSenders KYM.WriteSetup KYM.MessageLayout
open KYM.SendAcknowledge (WriteReceiver)
open KYM.WriteSender (Op bytesAt storeAt)
open KYM.WriteChecksum (crc32)

section Reading

variable {crc : List UInt8 → UInt32} {k : Sender} {d : Direction} {L : ℕ} {ack : Acknowledger}
  {c c' : Session} {f h a x b : List (List UInt8)} {m : List UInt8} {mem : ℕ → UInt8} {off : ℕ}

theorem Sound.framed (hS : Sound crc k d L ack c f h a x b) (hL : 0 < L) (ms : List (List UInt8))
    (hm : h++(a++x) = m::ms) (ho : Anchored d L off (pos k f) (claimed k m)) :
    load L c.remote.mem off (claimed k m) = frame crc k m := by
  have hlen := frame_length crc k m
  have hsent : c.sent = f++m::(ms++b) := by
    rw [hS.sent, ← List.cons_append, ← hm]
    simp only [List.append_assoc]
  rw [← hlen] at ho ⊢
  apply hS.spells.load hL ho _ (le_refl _)
  · rw [hm, hlen, pos_append, pos_cons]
    omega
  · intro i hi
    rw [hsent]
    exact log_at crc k d m f _ i (hlen ▸ hi)

end Reading

section Receive

variable {crc : List UInt8 → UInt32} {k : Sender} {d : Direction} {L : ℕ} {ack : Acknowledger}
  {c c' : Session} {f h a x b : List (List UInt8)} {m : List UInt8}
  {v : WriteReceiver}

theorem Sound.received (hS : Sound crc k d L ack c f [] (m::a) x b) (hk : Suits k d)
    (hL : 4 ≤ L) (h2 : 2*L < 2^32) : ∃ (w : Received) (o : UInt32),
      WriteSetup.receive crc ⟨k, ack, d, v⟩ c.receiver c.remote = some w ∧
      Taken k d L c.receiver.rbuf (pos k f) m w o ∧
      Ready k d L { c.remote with imms := w.imms } a (pos k f) (pos k (f++([m]++a))) := by
  obtain ⟨hwin, hstrict⟩ := hS.window
  have hsent := hS.pos_sent
  rw [pos_cons] at hsent
  have hgot : c.got = f := by rw [hS.got, List.append_nil]
  have hreads := hS.reads
  rw [hgot] at hreads
  obtain ⟨o, haddr, ho, htaken⟩ := taken_of_read (m := m) (k := k) hreads (by omega) h2 (by omega)
  have hf := hS.framed (by omega) (a++x) rfl ho
  have hready := hS.ready
  cases hk with
  | write =>
    obtain ⟨reg, hr, hreg, hlen⟩ := receive_write ack v hreads.length o haddr
      (by omega) hf
    exact ⟨_, o, hr, htaken _ _ hreg hlen, hready⟩
  | offset =>
    have hne : c.remote.tail ≠ getReadOff .up c.receiver.rbuf := by
      intro he
      have ht : c.remote.tail.toNat = pos .offset (f++([]++m::a))%L := hready
      have hp : (getReadOff .up c.receiver.rbuf).toNat = pos .offset f%L := hreads.readPtr
      rw [he, hp, pos_append, List.nil_append, pos_cons] at ht
      have hc : claimed .offset m = m.length+4 := rfl
      have hstrict := hstrict rfl
      have := residue_inj L _ _ (Nat.le_add_right _ _) (by omega) ht
      omega
    obtain ⟨reg, hr, hreg, hlen⟩ := receive_offset ack v hreads.length o haddr
      (by omega) hne hf
    exact ⟨_, o, hr, htaken _ _ hreg hlen, hready⟩
  | imm =>
    have himm : c.remote.imms = (m::a).map (fun p => UInt32.ofNat p.length) := hready
    have hc : claimed .imm m = m.length := rfl
    refine ⟨⟨⟨0, c.receiver.rbuf.addr+o.toUInt64, UInt32.ofNat m.length⟩, _, _⟩, o, ?_,
      htaken _ (a.map (fun p : List UInt8 => UInt32.ofNat p.length)) (UInt64.add_zero _).symm
        (word_toNat _ (by omega)), rfl⟩
    simp only [WriteSetup.receive, himm, List.map_cons]
    rw [← haddr]
    rfl
  | reverse =>
    obtain ⟨reg, hr, hreg, hlen⟩ := receive_reverse ack v hreads hL hS.length o ho
      haddr (by omega) hf
    exact ⟨_, o, hr, htaken _ _ hreg hlen, hready⟩

theorem Sound.waits (hS : Sound crc k d L ack c f [] [] x b) (hk : Suits k d) (hL : 4 ≤ L) :
    WriteSetup.receive crc ⟨k, ack, d, v⟩ c.receiver c.remote = none := by
  have hgot : c.got = f := by rw [hS.got, List.append_nil]
  have hreads := hS.reads
  rw [hgot] at hreads
  have hready := hS.ready
  simp only [List.append_nil] at hready
  cases hk with
  | write =>
    have hz : ∀ q, pos .write f ≤ q → q < pos .write f+L → c.remote.mem (place .up L q) = 0 :=
      hready
    have hp : Anchored .up L c.receiver.rbuf.readPtr.toNat (pos .write f) (putU32 0).length := by
      rw [Anchored, show c.receiver.rbuf.readPtr.toNat = pos .write f%L from hreads.readPtr,
        Nat.mod_mod]
    have hload : load L c.remote.mem c.receiver.rbuf.readPtr.toNat 4 = putU32 0 := by
      apply load_along (by omega) hp
      intro i hi
      rw [putU32_length] at hi
      rw [hz _ (Nat.le_add_right _ _) (by omega)]
      have : ∀ i < 4, some 0 = (putU32 0)[i]? := by decide
      exact this i hi
    have hhead : ChecksumLoop.head .up c.receiver.rbuf c.remote.mem = 0 := by
      have hb := bytesAt_start c.remote.mem c.receiver.rbuf hreads.length
        c.receiver.rbuf.readPtr 4
      rw [hload] at hb
      exact (congrArg getU32 hb).trans (getU32_putU32 0)
    simp only [WriteSetup.receive, hhead, if_true]
  | offset =>
    have ht : c.remote.tail.toNat = pos .offset f%L := hready
    have hp : (getReadOff .up c.receiver.rbuf).toNat = pos .offset f%L := hreads.readPtr
    have he := UInt32.toNat_inj.mp (ht.trans hp.symm)
    simp only [WriteSetup.receive, he, if_true]
  | imm =>
    have himm : c.remote.imms = [] := hready
    simp only [WriteSetup.receive, himm]
  | reverse =>
    have hz : c.remote.mem (place .down L (pos .reverse f)) = 0 := hready
    have hlt : place .down L (pos .reverse f) < L := by
      simp only [place]
      omega
    have hone : bytesAt c.receiver.rbuf c.remote.mem
        (getReadPtr .down c.receiver.rbuf+c.receiver.length.toUInt64) 1 = [0] := by
      rw [(polled_load _ hreads hL hS.length 1).1]
      simp only [load, List.range_one, List.map_cons, List.map_nil, Nat.add_zero,
        Nat.add_mod_right, Nat.mod_eq_of_lt hlt, hz]
    simp only [WriteSetup.receive, hone, if_true]

theorem Sound.receive {rb : RemoteBuffer} (hS : Sound crc k d L ack c f h a x b)
    (hk : Suits k d) (hL : 4 ≤ L) (h2 : 2*L < 2^32)
    (hs : step crc ⟨k, ack, d, rb⟩ ⟨k, ack, d, v⟩ c .receive = some c') :
    ∃ h' a', Sound crc k d L ack c' f h' a' x b := by
  have hhold := hS.holding
  cases hheld : c.held with
  | some reg => simp [step, hheld] at hs
  | none =>
    simp only [Holding, hheld] at hhold
    obtain ⟨rfl, hout⟩ := hhold
    cases a with
    | nil => simp [step, hheld, hS.waits hk hL] at hs
    | cons m a =>
      obtain ⟨w, o, hw, ht, hready⟩ := hS.received (v := v) hk hL h2
      have hf := hS.framed (by omega) (a++x) rfl ht.anchored
      have hbytes : bytesAt w.rbuf c.remote.mem w.reg.addr w.reg.length.toNat = m := by
        apply region_bytes w.rbuf ht.reads.length o w.reg _ ht.length hf
        rw [ht.base]
        exact ht.addr
      have hgot : c.got = f := by rw [hS.got, List.append_nil]
      simp only [step, hheld, hw, hbytes] at hs
      obtain rfl := Option.some.inj hs
      refine ⟨[m], a, hS.sent, ?_, hS.sender, hS.acks, hS.base.trans ht.base.symm, ?_, hS.length,
        hS.curr, ⟨m, o, rfl, ?_, ht.anchored, ?_, ht.length⟩, hS.spells, hready, ?_⟩
      · exact congrArg (·++[m]) hgot
      · simp only [hgot, pos_append, pos_singleton]
        exact ht.reads
      · rw [ht.outstanding, hout, List.nil_append]
      · rw [ht.base]
        exact ht.addr
      · rw [ht.base]
        exact hS.inFlight

end Receive

section Free

variable {crc : List UInt8 → UInt32} {k : Sender} {d : Direction} {L : ℕ} {ack : Acknowledger}
  {c c' : Session} {f h a x b : List (List UInt8)} {m : List UInt8}
  {v : WriteReceiver}

theorem place_wrap (d : Direction) (L q : ℕ) : place d L (q+L) = place d L q := by
  cases d <;> simp [place]

theorem Ready.free {r : Remote} {lo p n : ℕ} (hr : Ready k d L r a lo p) (mem : ℕ → UInt8)
    (hp : lo+n ≤ p) (hrev : k = .reverse → p < lo+L)
    (hsame : ∀ q, lo+n ≤ q → q < lo+L → mem (place d L q) = r.mem (place d L q))
    (hblank : k = .write → ∀ q, lo ≤ q → q < lo+n → mem (place d L q) = 0) :
    Ready k d L { r with mem := mem } a (lo+n) p := by
  cases k with
  | write =>
    intro q h1 h2
    by_cases hq : q < lo+L
    · exact (hsame q (by omega) hq).trans (hr q h1 hq)
    · obtain ⟨i, rfl⟩ := Nat.exists_eq_add_of_le (show L ≤ q by omega)
      rw [Nat.add_comm, place_wrap]
      exact hblank rfl i (by omega) (by omega)
  | offset => exact hr
  | imm => exact hr
  | reverse => exact (hsame p hp (hrev rfl)).trans hr

theorem Sound.free (hS : Sound crc k d L ack c f h a x b) (hk : Suits k d) (hL : 0 < L)
    (reg : ReceiveRegion) (hheld : c.held = some reg) :
    ∃ f', Sound crc k d L ack (WriteSetup.free ⟨k, ack, d, v⟩ c reg) f' [] a x b := by
  have hhold := hS.holding
  obtain ⟨hwin, -⟩ := hS.window
  have hsent := hS.pos_sent
  simp only [Holding, hheld] at hhold
  obtain ⟨m, o, rfl, hout, ho, haddr, hlen⟩ := hhold
  rw [pos_singleton] at hsent
  have hstart : reg.addr-k.header = c.receiver.rbuf.addr+o.toUInt64 := by
    rw [haddr]
    exact UInt64.add_sub_cancel _ _
  have hfree := free_only d c.receiver.rbuf o hout
  rw [← hstart] at hfree
  obtain ⟨acked, acks, hc, hacks⟩ := free_ok k ack v c reg _ _ hfree
  obtain ⟨hsame, hblank⟩ := cleared_ok hk hL { c.receiver.rbuf with
    head := c.receiver.rbuf.readPtr, outstanding := [] } hS.reads.length c.remote.mem reg o (pos k f)
    haddr hlen ho (by omega)
  have hpos : pos k (f++[m]) = pos k f+claimed k m := by rw [pos_append, pos_singleton]
  have hassoc : ∀ ms : List (List UInt8), (f++[m])++([]++ms) = f++([m]++ms) := by simp
  have hmark := hS.reads.readPtr
  rw [hS.got] at hmark
  obtain ⟨q, hi, ht, hh, hreach⟩ := hS.sender
  obtain ⟨hi', hle, hreach'⟩ := hreach.free hS.sent
  have hh' := hh.raise hle
  rw [hc]
  refine ⟨f++[m], ?_, ?_, ⟨q, hi', ht, ?_, hreach'⟩, ?_, hS.base,
    ⟨hS.reads.length, hS.reads.readPtr⟩, hS.length, hmark, ⟨rfl, rfl⟩, ?_, ?_, ?_⟩
  · rw [hS.sent, List.append_assoc]
    rfl
  · rw [hS.got, List.append_nil]
  · rcases hacks with rfl | ⟨-, rfl⟩
    · exact hh'
    · exact hh'.concat _ (hreach'.marks hmark)
  · intro hread
    rcases hacks with rfl | ⟨hsend, -⟩
    · exact hS.acks hread
    · rw [hread] at hsend
      cases hsend
  · rw [hpos, hassoc]
    apply (hS.spells.mono (Nat.le_add_right _ _)).congr
    intro q h1 h2
    rw [pos_append, pos_append, pos_append, pos_singleton] at h2
    exact hsame q h1 (by omega)
  · rw [hpos, hassoc]
    have hnext : pos k (f++([m]++a)) = pos k f+(claimed k m+pos k a) := by
      rw [pos_append, pos_append, pos_singleton]
    apply hS.ready.free _ (by omega) _ hsame hblank
    rintro rfl
    have hslack : Sender.reverse.slack.toNat = 1 := rfl
    omega
  · rw [hassoc]
    exact hS.inFlight

end Free

end KYM.OptionDelivery
