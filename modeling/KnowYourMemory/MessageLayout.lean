import KnowYourMemory.RingLog
import KnowYourMemory.RingPositions
import KnowYourMemory.WriteSetup

/-!
# Layout of messages on the ring

A message is a header, the payload and a trailer, by the class of its sender. What the
requests of a message store, what `Receive` finds of a message that lies at its read
position, and what `Free` clears of it.
-/

set_option autoImplicit false

namespace KYM.MessageLayout
open KYM.Circle KYM.RingBuffer KYM.RingOffsets KYM.RingPositions KYM.MagicMemory KYM.RingLog
open KYM.SendAcknowledge (WriteReceiver)
open KYM.WriteConnection (Sender Acknowledger written)
open KYM.WriteSenders KYM.WriteSetup
open KYM.WriteSender (Op bytesAt storeAt)

inductive Suits : Sender → Direction → Prop
  | write : Suits .write .up
  | offset : Suits .offset .up
  | imm (d : Direction) : Suits .imm d
  | reverse : Suits .reverse .down

section Layout

variable (crc : List UInt8 → UInt32) (k : Sender) (d : Direction) (p : List UInt8)

def header : List UInt8 :=
  match k with
  | .write => putU32 (UInt32.ofNat (p.length+8))++
      putU32 (crc (putU32 (UInt32.ofNat (p.length+8))++p))
  | .offset => putU32 (UInt32.ofNat (p.length+4))
  | .imm | .reverse => []

def trailer : List UInt8 :=
  match k with
  | .reverse => putU32 (UInt32.ofNat (p.length+5))++[1]
  | .write | .offset | .imm => []

def frame : List UInt8 := header crc k p++p++trailer k p

def lead : List UInt8 :=
  match k with
  | .reverse => [0]
  | .write | .offset | .imm => []

def dataOf (addr : UInt64) : Op :=
  match k with
  | .imm => .writeImm addr (frame crc k p) (UInt32.ofNat p.length)
  | .write | .offset | .reverse => .write addr (lead k++frame crc k p)

def announcement (L stop : ℕ) : List Op :=
  match k with
  | .offset => [.writeTail (UInt32.ofNat (stop%L))]
  | .write | .imm | .reverse => []

def log (ms : List (List UInt8)) : List UInt8 := ms.flatMap (fun p => along d (frame crc k p))

def pos (ms : List (List UInt8)) : ℕ := (ms.map (claimed k)).sum

theorem header_length : (header crc k p).length = k.header.toNat := by
  cases k <;> simp [header, putU32_length, Sender.header]

theorem lead_length : (lead k).length = k.slack.toNat := by cases k <;> rfl

theorem frame_length : (frame crc k p).length = claimed k p := by
  cases k <;>
    simp [frame, header, trailer, claimed, putU32_length, Sender.overhead, Sender.slack] <;> omega

theorem written_length : (lead k++frame crc k p).length = p.length+k.overhead.toNat := by
  rw [List.length_append, lead_length, frame_length, claimed]
  cases k <;> simp [Sender.overhead, Sender.slack]
  omega

theorem log_length (ms : List (List UInt8)) : (log crc k d ms).length = pos k ms := by
  induction ms with
  | nil => rfl
  | cons m ms ih =>
    simp only [log, List.flatMap_cons, List.length_append, along_length, frame_length] at ih ⊢
    rw [ih]
    rfl

theorem pos_append (ms ns : List (List UInt8)) : pos k (ms++ns) = pos k ms+pos k ns := by
  simp [pos]

theorem pos_cons (ms : List (List UInt8)) : pos k (p::ms) = claimed k p+pos k ms := by simp [pos]

theorem pos_singleton : pos k [p] = claimed k p := by simp [pos]

theorem log_at (ms ns : List (List UInt8)) (i : ℕ) (hi : i < claimed k p) :
    (log crc k d (ms++p::ns))[pos k ms+i]? = (along d (frame crc k p))[i]? := by
  have hm := log_length crc k d ms
  simp only [log, List.flatMap_append, List.flatMap_cons] at hm ⊢
  rw [List.getElem?_append_right (by omega), hm, Nat.add_sub_cancel_left,
    List.getElem?_append_left (by rw [along_length, frame_length]; exact hi)]

end Layout

section Sending

variable {crc : List UInt8 → UInt32} {k : Sender} {d : Direction} {L : ℕ}

theorem putU32_front (x : UInt32) (bs : List UInt8) : (putU32 x++bs).take 4 = putU32 x := by
  rw [List.take_left' (putU32_length x)]

theorem region_length (k : Sender) (p : List UInt8) :
    (getMemoryRegion k p).length = UInt32.ofNat p.length := by
  cases k <;> rfl

theorem word_toNat (n : ℕ) (h : n < 2^32) : (UInt32.ofNat n).toNat = n :=
  UInt32.toNat_ofNat_of_lt h

theorem len_toNat (k : Sender) (p : List UInt8) (h : claimed k p+1 < 2^32) :
    (UInt32.ofNat p.length+k.overhead).toNat = p.length+k.overhead.toNat := by
  unfold claimed at h
  have hp : p.length < 2^32 := by cases k <;> simp [Sender.overhead, Sender.slack] at h <;> omega
  rw [add_toNat _ _ _, word_toNat _ hp]
  rw [word_toNat _ hp]
  cases k <;> simp [Sender.overhead, Sender.slack] at h ⊢ <;> omega

theorem take_written (crc : List UInt8 → UInt32) (k : Sender) (p bs : List UInt8)
    (h : bs = lead k++frame crc k p) :
    bs.take (p.length+k.overhead.toNat) = lead k++frame crc k p := by
  rw [h, ← written_length crc k p, List.take_length]

theorem dataOp_ok (crc : List UInt8 → UInt32) (k : Sender) (p : List UInt8) (addr : UInt64)
    (h : claimed k p+1 < 2^32) : dataOp k crc (getMemoryRegion k p)
      (UInt32.ofNat p.length+k.overhead) addr = dataOf crc k p addr := by
  have hl := len_toNat k p h
  have hp : p.length < 2^32 := by
    unfold claimed at h
    cases k <;> simp [Sender.overhead, Sender.slack] at h <;> omega
  cases k with
  | write =>
    simp only [dataOp, dataOf, getMemoryRegion, checksummed, SendRegion.message, putU32_front, hl,
      word_toNat _ hp, List.take_length]
    congr 1
    exact take_written crc .write p _ (by simp [lead, frame, header, trailer])
  | offset =>
    simp only [dataOp, dataOf, getMemoryRegion, SendRegion.message, hl]
    congr 1
    exact take_written crc .offset p _ (by simp [lead, frame, header, trailer])
  | imm =>
    simp only [dataOp, dataOf, getMemoryRegion, SendRegion.message, hl]
    congr 1
    · exact take_written crc .imm p _ (by simp [lead, frame, header, trailer])
    · exact UInt32.add_zero _
  | reverse =>
    simp only [dataOp, dataOf, getMemoryRegion, SendRegion.message, hl]
    congr 1
    exact take_written crc .reverse p _ (by simp [lead, frame, header, trailer])

end Sending

section Storing

variable {k : Sender} {d : Direction} {L : ℕ}

theorem slack_le (k : Sender) : k.slack.toNat ≤ 1 ∧ k.slack.toNat ≤ k.overhead.toNat := by
  cases k <;> decide

theorem singleSpace_refused (k : Sender) (snd : RemoteBuffer) (len : UInt32) (e : Status)
    (hg : getWriteAddr d snd len = .error e) : singleSpace d len k [] snd = none := by
  cases k <;> simp [singleSpace, getWriteAddrOrDie, awaitSpace, hg]

theorem lastWr_ok (hk : Suits k d) (id : ℕ) (snd : RemoteBuffer) (len : UInt32) (c t : ℕ)
    (ht : Tracks d L (written d snd (len-k.slack)) c t) :
    (lastWr k id (written d snd len)).map SendWr.op = announcement k L t := by
  cases hk with
  | offset =>
    have hw : (written .up snd (len-0)).tail.toNat = t%L := ht.tail
    rw [UInt32.sub_zero] at hw
    simp only [lastWr, announcement, List.map_cons, List.map_nil, ← hw, UInt32.ofNat_toNat]
  | write => rfl
  | imm => rfl
  | reverse => rfl

theorem inside (base : UInt64) (o : UInt32) (i : UInt64) (hi : i.toNat < 2^32) :
    (base+o.toUInt64+i-base).toNat = o.toNat+i.toNat := by
  have ho := o.toNat_lt
  rw [UInt64.add_assoc, UInt64.add_comm, UInt64.add_sub_cancel, UInt64.toNat_add,
    UInt32.toNat_toUInt64]
  omega

theorem inside_start (base : UInt64) (o : UInt32) : (base+o.toUInt64-base).toNat = o.toNat := by
  have h := inside base o 0 (by decide)
  rwa [UInt64.add_zero] at h

theorem stored_data (crc : List UInt8 → UInt32) (k : Sender) (rbuf : Buffer)
    (hl : rbuf.length.toNat = L) (m : Remote) (p : List UInt8) (o : UInt32) :
    (executeOp rbuf m (dataOf crc k p (rbuf.addr+o.toUInt64))).mem =
      store L m.mem o.toNat (lead k++frame crc k p) ∧
    (executeOp rbuf m (dataOf crc k p (rbuf.addr+o.toUInt64))).tail = m.tail ∧
    (executeOp rbuf m (dataOf crc k p (rbuf.addr+o.toUInt64))).imms =
      m.imms++(if k = .imm then [UInt32.ofNat p.length] else []) := by
  have hs := inside_start rbuf.addr o
  cases k <;> simp only [executeOp, dataOf, storeAt, hl, hs] <;> simp [lead]

theorem along_written (crc : List UInt8 → UInt32) (hk : Suits k d) (p : List UInt8) :
    along d (lead k++frame crc k p) = along d (frame crc k p)++lead k := by
  cases hk with
  | imm => simp [lead]
  | write => simp [lead]
  | offset => simp [lead]
  | reverse => simp [lead, along]

end Storing

section Reading

variable {crc : List UInt8 → UInt32} {k : Sender} {d : Direction} {L off : ℕ} {m : List UInt8}
  {mem : ℕ → UInt8}

theorem payload_part (hf : load L mem off (claimed k m) = frame crc k m) :
    load L mem (off+k.header.toNat) m.length = m := by
  rw [← frame_length crc k m] at hf
  have h := load_part L mem off (header crc k m) m (trailer k m) hf
  rwa [header_length] at h

theorem length_part (hk : k = .write ∨ k = .offset)
    (hf : load L mem off (claimed k m) = frame crc k m) :
    load L mem off 4 = putU32 (UInt32.ofNat (claimed k m)) := by
  rw [← frame_length crc k m] at hf
  rcases hk with rfl | rfl
  · have h := load_part L mem off [] (putU32 (UInt32.ofNat (m.length+8)))
      (putU32 (crc (putU32 (UInt32.ofNat (m.length+8))++m))++m)
      (by simpa [frame, header, trailer] using hf)
    rwa [putU32_length] at h
  · have h := load_part L mem off [] (putU32 (UInt32.ofNat (m.length+4))) m
      (by simpa [frame, header, trailer] using hf)
    rwa [putU32_length] at h

theorem checksum_part (hf : load L mem off (claimed .write m) = frame crc .write m) :
    load L mem (off+4) 4 = putU32 (crc (putU32 (UInt32.ofNat (claimed .write m))++m)) := by
  rw [← frame_length crc .write m] at hf
  have h := load_part L mem off (putU32 (UInt32.ofNat (m.length+8)))
    (putU32 (crc (putU32 (UInt32.ofNat (m.length+8))++m))) m
    (by simpa [frame, header, trailer] using hf)
  rwa [putU32_length, putU32_length] at h

theorem trailer_part (hf : load L mem off (claimed .reverse m) = frame crc .reverse m) :
    load L mem (off+m.length) 4 = putU32 (UInt32.ofNat (claimed .reverse m)) ∧
      load L mem (off+(m.length+4)) 1 = [1] := by
  rw [← frame_length crc .reverse m] at hf
  constructor
  · have h := load_part L mem off m (putU32 (UInt32.ofNat (m.length+5)))
      [1] (by simpa [frame, header, trailer] using hf)
    rwa [putU32_length] at h
  · have h := load_part L mem off
      (m++putU32 (UInt32.ofNat (m.length+5))) [1] []
      (by simpa [frame, header, trailer] using hf)
    rwa [List.length_append, putU32_length] at h

theorem bytesAt_inside (rbuf : Buffer) (hl : rbuf.length.toNat = L) (o : UInt32) (i : UInt64)
    (hi : i.toNat < 2^32) (n : ℕ) :
    bytesAt rbuf mem (rbuf.addr+o.toUInt64+i) n = load L mem (o.toNat+i.toNat) n := by
  rw [bytesAt, hl, inside rbuf.addr o i hi]

theorem bytesAt_start (mem : ℕ → UInt8) (rbuf : Buffer) (hl : rbuf.length.toNat = L) (o : UInt32)
    (n : ℕ) : bytesAt rbuf mem (rbuf.addr+o.toUInt64) n = load L mem o.toNat n := by
  rw [bytesAt, hl, inside_start]

theorem region_bytes (rbuf : Buffer) (hl : rbuf.length.toNat = L) (o : UInt32)
    (reg : ReceiveRegion) (haddr : reg.addr = rbuf.addr+o.toUInt64+k.header)
    (hlen : reg.length.toNat = m.length)
    (hf : load L mem o.toNat (claimed k m) = frame crc k m) :
    bytesAt rbuf mem reg.addr reg.length.toNat = m := by
  rw [haddr, hlen, bytesAt_inside rbuf hl o _ (by cases k <;> decide)]
  exact payload_part hf

structure Taken (k : Sender) (d : Direction) (L : ℕ) (rbuf : Buffer) (p : ℕ) (m : List UInt8)
    (w : Received) (o : UInt32) : Prop where
  anchored : Anchored d L o.toNat p (claimed k m)
  addr : w.reg.addr = rbuf.addr+o.toUInt64+k.header
  length : w.reg.length.toNat = m.length
  base : w.rbuf.addr = rbuf.addr
  outstanding : w.rbuf.outstanding = rbuf.outstanding++[o]
  reads : ReadsAt d L w.rbuf (p+claimed k m)

theorem taken_of_read {rbuf : Buffer} {p : ℕ} (h : ReadsAt d L rbuf p) (hL : 0 < L)
    (h2 : 2*L < 2^32) (hm : claimed k m ≤ L) : ∃ o : UInt32,
      (read d rbuf (UInt32.ofNat (claimed k m))).1 = rbuf.addr+o.toUInt64 ∧
      Anchored d L o.toNat p (claimed k m) ∧
      ∀ (reg : ReceiveRegion) (imms : List UInt32), reg.addr = rbuf.addr+o.toUInt64+k.header →
        reg.length.toNat = m.length →
        Taken k d L rbuf p m ⟨reg, (read d rbuf (UInt32.ofNat (claimed k m))).2, imms⟩ o := by
  have hn := word_toNat (claimed k m) (by omega)
  obtain ⟨o, b', hr, ha, hbase, -, hout, hreads⟩ :=
    h.read hL h2 (UInt32.ofNat (claimed k m)) (by omega)
  rw [hn] at ha hreads
  refine ⟨o, by rw [hr], ha, ?_⟩
  intro reg imms haddr hlen
  rw [hr]
  exact ⟨ha, haddr, hlen, hbase, hout, hreads⟩

variable {v w : WriteReceiver} {rem : Remote} {p : ℕ}

theorem receive_write (ack : Acknowledger) (v : WriteReceiver)
    (hl : w.rbuf.length.toNat = L) (o : UInt32)
    (hptr : getReadPtr .up w.rbuf = w.rbuf.addr+o.toUInt64) (hm : claimed .write m < 2^32)
    (hf : load L rem.mem o.toNat (claimed .write m) = frame crc .write m) :
    ∃ reg, receive crc ⟨.write, ack, .up, v⟩ w rem = some ⟨reg,
        (read .up w.rbuf (UInt32.ofNat (claimed .write m))).2, rem.imms⟩ ∧
      reg.addr = w.rbuf.addr+o.toUInt64+8 ∧ reg.length.toNat = m.length := by
  have hn := word_toNat _ hm
  have h8 : (8 : UInt32).toNat = 8 := rfl
  have hc : claimed .write m = m.length+8 := rfl
  have hword : bytesAt w.rbuf rem.mem (w.rbuf.addr+o.toUInt64) 4 =
      putU32 (UInt32.ofNat (claimed .write m)) := by
    rw [bytesAt_start _ _ hl, length_part (Or.inl rfl) hf]
  have hhead : ChecksumLoop.head .up w.rbuf rem.mem = UInt32.ofNat (claimed .write m) := by
    rw [ChecksumLoop.head, hptr, hword, getU32_putU32]
  have hne : UInt32.ofNat (claimed .write m) ≠ 0 := by
    intro h0
    rw [h0] at hn
    change 0 = _ at hn
    omega
  have hlen : (UInt32.ofNat (claimed .write m)-8).toNat = m.length := by
    rw [sub_toNat _ _ (by omega), hn, h8]
    omega
  have hsum : w.rbuf.addr+o.toUInt64+8-4 = w.rbuf.addr+o.toUInt64+4 := by
    rw [show (8 : UInt64) = 4+4 from rfl, ← UInt64.add_assoc]
    exact UInt64.add_sub_cancel _ _
  have hpay := payload_part hf
  refine ⟨⟨0, w.rbuf.addr+o.toUInt64+8, UInt32.ofNat (claimed .write m)-8⟩, ?_, rfl, hlen⟩
  simp only [receive, hhead, hptr, if_neg hne, WriteChecksum.region]
  rw [if_pos]
  right
  simp only [ChecksumLoop.Verified, WriteChecksum.stored, ChecksumLoop.processed, hsum, hlen,
    UInt64.add_sub_cancel, hword]
  rw [bytesAt_inside _ hl o 4 (by decide), bytesAt_inside _ hl o 8 (by decide)]
  change getU32 (load L rem.mem (o.toNat+4) 4) = crc (_++load L rem.mem (o.toNat+8) m.length)
  change load L rem.mem (o.toNat+8) m.length = m at hpay
  rw [checksum_part hf, hpay, getU32_putU32]

theorem receive_offset (ack : Acknowledger) (v : WriteReceiver)
    (hl : w.rbuf.length.toNat = L) (o : UInt32)
    (hptr : getReadPtr .up w.rbuf = w.rbuf.addr+o.toUInt64) (hm : claimed .offset m < 2^32)
    (ht : rem.tail ≠ getReadOff .up w.rbuf)
    (hf : load L rem.mem o.toNat (claimed .offset m) = frame crc .offset m) :
    ∃ reg, receive crc ⟨.offset, ack, .up, v⟩ w rem = some ⟨reg,
        (read .up w.rbuf (UInt32.ofNat (claimed .offset m))).2, rem.imms⟩ ∧
      reg.addr = w.rbuf.addr+o.toUInt64+4 ∧ reg.length.toNat = m.length := by
  have hn := word_toNat _ hm
  have h4 : (4 : UInt32).toNat = 4 := rfl
  have hc : claimed .offset m = m.length+4 := rfl
  have hword : getU32 (bytesAt w.rbuf rem.mem (w.rbuf.addr+o.toUInt64) 4) =
      UInt32.ofNat (claimed .offset m) := by
    rw [bytesAt_start _ _ hl, length_part (Or.inr rfl) hf, getU32_putU32]
  refine ⟨⟨0, w.rbuf.addr+o.toUInt64+4, UInt32.ofNat (claimed .offset m)-4⟩,
    by simp only [receive, if_neg ht, hptr, hword], rfl, ?_⟩
  rw [sub_toNat _ _ (by omega), hn, h4]
  omega

theorem residue_cancel (L x y s : ℕ) (hx : (x+s)%L = 0) (hy : (y+s)%L = 0) : x%L = y%L :=
  Nat.ModEq.add_right_cancel' s (hx.trans hy.symm)

theorem place_turn (L p : ℕ) (hL : 0 < L) : (place .down L p+p+1)%L = 0 := by
  have hp := Nat.mod_lt p hL
  have hd := Nat.div_add_mod p L
  rw [place, show L-1-p%L+p+1 = L+L*(p/L) by omega, Nat.add_mul_mod_self_left, Nat.mod_self]

theorem readOff_place (h : ReadsAt .down L w.rbuf p) (hL : 0 < L) :
    (getReadOff .down w.rbuf).toNat = place .down L p := by
  have hl := h.length
  have hr := h.readPtr
  have hp := Nat.mod_lt p hL
  have h1 : (1 : UInt32).toNat = 1 := rfl
  simp only [Marks] at hr
  simp only [getReadOff, Reverse.getReadOff, place, gt_iff_lt, UInt32.lt_iff_toNat_lt]
  change (if 0 < w.rbuf.readPtr.toNat then _ else _ : UInt32).toNat = _
  split
  · rw [sub_toNat _ _ (by omega), h1]
    omega
  · rw [sub_toNat _ _ (by omega), h1]
    omega

theorem polled_load (mem : ℕ → UInt8) (h : ReadsAt .down L w.rbuf p) (hL : 4 ≤ L)
    (hw : w.length.toNat = L) (n : ℕ) :
    bytesAt w.rbuf mem (getReadPtr .down w.rbuf+w.length.toUInt64) n =
      load L mem (place .down L p+L) n ∧
    bytesAt w.rbuf mem (getReadPtr .down w.rbuf+w.length.toUInt64-4) n =
      load L mem (place .down L p+(L-4)) n := by
  have hl := h.length
  have hoff := readOff_place h (by omega)
  have hlt := w.length.toNat_lt
  have h4 : (4 : UInt64).toNat = 4 := rfl
  have hptr : getReadPtr .down w.rbuf = w.rbuf.addr+(getReadOff .down w.rbuf).toUInt64 := rfl
  have hw64 : w.length.toUInt64.toNat = L := by rw [UInt32.toNat_toUInt64, hw]
  have hsub : (w.length.toUInt64-4).toNat = L-4 := by
    rw [UInt64.toNat_sub_of_le _ _ (UInt64.le_iff_toNat_le.mpr (by omega)), hw64, h4]
  have hassoc : getReadPtr .down w.rbuf+w.length.toUInt64-4 =
      getReadPtr .down w.rbuf+(w.length.toUInt64-4) := by
    simp only [UInt64.sub_eq_add_neg, UInt64.add_assoc]
  rw [hassoc, hptr, bytesAt_inside _ hl _ _ (by omega), bytesAt_inside _ hl _ _ (by omega), hoff,
    hw64, hsub]
  exact ⟨rfl, rfl⟩

theorem receive_reverse (ack : Acknowledger) (v : WriteReceiver)
    (h : ReadsAt .down L w.rbuf p) (hL : 4 ≤ L) (hw : w.length.toNat = L)
    (o : UInt32) (ho : Anchored .down L o.toNat p (claimed .reverse m))
    (haddr : (read .down w.rbuf (UInt32.ofNat (claimed .reverse m))).1 = w.rbuf.addr+o.toUInt64)
    (hm : claimed .reverse m < 2^32)
    (hf : load L rem.mem o.toNat (claimed .reverse m) = frame crc .reverse m) :
    ∃ reg, receive crc ⟨.reverse, ack, .down, v⟩ w rem = some ⟨reg,
        (read .down w.rbuf (UInt32.ofNat (claimed .reverse m))).2, rem.imms⟩ ∧
      reg.addr = w.rbuf.addr+o.toUInt64+0 ∧ reg.length.toNat = m.length := by
  have hn := word_toNat _ hm
  have hc : claimed .reverse m = m.length+5 := rfl
  have h1 : (1 : UInt32).toNat = 1 := rfl
  have h4 : (4 : UInt32).toNat = 4 := rfl
  obtain ⟨hlen, hvalid⟩ := trailer_part hf
  have hone := (polled_load rem.mem h hL hw 1).1
  have hfour := (polled_load rem.mem h hL hw 4).2
  have hplace := place_turn L p (by omega)
  have ho : (o.toNat+p+claimed .reverse m)%L = 0 := ho
  have hend : (place .down L p+L)%L = (o.toNat+(m.length+4))%L := by
    apply residue_cancel L _ _ (p+1)
    · rw [show place .down L p+L+(p+1) = place .down L p+p+1+L by omega, Nat.add_mod_right, hplace]
    · rw [show o.toNat+(m.length+4)+(p+1) = o.toNat+p+claimed .reverse m by omega, ho]
  have hword : (place .down L p+(L-4))%L = (o.toNat+m.length)%L := by
    apply residue_cancel L _ _ (p+5)
    · rw [show place .down L p+(L-4)+(p+5) = place .down L p+p+1+L by omega, Nat.add_mod_right,
        hplace]
    · rw [show o.toNat+m.length+(p+5) = o.toNat+p+claimed .reverse m by omega, ho]
  rw [load_congr L rem.mem _ _ 1 hend, hvalid] at hone
  rw [load_congr L rem.mem _ _ 4 hword, hlen] at hfour
  refine ⟨⟨0, w.rbuf.addr+o.toUInt64, UInt32.ofNat (claimed .reverse m)-1-4⟩, ?_,
    (UInt64.add_zero _).symm, ?_⟩
  · simp only [receive, hone, hfour, getU32_putU32, haddr]
    rfl
  · have hs1 : (UInt32.ofNat (claimed .reverse m)-1).toNat = m.length+4 := by
      rw [sub_toNat _ _ (by omega), hn, h1]
      omega
    rw [sub_toNat _ _ (by omega), hs1, h4]
    omega

end Reading

section Freeing

variable {k : Sender} {d : Direction} {L : ℕ} {m : List UInt8}

theorem free_ok (k : Sender) (ack : Acknowledger) (v : WriteReceiver) (c : Session)
    (reg : ReceiveRegion) (head : UInt32) (rbuf : Buffer)
    (hf : RingBuffer.free d c.receiver.rbuf (reg.addr-k.header) = (head, rbuf)) :
    ∃ acked acks, WriteSetup.free ⟨k, ack, d, v⟩ c reg = { c with
        receiver := { c.receiver with rbuf := rbuf, currOffset := head, acked := acked }
        remote := { c.remote with mem := cleared k rbuf c.remote.mem reg }
        acks := acks
        held := none } ∧
      (acks = c.acks ∨ ack = .send ∧ acks = c.acks++[head]) := by
  simp only [WriteSetup.free, hf]
  split
  · cases ack with
    | send => exact ⟨_, _, rfl, Or.inr ⟨rfl, rfl⟩⟩
    | read => exact ⟨_, _, rfl, Or.inl rfl⟩
  · exact ⟨_, _, rfl, Or.inl rfl⟩

theorem cleared_ok (hk : Suits k d) (hL : 0 < L) (rbuf : Buffer) (hl : rbuf.length.toNat = L)
    (mem : ℕ → UInt8) (reg : ReceiveRegion) (o : UInt32) (lo : ℕ)
    (haddr : reg.addr = rbuf.addr+o.toUInt64+k.header) (hlen : reg.length.toNat = m.length)
    (ho : Anchored d L o.toNat lo (claimed k m)) (hroom : claimed k m ≤ L) :
    (∀ q, lo+claimed k m ≤ q → q < lo+L →
      cleared k rbuf mem reg (place d L q) = mem (place d L q)) ∧
    (k = .write → ∀ q, lo ≤ q → q < lo+claimed k m →
      cleared k rbuf mem reg (place d L q) = 0) := by
  cases hk with
  | write =>
    have haddr : reg.addr-8 = rbuf.addr+o.toUInt64 := by
      rw [haddr]
      exact UInt64.add_sub_cancel _ _
    have hc : claimed .write m = m.length+8 := rfl
    have hz : (List.replicate (m.length+8) (0 : UInt8)).length = claimed .write m := by
      rw [List.length_replicate, hc]
    have hmem : cleared .write rbuf mem reg =
        store L mem o.toNat (List.replicate (m.length+8) 0) := by
      rw [cleared, storeAt, haddr, hl, inside_start, hlen]
    rw [← hz] at ho hroom
    rw [hmem]
    constructor
    · intro q h1 h2
      exact store_outside hL ho q (Or.inr ⟨by omega, h2⟩)
    · intro _ q h1 h2
      obtain ⟨i, rfl⟩ := Nat.exists_eq_add_of_le h1
      have hi := store_inside mem hL hroom ho i (by omega)
      rw [along, List.getElem?_replicate, if_pos (by omega)] at hi
      exact Option.some.inj hi
  | offset => exact ⟨fun _ _ _ => rfl, fun h => by cases h⟩
  | imm => exact ⟨fun _ _ _ => rfl, fun h => by cases h⟩
  | reverse => exact ⟨fun _ _ _ => rfl, fun h => by cases h⟩

end Freeing

end KYM.MessageLayout
