import KnowYourMemory.OptionDelivery.Invariant

/-!
# Sending and arrival

A send appends to the log behind everything unfreed, heads that are read move the sender's
window, and what arrives leaves the flight.
-/

set_option autoImplicit false

namespace KYM.OptionDelivery
open KYM.Run KYM.Circle KYM.RingBuffer KYM.RingOffsets KYM.RingPositions KYM.MagicMemory KYM.RingLog
open KYM.WriteConnection (Sender Acknowledger WriteOpts senderOf bufferOf writeBufSize written
  kAllocatorDumb kAcknowledgerSend kAcknowledgerRead kSenderWrite kSenderWriteImm
  kSenderWriteReverse kBufferMagic kBufferReverse)
open KYM.WriteSenders KYM.WriteSetup KYM.MessageLayout
open KYM.SendAcknowledge (WriteReceiver)
open KYM.WriteSender (Op bytesAt storeAt)
open KYM.WriteChecksum (crc32)

section Send

variable {crc : List UInt8 → UInt32} {k : Sender} {d : Direction} {L : ℕ} {ack : Acknowledger}
  {c c' : Session} {f h a x b : List (List UInt8)} {rb : RemoteBuffer} {p : List UInt8}

theorem send_ok (hp : claimed k p+1 < 2^32) (hs : send crc ⟨k, ack, d, rb⟩ c p = some c') :
    ∃ (len : UInt32) (addr : UInt64), len.toNat = p.length+k.overhead.toNat ∧
      getWriteAddr d c.snd len = .ok addr ∧ c' = { c with
        snd := written d c.snd (len-k.slack)
        nextId := c.nextId+1
        wire := c.wire++(dataOf crc k p addr::
          (lastWr k c.nextId (written d c.snd len)).map SendWr.op)
        sent := c.sent++[p] } := by
  have hlen := len_toNat k p hp
  have hreg := region_length k p
  simp only [send] at hs
  cases hg : getWriteAddr d c.snd (UInt32.ofNat p.length+k.overhead) with
  | error e =>
    simp only [sendAsync, hreg, singleSpace_refused k c.snd _ e hg] at hs
    cases hs
  | ok addr =>
    rw [← hreg] at hg
    obtain ⟨wrs, hsend, hops⟩ := sendAsync_ok crc (getMemoryRegion k p) c.nextId addr hg
    simp only [hsend, hops] at hs
    rw [hreg, dataOp_ok crc k p addr hp] at hs
    rw [hreg] at hg
    exact ⟨_, addr, hlen, hg, (Option.some.inj hs).symm⟩

theorem InFlight.send {base : UInt64} {q : ℕ} {w : List Op} (hf : InFlight crc k d L base q x b w)
    (m : List UInt8) (o : UInt32)
    (ho : Anchored d L o.toNat (q+pos k b) (lead k++frame crc k m).length) :
    InFlight crc k d L base q x (b++[m]) (w++dataOf crc k m (base+o.toUInt64)::
      announcement k L (q+pos k b+claimed k m)) := by
  cases x with
  | nil => exact Posted.concat hf m o ho
  | cons y ys =>
    obtain ⟨w', hk, rfl, hp⟩ := hf
    refine ⟨_, hk, ?_, hp.concat m o ho⟩
    rw [List.append_assoc]

theorem Sound.claims (hS : Sound crc k d L ack c f h a x b) (h2 : 2*L < 2^32)
    (hp : claimed k p ≤ L) (hoff : k = .offset → claimed k p < L) (hu : unfreed k c < L)
    (len : UInt32) (addr : UInt64) (hlen : len.toNat = p.length+k.overhead.toNat)
    (hg : getWriteAddr d c.snd len = .ok addr) :
    (∃ o : UInt32, addr = c.snd.addr+o.toUInt64 ∧
      Anchored d L o.toNat (pos k c.sent) len.toNat) ∧
    (written d c.snd (len-k.slack)).addr = c.snd.addr ∧
    ∃ q hi, Tracks d L (written d c.snd (len-k.slack)) q (pos k (c.sent++[p])) ∧
      Heads d L q c.acks hi ∧ Reach k L (c.sent++[p]) f hi := by
  obtain ⟨q, hi, ht, hh, hreach⟩ := hS.sender
  have hsent := hS.unfreed_pos
  obtain rfl : hi = pos k f := by
    rcases hreach with he | ⟨-, he, -⟩
    · exact he
    · omega
  obtain ⟨hs1, hs2⟩ := slack_le k
  obtain ⟨hroom, hstrict⟩ := ht.space h2 len addr hg
  have horder := ht.order
  have hle := hh.le
  have hc : claimed k p = p.length+k.overhead.toNat-k.slack.toNat := rfl
  have hn : (len-k.slack).toNat = claimed k p := by
    rw [sub_toNat _ _ (by omega), hlen, hc]
  have hpos : pos k (c.sent++[p]) = pos k c.sent+(len-k.slack).toNat := by
    rw [pos_append, pos_singleton, hn]
  refine ⟨ht.address h2 len addr (by omega) hg, ?_⟩
  obtain ⟨a', ha'⟩ := getWriteAddr_mono len (len-k.slack) _
    (UInt32.le_iff_toNat_le.mpr (by omega)) hg
  rcases Nat.lt_or_ge (claimed k p) L with hlt | hge
  · have hend : pos k c.sent+(len-k.slack).toNat < q+L := by
      by_cases h0 : len.toNat < L
      · have := hstrict h0
        omega
      · omega
    obtain ⟨r', hw, hbase, ht'⟩ := ht.write h2 _ a' hend ha'
    have hr' : written d c.snd (len-k.slack) = r' := by simp only [written, hw]
    rw [hr', hpos]
    exact ⟨hbase, q, _, ht', hh, Or.inl rfl⟩
  · obtain ⟨rfl, r', hw, hbase, ht'⟩ := ht.fill h2 (len-k.slack) a' (by omega) ha'
    have hr' : written d c.snd (len-k.slack) = r' := by simp only [written, hw]
    have hk : k = .write ∨ k = .imm := by
      cases k with
      | write => exact Or.inl rfl
      | imm => exact Or.inr rfl
      | offset => exact absurd (hoff rfl) (by omega)
      | reverse =>
        have hslack : Sender.reverse.slack.toNat = 1 := rfl
        omega
    have hmem : p ∈ (c.sent++[p]).drop f.length := by
      rw [hS.sent, List.append_assoc, List.drop_left]
      simp
    have hh' := hh.turn
    rw [show pos k f+L = pos k c.sent+(len-k.slack).toNat by omega,
      show pos k c.sent+L = pos k c.sent+(len-k.slack).toNat by omega] at hh'
    rw [hr', hpos]
    exact ⟨hbase, _, _, ht', hh', Or.inr ⟨hpos.symm, by omega, hk, p, hmem, by omega⟩⟩

theorem Sound.send (hS : Sound crc k d L ack c f h a x b) (hk : Suits k d) (h2 : 2*L < 2^32)
    (hp : claimed k p ≤ L) (hoff : k = .offset → claimed k p < L) (hu : unfreed k c < L)
    (hs : WriteSetup.send crc ⟨k, ack, d, rb⟩ c p = some c') :
    Sound crc k d L ack c' f h a x (b++[p]) := by
  obtain ⟨len, addr, hlen, hg, rfl⟩ := send_ok (by omega) hs
  obtain ⟨⟨o, rfl, ho⟩, hbase, q, hi, ht, hh, hreach⟩ := hS.claims h2 hp hoff hu len addr hlen hg
  have hlast := lastWr_ok hk c.nextId c.snd len q _ ht
  have hin : pos k (f++(h++(a++x)))+pos k b = pos k c.sent := by
    rw [hS.pos_sent]
    simp only [pos_append]
    omega
  rw [hlast, hS.base]
  refine ⟨?_, hS.got, ⟨q, hi, ht, hh, hreach⟩, hS.acks, hbase.trans hS.base, hS.reads, hS.length,
    hS.curr, hS.holding, ?_, hS.ready, ?_⟩
  · simp only [hS.sent, List.append_assoc]
  · have hlog : log crc k d (c.sent++[p]) = log crc k d c.sent++along d (frame crc k p) := by
      simp [log]
    rw [hlog]
    apply hS.spells.append
    rw [log_length]
    omega
  · rw [pos_append, pos_singleton, ← hin]
    apply hS.inFlight.send p o
    rw [hin, written_length, ← hlen]
    exact ho

end Send

section Deliver

variable {crc : List UInt8 → UInt32} {k : Sender} {d : Direction} {L : ℕ} {ack : Acknowledger}
  {c c' : Session} {f h a x b : List (List UInt8)} {rb : RemoteBuffer}

theorem updateHead_addr (d : Direction) (snd : RemoteBuffer) (o : UInt32) :
    (updateHead d snd o).addr = snd.addr := by
  cases d <;> rfl

theorem Sound.get (hS : Sound crc k d L ack c f h a x b) (extra : ℕ)
    (hs : WriteSetup.get ⟨k, ack, d, rb⟩ c extra = some c') : Sound crc k d L ack c' f h a x b := by
  obtain ⟨q, hi, ht, hh, hreach⟩ := hS.sender
  obtain ⟨-, hle⟩ := hreach.le hS.sent
  cases ack with
  | read =>
    obtain rfl := Option.some.inj hs
    have hnone := hS.acks rfl
    refine ⟨hS.sent, hS.got, ⟨hi, hi, ?_, ?_, hreach⟩, hS.acks, ?_, hS.reads, hS.length, hS.curr,
      hS.holding, hS.spells, hS.ready, hS.inFlight⟩
    · exact updateHead_tracks ht _ _ (hreach.marks hS.curr) hh.le hle
    · rw [hnone]
      exact le_refl _
    · exact (updateHead_addr d _ _).trans hS.base
  | send =>
    simp only [WriteSetup.get] at hs
    split at hs
    · cases hs
    next head acks hacks =>
    obtain rfl := Option.some.inj hs
    rw [hacks] at hh
    obtain ⟨p, hp, hm, hrest⟩ := hh
    refine ⟨hS.sent, hS.got, ⟨p, hi, ?_, hrest.drop extra, hreach⟩, (fun hread => by cases hread),
      ?_, hS.reads, hS.length, hS.curr, hS.holding, hS.spells, hS.ready, hS.inFlight⟩
    · exact updateHead_tracks ht _ _ hm hp (hrest.le.trans hle)
    · exact (updateHead_addr d _ _).trans hS.base

theorem Ready.arrive (hk : Suits k d) {m m' : Remote} {p : List UInt8} {lo q o : ℕ}
    (hr : Ready k d L m a lo q) (hL : 0 < L) (hoff : k ≠ .offset)
    (ho : Anchored d L o q (lead k++frame crc k p).length)
    (hroom : q+(lead k++frame crc k p).length ≤ lo+L) (hlo : lo ≤ q)
    (hmem : m'.mem = store L m.mem o (lead k++frame crc k p))
    (himm : m'.imms = m.imms++(if k = .imm then [UInt32.ofNat p.length] else [])) :
    Ready k d L m' (a++[p]) lo (q+claimed k p) := by
  have hw := frame_length crc k p
  rw [List.length_append] at hroom
  cases hk with
  | offset => exact absurd rfl hoff
  | imm =>
    have hr : m.imms = a.map (fun p => UInt32.ofNat p.length) := hr
    simp only [Ready, himm, hr, if_true, List.map_append, List.map_cons, List.map_nil]
  | write =>
    have hr : ∀ i, q ≤ i → i < lo+L → m.mem (place .up L i) = 0 := hr
    intro i h1 h2
    rw [hmem, store_outside hL ho i (Or.inr ⟨by simp [lead, hw]; omega, by omega⟩)]
    exact hr i (by omega) h2
  | reverse =>
    have hi := store_inside m.mem hL (by rw [List.length_append]; omega) ho
      (claimed .reverse p) (by simp [lead, hw])
    rw [along_written crc Suits.reverse p, List.getElem?_append_right (by rw [along_length, hw]),
      along_length, hw, Nat.sub_self, ← hmem] at hi
    exact Option.some.inj hi

theorem Sound.data {m : List UInt8} (hS : Sound crc k d L ack c f h a [] (m::b)) (hk : Suits k d)
    (hL : 0 < L) : ∃ (o : UInt32) (w : List Op),
      c.wire = dataOf crc k m (c.receiver.rbuf.addr+o.toUInt64)::
        (announcement k L (pos k (f++(h++a))+claimed k m)++w) ∧
      Posted crc k d L c.receiver.rbuf.addr (pos k (f++(h++a))+claimed k m) b w ∧
      Anchored d L o.toNat (pos k (f++(h++a))) (lead k++frame crc k m).length ∧
      pos k (f++(h++a))+(lead k++frame crc k m).length ≤ pos k f+L ∧
      Spells d L (store L c.remote.mem o.toNat (lead k++frame crc k m)) (log crc k d c.sent)
        (pos k f) (pos k (f++(h++a))+claimed k m) := by
  have hin := hS.inFlight
  have hsp := hS.spells
  have hwin := hS.window.1
  have hsent := hS.sent
  rw [List.append_nil] at hin hsp
  obtain ⟨o, w, ho, hw, hrest⟩ := hin
  have hl := lead_length k
  have hf := frame_length crc k m
  have hs := slack_le k
  rw [List.nil_append, ← List.append_assoc, ← List.append_assoc, List.append_assoc f] at hsent
  rw [hsent, pos_append k (f++(h++a)), pos_cons] at hwin
  have hroom : pos k (f++(h++a))+(lead k++frame crc k m).length ≤ pos k f+L := by
    rw [List.length_append]
    omega
  refine ⟨o, w, hw, hrest, ho, hroom, ?_⟩
  have hlen : (along d (frame crc k m)).length = claimed k m := by rw [along_length, hf]
  rw [← hlen]
  apply hsp.store _ (lead k) hL ho (along_written crc hk m) _ hroom
  · rw [pos_append]
    exact Nat.le_add_right _ _
  · intro i hi
    rw [hsent]
    exact log_at crc k d m _ b i (hlen ▸ hi)

theorem Sound.deliver (hS : Sound crc k d L ack c f h a x b) (hk : Suits k d) (hL : 0 < L)
    (hs : WriteSetup.deliver c = some c') : ∃ a' x' b', Sound crc k d L ack c' f h a' x' b' := by
  have hrl : c.receiver.rbuf.length.toNat = L := hS.reads.length
  cases x with
  | cons y ys =>
    obtain ⟨w, rfl, hw, hrest⟩ := hS.inFlight
    simp only [WriteSetup.deliver, hw, announcement, List.singleton_append] at hs
    obtain rfl := Option.some.inj hs
    have hlt := Nat.mod_lt (pos .offset (f++(h++(a++y::ys)))) hL
    refine ⟨a++y::ys, [], b, ?_, hS.got, hS.sender, hS.acks, hS.base, hS.reads, hS.length, hS.curr,
      hS.holding, ?_, ?_, ?_⟩
    · rw [hS.sent, List.append_assoc, List.nil_append]
    · rw [List.append_nil]
      exact hS.spells
    · apply word_toNat
      have := c.receiver.rbuf.length.toNat_lt
      omega
    · rw [List.append_nil]
      exact hrest
  | nil =>
    cases b with
    | nil =>
      have hw : c.wire = [] := hS.inFlight
      simp [WriteSetup.deliver, hw] at hs
    | cons m b =>
      obtain ⟨o, w, hw, hrest, ho, hroom, hsp⟩ := hS.data hk hL
      obtain ⟨hmem, htail, himm⟩ := stored_data crc k c.receiver.rbuf hrl c.remote m o
      simp only [WriteSetup.deliver, hw] at hs
      obtain rfl := Option.some.inj hs
      have hpos : pos k (f++(h++(a++[m]))) = pos k (f++(h++a))+claimed k m := by
        simp only [pos_append, pos_singleton, Nat.add_assoc]
      by_cases hoff : k = .offset
      · subst hoff
        refine ⟨a, [m], b, ?_, hS.got, hS.sender, hS.acks, hS.base, hS.reads, hS.length, hS.curr,
          hS.holding, ?_, hS.ready, ?_⟩
        · exact hS.sent
        · rw [hpos]
          simp only [hmem]
          exact hsp
        · rw [hpos]
          exact ⟨w, rfl, rfl, hrest⟩
      · have hann : announcement k L (pos k (f++(h++a))+claimed k m)++w = w := by
          cases k <;> first | rfl | exact absurd rfl hoff
        refine ⟨a++[m], [], b, ?_, hS.got, hS.sender, hS.acks, hS.base, hS.reads, hS.length, hS.curr,
          hS.holding, ?_, ?_, ?_⟩
        · rw [hS.sent, List.append_assoc]
          rfl
        · rw [List.append_nil, hpos]
          simp only [hmem]
          exact hsp
        · rw [hpos]
          apply hS.ready.arrive hk hL hoff ho hroom _ hmem himm
          rw [pos_append]
          exact Nat.le_add_right _ _
        · rw [List.append_nil, hpos, hann]
          exact hrest

end Deliver

end KYM.OptionDelivery
