import KnowYourMemory.WriteSender

/-!
# Messages on their way to the ring

The unread part of the stream splits into messages that have arrived and messages
whose requests are in flight. Arrived and held messages are in memory byte for byte.
-/

set_option autoImplicit false

namespace KYM.WriteDelivery
open KYM.Run KYM.Circle KYM.RingBuffer KYM.RingOffsets KYM.BoundedStream KYM.MagicMemory
open KYM.WriteSender

def frame : Format → List UInt8 → List UInt8
  | .offset, payload => putU32 (UInt32.ofNat (payload.length+4))++payload
  | .imm, payload => payload

def headerLen : Format → UInt64
  | .offset => 4
  | .imm => 0

def addrOf (L : ℕ) (c : Connection) (m : Span Item) : UInt64 :=
  (Channel.slotOf .up L c.rcv.addr m).addr

def tailOp (L : ℕ) (m : Span Item) : Op := .writeTail (UInt32.ofNat (offset .up L m.stop))

def posted (f : Format) (addr : UInt64) (bytes : List UInt8) (len tail : UInt32) : List Op :=
  match f with
  | .offset => [.write addr bytes, .writeTail tail]
  | .imm => [.writeImm addr bytes len]

def opsOf (f : Format) (L : ℕ) (c : Connection) (m : Span Item) : List Op :=
  posted f (addrOf L c m) (frame f m.body.payload) (UInt32.ofNat m.len)
    (UInt32.ofNat (offset .up L m.stop))

def Stored (f : Format) (L : ℕ) (mem : ℕ → UInt8) (m : Span Item) : Prop :=
  load L mem m.start m.len = frame f m.body.payload

def Announced (f : Format) (L : ℕ) (c : Connection) (a : List (Span Item)) (p : ℕ) : Prop :=
  match f with
  | .offset => c.tail.toNat = offset .up L p
  | .imm => c.recvCq = a.map (fun m => UInt32.ofNat m.len)

/-- The requests in flight: those of whole messages, or first of all the tail update
of a message whose data has arrived. -/
def InFlight (f : Format) (L : ℕ) (c : Connection) (b : List (Span Item)) : Prop :=
  c.wire = b.flatMap (opsOf f L c) ∨
    f = .offset ∧ ∃ m b', b = m::b' ∧ Stored f L c.mem m ∧
      c.wire = tailOp L m::b'.flatMap (opsOf f L c)

structure Sound (f : Format) (L : ℕ) (c : Connection) (t : Tape Item (L-1))
    (a b : List (Span Item)) : Prop where
  refines : Channel.Refines .up L (Channel.linkOf .up L c.snd c.rcv c.currOffset t) t
  split : t.unread = a++b
  numbered : t.Numbered Item.id c.sent.length c.got.length c.held
  message : ∀ m ∈ t.live, c.sent[m.body.id]? = some m.body.payload ∧
    m.len = (frame f m.body.payload).length
  regions : ∀ m ∈ t.held, ∃ reg, c.got[m.body.id]? = some reg ∧
    reg.addr = addrOf L c m+headerLen f
  returned : ∀ (k : ℕ) (reg : ReceiveRegion), c.got[k]? = some reg →
    ∃ p : List UInt8, c.sent[k]? = some p ∧ reg.length.toNat = p.length
  stored : ∀ m ∈ t.held++a, Stored f L c.mem m
  announced : Announced f L c a (headOf b t.tail)
  inFlight : InFlight f L c b

section Init

theorem init_sound (f : Format) (addr : UInt64) (key size : UInt32) (h2 : 2*size.toNat < 2^32) :
    Sound f size.toNat (init addr key size) (Tape.empty Item _) [] [] where
  refines := Channel.init_refines .up addr key size h2
  split := rfl
  numbered := Tape.numbered_empty Item.id
  message := by simp [Tape.live, Tape.empty]
  regions := by simp [Tape.empty]
  returned := by simp [init]
  stored := by simp [Tape.empty]
  announced := by
    cases f
    · exact (offset_zero .up _).symm
    · rfl
  inFlight := Or.inl rfl

end Init

section Facts

variable {f : Format} {L : ℕ} {c : Connection} {t : Tape Item (L-1)} {a b : List (Span Item)}

theorem live_pos (t : Tape Item (L-1)) (m : Span Item) (hm : m ∈ t.live) :
    0 < m.len ∧ m.len < L := ⟨(t.live_mem m hm).2.1, Channel.span_len_lt t m hm⟩

theorem offset_of_addr (h2 : 2*L < 2^32) (c : Connection) (m : Span Item) (hL : 0 < L) :
    (addrOf L c m-c.rcv.addr).toNat = m.start%L := by
  rw [← UInt64.add_zero (addrOf L c m)]
  exact Channel.slot_inside h2 hL c.rcv.addr m 0 (by decide)

theorem Sound.deliver_data (h : Sound f L c t a b) (h2 : 2*L < 2^32) (m : Span Item)
    (b' : List (Span Item)) (hb : b = m::b') (mem : ℕ → UInt8)
    (hc : mem = storeAt c.rcv c.mem (addrOf L c m) (frame f m.body.payload)) :
    (∀ n ∈ t.held++a, Stored f L mem n) ∧ Stored f L mem m := by
  have hmem : m ∈ t.live := by simp [Tape.live, h.split, hb]
  obtain ⟨hpos, hlt⟩ := live_pos t m hmem
  have hlen := (h.message m hmem).2
  have hrl : c.rcv.length.toNat = L := h.refines.receiver.length
  have hst : mem = store L c.mem (m.start%L) (frame f m.body.payload) := by
    rw [hc, storeAt, hrl, offset_of_addr h2 c m (by omega)]
  refine ⟨?_, ?_⟩
  · intro n hn
    obtain ⟨hnl, hbef⟩ := t.live_before a b' m (by rw [h.split, hb]) n hn
    rw [Stored, hst, load_store_frame]
    · exact h.stored n hn
    · rw [← hlen]
      apply Disjoint.symm
      exact t.live_disjoint .up L (by omega) (by omega) n m hnl hmem hbef _ _ rfl (Nat.mod_mod _ _)
  · rw [Stored, hst, load_congr L _ m.start (m.start%L) _ (Nat.mod_mod _ _).symm, hlen]
    exact load_store L _ _ _ (by omega)

theorem addrOf_congr (c c' : Connection) (h : c'.rcv.addr = c.rcv.addr) (m : Span Item)
    (addr : UInt64) (ha : addr = addrOf L c m+headerLen f) :
    addr = addrOf L c' m+headerLen f := by rw [ha, addrOf, addrOf, h]

theorem opsOf_congr (c c' : Connection) (h : c'.rcv.addr = c.rcv.addr) :
    opsOf f L c' = opsOf f L c := by
  funext m
  simp only [opsOf, addrOf, h]

end Facts

section Send

theorem frame_length (f : Format) (p : List UInt8) : (frame f p).length =
    match f with
    | .offset => p.length+4
    | .imm => p.length := by
  cases f
  · simp only [frame, List.length_append, putU32_length]
    omega
  · rfl

theorem sendAsync_ok (f : Format) (snd snd' : RemoteBuffer) (p : List UInt8) (ops : List Op)
    (hlen : (frame f p).length < 2^32) (hs : sendAsync f snd p = .ok (ops, snd')) :
    ∃ (len : UInt32) (addr : UInt64), len.toNat = (frame f p).length ∧
      Magic.getWriteAddr snd len = .ok addr ∧ snd' = written snd len ∧
      ops = posted f addr (frame f p) len ((snd.tail+len)%snd.length) := by
  rw [frame_length] at hlen ⊢
  cases f with
  | offset =>
    simp only at hlen ⊢
    have hn : (UInt32.ofNat p.length).toNat = p.length :=
      UInt32.toNat_ofNat_of_lt (by simp only [UInt32.size]; omega)
    have hl : (UInt32.ofNat p.length+4).toNat = p.length+4 := by
      rw [add_toNat _ _ (by rw [hn]; exact hlen), hn]
      rfl
    simp only [sendAsync, WriteOffset.sendAsync, WriteOffset.getMemoryRegion,
      Magic.getNextTail] at hs
    cases hg : Magic.getWriteAddr snd (UInt32.ofNat p.length+4) with
    | error e => simp [hg] at hs
    | ok addr =>
      simp only [hg] at hs
      obtain ⟨rfl, rfl⟩ := Prod.mk.inj (Except.ok.inj hs)
      refine ⟨_, addr, hl, hg, rfl, ?_⟩
      rw [List.take_of_length_le]
      · rfl
      · simp only [List.length_append, putU32_length, hl]
        omega
  | imm =>
    simp only at hlen ⊢
    have hn : (UInt32.ofNat p.length).toNat = p.length :=
      UInt32.toNat_ofNat_of_lt (by simp only [UInt32.size]; omega)
    simp only [sendAsync, WriteImm.sendAsync, WriteImm.getMemoryRegion] at hs
    cases hg : Magic.getWriteAddr snd (UInt32.ofNat p.length) with
    | error e => simp [hg] at hs
    | ok addr =>
      simp only [hg] at hs
      obtain ⟨rfl, rfl⟩ := Prod.mk.inj (Except.ok.inj hs)
      refine ⟨_, addr, hn, hg, rfl, ?_⟩
      rw [List.take_of_length_le (by rw [hn])]
      rfl

variable {f : Format} {L : ℕ} {c c' : Connection} {t : Tape Item (L-1)} {a b : List (Span Item)}

theorem ops_of_new (h : Sound f L c t a b) (h2 : 2*L < 2^32) (hL : 0 < L) (len : UInt32)
    (hlen : len.toNat < L) (addr : UInt64) (item : Item) (ops : List Op)
    (haddr : addr = addrOf L c ⟨t.tail, len.toNat, item⟩)
    (hops : ops = posted f addr (frame f item.payload) len ((c.snd.tail+len)%c.snd.length)) :
    ops = opsOf f L c ⟨t.tail, len.toNat, item⟩ := by
  obtain ⟨k, -, hsnd⟩ := h.refines.sender
  have hnext := up_next L t.tail c.snd.length c.snd.tail len hsnd.length hsnd.tail hL hlen.le h2
  have hword : UInt32.ofNat (offset .up L (t.tail+len.toNat)) =
      (c.snd.tail+len)%c.snd.length := by
    rw [← hnext, UInt32.ofNat_toNat]
  rw [hops, haddr, opsOf, UInt32.ofNat_toNat, Span.stop, hword]

theorem inFlight_send (c c' : Connection) (ops : List Op) (m : Span Item)
    (hc : c'.rcv.addr = c.rcv.addr) (hm : c'.mem = c.mem) (hw : c'.wire = c.wire++ops)
    (ho : ops = opsOf f L c m) (h : InFlight f L c b) : InFlight f L c' (b++[m]) := by
  have hcongr := opsOf_congr (f := f) (L := L) c c' hc
  rcases h with hb | ⟨hf, n, b', rfl, hst, hb⟩
  · left
    rw [hw, hb, ho, hcongr]
    simp
  · refine Or.inr ⟨hf, n, b'++[m], rfl, by rw [Stored, hm]; exact hst, ?_⟩
    rw [hw, hb, ho, hcongr]
    simp

theorem send_sound (h : Sound f L c t a b) (h2 : 2*L < 2^32) (p : List UInt8)
    (hp : 1 ≤ (frame f p).length ∧ (frame f p).length < L)
    (hs : step f c (.send p) = some c') :
    ∃ t' b', Sound f L c' t' a b' := by
  simp only [step] at hs
  cases hsnd : sendAsync f c.snd p with
  | error e => simp [hsnd] at hs
  | ok r =>
    obtain ⟨ops, snd⟩ := r
    simp only [hsnd, Option.some.injEq] at hs
    obtain ⟨len, addr, hlen, hg, hwr, hops⟩ := sendAsync_ok f c.snd snd p ops (by omega) hsnd
    obtain ⟨t', haddr, hst, hr⟩ :=
      sent_written h2 h.refines len ⟨c.sent.length, p⟩ (by omega) addr hg
    obtain ⟨-, -, hheld, hunread⟩ := Tape.step_send t t' _ _ hst
    have ho := ops_of_new h h2 (by omega) len (by omega) addr ⟨c.sent.length, p⟩ ops haddr hops
    subst hs hwr
    refine ⟨t', b++[⟨t.tail, len.toNat, ⟨c.sent.length, p⟩⟩], hr, ?_, ?_, ?_, ?_, ?_, ?_, ?_, ?_⟩
    · rw [hunread, h.split, List.append_assoc]
    · simp only [List.length_append, List.length_singleton]
      exact h.numbered.send _ _ rfl hst
    · intro m hm
      rw [Tape.send_live t t' _ _ hst] at hm
      rcases List.mem_append.mp hm with hm | hm
      · exact ⟨getElem?_concat _ _ _ _ (h.message m hm).1, (h.message m hm).2⟩
      · rw [List.mem_singleton.mp hm]
        exact ⟨by simp, hlen⟩
    · rw [hheld]
      exact h.regions
    · intro k reg hk
      obtain ⟨q, hq, hl⟩ := h.returned k reg hk
      exact ⟨q, getElem?_concat _ _ _ _ hq, hl⟩
    · rw [hheld]
      exact h.stored
    · rw [Tape.headOf_concat]
      exact h.announced
    · exact inFlight_send c _ ops _ rfl rfl rfl ho h.inFlight

end Send

section Deliver

variable {f : Format} {L : ℕ} {c c' : Connection} {t : Tape Item (L-1)} {a b : List (Span Item)}

theorem Sound.updateHead (h : Sound f L c t a b)
    (hs : step f c .updateHead = some c') : Sound f L c' t a b := by
  obtain rfl := Option.some.inj hs
  have hr := Channel.acknowledge_refines h.refines
  refine ⟨hr.relink _ _ _ rfl rfl rfl, h.split, h.numbered, h.message, h.regions, h.returned,
    h.stored, ?_, h.inFlight⟩
  have hann := h.announced
  cases f <;> exact hann

theorem Sound.arrive (h : Sound f L c t a b) (h2 : 2*L < 2^32) (m : Span Item)
    (b' : List (Span Item)) (hb : b = m::b') (hw : c.wire = b.flatMap (opsOf f L c))
    (hs : deliver c = some c') : ∃ a' b', Sound f L c' t a' b' := by
  rw [hb, List.flatMap_cons] at hw
  cases f with
  | offset =>
    simp only [opsOf, posted, List.cons_append, List.nil_append] at hw
    simp only [deliver, hw] at hs
    obtain rfl := Option.some.inj hs
    obtain ⟨hold, hnew⟩ := h.deliver_data h2 m b' hb _ rfl
    exact ⟨a, b, h.refines, h.split, h.numbered, h.message, h.regions, h.returned, hold,
      h.announced, Or.inr ⟨rfl, m, b', hb, hnew, rfl⟩⟩
  | imm =>
    simp only [opsOf, posted, List.cons_append, List.nil_append] at hw
    simp only [deliver, hw] at hs
    obtain rfl := Option.some.inj hs
    obtain ⟨hold, hnew⟩ := h.deliver_data h2 m b' hb _ rfl
    have hq : c.recvCq = a.map (fun m => UInt32.ofNat m.len) := h.announced
    refine ⟨a++[m], b', h.refines, split_next h.split hb, h.numbered, h.message, h.regions,
      h.returned, forall_next hold hnew, ?_, Or.inl rfl⟩
    · simp [Announced, hq]

theorem Sound.deliver (h : Sound f L c t a b) (h2 : 2*L < 2^32)
    (hs : deliver c = some c') : ∃ a' b', Sound f L c' t a' b' := by
  rcases h.inFlight with hw | ⟨rfl, m, b', hb, hst, hw⟩
  · cases hb : b with
    | nil => simp [WriteSender.deliver, hw, hb] at hs
    | cons m b' => exact h.arrive h2 m b' hb hw hs
  · simp only [WriteSender.deliver, hw, tailOp] at hs
    obtain rfl := Option.some.inj hs
    have hmem : m ∈ t.live := by simp [Tape.live, h.split, hb]
    have hL := (live_pos t m hmem).2
    have hle := offset_le .up L m.stop (by omega)
    refine ⟨a++[m], b', h.refines, split_next h.split hb, h.numbered, h.message, h.regions,
      h.returned, forall_next h.stored hst, ?_, Or.inl rfl⟩
    · simp only [Announced, t.next_head a b' m (by rw [h.split, hb])]
      apply UInt32.toNat_ofNat_of_lt
      simp only [UInt32.size]
      omega

end Deliver

end KYM.WriteDelivery
