import KnowYourMemory.WriteReverse

/-!
# Messages that arrive byte by byte

Memory is described by stream positions: byte `i` of a message is found `i` places
below its end. A byte that arrives changes one position behind everything that has
arrived before, and the position of the next valid byte last of all.
-/

set_option autoImplicit false

namespace KYM.ReverseDelivery
open KYM.Run KYM.Circle KYM.RingBuffer KYM.RingOffsets KYM.BoundedStream KYM.MagicMemory
open KYM.WriteSender (bytesAt storeAt)
open KYM.WriteReverse

structure Item where
  id : ℕ
  msg : Message

def byteOf (msg : Message) (i : ℕ) : UInt8 :=
  let size := msg.size.toNat
  if i = 0 then 0
  else if i ≤ size then msg.payload (i-1)
  else if i ≤ size+4 then (putU32 (UInt32.ofNat (size+5))).getD (i-(size+1)) 0
  else 1

def frame (msg : Message) : List UInt8 := (List.range (msg.size.toNat+6)).map (byteOf msg)

/-- The six bytes around the payload fit into the 32-bit length. -/
def Fitting (msg : Message) : Prop := msg.size.toNat+6 < 2^32

section Frame

theorem frame_length (msg : Message) : (frame msg).length = msg.size.toNat+6 := by simp [frame]

theorem frame_drop (msg : Message) (j : ℕ) (hj : j < msg.size.toNat+6) :
    (frame msg).drop j = byteOf msg j::(frame msg).drop (j+1) := by
  rw [List.drop_eq_getElem_cons (by rw [frame_length]; exact hj)]
  simp [frame]

theorem region_ok (msg : Message) (h : Fitting msg) : ∃ reg, getMemoryRegion msg.size = some reg ∧
    reg.length.toNat = msg.size.toNat ∧
    ∀ i < msg.size.toNat+6, (reg.fill msg.payload).buf i = byteOf msg i := by
  unfold Fitting at h
  have h6 : ((msg.size+6).toUInt32).toNat = msg.size.toNat+6 := by
    rw [UInt64.toNat_toUInt32, UInt64.toNat_add]
    change (msg.size.toNat+6)%2^64%2^32 = _
    omega
  have h5 : (msg.size+5).toUInt32 = UInt32.ofNat (msg.size.toNat+5) := by
    apply UInt32.toNat_inj.mp
    rw [UInt64.toNat_toUInt32, UInt64.toNat_add, UInt32.toNat_ofNat']
    change (msg.size.toNat+5)%2^64%2^32 = _
    omega
  have hsz : msg.size.toUInt32.toNat = msg.size.toNat := by
    rw [UInt64.toNat_toUInt32]
    omega
  have hlt : ¬(msg.size+6).toUInt32 < 5 := by
    rw [UInt32.lt_iff_toNat_lt, h6]
    change ¬(msg.size.toNat+6 < 5)
    omega
  have hreg : getMemoryRegion msg.size = some
      ⟨put (put (put (fun _ => 0) 0 [0]) ((msg.size+6).toUInt32.toNat-1) [1])
        ((msg.size+6).toUInt32.toNat-1-4) (putU32 (msg.size+5).toUInt32), msg.size.toUInt32⟩ := by
    simp only [getMemoryRegion, if_neg hlt]
  refine ⟨_, hreg, hsz, ?_⟩
  intro i hi
  simp only [SendRegion.fill, h6, h5, hsz, byteOf]
  by_cases h0 : i = 0
  · rw [if_neg (by omega), if_pos h0, put_outside _ _ _ _ (by omega),
      put_outside _ _ _ _ (by omega), h0]
    rfl
  · by_cases hp : i ≤ msg.size.toNat
    · rw [if_pos (by omega), if_neg h0, if_pos hp]
    · rw [if_neg (by omega), if_neg h0, if_neg hp]
      by_cases hl : i ≤ msg.size.toNat+4
      · rw [if_pos hl, show msg.size.toNat+6-1-4 = msg.size.toNat+1 by omega]
        rw [List.getD_eq_getElem?_getD,
          put_inside _ _ _ i (by omega) (by rw [putU32_length]; omega)]
        rfl
      · obtain rfl : i = msg.size.toNat+6-1 := by omega
        rw [if_neg hl, put_outside _ _ _ _ (by rw [putU32_length]; omega)]
        simp [put]

end Frame

section Memory

variable {L : ℕ} {mem : ℕ → UInt8} {m n : Span Item} {j : ℕ}

def Stored (L : ℕ) (mem : ℕ → UInt8) (m : Span Item) : Prop :=
  ∀ i < m.len, mem (place .down L (m.start+i)) = byteOf m.body.msg (m.len-i)

def Landed (L : ℕ) (mem : ℕ → UInt8) (m : Span Item) (j : ℕ) : Prop :=
  ∀ i < j, mem (place .down L (m.start+(m.len-i))) = byteOf m.body.msg i

def landing (L : ℕ) (mem : ℕ → UInt8) (m : Span Item) (j : ℕ) : ℕ → UInt8 :=
  Function.update mem (place .down L (m.start+(m.len-j))) (byteOf m.body.msg j)

theorem landing_frame (p : ℕ) (h : p < m.start+(m.len-j) ∧ m.start+(m.len-j) < p+L ∨
    m.start+(m.len-j) < p ∧ p < m.start+(m.len-j)+L) :
    landing L mem m j (place .down L p) = mem (place .down L p) := by
  apply Function.update_of_ne
  rcases h with h | h
  · exact place_ne .down L _ _ h.1 h.2
  · exact (place_ne .down L _ _ h.1 h.2).symm

theorem Landed.next (h : Landed L mem m j) (hL : m.len+1 ≤ L) (hj : j ≤ m.len) :
    Landed L (landing L mem m j) m (j+1) := by
  intro i hi
  by_cases he : i = j
  · subst he
    exact Function.update_self _ _ _
  · rw [landing_frame _ (Or.inr (by omega))]
    exact h i (by omega)

theorem Stored.landing (h : Stored L mem n) (hsep : n.stop ≤ m.start) (hwin : m.stop < n.start+L) :
    Stored L (landing L mem m j) n := by
  unfold Span.stop at *
  intro i hi
  rw [landing_frame _ (Or.inl (by omega))]
  exact h i hi

theorem Landed.stored (h : Landed L mem m (m.len+1)) :
    Stored L mem m ∧ mem (place .down L m.stop) = 0 := by
  constructor
  · intro i hi
    rw [← h (m.len-i) (by omega)]
    congr 2
    omega
  · exact h 0 (by omega)

def entryOf (base : UInt64) (o j : ℕ) (msg : Message) : UInt64 × List UInt8 :=
  (base+UInt64.ofNat (o+j), (frame msg).drop j)

def Flying (base : UInt64) (L : ℕ) : ℕ → List (Span Item) → List (UInt64 × List UInt8) → Prop
  | j, [], w => j = 0 ∧ w = []
  | j, m::b, w => ∃ (o : ℕ) (w' : List (UInt64 × List UInt8)),
      w = entryOf base o j m.body.msg::w' ∧ Anchored .down L o m.start (m.len+1) ∧
      o+(m.len+1) ≤ 2*L ∧ Flying base L 0 b w'

variable {base : UInt64} {b : List (Span Item)} {w : List (UInt64 × List UInt8)}

theorem Flying.length (h : Flying base L j b w) : w.length = b.length := by
  induction b generalizing j w with
  | nil => simp [h.2]
  | cons m b ih =>
    obtain ⟨o, w', rfl, -, -, h'⟩ := h
    simp [ih h']

theorem Flying.concat (h : Flying base L j b w) (m : Span Item) (o : ℕ)
    (ha : Anchored .down L o m.start (m.len+1)) (ho : o+(m.len+1) ≤ 2*L) :
    Flying base L j (b++[m]) (w++[entryOf base o 0 m.body.msg]) := by
  induction b generalizing j w with
  | nil =>
    obtain ⟨rfl, rfl⟩ := h
    exact ⟨o, [], rfl, ha, ho, rfl, rfl⟩
  | cons n b ih =>
    obtain ⟨o', w', rfl, ha', ho', h'⟩ := h
    exact ⟨o', _, rfl, ha', ho', ih h'⟩

theorem addr_sub (base : UInt64) (k : ℕ) (hk : k < 2^64) :
    (base+UInt64.ofNat k-base).toNat = k := by
  rw [UInt64.add_comm, UInt64.add_sub_cancel]
  exact UInt64.toNat_ofNat_of_lt hk

theorem Flying.bounds (h : Flying base L j b w) (h2 : 2*L < 2^32)
    (hlen : ∀ m ∈ b, m.len = m.body.msg.size.toNat+5) (hj : ∀ m ∈ b.head?, j ≤ m.len)
    (e : UInt64 × List UInt8) (he : e ∈ w) : (e.1-base).toNat+e.2.length ≤ 2*L := by
  induction b generalizing j w with
  | nil => simp [h.2] at he
  | cons m b ih =>
    obtain ⟨o, w', rfl, -, ho, h'⟩ := h
    rcases List.mem_cons.mp he with rfl | he
    · have hm := hlen m (by simp)
      have hjm := hj m (by simp)
      rw [entryOf, addr_sub base _ (by omega), List.length_drop, frame_length]
      omega
    · exact ih h' (fun n hn => hlen n (by simp [hn])) (fun n hn => Nat.zero_le _) he

end Memory

section Invariant

def heldIds (c : Connection) : List ℕ :=
  match c.phase with
  | .holding _ => [c.got.length-1]
  | _ => []

def addrOf (L : ℕ) (c : Connection) (m : Span Item) : UInt64 :=
  (Channel.slotOf .down L c.rcv.addr m).addr

def Phased (L : ℕ) (c : Connection) (t : Tape Item (L-1)) (a : List (Span Item)) : Prop :=
  match c.phase with
  | .polling => True
  | .parsing => a ≠ []
  | .holding reg => c.got[c.got.length-1]? = some reg ∧ ∀ m ∈ t.held, reg.addr = addrOf L c m

def InFlight (L : ℕ) (c : Connection) (b : List (Span Item)) : Prop :=
  ∃ j, Flying c.rcv.addr L j b c.wire ∧ ∀ m ∈ b.head?, j ≤ m.len ∧ Landed L c.mem m j

structure Sound (L : ℕ) (c : Connection) (t : Tape Item (L-1)) (a b : List (Span Item)) : Prop where
  refines : Channel.Refines .down L (Channel.linkOf .down L c.snd c.rcv c.currOffset t) t
  split : t.unread = a++b
  numbered : t.Numbered Item.id c.sent.length c.got.length (heldIds c)
  message : ∀ m ∈ t.live, c.sent[m.body.id]? = some m.body.msg ∧ m.len = m.body.msg.size.toNat+5
  phase : Phased L c t a
  returned : ∀ (k : ℕ) (reg : ReceiveRegion), c.got[k]? = some reg →
    ∃ msg : Message, c.sent[k]? = some msg ∧ reg.length.toNat = msg.size.toNat
  tails : c.tails.drop c.got.length =
    t.unread.map (fun m => UInt32.ofNat (offset .down L m.start))++[c.snd.tail]
  stored : ∀ m ∈ t.held++a, Stored L c.mem m
  frontier : c.mem (place .down L (headOf b t.tail)) = 0
  inFlight : InFlight L c b

theorem init_sound (addr : UInt64) (key size : UInt32) (h2 : 2*size.toNat < 2^32) :
    Sound size.toNat (init addr key size) (Tape.empty Item _) [] [] where
  refines := Channel.init_refines .down addr key size h2
  split := rfl
  numbered := Tape.numbered_empty Item.id
  message := by simp [Tape.live, Tape.empty]
  phase := trivial
  returned := by simp [init]
  tails := rfl
  stored := by simp [Tape.empty]
  frontier := rfl
  inFlight := ⟨0, ⟨rfl, rfl⟩, by simp⟩

end Invariant

end KYM.ReverseDelivery
