import KnowYourMemory.RingOffsets

/-!
# Ring words that mark positions

A word of a reversed ring marks the multiples of the length both by zero and by the
length, and a message without bytes may turn the one into the other. The statements
here leave open which of the two is stored, and hold for messages of any length.
-/

set_option autoImplicit false

namespace KYM.RingPositions
open KYM.Circle KYM.RingBuffer KYM.RingOffsets

/-- The offset `o` stands for position `p`. -/
def Marks : Direction → ℕ → ℕ → ℕ → Prop
  | .up, L, o, p => o = p%L
  | .down, L, o, p => o+p%L = L ∨ o = 0 ∧ p%L = 0

structure Tracks (d : Direction) (L : ℕ) (r : RemoteBuffer) (c t : ℕ) : Prop where
  length : r.length.toNat = L
  head : Marks d L r.head.toNat c
  tail : Marks d L r.tail.toNat t
  order : c ≤ t
  room : t < c+L

structure ReadsAt (d : Direction) (L : ℕ) (b : Buffer) (p : ℕ) : Prop where
  length : b.length.toNat = L
  readPtr : Marks d L b.readPtr.toNat p

variable {d : Direction} {L : ℕ}

theorem marks_zero (d : Direction) (L : ℕ) : Marks d L 0 0 := by
  cases d
  · exact (Nat.zero_mod L).symm
  · exact Or.inr ⟨rfl, Nat.zero_mod L⟩

theorem marks_le (hL : 0 < L) (o p : ℕ) (h : Marks d L o p) : o ≤ L := by
  have := Nat.mod_lt p hL
  cases d <;> simp only [Marks] at h <;> omega

@[simp] theorem marks_turn (d : Direction) (L o p : ℕ) : Marks d L o (p+L) ↔ Marks d L o p := by
  cases d <;> simp [Marks]

theorem marks_inj (hL : 0 < L) (o p q : ℕ) (hp : Marks d L o p) (hq : Marks d L o q)
    (hle : p ≤ q) (hlt : q < p+L) : p = q := by
  apply residue_inj L p q hle hlt
  have h1 := Nat.mod_lt p hL
  have h2 := Nat.mod_lt q hL
  cases d <;> simp only [Marks] at hp hq <;> omega

theorem marks_up (p : ℕ) (l o n : UInt32) (hl : l.toNat = L) (ho : Marks .up L o.toNat p)
    (hL : 0 < L) (hn : n.toNat ≤ L) (h2 : 2*L < 2^32) :
    Marks .up L ((o+n)%l).toNat (p+n.toNat) := up_next L p l o n hl ho hL hn h2

theorem marks_down (p n : ℕ) (o : ℕ) (ho : Marks .down L o p) (hL : 0 < L) (hn : n ≤ L) :
    Marks .down L (stepDown L o n) (p+n) ∧ Anchored .down L (stepDown L o n) p n := by
  have hadv := mod_advance L p n hL hn
  have hp := Nat.mod_lt p hL
  have hpn := Nat.mod_lt (p+n) hL
  simp only [Marks] at ho ⊢
  have hm : stepDown L o n+(p+n)%L = L ∨ stepDown L o n = 0 ∧ (p+n)%L = 0 := by
    unfold stepDown
    split <;> omega
  refine ⟨hm, ?_⟩
  rw [Anchored, Nat.add_assoc, ← Nat.add_mod_mod]
  rcases hm with hm | ⟨h0, h1⟩
  · rw [hm, Nat.mod_self]
  · rw [h0, h1, Nat.zero_mod]

section Sender

variable {r : RemoteBuffer} {c t : ℕ}

theorem Tracks.idle (h : Tracks d L r c t) (he : r.head = r.tail) : c = t := by
  have horder := h.order
  have hroom := h.room
  apply marks_inj (by omega) r.head.toNat c t h.head _ horder hroom
  rw [he]
  exact h.tail

/-- An accepted message ends within one length of the ring behind the head, and short of
that length unless it fills the ring. -/
theorem Tracks.space (h : Tracks d L r c t) (h2 : 2*L < 2^32) (len : UInt32) (a : UInt64)
    (ha : getWriteAddr d r len = .ok a) :
    t+len.toNat ≤ c+L ∧ (len.toNat < L → t+len.toNat < c+L) := by
  have hroom := h.room
  have hL : 0 < L := by have := h.order; omega
  have hl := h.length
  have hh := h.head
  have ht := h.tail
  have hhle := marks_le hL _ _ hh
  have htle := marks_le hL _ _ ht
  have hidle : r.head.toNat = r.tail.toNat → c = t := fun he => h.idle (UInt32.toNat_inj.mp he)
  obtain ⟨n, rfl⟩ := Nat.exists_eq_add_of_le h.order
  have hadv := mod_advance L c n hL (by omega)
  have hmc := Nat.mod_lt c hL
  have hmt := Nat.mod_lt (c+n) hL
  cases d with
  | up =>
    obtain ⟨heq, hlow, hhigh⟩ := (spare_iff _ _ _ _ _ (by omega) (by omega)).mp
      ((magic_spare r len).mp ⟨a, ha⟩)
    simp only [Marks] at hh ht
    rcases Nat.lt_trichotomy r.tail.toNat r.head.toNat with hlt | he | hlt
    · have := hhigh hlt
      omega
    · have := (heq he).2
      omega
    · have := hlow hlt
      omega
  | down =>
    obtain ⟨heq, hlow, hhigh⟩ := (spare_iff _ _ _ _ _ (by omega) (by omega)).mp
      ((reverse_spare r len).mp ⟨a, ha⟩)
    simp only [Marks] at hh ht
    rcases Nat.lt_trichotomy r.head.toNat r.tail.toNat with hlt | he | hlt
    · have := hhigh hlt
      omega
    · have := (heq he).2
      omega
    · have := hlow hlt
      omega

theorem getWriteAddr_mono (len n : UInt32) (a : UInt64) (hn : n ≤ len)
    (ha : getWriteAddr d r len = .ok a) : ∃ b, getWriteAddr d r n = .ok b := by
  cases d with
  | up => exact (magic_spare r n).mpr (((magic_spare r len).mp ⟨a, ha⟩).mono hn)
  | down => exact (reverse_spare r n).mpr (((reverse_spare r len).mp ⟨a, ha⟩).mono hn)

theorem Tracks.address (h : Tracks d L r c t) (h2 : 2*L < 2^32) (len : UInt32) (a : UInt64)
    (hlen : len.toNat ≤ L) (ha : getWriteAddr d r len = .ok a) :
    ∃ o : UInt32, a = r.addr+o.toUInt64 ∧ Anchored d L o.toNat t len.toNat := by
  have hL : 0 < L := by have := h.order; have := h.room; omega
  have hl := h.length
  have ht := h.tail
  have htle := marks_le hL _ _ ht
  cases d with
  | up =>
    refine ⟨r.tail, magic_addr r len a ha, ?_⟩
    rw [Anchored, show r.tail.toNat = t%L from ht, Nat.mod_mod]
  | down =>
    obtain ⟨o, ho, rfl⟩ := reverse_addr r len a ha
    refine ⟨o, rfl, ?_⟩
    rw [reverse_next r len o ho, stepDown_toNat _ _ _ (by omega) (by omega) (by omega), hl]
    exact (marks_down t _ _ ht hL hlen).2

theorem Tracks.moved (h : Tracks d L r c t) (h2 : 2*L < 2^32) (n : UInt32) (a : UInt64)
    (hn : n.toNat ≤ L) (ha : getWriteAddr d r n = .ok a) :
    ∃ r', RingBuffer.write d r n = .ok (a, r') ∧ r'.addr = r.addr ∧ r'.length = r.length ∧
      r'.head = r.head ∧ Marks d L r'.tail.toNat (t+n.toNat) := by
  have hL : 0 < L := by have := h.room; have := h.order; omega
  have hl := h.length
  have ht := h.tail
  have htle := marks_le hL _ _ ht
  cases d with
  | up =>
    have ha' : Magic.getWriteAddr r n = .ok a := ha
    have hw : Magic.write r n = .ok (a, { r with
        tail := (r.tail+n)%r.length, full := (r.tail+n)%r.length = r.head }) := by
      simp only [Magic.write, ha']
    exact ⟨_, hw, rfl, rfl, rfl, marks_up t _ _ n hl ht hL hn h2⟩
  | down =>
    obtain ⟨o, ho, rfl⟩ := reverse_addr r n a ha
    have hw : Reverse.write r n = .ok (r.addr+o.toUInt64, { r with
        tail := o, full := o = r.head }) := by
      simp only [Reverse.write, ho]
    have hm := (marks_down t n.toNat _ ht hL hn).1
    rw [← hl, ← stepDown_toNat _ _ _ (by omega) (by omega) (by omega), ← reverse_next r n o ho,
      hl] at hm
    exact ⟨_, hw, rfl, rfl, rfl, hm⟩

theorem Tracks.write (h : Tracks d L r c t) (h2 : 2*L < 2^32) (n : UInt32) (a : UInt64)
    (hn : t+n.toNat < c+L) (ha : getWriteAddr d r n = .ok a) :
    ∃ r', RingBuffer.write d r n = .ok (a, r') ∧ r'.addr = r.addr ∧
      Tracks d L r' c (t+n.toNat) := by
  have horder := h.order
  obtain ⟨r', hw, haddr, hlen, hhead, htail⟩ := h.moved h2 n a (by omega) ha
  exact ⟨r', hw, haddr, hlen ▸ h.length, hhead ▸ h.head, htail, by omega, hn⟩

/-- A message that fills the ring finds nothing in it, and leaves the words as they are
once everything has been freed. -/
theorem Tracks.fill (h : Tracks d L r c t) (h2 : 2*L < 2^32) (n : UInt32) (a : UInt64)
    (hn : n.toNat = L) (ha : getWriteAddr d r n = .ok a) :
    c = t ∧ ∃ r', RingBuffer.write d r n = .ok (a, r') ∧ r'.addr = r.addr ∧
      Tracks d L r' (t+n.toNat) (t+n.toNat) := by
  have horder := h.order
  have hroom := h.room
  have hspace := (h.space h2 n a ha).1
  obtain rfl : c = t := by omega
  obtain ⟨r', hw, haddr, hlen, hhead, htail⟩ := h.moved h2 n a hn.le ha
  refine ⟨rfl, r', hw, haddr, hlen ▸ h.length, ?_, htail, le_refl _, by omega⟩
  rw [hhead, hn, marks_turn]
  exact h.head

theorem updateHead_tracks (h : Tracks d L r c t) (o : UInt32) (c' : ℕ) (ho : Marks d L o.toNat c')
    (hle : c ≤ c') (hct : c' ≤ t) : Tracks d L (updateHead d r o) c' t := by
  have hroom := h.room
  cases d <;> exact ⟨h.length, ho, h.tail, hct, by omega⟩

end Sender

section Receiver

variable {b : Buffer} {p : ℕ}

theorem ReadsAt.read (h : ReadsAt d L b p) (hL : 0 < L) (h2 : 2*L < 2^32) (n : UInt32)
    (hn : n.toNat ≤ L) : ∃ (o : UInt32) (b' : Buffer), RingBuffer.read d b n =
      (b.addr+o.toUInt64, b') ∧ Anchored d L o.toNat p n.toNat ∧ b'.addr = b.addr ∧
      b'.head = b.head ∧ b'.outstanding = b.outstanding++[o] ∧ ReadsAt d L b' (p+n.toNat) := by
  have hl := h.length
  have hp := h.readPtr
  have hple := marks_le hL _ _ hp
  cases d with
  | up =>
    refine ⟨b.readPtr, _, rfl, ?_, rfl, rfl, rfl, hl, marks_up p _ _ n hl hp hL hn h2⟩
    rw [Anchored, show b.readPtr.toNat = p%L from hp, Nat.mod_mod]
  | down =>
    have hnext : (if b.readPtr > n then b.readPtr-n else b.length+b.readPtr-n).toNat =
        stepDown L b.readPtr.toNat n.toNat := by
      rw [UInt32.add_comm b.length, stepDown_toNat _ _ _ (by omega) (by omega) (by omega), hl]
    obtain ⟨hm, ha⟩ := marks_down p n.toNat _ hp hL hn
    rw [← hnext] at hm ha
    exact ⟨_, _, rfl, ha, rfl, rfl, rfl, hl, hm⟩

theorem free_only (d : Direction) (b : Buffer) (o : UInt32) (h : b.outstanding = [o]) :
    RingBuffer.free d b (b.addr+o.toUInt64) =
      (b.readPtr, { b with head := b.readPtr, outstanding := [] }) := by
  rw [free_eq]
  simp only [Buffer.freeRegion, regionStart_of, h, if_true]
  simp

end Receiver

end KYM.RingPositions
