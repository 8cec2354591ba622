import KnowYourMemory.RingBuffer
import KnowYourMemory.BoundedStream

/-!
# Ring operations in stream positions

The words that the two sides of a ring store are offsets of stream positions.
Each operation gets one statement about positions here; later modules never
unfold an operation. A fresh reversed ring stores position zero as offset zero,
every later multiple of the length as offset `L`.
-/

set_option autoImplicit false

namespace KYM.RingOffsets
open KYM.Circle KYM.RingBuffer KYM.BoundedStream

def offset : Direction → ℕ → ℕ → ℕ
  | .up, L, p => p%L
  | .down, L, p => if p = 0 then 0 else L-p%L

theorem offset_zero (d : Direction) (L : ℕ) : offset d L 0 = 0 := by
  cases d <;> simp [offset]

theorem offset_le (d : Direction) (L p : ℕ) (hL : 0 < L) : offset d L p ≤ L := by
  have := Nat.mod_lt p hL
  cases d <;> simp only [offset]
  · omega
  · split <;> omega

theorem mod_advance (L p n : ℕ) (hL : 0 < L) (hn : n ≤ L) :
    (p+n)%L = p%L+n ∨ (p+n)%L+L = p%L+n := by
  have hp := Nat.mod_lt p hL
  rw [Nat.add_mod]
  rcases Nat.lt_or_ge n L with h | h
  · rw [Nat.mod_eq_of_lt h]
    rcases Nat.lt_or_ge (p%L+n) L with h' | h'
    · exact Or.inl (Nat.mod_eq_of_lt h')
    · right
      rw [Nat.mod_eq_sub_mod h', Nat.mod_eq_of_lt (by omega)]
      omega
  · obtain rfl : n = L := by omega
    right
    simp

theorem offset_gap (d : Direction) (L c t : ℕ) (hL : 0 < L) (hc : c ≤ t) (ht : t < c+L) :
    (c = t ∧ offset d L c = offset d L t) ∨
    (c < t ∧ match d with
      | .up => offset d L c < offset d L t ∧ offset d L t-offset d L c = t-c
      | .down => offset d L t < offset d L c ∧ offset d L c-offset d L t = t-c) ∨
    (c < t ∧ match d with
      | .up => offset d L t < offset d L c ∧ offset d L c-offset d L t+(t-c) = L
      | .down => offset d L c < offset d L t ∧ offset d L t-offset d L c+(t-c) = L) := by
  obtain ⟨n, rfl⟩ := Nat.exists_eq_add_of_le hc
  have hlt := Nat.mod_lt (c+n) hL
  have hlc := Nat.mod_lt c hL
  have hadv := mod_advance L c n hL (by omega)
  cases d with
  | up =>
    simp only [offset]
    omega
  | down =>
    simp only [offset]
    by_cases h0 : c = 0
    · subst h0
      have hn : n%L = n := Nat.mod_eq_of_lt (by omega)
      rw [Nat.zero_add, if_pos rfl, hn]
      by_cases h : n = 0
      · exact Or.inl ⟨h.symm, by rw [if_pos h]⟩
      · rw [if_neg h]
        omega
    · rw [if_neg h0, if_neg (by omega)]
      omega

theorem offset_inj (d : Direction) (L c t : ℕ) (hL : 0 < L) (hc : c ≤ t) (ht : t < c+L)
    (h : offset d L c = offset d L t) : c = t := by
  rcases offset_gap d L c t hL hc ht with hg | hg | hg
  · exact hg.1
  · cases d <;> simp only at hg <;> omega
  · cases d <;> simp only at hg <;> omega

def low {α : Type} (d : Direction) (L : ℕ) (m : Span α) : ℕ :=
  match d with
  | .up => offset .up L m.start
  | .down => offset .down L m.stop

theorem low_le {α : Type} (d : Direction) (L : ℕ) (m : Span α) (hL : 0 < L) : low d L m ≤ L := by
  cases d with
  | up => exact offset_le .up L m.start hL
  | down => exact offset_le .down L m.stop hL

theorem word_of_low {α : Type} (d : Direction) {L : ℕ} (h2 : 2*L < 2^32) (m : Span α) (hL : 0 < L) :
    (UInt32.ofNat (low d L m)).toNat = low d L m := by
  have hle := low_le d L m hL
  apply UInt32.toNat_ofNat_of_lt
  simp only [UInt32.size]
  omega

theorem low_anchored {α : Type} (d : Direction) (L : ℕ) (m : Span α) (hL : 0 < L)
    (hm : 0 < m.len) : Anchored d L (low d L m) m.start m.len := by
  cases d with
  | up => simp [low, Anchored, offset]
  | down =>
    have hlt := Nat.mod_lt m.stop hL
    have hs : m.stop ≠ 0 := by simp only [Span.stop]; omega
    simp only [low, Anchored, offset, if_neg hs, Nat.add_assoc]
    rw [show m.start+m.len = m.stop from rfl, ← Nat.add_mod_mod, Nat.sub_add_cancel hlt.le,
      Nat.mod_self]

structure SenderAt (d : Direction) (L : ℕ) (r : RemoteBuffer) (c t : ℕ) : Prop where
  length : r.length.toNat = L
  head : r.head.toNat = offset d L c
  tail : r.tail.toNat = offset d L t
  full : r.full = false

structure ReceiverAt {α : Type} (d : Direction) (L : ℕ) (b : Buffer) (held : List (Span α))
    (h p : ℕ) : Prop where
  length : b.length.toNat = L
  head : b.head.toNat = offset d L h
  readPtr : b.readPtr.toNat = offset d L p
  outstanding : b.outstanding.map UInt32.toNat = held.map (low d L)

def Fits (L c t n : ℕ) : Prop := t+n < c+L ∨ (t = c ∧ n ≤ L)

theorem Fits.le {L c t n : ℕ} (h : Fits L c t n) : t+n ≤ c+L := by
  rcases h with h | h <;> omega

theorem Fits.shrink {L c t n k : ℕ} (h : Fits L c t n) (hk : k < n) : t+k < c+L := by
  have := h.le
  omega

theorem add_toNat (a b : UInt32) (h : a.toNat+b.toNat < 2^32) :
    (a+b).toNat = a.toNat+b.toNat := by
  rw [UInt32.toNat_add, Nat.mod_eq_of_lt h]

theorem sub_toNat (a b : UInt32) (h : b.toNat ≤ a.toNat) : (a-b).toNat = a.toNat-b.toNat :=
  UInt32.toNat_sub_of_le _ _ (UInt32.le_iff_toNat_le.mpr h)

theorem wrapped_le (a b c n : UInt32) (h : b.toNat ≤ a.toNat) (hs : a.toNat+c.toNat < 2^32) :
    (a-b)+c ≤ n ↔ a.toNat-b.toNat+c.toNat ≤ n.toNat := by
  rw [UInt32.le_iff_toNat_le, add_toNat, sub_toNat a b h]
  rw [sub_toNat a b h]
  omega

def Spare (l x y len : UInt32) (full : Bool) : Prop :=
  (x = y → full = false ∧ len ≤ l) ∧ (y < x → len < (l-x)+y) ∧ (x < y → len < y-x)

theorem Spare.mono {l x y len n : UInt32} {full : Bool} (h : Spare l x y len full) (hn : n ≤ len) :
    Spare l x y n full :=
  ⟨fun he => ⟨(h.1 he).1, UInt32.le_trans hn (h.1 he).2⟩,
    fun hlt => UInt32.lt_of_le_of_lt hn (h.2.1 hlt),
    fun hlt => UInt32.lt_of_le_of_lt hn (h.2.2 hlt)⟩

theorem spare_iff (l x y len : UInt32) (full : Bool) (hx : x.toNat ≤ l.toNat)
    (hy : l.toNat+y.toNat < 2^32) : Spare l x y len full ↔
      (x.toNat = y.toNat → full = false ∧ len.toNat ≤ l.toNat) ∧
      (y.toNat < x.toNat → len.toNat+x.toNat < l.toNat+y.toNat) ∧
      (x.toNat < y.toNat → len.toNat+x.toNat < y.toNat) := by
  refine and_congr ?_ (and_congr ?_ ?_)
  · rw [← UInt32.toNat_inj, UInt32.le_iff_toNat_le]
  · refine imp_congr UInt32.lt_iff_toNat_lt ?_
    rw [← UInt32.not_le, wrapped_le l x y len hx hy]
    omega
  · refine imp_congr_ctx UInt32.lt_iff_toNat_lt (fun hlt => ?_)
    rw [UInt32.lt_iff_toNat_lt, sub_toNat _ _ hlt.le]
    omega

theorem residue_toNat (x : UInt64) (S : UInt32) (hS : 0 < S.toNat) :
    (x%S.toUInt64).toUInt32.toNat = x.toNat%S.toNat := by
  have hlt := Nat.mod_lt x.toNat hS
  have hS32 := S.toNat_lt
  rw [UInt64.toNat_toUInt32, UInt64.toNat_mod, UInt32.toNat_toUInt64, Nat.mod_eq_of_lt]
  omega

section Sender

variable {d : Direction} {L : ℕ} {r : RemoteBuffer} {c t : ℕ}

theorem magic_spare (r : RemoteBuffer) (len : UInt32) : (∃ a, getWriteAddr .up r len = .ok a) ↔
    Spare r.length r.tail r.head len r.full := by
  simp only [getWriteAddr, Magic.getWriteAddr, Spare, eq_comm (a := r.tail)]
  split_ifs <;> simp_all

theorem reverse_spare (r : RemoteBuffer) (len : UInt32) : (∃ a, getWriteAddr .down r len = .ok a) ↔
    Spare r.length r.head r.tail len r.full := by
  simp only [getWriteAddr, Reverse.getWriteAddr, Reverse.getNextTail, Spare]
  generalize (if r.tail > len then r.tail-len else r.tail+r.length-len) = o
  split_ifs <;> simp_all

theorem getWriteAddr_iff (hL : 0 < L) (h2 : 2*L < 2^32) (h : SenderAt d L r c t) (hc : c ≤ t)
    (ht : t < c+L) (len : UInt32) :
    (∃ a, getWriteAddr d r len = .ok a) ↔ Fits L c t len.toNat := by
  have hh := h.head
  have htl := h.tail
  have hl := h.length
  have hbh := offset_le d L c hL
  have hbt := offset_le d L t hL
  have hgap := offset_gap d L c t hL hc ht
  cases d with
  | up =>
    rw [magic_spare, spare_iff _ _ _ _ _ (by omega) (by omega), h.full, hh, htl, hl]
    simp only [true_and, Fits] at hgap ⊢
    omega
  | down =>
    rw [reverse_spare, spare_iff _ _ _ _ _ (by omega) (by omega), h.full, hh, htl, hl]
    simp only [true_and, Fits] at hgap ⊢
    omega

theorem getWriteAddr_pos (h : SenderAt d L r c c) (len : UInt32) (hlen : 0 < len.toNat)
    (a : UInt64) (ha : getWriteAddr d r len = .ok a) : 0 < L := by
  by_contra h0
  have heq : r.head = r.tail := UInt32.toNat_inj.mp (h.head.trans h.tail.symm)
  have hle : len ≤ r.length := by
    cases d with
    | up => exact (((magic_spare r len).mp ⟨a, ha⟩).1 heq.symm).2
    | down => exact (((reverse_spare r len).mp ⟨a, ha⟩).1 heq).2
  rw [UInt32.le_iff_toNat_le, h.length] at hle
  omega

theorem down_add (L p : ℕ) (hL : 0 < L) : (offset .down L p+p)%L = 0 := by
  have hlt := Nat.mod_lt p hL
  simp only [offset]
  split
  · next h => simp [h]
  · rw [← Nat.add_mod_mod, Nat.sub_add_cancel hlt.le, Nat.mod_self]

/-- Stepping down by `n`, with the wrap of the source that never yields zero. -/
def stepDown (L o n : ℕ) : ℕ := if n < o then o-n else o+L-n

theorem stepDown_bound (L o n : ℕ) (ho : o ≤ L) (hn : n ≤ L) : stepDown L o n+n ≤ 2*L := by
  unfold stepDown
  split <;> omega

theorem stepDown_anchored (L p n : ℕ) (hL : 0 < L) (hn : n ≤ L) :
    Anchored .down L (stepDown L (offset .down L p) n) p n := by
  have h := down_add L p hL
  simp only [Anchored, stepDown]
  split
  · rw [show offset .down L p-n+p+n = offset .down L p+p by omega]
    exact h
  · rw [show offset .down L p+L-n+p+n = offset .down L p+p+L by omega, Nat.add_mod_right]
    exact h

theorem stepDown_offset (L p n : ℕ) (hL : 0 < L) (hn0 : 0 < n) (hn : n < L) :
    stepDown L (offset .down L p) n = offset .down L (p+n) := by
  have hlt := Nat.mod_lt (p+n) hL
  have hlp := Nat.mod_lt p hL
  have hadv := mod_advance L p n hL hn.le
  by_cases hp : p = 0
  · simp [hp, stepDown, offset, Nat.mod_eq_of_lt hn, show n ≠ 0 by omega]
  · simp only [stepDown, offset, if_neg hp, if_neg (show p+n ≠ 0 by omega)]
    split <;> omega

theorem stepDown_toNat (o l n : UInt32) (ho : o.toNat ≤ l.toNat) (hn : n.toNat ≤ l.toNat)
    (h2 : 2*l.toNat < 2^32) :
    (if o > n then o-n else o+l-n).toNat = stepDown l.toNat o.toNat n.toNat := by
  have hs := add_toNat o l (by omega)
  simp only [stepDown, gt_iff_lt, UInt32.lt_iff_toNat_lt]
  split
  · rw [sub_toNat _ _ (by omega)]
  · rw [sub_toNat _ _ (by omega), hs]

theorem up_next (L p : ℕ) (l o n : UInt32) (hl : l.toNat = L) (ho : o.toNat = offset .up L p)
    (hL : 0 < L) (hn : n.toNat ≤ L) (h2 : 2*L < 2^32) :
    ((o+n)%l).toNat = offset .up L (p+n.toNat) := by
  have hlt := Nat.mod_lt p hL
  simp only [offset] at *
  rw [UInt32.toNat_mod, add_toNat _ _ (by omega), hl, ho, Nat.mod_add_mod]

theorem magic_addr (r : RemoteBuffer) (len : UInt32) (a : UInt64)
    (ha : Magic.getWriteAddr r len = .ok a) : a = r.addr+r.tail.toUInt64 := by
  unfold Magic.getWriteAddr at ha
  split_ifs at ha
  exact (Except.ok.inj ha).symm

theorem reverse_next (r : RemoteBuffer) (len a : UInt32) (ha : Reverse.getNextTail r len = .ok a) :
    a = if r.tail > len then r.tail-len else r.tail+r.length-len := by
  unfold Reverse.getNextTail at ha
  split at ha
  · cases ha
  split at ha
  · cases ha
  split at ha
  · cases ha
  split at ha
  · cases ha
  · exact (Except.ok.inj ha).symm

theorem reverse_addr (r : RemoteBuffer) (len : UInt32) (a : UInt64)
    (ha : Reverse.getWriteAddr r len = .ok a) :
    ∃ o, Reverse.getNextTail r len = .ok o ∧ a = r.addr+o.toUInt64 := by
  unfold Reverse.getWriteAddr at ha
  cases h : Reverse.getNextTail r len with
  | error e => simp [h] at ha
  | ok o =>
    rw [h] at ha
    exact ⟨o, rfl, (Except.ok.inj ha).symm⟩

/-- An accepted message is written inside the double mapping, at the offset that
stands for the positions behind the tail. -/
theorem getWriteAddr_ok (hL : 0 < L) (h2 : 2*L < 2^32) (h : SenderAt d L r c t)
    (len : UInt32) (hlen : len.toNat ≤ L) (a : UInt64) (ha : getWriteAddr d r len = .ok a) :
    ∃ o : UInt32, a = r.addr+o.toUInt64 ∧ Anchored d L o.toNat t len.toNat ∧
      o.toNat+len.toNat ≤ 2*L := by
  have hl := h.length
  have ht := h.tail
  have hb := offset_le d L t hL
  cases d with
  | up =>
    refine ⟨r.tail, magic_addr r len a ha, ?_, by omega⟩
    rw [ht, Anchored, offset, Nat.mod_mod]
  | down =>
    obtain ⟨o, ho, rfl⟩ := reverse_addr r len a ha
    have he : o.toNat = stepDown L (offset .down L t) len.toNat := by
      rw [reverse_next r len o ho, stepDown_toNat _ _ _ (by omega) (by omega) (by omega), hl, ht]
    refine ⟨o, rfl, ?_, ?_⟩
    · rw [he]
      exact stepDown_anchored L t _ hL hlen
    · rw [he]
      exact stepDown_bound L _ _ hb hlen

/-- A claim of `n` bytes that leaves room moves the tail by `n` positions and
never reports a full ring. -/
theorem write_ok (hL : 0 < L) (h2 : 2*L < 2^32) (h : SenderAt d L r c t) (hc : c ≤ t)
    (n : UInt32) (hn0 : 0 < n.toNat) (hn : t+n.toNat < c+L) :
    ∃ o : UInt32, ∃ r', write d r n = .ok (r.addr+o.toUInt64, r') ∧
      (∀ {α : Type} (b : α), o.toNat = low d L ⟨t, n.toNat, b⟩) ∧
      r'.addr = r.addr ∧ r'.key = r.key ∧ SenderAt d L r' c (t+n.toNat) := by
  have hl := h.length
  have ht := h.tail
  have hh := h.head
  have hb := offset_le d L t hL
  obtain ⟨a, ha⟩ := (getWriteAddr_iff hL h2 h hc (by omega) n).mpr (Or.inl hn)
  have hfull : ∀ o : UInt32, o.toNat = offset d L (t+n.toNat) → decide (o = r.head) = false := by
    intro o ho
    apply decide_eq_false
    intro he
    have := offset_inj d L c (t+n.toNat) hL (by omega) (by omega) (by rw [← ho, he, hh])
    omega
  cases d with
  | up =>
    have hnext := up_next L t r.length r.tail n hl ht hL (by omega) h2
    have ha' : Magic.getWriteAddr r n = .ok a := ha
    have hw : Magic.write r n = .ok (a, { r with
        tail := (r.tail+n)%r.length, full := decide ((r.tail+n)%r.length = r.head) }) := by
      simp only [Magic.write, ha']
    rw [magic_addr r n a ha'] at hw
    exact ⟨r.tail, _, hw, fun _ => ht, rfl, rfl, hl, hh, hnext, hfull _ hnext⟩
  | down =>
    obtain ⟨o, ho, -⟩ := reverse_addr r n a ha
    have hnext : o.toNat = offset .down L (t+n.toNat) := by
      rw [reverse_next r n o ho, stepDown_toNat _ _ _ (by omega) (by omega) (by omega), hl, ht,
        stepDown_offset L t _ hL hn0 (by omega)]
    have hw : Reverse.write r n = .ok (r.addr+o.toUInt64, { r with
        tail := o, full := decide (o = r.head) }) := by
      simp only [Reverse.write, ho]
    exact ⟨o, _, hw, fun _ => hnext, rfl, rfl, hl, hh, hnext, hfull _ hnext⟩

theorem updateHead_ok (h : SenderAt d L r c t) (o : UInt32) (c' : ℕ)
    (ho : o.toNat = offset d L c') : SenderAt d L (updateHead d r o) c' t := by
  cases d <;> exact ⟨h.length, ho, h.tail, rfl⟩

end Sender

section Receiver

variable {α : Type} {d : Direction} {L : ℕ} {b : Buffer} {held : List (Span α)} {h p : ℕ}

theorem read_ok (hL : 0 < L) (h2 : 2*L < 2^32) (hb : ReceiverAt d L b held h p) (n : UInt32)
    (hn0 : 0 < n.toNat) (hn : n.toNat < L) (body : α) :
    ∃ o : UInt32, ∃ b', RingBuffer.read d b n = (b.addr+o.toUInt64, b') ∧
      o.toNat = low d L ⟨p, n.toNat, body⟩ ∧ b'.addr = b.addr ∧
      ReceiverAt d L b' (held++[⟨p, n.toNat, body⟩]) h (p+n.toNat) := by
  have hl := hb.length
  have hr := hb.readPtr
  have hbo := offset_le d L p hL
  cases d with
  | up =>
    refine ⟨b.readPtr, _, rfl, hr, rfl, hl, hb.head, up_next L p _ _ n hl hr hL hn.le h2, ?_⟩
    simp only [List.map_append, List.map_cons, List.map_nil, hb.outstanding, hr]
    rfl
  | down =>
    have hnext : (if b.readPtr > n then b.readPtr-n else b.length+b.readPtr-n).toNat =
        offset .down L (p+n.toNat) := by
      rw [UInt32.add_comm b.length, stepDown_toNat _ _ _ (by omega) (by omega) (by omega), hl, hr,
        stepDown_offset L p _ hL hn0 hn]
    refine ⟨_, _, rfl, hnext, rfl, hl, hb.head, hnext, ?_⟩
    simp only [List.map_append, List.map_cons, List.map_nil, hb.outstanding, hnext]
    rfl

theorem regionStart_of (b : Buffer) (o : UInt32) :
    b.regionStart (b.addr+o.toUInt64) = o := by
  rw [Buffer.regionStart, UInt64.add_comm, UInt64.add_sub_cancel, UInt32.toUInt32_toUInt64]

theorem low_nodup {cap : ℕ} (s : Tape α cap) (hcap : cap < L) :
    (s.held.map (low d L)).Nodup := by
  have hw := s.window
  refine List.pairwise_map.mpr (s.held_sorted.imp_of_mem ?_)
  intro m n hm hn hmn he
  have hm' := s.live_mem m (by simp [Tape.live, hm])
  have hn' := s.live_mem n (by simp [Tape.live, hn])
  unfold Before Span.stop at *
  unfold Tape.head at *
  cases d with
  | up =>
    have := offset_inj .up L m.start n.start (by omega) (by omega) (by omega) he
    omega
  | down =>
    have := offset_inj .down L (m.start+m.len) (n.start+n.len) (by omega) (by omega) (by omega) he
    omega

theorem free_eq (d : Direction) (b : Buffer) (addr : UInt64) :
    RingBuffer.free d b addr = b.freeRegion addr := by
  cases d <;> rfl

theorem filter_ne_eraseIdx (l : List UInt32) (hl : l.Nodup) (i : ℕ) (hi : i < l.length) :
    l.filter (· ≠ l[i]) = l.eraseIdx i := by
  rw [← hl.erase_getElem i hi, hl.erase_eq_filter]
  congr 1
  funext x
  exact decide_not

def freedHead (d : Direction) (L h p i : ℕ) (held : List (Span α)) : ℕ :=
  match i, held with
  | 0, [_] => offset d L p
  | 0, _::m::_ => low d L m
  | _, _ => offset d L h

theorem freed_head (hb : ReceiverAt d L b held h p) (hnd : b.outstanding.Nodup) (i : ℕ)
    (hi : i < held.length) (o : UInt32) (ho : b.outstanding[i]? = some o) :
    (b.freeRegion (b.addr+o.toUInt64)).2.head.toNat = freedHead d L h p i held := by
  have hout := hb.outstanding
  simp only [Buffer.freeRegion, regionStart_of]
  cases hl : b.outstanding with
  | nil => simp [hl] at ho
  | cons front rest =>
    rw [hl] at hnd ho hout
    match i, held with
    | 0, m::ms =>
      obtain rfl : front = o := by simpa using ho
      obtain ⟨-, hrest⟩ := List.cons.inj hout
      simp only [if_true]
      match rest, ms with
      | [], [] => exact hb.readPtr
      | n::_, m'::_ => exact (List.cons.inj hrest).1
      | [], _::_ => simp at hrest
      | _::_, [] => simp at hrest
    | i+1, m::ms =>
      have hmem : o ∈ rest := List.mem_of_getElem? (by simpa using ho)
      have hne : o ≠ front := fun he => (List.nodup_cons.mp hnd).1 (he ▸ hmem)
      simp only [if_neg hne]
      exact hb.head

/-- Freeing the `i`-th outstanding region removes exactly its entry, and moves the
head only when the region is the oldest one. -/
theorem free_ok (hb : ReceiverAt d L b held h p) (hnd : (held.map (low d L)).Nodup) (i : ℕ)
    (hi : i < held.length) (o : UInt32) (ho : o.toNat = low d L held[i]) :
    ∃ b', RingBuffer.free d b (b.addr+o.toUInt64) = (b'.head, b') ∧ b'.addr = b.addr ∧
      b'.length = b.length ∧ b'.readPtr = b.readPtr ∧
      b'.head.toNat = freedHead d L h p i held ∧
      b'.outstanding.map UInt32.toNat = (held.eraseIdx i).map (low d L) := by
  have hout := hb.outstanding
  have hlen : b.outstanding.length = held.length := by
    simpa using congrArg List.length hout
  have hnd' : b.outstanding.Nodup := List.Nodup.of_map UInt32.toNat (hout ▸ hnd)
  have hsome : b.outstanding[i]? = some o := by
    have hib : i < b.outstanding.length := by omega
    have := congrArg (fun l => l[i]?) hout
    simp only [List.getElem?_map, List.getElem?_eq_getElem hib, List.getElem?_eq_getElem hi,
      Option.map_some, Option.some.injEq, ← ho, UInt32.toNat_inj] at this
    rw [List.getElem?_eq_getElem hib, this]
  obtain ⟨hib, hget⟩ := List.getElem?_eq_some_iff.mp hsome
  refine ⟨(b.freeRegion (b.addr+o.toUInt64)).2, free_eq d b _, rfl, rfl, rfl, ?_, ?_⟩
  · exact freed_head hb hnd' i hi o hsome
  · simp only [Buffer.freeRegion, regionStart_of, ← hget]
    rw [filter_ne_eraseIdx _ hnd' i hib, ← List.eraseIdx_map, hout, List.eraseIdx_map]

end Receiver

end KYM.RingOffsets
