import KnowYourMemory.ReverseDelivery.Arrival

/-!
# Receiving reversed messages

The receiver sees a message exactly when its last byte has arrived, and reads it whole.
-/

set_option autoImplicit false

namespace KYM.ReverseDelivery
open KYM.Run KYM.Circle KYM.RingBuffer KYM.RingOffsets KYM.BoundedStream KYM.MagicMemory
open KYM.WriteSender (bytesAt storeAt)
open KYM.WriteReverse

section Receive

variable {L : ℕ} {c c' : Connection} {t : Tape Item (L-1)} {a b : List (Span Item)}

theorem next_sub (rcv : Buffer) :
    (next rcv-rcv.addr).toNat = (Reverse.getReadOff rcv).toNat+rcv.length.toNat := by
  have h1 := (Reverse.getReadOff rcv).toNat_lt
  have h2 := rcv.length.toNat_lt
  rw [next, Reverse.getReadPtr, UInt64.add_assoc, UInt64.add_comm, UInt64.add_sub_cancel,
    UInt64.toNat_add, UInt32.toNat_toUInt64, UInt32.toNat_toUInt64]
  omega

theorem msgLenAddr_sub (rcv : Buffer)
    (h : 4 ≤ (Reverse.getReadOff rcv).toNat+rcv.length.toNat) :
    (msgLenAddr rcv-rcv.addr).toNat+4 = (Reverse.getReadOff rcv).toNat+rcv.length.toNat := by
  have hle : (4 : UInt64) ≤ next rcv-rcv.addr := by
    rw [UInt64.le_iff_toNat_le, next_sub]
    exact h
  have he : msgLenAddr rcv-rcv.addr = next rcv-rcv.addr-4 := by
    simp only [msgLenAddr, UInt64.sub_eq_add_neg, UInt64.add_assoc, UInt64.add_comm (-4)]
  rw [he, UInt64.toNat_sub_of_le _ _ hle, next_sub]
  change (Reverse.getReadOff rcv).toNat+rcv.length.toNat-4+4 = _
  omega

theorem Sound.readOff (h : Sound L c t a b) (hL : 0 < L) :
    (Reverse.getReadOff c.rcv).toNat = place .down L t.read := by
  have hrl : c.rcv.length.toNat = L := h.refines.receiver.length
  have hrp : c.rcv.readPtr.toNat = offset .down L t.read := h.refines.receiver.readPtr
  have hlt := Nat.mod_lt t.read hL
  have h1 : (1 : UInt32).toNat = 1 := rfl
  simp only [offset] at hrp
  simp only [Reverse.getReadOff, place, gt_iff_lt, UInt32.lt_iff_toNat_lt]
  by_cases h0 : t.read = 0
  · rw [if_pos h0] at hrp
    rw [if_neg (by rw [hrp]; exact lt_irrefl 0), sub_toNat _ _ (by rw [h1]; omega), h0, hrl, h1]
    simp
  · rw [if_neg h0] at hrp
    rw [if_pos (by rw [hrp]; change 0 < _; omega), sub_toNat _ _ (by rw [h1]; omega), hrp, h1]
    omega

theorem Sound.first (h : Sound L c t a b) (m : Span Item) (a' : List (Span Item))
    (ha : a = m::a') : m ∈ t.live ∧ t.unread = m::(a'++b) ∧ m.start = t.read ∧
      m.body.id = c.got.length ∧ Stored L c.mem m := by
  have hu : t.unread = m::(a'++b) := by rw [h.split, ha, List.cons_append]
  obtain ⟨hm, hstart⟩ := t.first_unread m _ hu
  exact ⟨hm, hu, hstart, h.numbered.first m _ hu, h.stored m (by simp [ha])⟩

theorem byteOf_valid (msg : Message) : byteOf msg (msg.size.toNat+5) = 1 := by simp [byteOf]

theorem Sound.polled_iff (h : Sound L c t a b) (hL : 0 < L) :
    polled c.rcv c.mem ≠ 0 ↔ a ≠ [] := by
  have hrl : c.rcv.length.toNat = L := h.refines.receiver.length
  have hp : polled c.rcv c.mem = c.mem (place .down L t.read) := by
    have hlt : place .down L t.read < L := by
      simp only [place]
      omega
    simp only [polled, bytesAt, next_sub, hrl, h.readOff hL, load, List.range_one, List.map_cons,
      List.headD_cons, Nat.add_zero, Nat.add_mod_right, Nat.mod_eq_of_lt hlt]
  rw [hp]
  cases ha : a with
  | nil =>
    have hfr := h.frontier
    have ht := t.unread_tiles
    rw [h.split, ha, List.nil_append] at ht
    rw [headOf_tiles _ _ _ ht] at hfr
    simp [hfr]
  | cons m a' =>
    obtain ⟨hmem, -, hstart, -, hst⟩ := h.first m a' ha
    have hlen := (h.message m hmem).2
    have h0 := hst 0 (by omega)
    rw [Nat.add_zero, Nat.sub_zero, hstart, hlen, byteOf_valid] at h0
    simp [h0]

theorem InFlight.congr (h : InFlight L c b) (hr : c'.rcv.addr = c.rcv.addr)
    (hm : c'.mem = c.mem) (hw : c'.wire = c.wire) : InFlight L c' b := by
  unfold InFlight at *
  rw [hr, hm, hw]
  exact h

theorem Sound.parsed (h : Sound L c t a b) (m : Span Item) (a' : List (Span Item))
    (ha : a = m::a') :
    getU32 (bytesAt c.rcv c.mem (msgLenAddr c.rcv) 4) = UInt32.ofNat m.len := by
  obtain ⟨hmem, -, hstart, -, hst⟩ := h.first m a' ha
  have hlen := (h.message m hmem).2
  have hlt := Channel.span_len_lt t m hmem
  have hrl : c.rcv.length.toNat = L := h.refines.receiver.length
  have hoff := msgLenAddr_sub c.rcv (by omega)
  rw [hrl, h.readOff (by omega)] at hoff
  generalize hk : (msgLenAddr c.rcv-c.rcv.addr).toNat = k at hoff
  have hanch : (k+t.read+5)%L = 0 := by
    have hd := Nat.div_add_mod t.read L
    have hr := Nat.mod_lt t.read (show 0 < L by omega)
    simp only [place] at hoff
    rw [show k+t.read+5 = L*(t.read/L)+L+L by omega, Nat.add_mod_right, Nat.add_mod_right]
    exact Nat.mul_mod_right _ _
  have hload : load L c.mem k 4 = putU32 (UInt32.ofNat m.len) := by
    apply List.ext_getElem?
    intro i
    by_cases hi : i < 4
    · have hcell := mirror_cell L k t.read 5 i (by omega) hanch (by omega)
      have hb := hst (4-i) (by omega)
      rw [load_getElem L _ _ _ i hi, hcell, ← hstart]
      change some (c.mem (place .down L (m.start+(4-i)))) = _
      rw [hb, hlen, byteOf, if_neg (by omega), if_neg (by omega), if_pos (by omega)]
      rw [show m.body.msg.size.toNat+5-(4-i)-(m.body.msg.size.toNat+1) = i by omega]
      rw [List.getD_eq_getElem?_getD, List.getElem?_eq_getElem (by rw [putU32_length]; exact hi)]
      rfl
    · rw [List.getElem?_eq_none (by rw [load_length]; omega),
        List.getElem?_eq_none (by rw [putU32_length]; omega)]
  rw [bytesAt, hrl, hk, hload, getU32_putU32]

theorem Sound.poll (h : Sound L c t a b) (hL : 0 < L) (hs : step c .poll = some c') :
    Sound L c' t a b := by
  simp only [step] at hs
  split at hs
  · next hph =>
    split at hs
    · exact Option.some.inj hs ▸ h
    · next hne =>
      obtain rfl := Option.some.inj hs
      have hn := h.numbered
      simp only [heldIds, hph] at hn
      exact ⟨h.refines, h.split, hn, h.message, (h.polled_iff hL).mp hne, h.returned, h.tails,
        h.stored, h.frontier, h.inFlight⟩
  · cases hs

theorem Sound.receive (h : Sound L c t a b) (h2 : 2*L < 2^32)
    (hs : step c .receive = some c') : ∃ t' a', Sound L c' t' a' b := by
  simp only [step] at hs
  split at hs
  · next hph =>
    have hp := h.phase
    have hn := h.numbered
    simp only [Phased, hph] at hp
    simp only [heldIds, hph] at hn
    obtain ⟨m, a', ha⟩ := List.exists_cons_of_ne_nil hp
    obtain ⟨hmem, hu, hstart, hid, hst⟩ := h.first m a' ha
    obtain ⟨hsent, hlen⟩ := h.message m hmem
    have hlt := Channel.span_len_lt t m hmem
    have hword : (UInt32.ofNat m.len).toNat = m.len :=
      UInt32.toNat_ofNat_of_lt (by simp only [UInt32.size]; omega)
    simp only [WriteReverse.receive, h.parsed m a' ha, Option.some.injEq] at hs
    obtain ⟨hptr, hbase, hr⟩ := Channel.taken_link h2 h.refines m (a'++b) hu _ _ rfl
    have hsize : (UInt32.ofNat m.len-1-4).toNat = m.body.msg.size.toNat := by
      have h1 : (1 : UInt32).toNat = 1 := rfl
      have h4 : (4 : UInt32).toNat = 4 := rfl
      have hs1 : (UInt32.ofNat m.len-1).toNat = m.len-1 := by
        rw [sub_toNat _ _ (by rw [h1]; omega), hword, h1]
      rw [sub_toNat _ _ (by rw [h4]; omega), hs1, h4]
      omega
    subst hs
    refine ⟨t.take m (a'++b) hu, a', hr, rfl, ?_, ?_, ?_, ?_, ?_, ?_, h.frontier, ?_⟩
    · have ht := hn.take m (a'++b) hu
      simpa [heldIds] using ht
    · rw [Tape.take_live]
      exact h.message
    · refine ⟨by simp, ?_⟩
      intro n hn'
      have hh : t.held = [] := by simpa using hn.held
      obtain rfl : n = m := by simpa [Tape.take, hh] using hn'
      exact hptr
    · intro k reg hk
      rcases getElem?_concat_cases hk with hk | ⟨rfl, rfl⟩
      · exact h.returned k reg hk
      · exact ⟨m.body.msg, hid ▸ hsent, hsize⟩
    · have ht := h.tails
      rw [hu, List.map_cons, List.cons_append] at ht
      have hd := congrArg (List.drop 1) ht
      rw [List.drop_drop] at hd
      simpa [Tape.take] using hd
    · intro n hn'
      apply h.stored n
      simpa [Tape.take, ha] using hn'
    · exact h.inFlight.congr hbase rfl rfl
  · cases hs

theorem Sound.free (h : Sound L c t a b) (h2 : 2*L < 2^32)
    (hs : step c .free = some c') : ∃ t', Sound L c' t' a b := by
  simp only [step] at hs
  split at hs
  · next reg hph =>
    have hp := h.phase
    have hn := h.numbered
    simp only [Phased, hph] at hp
    simp only [heldIds, hph] at hn
    obtain ⟨m, hh, -⟩ := List.map_eq_singleton_iff.mp hn.held
    have haddr : reg.addr = (Channel.slotOf .down L c.rcv.addr m).addr := hp.2 m (by simp [hh])
    obtain ⟨hbase, hr⟩ := Channel.freed_link h2 h.refines 0 m (by simp [hh])
      (Or.inr (Or.inr (by simp [hh]))) _ _ rfl
    simp only [WriteReverse.free, haddr, Option.some.injEq] at hs
    subst hs
    refine ⟨t.release 0, hr, h.split, hn.release 0, ?_, trivial, h.returned, h.tails, ?_,
      h.frontier, h.inFlight.congr hbase rfl rfl⟩
    · exact fun n hn' => h.message n (t.mem_release 0 _ n hn')
    · exact fun n hn' => h.stored n (t.mem_release 0 _ n hn')
  · cases hs

end Receive

end KYM.ReverseDelivery
