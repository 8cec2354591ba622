import KnowYourMemory.BufferedReadHead

/-!
# One direction of buffered read

The ring of the sending end, the words and the local buffer of the receiving end, and the
stream that they carry. The unread messages split into those up to the tail that was read
and those beyond it; the former are in local memory as soon as the section is fetched.
-/

set_option autoImplicit false

namespace KYM.BufferedReadDelivery
open KYM.Run KYM.Circle KYM.RingBuffer KYM.RingOffsets KYM.BoundedStream KYM.MagicMemory
open KYM.BufferedReadPair KYM.BufferedReadHead
open KYM.BufferedRead (Counter prefixLen)

structure Sending where
  length : UInt32
  tail : UInt64
  ring : ℕ → UInt8
  sent : List (List UInt8)
  sentPos : ℕ
  tails : List ℕ

structure Receiving where
  bufAddr : UInt64
  length : UInt32
  readPtr : UInt64
  remoteTail : UInt64
  buf : ℕ → UInt8
  fetching : Bool
  got : List ReceiveRegion
  held : List (Span ℕ)
  readPos : ℕ
  tailPos : ℕ

def sending (c : Connection) : Sending :=
  ⟨c.snd.length, c.snd.tail, c.mem c.buffer, c.sent, c.sentPos, c.tails⟩

def receiving (c : Connection) : Receiving :=
  ⟨c.rcv.bufAddr, c.rcv.length, c.rcv.readPtr, c.rcv.remoteTail, c.mem c.remoteBuffer, c.fetching,
    c.got, c.held, c.readPos, c.tailPos⟩

def Receiving.copied (w : Receiving) : ℕ := if w.fetching then w.readPos else w.tailPos

def onRing (p : List UInt8) : List UInt8 := putU32 (UInt32.ofNat p.length)++p

def startOf (sent : List (List UInt8)) (k : ℕ) : ℕ :=
  ((sent.take k).map (fun p => p.length+4)).sum

def Stored (L : ℕ) (mem : ℕ → UInt8) (m : Span Item) : Prop :=
  load L mem m.start m.len = onRing m.body.payload

def addrAt (w : Receiving) (L start : ℕ) : UInt64 :=
  w.bufAddr+(UInt32.ofNat (start%L)).toUInt64

structure Sound (L : ℕ) (v : Sending) (w : Receiving) (t : Tape Item L)
    (x y : List (Span Item)) : Prop where
  sndLength : v.length.toNat = L
  rcvLength : w.length.toNat = L
  tail : Counter L v.tail t.tail
  sentPos : v.sentPos = t.tail
  readPtr : Counter L w.readPtr t.read
  readPos : w.readPos = t.read
  split : t.unread = x++y
  remoteTail : w.remoteTail = UInt64.ofNat (headOf y t.tail)
  tailPos : w.tailPos = headOf y t.tail
  tails : ∀ p ∈ v.tails, t.read ≤ p → ∃ x' y', t.unread = x'++y' ∧ headOf y' t.tail = p
  held : w.held = t.held.map (fun m => ⟨m.start, m.len, m.body.id⟩)
  numbered : t.Numbered Item.id v.sent.length w.got.length (w.held.map Span.body)
  message : ∀ m ∈ t.live, v.sent[m.body.id]? = some m.body.payload ∧
    m.len = m.body.payload.length+4 ∧ m.start = startOf v.sent m.body.id
  tailStart : t.tail = startOf v.sent v.sent.length
  region : ∀ m ∈ t.held, ∃ reg, w.got[m.body.id]? = some reg ∧
    reg.addr = addrAt w L m.start+prefixLen
  returned : ∀ (k : ℕ) (reg : ReceiveRegion), w.got[k]? = some reg →
    ∃ p : List UInt8, v.sent[k]? = some p ∧ reg.length.toNat = p.length
  ring : ∀ m ∈ t.unread, w.copied ≤ m.start → Stored L v.ring m
  copy : ∀ m ∈ t.live, m.stop ≤ w.copied → Stored L w.buf m

section Facts

variable {L : ℕ} {v : Sending} {w : Receiving} {t : Tape Item L} {x y : List (Span Item)}

theorem onRing_length (p : List UInt8) : (onRing p).length = p.length+4 := by
  simp only [onRing, List.length_append, putU32_length]
  omega

theorem frame_short (p : List UInt8) (h : p.length < 2^32) : frame p = onRing p := by
  have hn : (UInt32.ofNat p.length).toNat = p.length :=
    UInt32.toNat_ofNat_of_lt (by simp only [UInt32.size]; omega)
  rw [frame, onRing, hn, List.take_of_length_le (le_refl _)]

theorem startOf_concat (sent : List (List UInt8)) (p : List UInt8) (k : ℕ) (h : k ≤ sent.length) :
    startOf (sent++[p]) k = startOf sent k := by
  rw [startOf, startOf, List.take_append_of_le_length h]

theorem startOf_all (sent : List (List UInt8)) (p : List UInt8) :
    startOf (sent++[p]) (sent.length+1) = startOf sent sent.length+(p.length+4) := by
  simp [startOf]

theorem startOf_succ (sent : List (List UInt8)) (p : List UInt8) (k : ℕ) (h : sent[k]? = some p) :
    startOf sent (k+1) = startOf sent k+(p.length+4) := by
  simp [startOf, List.take_add_one, h]

theorem startOf_le (sent : List (List UInt8)) (j k : ℕ) (h : j ≤ k) :
    startOf sent j ≤ startOf sent k := by
  induction k, h using Nat.le_induction with
  | base => exact le_refl _
  | succ k _ ih =>
    cases hk : sent[k]? with
    | none => simpa [startOf, List.take_add_one, hk] using ih
    | some p => exact ih.trans (Nat.le.intro (startOf_succ sent p k hk).symm)

theorem Sound.boundary (h : Sound L v w t x y) :
    Tiles t.read x (headOf y t.tail) ∧ Tiles (headOf y t.tail) y t.tail := by
  have ht := t.unread_tiles
  rw [h.split] at ht
  obtain ⟨b, hx, hy⟩ := (tiles_append _ _ _ _).mp ht
  rw [headOf_tiles _ _ _ hy]
  exact ⟨hx, hy⟩

theorem Sound.length_lt (h : Sound L v w t x y) : L < 2^32 := by
  rw [← h.sndLength]
  exact v.length.toNat_lt

theorem Sound.window (_ : Sound L v w t x y) : t.tail ≤ t.head+L ∧ t.head ≤ t.read ∧
    t.read ≤ t.tail := ⟨t.window, t.head_le_read, t.read_le_tail⟩

theorem Sound.word_eq (h : Sound L v w t x y) (p : ℕ) (h1 : t.read ≤ p) (h2 : p ≤ t.tail) :
    UInt64.ofNat p = w.readPtr ↔ p = t.read := by
  have hw := h.readPtr.word
  have hwin := h.window
  have hL := h.length_lt
  rw [← UInt64.toNat_inj, UInt64.toNat_ofNat', hw]
  constructor
  · intro he
    exact (residue_inj (2^64) t.read p h1 (by omega) he.symm).symm
  · rintro rfl
    rfl

theorem Sound.le_boundary (h : Sound L v w t x y) :
    t.read ≤ headOf y t.tail ∧ headOf y t.tail ≤ t.tail :=
  ⟨tiles_le _ _ _ h.boundary.1, tiles_le _ _ _ h.boundary.2⟩

theorem Sound.announced (h : Sound L v w t x y) :
    w.remoteTail = w.readPtr ↔ x = [] := by
  obtain ⟨h1, h2⟩ := h.le_boundary
  rw [h.remoteTail, h.word_eq _ h1 h2]
  have hx := h.boundary.1
  cases hc : x with
  | nil =>
    rw [hc] at hx
    exact ⟨fun _ => rfl, fun _ => Eq.symm hx⟩
  | cons m ms =>
    rw [hc] at hx
    have := tiles_le _ _ _ hx.2.2
    have := hx.1
    have := hx.2.1
    unfold Span.stop at *
    constructor
    · intro he
      omega
    · intro he
      cases he

theorem headOf_map (held : List (Span Item)) (read : ℕ) :
    headOf (held.map (fun m => (⟨m.start, m.len, m.body.id⟩ : Span ℕ))) read =
      headOf held read := by
  cases held <;> rfl

theorem Sound.head (h : Sound L v w t x y) : headOf w.held w.readPos = t.head := by
  rw [h.held, headOf_map, h.readPos]
  rfl

theorem Sound.live_pos (h : Sound L v w t x y) (m : Span Item) (hm : m ∈ t.live) :
    t.head ≤ m.start ∧ 0 < m.len ∧ m.stop ≤ t.tail ∧ m.len ≤ L ∧
      (onRing m.body.payload).length = m.len := by
  have hlive := t.live_mem m hm
  have hw := t.window
  have hmsg := (h.message m hm).2.1
  refine ⟨hlive.1, hlive.2.1, hlive.2.2, ?_, by rw [onRing_length, hmsg]⟩
  unfold Span.stop at hlive
  unfold Tape.head at hlive
  omega

def Sending.push (v : Sending) (p : List UInt8) : Sending where
  length := v.length
  tail := v.tail+((UInt32.ofNat p.length).toUInt64+prefixLen)
  ring := store v.length.toNat v.ring (v.tail%v.length.toUInt64).toUInt32.toNat (frame p)
  sent := v.sent++[p]
  sentPos := v.sentPos+(frame p).length
  tails := (v.sentPos+(frame p).length)::v.tails

/-- A message that ends within one ring length of the oldest unfreed byte, and a
counter whose wrap goes unnoticed. -/
def Fits (v : Sending) (w : Receiving) (p : List UInt8) : Prop :=
  v.sentPos+(p.length+4) ≤ headOf w.held w.readPos+v.length.toNat ∧
    (v.length.toNat ∣ 2^64 ∨ v.sentPos+(p.length+4) < 2^64)

instance (v : Sending) (w : Receiving) (p : List UInt8) : Decidable (Fits v w p) :=
  inferInstanceAs (Decidable (_ ∧ _))

theorem Sound.tailOff (h : Sound L v w t x y) (hL : 0 < L) :
    (v.tail%v.length.toUInt64).toUInt32.toNat = t.tail%L := by
  rw [residue_toNat v.tail v.length (by rw [h.sndLength]; exact hL), h.sndLength, h.tail.residue]

theorem Sound.readOff (h : Sound L v w t x y) (hL : 0 < L) :
    (w.readPtr%w.length.toUInt64).toUInt32.toNat = t.read%L := by
  rw [residue_toNat w.readPtr w.length (by rw [h.rcvLength]; exact hL), h.rcvLength,
    h.readPtr.residue]

end Facts

end KYM.BufferedReadDelivery
