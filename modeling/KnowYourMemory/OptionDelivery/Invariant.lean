import KnowYourMemory.MessageLayout

/-!
# The log of a session

The messages sent are split into those freed, the one held, those that have been announced,
one whose data is ahead of its announcement, and those in flight. Their bytes form one log,
and every offset that either side stores marks a position of that log.
-/

set_option autoImplicit false

namespace KYM.OptionDelivery
open KYM.Run KYM.Circle KYM.RingBuffer KYM.RingOffsets KYM.RingPositions KYM.MagicMemory KYM.RingLog
open KYM.WriteConnection (Sender Acknowledger WriteOpts senderOf bufferOf writeBufSize written
  kAllocatorDumb kAcknowledgerSend kAcknowledgerRead kSenderWrite kSenderWriteImm
  kSenderWriteReverse kBufferMagic kBufferReverse)
open KYM.WriteSenders KYM.WriteSetup KYM.MessageLayout
open KYM.SendAcknowledge (WriteReceiver)
open KYM.WriteSender (Op bytesAt storeAt)
open KYM.WriteChecksum (crc32)

section Invariant

variable (crc : List UInt8 → UInt32) (k : Sender) (d : Direction) (L : ℕ)

def Heads : ℕ → List UInt32 → ℕ → Prop
  | q, [], hi => q ≤ hi
  | q, o::os, hi => ∃ p, q ≤ p ∧ Marks d L o.toNat p ∧ Heads p os hi

def Posted (base : UInt64) : ℕ → List (List UInt8) → List Op → Prop
  | _, [], w => w = []
  | p, m::ms, w => ∃ (o : UInt32) (w' : List Op),
      Anchored d L o.toNat p (lead k++frame crc k m).length ∧
      w = dataOf crc k m (base+o.toUInt64)::(announcement k L (p+claimed k m)++w') ∧
      Posted base (p+claimed k m) ms w'

/-- What is in flight behind position `p`: whole messages, or first of all the
announcement of a message whose data has arrived. -/
def InFlight (base : UInt64) (p : ℕ) (x b : List (List UInt8)) (w : List Op) : Prop :=
  match x with
  | [] => Posted crc k d L base p b w
  | _::_ => ∃ w', k = .offset ∧ w = announcement k L p++w' ∧ Posted crc k d L base p b w'

/-- What tells the receiver how far it may read: position `p` is that of the next
message that is not announced, and `lo` that of the oldest one that is not freed. -/
def Ready (m : Remote) (a : List (List UInt8)) (lo p : ℕ) : Prop :=
  match k with
  | .write => ∀ q, p ≤ q → q < lo+L → m.mem (place d L q) = 0
  | .offset => m.tail.toNat = p%L
  | .imm => m.imms = a.map (fun p => UInt32.ofNat p.length)
  | .reverse => m.mem (place d L p) = 0

def Holding (c : Session) (lo : ℕ) (h : List (List UInt8)) : Prop :=
  match c.held with
  | none => h = [] ∧ c.receiver.rbuf.outstanding = []
  | some reg => ∃ (m : List UInt8) (o : UInt32), h = [m] ∧ c.receiver.rbuf.outstanding = [o] ∧
      Anchored d L o.toNat lo (claimed k m) ∧
      reg.addr = c.receiver.rbuf.addr+o.toUInt64+k.header ∧ reg.length.toNat = m.length

/-- How far the heads in flight go: to the oldest byte that is not freed, or once around
the ring where one message fills it. -/
def Reach (sent f : List (List UInt8)) (hi : ℕ) : Prop :=
  hi = pos k f ∨ hi = pos k sent ∧ pos k sent = pos k f+L ∧ (k = .write ∨ k = .imm) ∧
    ∃ m ∈ sent.drop f.length, claimed k m = L

structure Sound (ack : Acknowledger) (c : Session) (f h a x b : List (List UInt8)) : Prop where
  sent : c.sent = f++(h++(a++(x++b)))
  got : c.got = f++h
  sender : ∃ q hi, Tracks d L c.snd q (pos k c.sent) ∧ Heads d L q c.acks hi ∧
    Reach k L c.sent f hi
  acks : ack = .read → c.acks = []
  base : c.snd.addr = c.receiver.rbuf.addr
  reads : ReadsAt d L c.receiver.rbuf (pos k c.got)
  length : c.receiver.length.toNat = L
  curr : Marks d L c.receiver.currOffset.toNat (pos k f)
  holding : Holding k d L c (pos k f) h
  spells : Spells d L c.remote.mem (log crc k d c.sent) (pos k f) (pos k (f++(h++(a++x))))
  ready : Ready k d L c.remote a (pos k f) (pos k (f++(h++a)))
  inFlight : InFlight crc k d L c.receiver.rbuf.addr (pos k (f++(h++(a++x)))) x b c.wire

end Invariant

section Facts

variable {crc : List UInt8 → UInt32} {k : Sender} {d : Direction} {L : ℕ} {ack : Acknowledger}
  {c : Session} {f h a x b : List (List UInt8)}

theorem Heads.le {q hi : ℕ} {os : List UInt32} (hh : Heads d L q os hi) : q ≤ hi := by
  induction os generalizing q with
  | nil => exact hh
  | cons o os ih =>
    obtain ⟨p, hp, -, hrest⟩ := hh
    exact hp.trans (ih hrest)

theorem Heads.lower {q q' hi : ℕ} {os : List UInt32} (hh : Heads d L q os hi) (hq : q' ≤ q) :
    Heads d L q' os hi := by
  cases os with
  | nil => exact hq.trans hh
  | cons o os =>
    obtain ⟨p, hp, hrest⟩ := hh
    exact ⟨p, hq.trans hp, hrest⟩

theorem Heads.raise {q hi hi' : ℕ} {os : List UInt32} (hh : Heads d L q os hi) (hle : hi ≤ hi') :
    Heads d L q os hi' := by
  induction os generalizing q with
  | nil => exact hh.trans hle
  | cons o os ih =>
    obtain ⟨p, hp, hm, hrest⟩ := hh
    exact ⟨p, hp, hm, ih hrest⟩

theorem Heads.drop {q hi : ℕ} {os : List UInt32} (hh : Heads d L q os hi) (n : ℕ) :
    Heads d L q (os.drop n) hi := by
  induction n generalizing q os with
  | zero => exact hh
  | succ n ih =>
    cases os with
    | nil => exact hh
    | cons o os =>
      obtain ⟨p, hp, -, hrest⟩ := hh
      exact (ih hrest).lower hp

theorem Heads.concat {q hi : ℕ} {os : List UInt32} (hh : Heads d L q os hi) (o : UInt32)
    (ho : Marks d L o.toNat hi) : Heads d L q (os++[o]) hi := by
  induction os generalizing q with
  | nil => exact ⟨hi, hh, ho, le_refl _⟩
  | cons o' os ih =>
    obtain ⟨p, hp, hm, hrest⟩ := hh
    exact ⟨p, hp, hm, ih hrest⟩

theorem Heads.turn {q hi : ℕ} {os : List UInt32} (hh : Heads d L q os hi) :
    Heads d L (q+L) os (hi+L) := by
  induction os generalizing q with
  | nil => exact Nat.add_le_add_right hh L
  | cons o os ih =>
    obtain ⟨p, hp, hm, hrest⟩ := hh
    exact ⟨p+L, Nat.add_le_add_right hp L, (marks_turn d L _ p).mpr hm, ih hrest⟩

theorem Reach.le {sent ms : List (List UInt8)} {hi : ℕ} (hr : Reach k L sent f hi)
    (hs : sent = f++ms) : pos k f ≤ hi ∧ hi ≤ pos k sent := by
  have hpos := pos_append k f ms
  rw [← hs] at hpos
  rcases hr with rfl | ⟨rfl, -⟩ <;> omega

theorem Reach.marks {sent : List (List UInt8)} {o hi : ℕ} (hr : Reach k L sent f hi)
    (ho : Marks d L o (pos k f)) : Marks d L o hi := by
  rcases hr with rfl | ⟨rfl, he, -⟩
  · exact ho
  · rw [he, marks_turn]
    exact ho

theorem Reach.free {m : List UInt8} {sent ms : List (List UInt8)} {hi : ℕ}
    (hr : Reach k L sent f hi) (hs : sent = f++m::ms) :
    ∃ hi', hi ≤ hi' ∧ Reach k L sent (f++[m]) hi' := by
  have hpos : pos k (f++[m]) = pos k f+claimed k m := by rw [pos_append, pos_singleton]
  have hsent : pos k sent = pos k f+(claimed k m+pos k ms) := by
    rw [hs, pos_append, pos_cons]
  rcases hr with rfl | ⟨rfl, he, hk, n, hn, hc⟩
  · exact ⟨_, by omega, Or.inl rfl⟩
  by_cases hm : claimed k m = L
  · exact ⟨pos k sent, le_refl _, Or.inl (by omega)⟩
  rw [hs, List.drop_left] at hn
  rcases List.mem_cons.mp hn with rfl | hn
  · exact absurd hc hm
  have hdrop : sent.drop (f++[m]).length = ms := by
    rw [hs, show f++m::ms = (f++[m])++ms by simp, List.drop_left]
  obtain ⟨u, v, rfl⟩ := List.append_of_mem hn
  rw [pos_append, pos_cons] at hsent
  exact ⟨_, le_refl _, Or.inr ⟨rfl, by omega, hk, n, hdrop ▸ hn, hc⟩⟩

theorem Posted.concat {base : UInt64} {p : ℕ} {ms : List (List UInt8)} {w : List Op}
    (hp : Posted crc k d L base p ms w) (m : List UInt8) (o : UInt32)
    (ho : Anchored d L o.toNat (p+pos k ms) (lead k++frame crc k m).length) :
    Posted crc k d L base p (ms++[m]) (w++dataOf crc k m (base+o.toUInt64)::
      announcement k L (p+pos k ms+claimed k m)) := by
  induction ms generalizing p w with
  | nil =>
    obtain rfl : w = [] := hp
    exact ⟨o, [], ho, by simp [pos], rfl⟩
  | cons n ms ih =>
    obtain ⟨o', w', ho', rfl, hrest⟩ := hp
    have hpos : p+pos k (n::ms) = p+claimed k n+pos k ms := by simp [pos, Nat.add_assoc]
    rw [hpos] at ho ⊢
    exact ⟨o', _, ho', by simp, ih hrest ho⟩

/-- Everything that is not freed lies within one length of the ring, with what is written
along. -/
theorem Sound.window (hS : Sound crc k d L ack c f h a x b) :
    pos k c.sent+k.slack.toNat ≤ pos k f+L ∧ (k = .offset → pos k c.sent < pos k f+L) := by
  obtain ⟨q, hi, ht, hh, rfl | ⟨-, he, hk, -⟩⟩ := hS.sender
  · have hroom := ht.room
    have hle := hh.le
    have hslack := (slack_le k).1
    omega
  · rcases hk with rfl | rfl
    · exact ⟨he.le, fun hk => by cases hk⟩
    · exact ⟨he.le, fun hk => by cases hk⟩

theorem Sound.pos_sent (hS : Sound crc k d L ack c f h a x b) : pos k c.sent =
    pos k f+(pos k h+(pos k a+(pos k x+pos k b))) := by
  simp only [hS.sent, pos_append]

theorem Sound.freed (hS : Sound crc k d L ack c f h a x b) :
    c.got.length-c.held.toList.length = f.length := by
  have hhold := hS.holding
  rw [hS.got, List.length_append]
  unfold Holding at hhold
  cases hheld : c.held with
  | none =>
    rw [hheld] at hhold
    rw [hhold.1]
    rfl
  | some reg =>
    rw [hheld] at hhold
    obtain ⟨m, o, rfl, -⟩ := hhold
    exact Nat.add_sub_cancel _ _

theorem Sound.unfreed_pos (hS : Sound crc k d L ack c f h a x b) :
    pos k c.sent = pos k f+unfreed k c := by
  rw [WriteSetup.unfreed, hS.freed, hS.sent, List.drop_left, pos_append]
  rfl

end Facts

end KYM.OptionDelivery
