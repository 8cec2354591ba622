import KnowYourMemory.Mailbox
import KnowYourMemory.SharedSafety

/-!
# Writes into the shared ring

A write takes effect as a whole and completes at the receiver; the writes of one connection
do so in posting order, those of different connections in any order.
-/

set_option autoImplicit false

namespace KYM.SharedDelivery
open KYM.Run KYM.Circle KYM.MagicMemory KYM.RingOffsets KYM.WriteAtomic KYM.SharedWrite
open KYM.SharedSafety KYM.Mailbox
open KYM.RingBuffer (ReceiveRegion)

structure Write where
  number : ℕ
  conn : ℕ
  addr : UInt64
  imm : UInt32
  bytes : List UInt8
  deriving DecidableEq, Repr

structure Wc where
  number : ℕ
  conn : ℕ
  imm : UInt32
  byteLen : UInt32
  deriving DecidableEq, Repr

def Write.wc (w : Write) : Wc := ⟨w.number, w.conn, w.imm, UInt32.ofNat w.bytes.length⟩

structure Held where
  number : ℕ
  conn : ℕ
  reg : ReceiveRegion
  deriving DecidableEq, Repr

/-- The protocol with the content of the ring, the regions of the calls of `SendAsync`
that run, the writes that are posted, and what the receiver sees of those that are done. -/
structure System where
  shared : Shared
  ring : ℕ → UInt8
  sending : ℕ → List UInt8
  flight : List Write
  rcvCq : List Wc
  held : List Held

/-- `sendAsync` gets as far as the reservation, `post` ends the call; `land` is the write
with the given place among those that are posted. -/
inductive Event where
  | sendAsync (i : ℕ) (m : List UInt8)
  | readHead (i : ℕ) (head : UInt64)
  | post (i : ℕ)
  | land (k : ℕ)
  | receive
  | free (k : ℕ)
  deriving DecidableEq, Repr

def init (bufAddr : UInt64) (bufSize : UInt32) (useDm : Bool) (ring : ℕ → UInt8) : System :=
  ⟨SharedWrite.init bufAddr bufSize useDm, ring, fun _ => [], [], [], []⟩

/-- The length of a region has 32 bits. -/
def sendAsync (s : System) (i : ℕ) (m : List UInt8) : Option System :=
  if m.length < 2^32 then
    (reserve s.shared i (UInt32.ofNat m.length)).map (fun shared => { s with
      shared := shared
      sending := Function.update s.sending i m })
  else none

def System.write (s : System) (i : ℕ) : Write where
  number := s.shared.msgs.findIdx (fun m => m.progress = .reserved i)
  conn := i
  addr := (s.shared.conns i).post.1
  imm := (s.shared.conns i).post.2.1
  bytes := s.sending i

def post (s : System) (i : ℕ) : Option System :=
  (SharedWrite.post s.shared i).map (fun shared => { s with
    shared := shared
    flight := s.flight++[s.write i] })

def land (s : System) (k : ℕ) : Option System :=
  match s.flight[k]? with
  | none => none
  | some w =>
    if (s.flight.take k).all (fun v => v.conn ≠ w.conn) then
      some { s with
        ring := store s.shared.inst.bufSize.toNat s.ring (w.addr-s.shared.inst.bufAddr).toNat w.bytes
        flight := s.flight.eraseIdx k
        rcvCq := s.rcvCq++[w.wc] }
    else none

def receive (s : System) : Option System :=
  match s.rcvCq with
  | [] => none
  | wc::rest => (SharedWrite.receive s.shared wc.number).map (fun shared => { s with
      shared := shared
      rcvCq := rest
      held := s.held++[⟨wc.number, wc.conn, s.shared.inst.receive wc.imm wc.byteLen⟩] })

def free (s : System) (k : ℕ) : Option System := do
  let h ← s.held[k]?
  let inst ← s.shared.inst.free h.reg
  let shared ← SharedWrite.free s.shared h.number
  some { s with shared := { shared with inst := inst }, held := s.held.eraseIdx k }

def step (s : System) : Event → Option System
  | .sendAsync i m => sendAsync s i m
  | .readHead i head => (SharedWrite.readHead s.shared i head).map (fun shared =>
      { s with shared := shared })
  | .post i => post s i
  | .land k => land s k
  | .receive => receive s
  | .free k => free s k

def calls (s : System) : Event → List (Call ℕ (List UInt8))
  | .sendAsync i m => [.send i m]
  | .receive => (s.rcvCq.take 1).map (fun wc => .receive wc.conn)
  | .free k => [.free k]
  | .readHead .. | .post _ | .land _ => []

/-- Messages are not empty and the 64-bit tail does not wrap. -/
def Careful (s : System) : Event → Prop
  | .sendAsync _ m => 1 ≤ m.length ∧ s.shared.tail.toNat+m.length < 2^64
  | _ => True

instance (s : System) : ∀ e : Event, Decidable (Careful s e)
  | .sendAsync _ _ => inferInstanceAs (Decidable (_ ∧ _))
  | .readHead .. | .post _ | .land _ | .receive | .free _ => isTrue trivial

def regionPlace (bufAddr : UInt64) (reg : ReceiveRegion) : ℕ × ℕ :=
  ((reg.addr-bufAddr).toNat, reg.length.toNat)

def System.carried (s : System) (i : ℕ) : List (List UInt8) :=
  of i (s.flight.map (fun w => (w.conn, w.bytes)))++
    if (s.shared.conns i).pending = none then [] else [s.sending i]

def System.transport (bufAddr : UInt64) (s : System) :
    Transport (ℕ → UInt8) ℕ Unit (ℕ × ℕ) (List UInt8) where
  mem := s.ring
  carried := s.carried
  inbox _ := s.rcvCq.map (fun wc => (wc.conn, wc.imm.toNat, wc.byteLen.toNat))
  held := s.held.map (fun h => (h.conn, regionPlace bufAddr h.reg))

def System.numbers (s : System) : List ℕ :=
  s.flight.map Write.number++s.rcvCq.map Wc.number++s.held.map Held.number

def cellOf (bufSize : UInt32) (start : UInt64) : ℕ := start.toNat%bufSize.toNat

structure Sound (bufAddr : UInt64) (bufSize : UInt32) (s : System) : Prop where
  safe : Safe bufAddr bufSize s.shared
  distinct : s.numbers.Nodup
  sending : ∀ i len, (s.shared.conns i).pending = some len → (s.sending i).length = len.toNat
  flight : ∀ w ∈ s.flight, ∃ start len, s.shared.msgs[w.number]? = some ⟨start, len, .written w.imm⟩ ∧
    (w.addr-bufAddr).toNat = cellOf bufSize start ∧ w.bytes.length = len.toNat
  rcvCq : ∀ wc ∈ s.rcvCq, ∃ start,
    s.shared.msgs[wc.number]? = some ⟨start, wc.byteLen, .written wc.imm⟩
  held : ∀ h ∈ s.held, ∃ start, s.shared.msgs[h.number]? = some ⟨start, h.reg.length, .received h.reg⟩ ∧
    (h.reg.addr-bufAddr).toNat = cellOf bufSize start

section Places

variable {bufAddr : UInt64} {bufSize : UInt32} {s : Shared}

theorem cells_apart (h : Safe bufAddr bufSize s) (j k : ℕ) (m n : Message)
    (hj : s.msgs[j]? = some m) (hk : s.msgs[k]? = some n) (hne : j ≠ k)
    (hm : InWindow s m) (hn : InWindow s n) (hfm : m.progress ≠ .freed)
    (hfn : n.progress ≠ .freed) :
    Disjoint (cells bufSize.toNat (cellOf bufSize m.start) m.len.toNat)
      (cells bufSize.toNat (cellOf bufSize n.start) n.len.toNat) := by
  have hhm := head_le_start h m (List.mem_of_getElem? hj) hfm
  have hhn := head_le_start h n (List.mem_of_getElem? hk) hfn
  have hpos := ledger_pos h m (List.mem_of_getElem? hj)
  have hsep := h.tracked.separate j k _ _ (ledger_get s j m hj) (ledger_get s k n hk) hne
  simp only [InWindow, h.size, entry] at hm hn hsep
  have hS : 0 < bufSize.toNat := by omega
  have hanc : ∀ (x : UInt64) (l : ℕ), Anchored .up bufSize.toNat (cellOf bufSize x) x.toNat l :=
    fun x l => Nat.mod_mod _ _
  rcases hsep with hsep | hsep
  · exact cells_disjoint .up _ _ _ _ _ _ _ hS (hanc _ _) (hanc _ _) hsep (by omega)
  · exact (cells_disjoint .up _ _ _ _ _ _ _ hS (hanc _ _) (hanc _ _) hsep (by omega)).symm

theorem imm_cell (h : Safe bufAddr bufSize s) (k : ℕ) (start : UInt64) (len imm : UInt32)
    (hk : s.msgs[k]? = some ⟨start, len, .written imm⟩) :
    InWindow s ⟨start, len, .written imm⟩ ∧ imm.toNat = cellOf bufSize start ∧
      len.toNat ≤ bufSize.toNat := by
  have hmem := List.mem_of_getElem? hk
  have hhead := head_le_start h _ hmem (by simp)
  obtain ⟨hwin, himm⟩ := h.placed _ hmem
  simp only [InWindow, h.size] at hhead hwin himm ⊢
  have hpos := ledger_pos h _ hmem
  simp only at hpos
  refine ⟨hwin, ?_, by omega⟩
  rw [himm, residue_toNat _ _ (by omega)]
  rfl

theorem sub_toNat (a : UInt64) (x : UInt64) : (a+x-a).toNat = x.toNat := by
  rw [UInt64.add_comm, UInt64.add_sub_cancel]

theorem receive_cell (inst : Instance) (imm byteLen : UInt32) (h : imm.toNat < 2^31) :
    regionPlace inst.bufAddr (inst.receive imm byteLen) = (imm.toNat, byteLen.toNat) := by
  unfold regionPlace Instance.receive
  simp only [narrow_extend imm h, sub_toNat, UInt32.toNat_toUInt64]

end Places

end KYM.SharedDelivery
