import KnowYourMemory.IntervalMap
import KnowYourMemory.RingBuffer

/-!
# The shared ring of write_atomic

One instance owns the ring and the head; any number of connections reserve space
by a fetch-and-add on the tail, wait until a head they have read leaves room, and
write with an immediate that carries the offset in the ring. Global offsets are
64-bit stream positions, local offsets 32-bit positions in the ring.
-/

set_option autoImplicit false

namespace KYM.WriteAtomic
open KYM.RingBuffer KYM.IntervalMap

instance linearOrderUInt64 : LinearOrder UInt64 where
  le_refl := UInt64.le_refl
  le_trans _ _ _ := UInt64.le_trans
  lt_iff_le_not_ge a b := by
    simp only [UInt64.lt_iff_toNat_lt, UInt64.le_iff_toNat_le]
    omega
  le_antisymm _ _ := UInt64.le_antisymm
  le_total := UInt64.le_total
  toDecidableLE := inferInstance
  toDecidableEq := inferInstance
  toDecidableLT := inferInstance

/-- The fields of `WriteAtomicInstance` that `Receive` and `Free` use. The copy of
the head in device memory is what senders read when `useDm` is set. -/
structure Instance where
  bufAddr : UInt64
  bufSize : UInt32
  head : UInt64
  freedRegions : Regions UInt64
  useDm : Bool
  ackedHead : UInt64
  dmHead : UInt64

def newInstance (bufAddr : UInt64) (bufSize : UInt32) (useDm : Bool) : Instance where
  bufAddr := bufAddr
  bufSize := bufSize
  head := 0
  freedRegions := ∅
  useDm := useDm
  ackedHead := 0
  dmHead := 0

/-- The offset that `Receive` computes from the immediate value. Both local offsets
are signed 32-bit numbers; adding the local offset sign-extends it. -/
def Instance.globalOffset (inst : Instance) (imm : UInt32) : UInt64 :=
  let localOff : Int32 := imm.toInt32
  let localHead : Int32 := (inst.head%inst.bufSize.toUInt64).toUInt32.toInt32
  if localHead ≤ localOff then
    inst.head/inst.bufSize.toUInt64*inst.bufSize.toUInt64+localOff.toInt64.toUInt64
  else
    (inst.head/inst.bufSize.toUInt64+1)*inst.bufSize.toUInt64+localOff.toInt64.toUInt64

def Instance.receive (inst : Instance) (imm byteLen : UInt32) : ReceiveRegion where
  context := inst.globalOffset imm
  addr := inst.bufAddr+imm.toInt32.toInt64.toUInt64
  length := byteLen

def Instance.setHead (inst : Instance) (head : UInt64) : Instance :=
  { inst with
    head := head
    dmHead := if inst.useDm ∧ inst.ackedHead+10*1024 < head then head else inst.dmHead }

/-- `none` stands for a merge loop that does not end: every round deletes an entry,
so one round more than there are entries is enough for a loop that does. -/
def Instance.free (inst : Instance) (reg : ReceiveRegion) : Option Instance :=
  let globalStart := reg.context
  let globalEnd := globalStart+reg.length.toUInt64
  match absorb (inst.freedRegions.keys.length+1) inst.freedRegions globalEnd with
  | none => none
  | some (freed, globalEnd) =>
    if globalStart = inst.head then
      some ({ inst with freedRegions := freed }.setHead globalEnd)
    else
      some { inst with freedRegions := freed.insert globalStart globalEnd }

theorem free_add (inst : Instance) (reg : ReceiveRegion) (head : UInt64) (m : Regions UInt64)
    (h : add (inst.freedRegions.keys.length+1) inst.head inst.freedRegions reg.context
      (reg.context+reg.length.toUInt64) = some (head, m)) :
    ∃ inst', inst.free reg = some inst' ∧ inst'.head = head ∧ inst'.freedRegions = m ∧
      inst'.bufSize = inst.bufSize ∧ inst'.bufAddr = inst.bufAddr := by
  simp only [add] at h
  simp only [Instance.free]
  split at h
  · cases h
  · next m' e' he =>
    rw [he]
    split at h <;> next hc =>
      obtain ⟨rfl, rfl⟩ := Prod.mk.inj (Option.some.inj h)
      simp only [hc, if_true, if_false]
      exact ⟨_, rfl, rfl, rfl, rfl, rfl⟩

theorem free_exact (inst : Instance) (reg : ReceiveRegion) (F B : UInt64 → Prop)
    (h : Exact inst.head inst.freedRegions F B) (h0 : 0 < reg.length.toNat)
    (hw : reg.context.toNat+reg.length.toNat < 2^64) (hs : B reg.context)
    (he : B (reg.context+reg.length.toUInt64))
    (hfresh : ∀ p, reg.context ≤ p → p < reg.context+reg.length.toUInt64 → ¬ F p) :
    ∃ inst', inst.free reg = some inst' ∧ inst.head ≤ inst'.head ∧
      inst'.bufSize = inst.bufSize ∧ inst'.bufAddr = inst.bufAddr ∧
      Exact inst'.head inst'.freedRegions
        (fun p => F p ∨ (reg.context ≤ p ∧ p < reg.context+reg.length.toUInt64)) B := by
  have hlt : reg.context < reg.context+reg.length.toUInt64 := by
    rw [UInt64.lt_iff_toNat_lt, UInt64.toNat_add, UInt32.toNat_toUInt64, Nat.mod_eq_of_lt hw]
    omega
  obtain ⟨head, m, ha, hle, hex⟩ := add_exact (inst.freedRegions.keys.length+1) inst.head
    inst.freedRegions F B _ _ h hlt hs he hfresh (Nat.lt_succ_self _)
  obtain ⟨inst', hf, rfl, rfl, hsz, had⟩ := free_add inst reg head m ha
  exact ⟨inst', hf, hle, hsz, had, hex⟩

/-- A connection: what it last read of the head and fetched of the tail, and the
length of the message it has reserved space for. -/
structure Connection where
  rbufVaddr : UInt64
  rbufSize : UInt32
  head : UInt64
  tail : UInt64
  pending : Option UInt32
  deriving DecidableEq, Repr

def newConnection (rbufVaddr : UInt64) (rbufSize : UInt32) : Connection where
  rbufVaddr := rbufVaddr
  rbufSize := rbufSize
  head := 0
  tail := 0
  pending := none

def messageTooLarge : Status := ⟨.invalidArgument, "message too large"⟩

def Connection.reserve (c : Connection) (remoteTail : UInt64) (length : UInt32) :
    StatusOr (Connection × UInt64) :=
  if length ≥ c.rbufSize then .error messageTooLarge
  else .ok ({ c with tail := remoteTail, pending := some length }, remoteTail+length.toUInt64)

def Connection.waits (c : Connection) (length : UInt32) : Prop :=
  c.head+c.rbufSize.toUInt64 ≤ c.tail+length.toUInt64

instance (c : Connection) (length : UInt32) : Decidable (c.waits length) :=
  inferInstanceAs (Decidable (_ ≤ _))

def Connection.localOff (c : Connection) : UInt64 := c.tail%c.rbufSize.toUInt64

def Connection.post (c : Connection) : UInt64 × UInt32 × Connection :=
  (c.rbufVaddr+c.localOff, c.localOff.toUInt32, { c with pending := none })

end KYM.WriteAtomic
