import KnowYourMemory.MagicMemory
import KnowYourMemory.WriteAtomic

/-!
# Setup of a shared ring

`Accept` and `Dial` exchange a `connectionInfo` in the private data of the
connection request and build the sender's view of the peer's ring from it. All
fields travel unchanged, but the constructor of the connection takes the address of
the metadata as a 32-bit number.
-/

set_option autoImplicit false

namespace KYM.WriteAtomicSetup
open KYM.MagicMemory KYM.WriteAtomic

structure ConnectionInfo where
  bufAddr : UInt64
  bufKey : UInt32
  bufSize : UInt32
  metaAddr : UInt64
  metaKey : UInt32
  deriving DecidableEq, Repr

/-- What an instance has registered: its ring, and `head` and `tail` in host memory
or in zero-based device memory. -/
structure Registered where
  bufAddr : UInt64
  bufLkey : UInt32
  bufSize : UInt32
  useDm : Bool
  bufMeta : UInt64
  metaLkey : UInt32
  deriving DecidableEq, Repr

def Registered.localCi (inst : Registered) : ConnectionInfo where
  bufAddr := inst.bufAddr
  bufKey := inst.bufLkey
  bufSize := inst.bufSize
  metaAddr := if inst.useDm then 0 else inst.bufMeta
  metaKey := inst.metaLkey

def ConnectionInfo.bytes (ci : ConnectionInfo) : List UInt8 :=
  putU64 ci.bufAddr++putU32 ci.bufKey++putU32 ci.bufSize++putU64 ci.metaAddr++putU32 ci.metaKey

def ConnectionInfo.parse (bs : List UInt8) : ConnectionInfo where
  bufAddr := getU64 (bs.take 8)
  bufKey := getU32 ((bs.drop 8).take 4)
  bufSize := getU32 ((bs.drop 12).take 4)
  metaAddr := getU64 ((bs.drop 16).take 8)
  metaKey := getU32 ((bs.drop 24).take 4)

structure Peer where
  conn : Connection
  rbufRkey : UInt32
  rbufMetaVaddr : UInt64
  rbufMetaRkey : UInt32
  deriving DecidableEq, Repr

/-- The constructor; the address of the metadata is a `uint32_t` here. -/
def newPeer (rbufVaddr : UInt64) (rbufRkey rbufSize rbufMetaVaddr rbufMetaRkey : UInt32) : Peer where
  conn := newConnection rbufVaddr rbufSize
  rbufRkey := rbufRkey
  rbufMetaVaddr := rbufMetaVaddr.toUInt64
  rbufMetaRkey := rbufMetaRkey

def connect (data : List UInt8) : Peer :=
  let remoteCi := ConnectionInfo.parse data
  newPeer remoteCi.bufAddr remoteCi.bufKey remoteCi.bufSize remoteCi.metaAddr.toUInt32
    remoteCi.metaKey

def Registered.accept (inst : Registered) (data : List UInt8) : List UInt8 × Peer :=
  (inst.localCi.bytes, connect data)

def Registered.dial (inst : Registered) (data : List UInt8) : List UInt8 × Peer :=
  (inst.localCi.bytes, connect data)

/-- Remote address and key of the three kinds of requests of `SendAsync`; `head` and
`tail` are the first two words of the metadata. -/
def Peer.fetchAndAdd (c : Peer) : UInt64 × UInt32 := (c.rbufMetaVaddr+8, c.rbufMetaRkey)

def Peer.headRead (c : Peer) : UInt64 × UInt32 := (c.rbufMetaVaddr, c.rbufMetaRkey)

def Peer.dataWrite (c : Peer) (tail : UInt64) : UInt64 × UInt32 :=
  (({ c.conn with tail := tail } : Connection).post.1, c.rbufRkey)

def Registered.headField (inst : Registered) : UInt64 := if inst.useDm then 0 else inst.bufMeta

def Registered.tailField (inst : Registered) : UInt64 := inst.headField+8

/-- The requests of a connection go to the fields and the ring of the instance. -/
structure Directed (inst : Registered) (c : Peer) : Prop where
  fetchAndAdd : c.fetchAndAdd = (inst.tailField, inst.metaLkey)
  headRead : c.headRead = (inst.headField, inst.metaLkey)
  dataWrite : ∀ offset, c.dataWrite offset =
    (inst.bufAddr+offset%inst.bufSize.toUInt64, inst.bufLkey)

/-- The metadata can be named in 32 bits. -/
def Registered.NamesMeta (inst : Registered) : Prop :=
  inst.useDm = true ∨ inst.bufMeta.toNat < 2^32

theorem field_at (pre x post : List UInt8) (i n : ℕ) (hi : pre.length = i) (hn : x.length = n) :
    ((pre++x++post).drop i).take n = x := by
  subst hi hn
  rw [List.append_assoc, List.drop_left, List.take_left]

theorem parse_bytes (ci : ConnectionInfo) (padding : List UInt8) :
    ConnectionInfo.parse (ci.bytes++padding) = ci := by
  obtain ⟨a, k, n, m, l⟩ := ci
  have h0 := field_at [] (putU64 a) (putU32 k++putU32 n++putU64 m++putU32 l++padding) 0 8 rfl
    (putU64_length a)
  have h1 := field_at (putU64 a) (putU32 k) (putU32 n++putU64 m++putU32 l++padding) 8 4
    (putU64_length a) (putU32_length k)
  have h2 := field_at (putU64 a++putU32 k) (putU32 n) (putU64 m++putU32 l++padding) 12 4
    (by simp [putU64_length, putU32_length]) (putU32_length n)
  have h3 := field_at (putU64 a++putU32 k++putU32 n) (putU64 m) (putU32 l++padding) 16 8
    (by simp [putU64_length, putU32_length]) (putU64_length m)
  have h4 := field_at (putU64 a++putU32 k++putU32 n++putU64 m) (putU32 l) padding 24 4
    (by simp [putU64_length, putU32_length]) (putU32_length l)
  simp only [List.nil_append, List.append_assoc, List.drop_zero] at h0 h1 h2 h3 h4
  simp only [ConnectionInfo.parse, ConnectionInfo.bytes, List.append_assoc, h0, h1, h2, h3, h4,
    getU64_putU64, getU32_putU32]

theorem narrowed_eq (a : UInt64) : a.toUInt32.toUInt64 = a ↔ a.toNat < 2^32 := by
  rw [← UInt64.toNat_inj, UInt32.toNat_toUInt64, UInt64.toNat_toUInt32]
  constructor
  · intro h
    rw [← h]
    exact Nat.mod_lt _ (by decide)
  · exact Nat.mod_eq_of_lt

theorem headField_lt (inst : Registered) : inst.headField.toNat < 2^32 ↔ inst.NamesMeta := by
  unfold Registered.headField Registered.NamesMeta
  cases inst.useDm <;> simp

theorem connect_directed (inst : Registered) (padding : List UInt8) :
    Directed inst (connect (inst.localCi.bytes++padding)) ↔ inst.NamesMeta := by
  have hc : connect (inst.localCi.bytes++padding) = newPeer inst.bufAddr inst.bufLkey
      inst.bufSize inst.headField.toUInt32 inst.metaLkey := by
    rw [connect, parse_bytes]
    rfl
  rw [hc, ← headField_lt, ← narrowed_eq]
  constructor
  · intro h
    exact congrArg Prod.fst h.headRead
  · intro h
    exact ⟨by rw [Peer.fetchAndAdd, newPeer, h]; rfl, by rw [Peer.headRead, newPeer, h],
      fun _ => rfl⟩

/-- The two sides of a handshake, each with the padding its private data arrives
with: a connection addresses the instance that it was set up with exactly when that
instance keeps its metadata in device memory or below 4 GiB. -/
theorem handshake_directed (listening dialing : Registered) (padding padding' : List UInt8) :
    (Directed dialing (listening.accept ((dialing.dial []).1++padding)).2 ↔ dialing.NamesMeta) ∧
    (Directed listening (dialing.dial ((listening.accept []).1++padding')).2 ↔
      listening.NamesMeta) :=
  ⟨connect_directed dialing padding, connect_directed listening padding'⟩

/-- Metadata on an ordinary heap: the dialing side loses the upper half of its address. -/
theorem heap_meta_lost :
    let listening : Registered := ⟨0x7f0000000000, 7, 4096, false, 0x55d0c0de2040, 8⟩
    let dialing : Registered := ⟨0x7f1000000000, 9, 4096, false, 0x5640facade10, 10⟩
    ¬ Directed listening (dialing.dial (listening.accept []).1).2 ∧
      (dialing.dial (listening.accept []).1).2.headRead = (0xc0de2040, 8) := by
  refine ⟨fun h => ?_, by decide +kernel⟩
  exact absurd h.headRead (by decide +kernel)

end KYM.WriteAtomicSetup
