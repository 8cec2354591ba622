import KnowYourMemory.DirectWrite
import KnowYourMemory.CyclicLog
import KnowYourMemory.BoundedStream
import KnowYourMemory.Run
import Mathlib.Data.List.Nodup
import Mathlib.Data.List.Perm.Basic

/-!
# The log of frees of Direct Write

The `k`-th free is the target of the `k`-th send and the buffer of the `k`-th receive. Every
buffer waits for its first free, or belongs to a free that is not received yet, or to a
receive that is not freed yet.
-/

set_option autoImplicit false

namespace KYM.DirectDelivery
open KYM.Run KYM.MagicMemory KYM.CyclicLog KYM.DirectWrite
open KYM.RingBuffer (KeyedRegion)

def addrOf (freed : List DirectWriteReceiveBuffer) (k : ℕ) : UInt64 :=
  ((freed[k]?).map DirectWriteReceiveBuffer.addr).getD 0

def tickets (y : System) : List ℕ :=
  List.range' y.got.length (y.freed.length-y.got.length)++y.held

def Loaded (bufSize : UInt32) (buf : ℕ → UInt8) (payload : List UInt8) : Prop :=
  ∀ i < bufSize.toNat, buf i = filled bufSize payload i

def postOf (bufSize : UInt32) (m : Sent) : UInt64 × UInt32 × List UInt8 :=
  (m.target, m.rkey, fetch (filled bufSize m.payload) 0 bufSize.toNat)

/-- `d` data writes and `p` entries have arrived; the buffers at `loose` are on their
way from one owner to the next. -/
structure Sound (n : ℕ) (pool loose : List UInt64) (y : System) (d p : ℕ) : Prop where
  sndBuffers : y.snd.nrBuffers.toNat = n
  rcvBuffers : y.rcv.nrBuffers.toNat = n
  bufSize : y.rcv.bufSize = y.snd.bufSize
  order : y.got.length ≤ d ∧ d ≤ y.sent.length ∧ y.sent.length ≤ p ∧ p ≤ y.freed.length
  nextId : y.snd.nextId = UInt64.ofNat (1+y.sent.length)
  head : y.rcv.rcvHead.toNat = cell n y.got.length
  tail : y.rcv.rcvTail.toNat = cell n y.freed.length
  owned : (loose++y.setup.map (fun r => r.addr)++(tickets y).map (addrOf y.freed)).Perm pool
  targets : Holds n y.snd.targetBuf y.freed y.sent.length p
  spent : Vacant (fun b => b.valid = false) n y.snd.targetBuf y.sent.length p
  ring : Holds n y.rcv.rcvBuffers y.freed y.got.length y.freed.length
  slotWire : y.slotWire = (y.freed.drop p).mapIdx (fun j b => (cell n (p+j), b))
  dataWire : y.dataWire = (y.sent.drop d).map (postOf y.snd.bufSize)
  sent : ∀ (k : ℕ) (m : Sent), y.sent[k]? = some m →
    y.freed[k]? = some ⟨m.target, m.rkey, true⟩ ∧ 1 ≤ m.payload.length ∧
      m.payload.length+4 ≤ y.snd.bufSize.toNat
  got : ∀ (k : ℕ) (reg : KeyedRegion), y.got[k]? = some reg → ∃ m : Sent, y.sent[k]? = some m ∧
    reg.addr = m.target ∧ reg.lkey = m.rkey ∧ reg.length.toNat = m.payload.length
  heldLt : ∀ k ∈ y.held, k < y.got.length
  loaded : ∀ (k : ℕ) (m : Sent), y.sent[k]? = some m →
    (k ∈ y.held ∨ (y.got.length ≤ k ∧ k < d)) → Loaded y.snd.bufSize (y.bufs m.target) m.payload
  cleared : ∀ (k : ℕ) (b : DirectWriteReceiveBuffer), y.freed[k]? = some b → d ≤ k →
    msgLen y.snd.bufSize (y.bufs b.addr) = 0

section Words

theorem next_cursor (t : UInt32) (nr : UInt64) (k : ℕ) (h : t.toNat = cell nr.toNat k)
    (h0 : 0 < nr.toNat) (h32 : nr.toNat ≤ 2^32) :
    ((t+1).toUInt64%nr).toUInt32.toNat = cell nr.toNat (k+1) := by
  have hlt := Nat.mod_lt (1+k) h0
  have ht := t.toNat_lt
  have h1 : (1 : UInt32).toNat = 1 := rfl
  have hcell : cell nr.toNat (k+1) = (t.toNat+1)%nr.toNat := by
    rw [h, cell, cell, ← Nat.add_assoc, Nat.mod_add_mod]
  rw [UInt64.toNat_toUInt32, UInt64.toNat_mod, UInt32.toNat_toUInt64, UInt32.toNat_add, h1, hcell]
  have hle : t.toNat < nr.toNat := by
    rw [h]
    exact hlt
  by_cases hw : t.toNat+1 = 2^32
  · have hn : nr.toNat = 2^32 := by omega
    rw [hw, hn]
    decide
  · have hs := Nat.mod_lt (t.toNat+1) h0
    rw [Nat.mod_eq_of_lt (show t.toNat+1 < 2^32 by omega), Nat.mod_eq_of_lt (by omega)]

theorem slot_of_id (nr : UInt64) (s : ℕ) (hs : 1+s < 2^64) :
    (UInt64.ofNat (1+s)%nr).toNat = cell nr.toNat s := by
  rw [UInt64.toNat_mod, UInt64.toNat_ofNat', Nat.mod_eq_of_lt hs]
  rfl

end Words

section Buffers

variable {bufSize : UInt32} {bytes : List UInt8} {buf : ℕ → UInt8}

theorem msgLen_cleared (bufSize : UInt32) (buf : ℕ → UInt8) :
    msgLen bufSize (put buf (getLengthOff bufSize) (putU32 0)) = 0 := by
  have h := fetch_put buf (getLengthOff bufSize) (putU32 0)
  rw [putU32_length] at h
  rw [msgLen, h, getU32_putU32]

theorem Loaded.payload (h : Loaded bufSize buf bytes) (hp : bytes.length+4 ≤ bufSize.toNat) :
    fetch buf 0 bytes.length = bytes := by
  have hc : fetch buf 0 bytes.length = fetch (filled bufSize bytes) 0 bytes.length := by
    apply fetch_congr
    intro i _ hi
    exact h i (by omega)
  rw [hc, filled]
  exact fetch_put _ 0 bytes

theorem Loaded.msgLen (h : Loaded bufSize buf bytes) (hp : bytes.length+4 ≤ bufSize.toNat) :
    DirectWrite.msgLen bufSize buf = UInt32.ofNat bytes.length := by
  have hlt := bufSize.toNat_lt
  have hc : fetch buf (getLengthOff bufSize) 4 = putU32 (UInt32.ofNat bytes.length) := by
    have hw : (UInt64.ofNat bytes.length).toUInt32 = UInt32.ofNat bytes.length := by
      apply UInt32.toNat_inj.mp
      rw [UInt64.toNat_toUInt32, UInt32.toNat_ofNat', UInt64.toNat_ofNat']
      omega
    rw [← hw, ← fetch_put (fun _ => 0) (getLengthOff bufSize) (putU32 _), putU32_length]
    apply fetch_congr
    intro i h1 h2
    simp only [getLengthOff] at h1 h2
    rw [h i (by omega), filled, put_outside _ _ _ _ (by omega)]
    rfl
  rw [DirectWrite.msgLen, hc, getU32_putU32]

theorem loaded_put (bufSize : UInt32) (bytes : List UInt8) (buf : ℕ → UInt8) :
    Loaded bufSize (put buf 0 (fetch (filled bufSize bytes) 0 bufSize.toNat)) bytes := by
  intro i hi
  have h := put_inside buf 0 (fetch (filled bufSize bytes) 0 bufSize.toNat) i (Nat.zero_le _)
    (by rw [fetch_length]; omega)
  have hg : (fetch (filled bufSize bytes) 0 bufSize.toNat)[i-0]? = some (filled bufSize bytes i) := by
    simp [fetch, hi]
  exact (Option.some.inj (hg.symm.trans h)).symm

end Buffers

section Facts

variable {n d p : ℕ} {pool loose : List UInt64} {y : System}

theorem addrOf_eq (freed : List DirectWriteReceiveBuffer) (k : ℕ) (b : DirectWriteReceiveBuffer)
    (h : freed[k]? = some b) : addrOf freed k = b.addr := by simp [addrOf, h]

theorem addrOf_concat (freed : List DirectWriteReceiveBuffer) (b : DirectWriteReceiveBuffer) (k : ℕ)
    (h : k < freed.length) : addrOf (freed++[b]) k = addrOf freed k := by
  rw [addrOf, addrOf, List.getElem?_append_left h]

theorem Sound.mem_tickets (h : Sound n pool loose y d p) (k : ℕ) :
    k ∈ tickets y ↔ (y.got.length ≤ k ∧ k < y.freed.length) ∨ k ∈ y.held := by
  have := h.order
  simp only [tickets, List.mem_append, List.mem_range'_1]
  constructor
  · rintro (hk | hk)
    · exact Or.inl (by omega)
    · exact Or.inr hk
  · rintro (hk | hk)
    · exact Or.inl (by omega)
    · exact Or.inr hk

theorem Sound.ticket_lt (h : Sound n pool loose y d p) (k : ℕ) (hk : k ∈ tickets y) :
    k < y.freed.length := by
  have := h.order
  rcases (h.mem_tickets k).mp hk with hk | hk
  · exact hk.2
  · have := h.heldLt k hk
    omega

theorem Sound.total (h : Sound n pool loose y d p) (hn : pool.length = n) :
    loose.length+y.setup.length+(y.freed.length-y.got.length)+y.held.length = n := by
  have := h.owned.length_eq
  simp only [tickets, List.length_append, List.length_map, List.length_range'] at this
  omega

theorem Sound.nodup (h : Sound n pool loose y d p) (hd : pool.Nodup) :
    (loose++y.setup.map (fun r => r.addr)++(tickets y).map (addrOf y.freed)).Nodup :=
  h.owned.nodup_iff.mpr hd

theorem Sound.distinct (h : Sound n pool loose y d p) (hd : pool.Nodup) (j k : ℕ)
    (hj : j ∈ tickets y) (hk : k ∈ tickets y) (he : addrOf y.freed j = addrOf y.freed k) : j = k :=
  List.inj_on_of_nodup_map (List.nodup_append.mp (h.nodup hd)).2.1 hj hk he

theorem Sound.not_loose (h : Sound n pool loose y d p) (hd : pool.Nodup) (k : ℕ)
    (hk : k ∈ tickets y) : addrOf y.freed k ∉ loose := by
  intro hl
  have := (List.nodup_append.mp (h.nodup hd)).2.2 _ (List.mem_append_left _ hl) _
    (List.mem_map_of_mem hk)
  exact this rfl

theorem Sound.sent_ticket (h : Sound n pool loose y d p) (k : ℕ) (m : Sent)
    (hm : y.sent[k]? = some m) (hk : k ∈ y.held ∨ y.got.length ≤ k) :
    k ∈ tickets y ∧ addrOf y.freed k = m.target := by
  have hf := (h.sent k m hm).1
  refine ⟨(h.mem_tickets k).mpr ?_, addrOf_eq _ k _ hf⟩
  rcases hk with hk | hk
  · exact Or.inr hk
  · exact Or.inl ⟨hk, (List.getElem?_eq_some_iff.mp hf).1⟩

theorem Sound.freed_ticket (h : Sound n pool loose y d p) (k : ℕ) (b : DirectWriteReceiveBuffer)
    (hb : y.freed[k]? = some b) (hk : d ≤ k) : k ∈ tickets y ∧ addrOf y.freed k = b.addr := by
  have := h.order
  exact ⟨(h.mem_tickets k).mpr (Or.inl ⟨by omega, (List.getElem?_eq_some_iff.mp hb).1⟩),
    addrOf_eq _ k _ hb⟩

end Facts

section Free

variable {n d p : ℕ} {pool : List UInt64} {y : System}

theorem mapIdx_concat (n p : ℕ) (F : List DirectWriteReceiveBuffer) (b : DirectWriteReceiveBuffer)
    (hp : p ≤ F.length) : ((F++[b]).drop p).mapIdx (fun j b => (cell n (p+j), b)) =
      (F.drop p).mapIdx (fun j b => (cell n (p+j), b))++[(cell n F.length, b)] := by
  rw [List.drop_append_of_le_length hp, List.mapIdx_concat, List.length_drop,
    Nat.add_sub_cancel' hp]

theorem Sound.tickets_freed {loose : List UInt64} (h : Sound n pool loose y d p)
    (region : KeyedRegion) : ((tickets (freeRegion y region)).map (addrOf (freeRegion y region).freed)).Perm
      (region.addr::(tickets y).map (addrOf y.freed)) := by
  have hord := h.order
  have hr : List.range' y.got.length (y.freed.length+1-y.got.length) =
      List.range' y.got.length (y.freed.length-y.got.length)++[y.freed.length] := by
    rw [show y.freed.length+1-y.got.length = y.freed.length-y.got.length+1 by omega,
      List.range'_concat]
    congr 2
    omega
  have hmap : ∀ k ∈ tickets y, addrOf (freeRegion y region).freed k = addrOf y.freed k :=
    fun k hk => addrOf_concat _ _ k (h.ticket_lt k hk)
  have hnew : addrOf (freeRegion y region).freed y.freed.length = region.addr := by
    simp [addrOf, freeRegion, free]
  have ht : tickets (freeRegion y region) =
      List.range' y.got.length (y.freed.length-y.got.length)++y.freed.length::y.held := by
    simp only [tickets, freeRegion, List.length_append, List.length_singleton, hr, List.append_assoc,
      List.singleton_append]
  rw [ht]
  refine (List.perm_middle.map _).trans ?_
  rw [List.map_cons, hnew]
  exact List.Perm.cons _ (List.Perm.of_eq (List.map_congr_left hmap))

theorem Sound.freed {x : UInt64} (h : Sound n pool [x] y d p) (hd : pool.Nodup)
    (hn : pool.length = n) (h0 : 0 < n) (h32 : n ≤ 2^32) (region : KeyedRegion) (hx : region.addr = x) :
    Sound n pool [] (freeRegion y region) d p := by
  have hord := h.order
  have htot := h.total hn
  simp only [List.length_singleton] at htot
  have hlast : (y.freed++[(⟨region.addr, region.lkey, true⟩ :
      DirectWriteReceiveBuffer)])[y.freed.length]? = some ⟨region.addr, region.lkey, true⟩ := by
    simp
  have hother : ∀ k ∈ tickets y, addrOf y.freed k ≠ region.addr := by
    intro k hk he
    exact h.not_loose hd k hk (by simp [he, hx])
  have htail : y.rcv.rcvTail.toNat = cell n y.freed.length := h.tail
  constructor
  · exact h.sndBuffers
  · exact h.rcvBuffers
  · exact h.bufSize
  · simp only [freeRegion, free, List.length_append, List.length_singleton]
    omega
  · exact h.nextId
  · exact h.head
  · simp only [freeRegion, free, List.length_append, List.length_singleton]
    rw [← h.rcvBuffers] at htail ⊢
    exact next_cursor _ _ _ htail (by rw [h.rcvBuffers]; exact h0) (by rw [h.rcvBuffers]; exact h32)
  · refine (List.Perm.append_left _ (h.tickets_freed region)).trans ?_
    rw [List.nil_append]
    refine List.perm_middle.trans ?_
    rw [hx]
    exact h.owned
  · exact h.targets.extend _
  · exact h.spent
  · simp only [freeRegion, free, List.length_append, List.length_singleton, htail]
    exact (h.ring.extend _).write (by omega) _ hlast
  · simp only [freeRegion, free, htail, h.slotWire]
    rw [mapIdx_concat n p _ _ hord.2.2.2]
  · exact h.dataWire
  · intro k m hm
    obtain ⟨h1, h2⟩ := h.sent k m hm
    exact ⟨BoundedStream.getElem?_concat _ _ _ _ h1, h2⟩
  · exact h.got
  · exact h.heldLt
  · intro k m hm hk
    obtain ⟨ht, ha⟩ := h.sent_ticket k m hm (hk.imp_right And.left)
    have hne : m.target ≠ region.addr := ha ▸ hother k ht
    simp only [freeRegion, Function.update_of_ne hne]
    exact h.loaded k m hm hk
  · intro k b hb hk
    simp only [freeRegion, free] at hb ⊢
    by_cases hkf : k = y.freed.length
    · subst hkf
      rw [hlast] at hb
      obtain rfl := Option.some.inj hb
      rw [Function.update_self, h.bufSize]
      exact msgLen_cleared _ _
    · have hlt := (List.getElem?_eq_some_iff.mp hb).1
      simp only [List.length_append, List.length_singleton] at hlt
      rw [List.getElem?_append_left (by omega)] at hb
      obtain ⟨ht, ha⟩ := h.freed_ticket k b hb hk
      have hne : b.addr ≠ region.addr := ha ▸ hother k ht
      rw [Function.update_of_ne hne]
      exact h.cleared k b hb hk

theorem Sound.setup {region : KeyedRegion} {rest : List KeyedRegion} (h : Sound n pool [] y d p)
    (hs : y.setup = region::rest) : Sound n pool [region.addr] { y with setup := rest } d p := by
  have ho := h.owned
  rw [hs] at ho
  exact ⟨h.sndBuffers, h.rcvBuffers, h.bufSize, h.order, h.nextId, h.head, h.tail, ho, h.targets,
    h.spent, h.ring, h.slotWire, h.dataWire, h.sent, h.got, h.heldLt, h.loaded, h.cleared⟩

theorem Sound.returned {i k : ℕ} {region : KeyedRegion} (h : Sound n pool [] y d p)
    (hi : y.held[i]? = some k) (hk : y.got[k]? = some region) :
    Sound n pool [region.addr] { y with held := y.held.eraseIdx i } d p := by
  have hsub : ∀ j ∈ y.held.eraseIdx i, j ∈ y.held := fun j => List.mem_of_mem_eraseIdx
  obtain ⟨m, hm, haddr, -⟩ := h.got k region hk
  have ha : addrOf y.freed k = region.addr := by
    rw [addrOf_eq _ k _ (h.sent k m hm).1, haddr]
  obtain ⟨hlt, rfl⟩ := List.getElem?_eq_some_iff.mp hi
  refine ⟨h.sndBuffers, h.rcvBuffers, h.bufSize, h.order, h.nextId, h.head, h.tail, ?_, h.targets,
    h.spent, h.ring, h.slotWire, h.dataWire, h.sent, h.got, fun j hj => h.heldLt j (hsub j hj), ?_,
    h.cleared⟩
  · refine List.Perm.trans ?_ h.owned
    have hp := (List.getElem_cons_eraseIdx_perm hlt).map (addrOf y.freed)
    rw [List.map_cons, ha] at hp
    simp only [tickets, List.map_append, List.nil_append, List.singleton_append]
    refine List.Perm.trans ?_ ((hp.append_left _).append_left _)
    rw [← List.append_assoc, ← List.append_assoc]
    exact List.perm_middle.symm
  · exact fun j m hj hk => h.loaded j m hj (hk.imp_left (hsub j))

end Free

end KYM.DirectDelivery
