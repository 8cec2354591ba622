import KnowYourMemory.ReadOrder
import KnowYourMemory.DirectReadDelivery.System

/-!
# What a direct read keeps

The sender's blocks with the bytes in front of their messages, the requests from their
announcement to their acknowledgement, and the regions of the receiver.
-/

set_option autoImplicit false

namespace KYM.DirectReadDelivery
open KYM.Run KYM.MagicMemory KYM.DirectRead KYM.ReadOrder KYM.Mailbox
open KYM.RefusedReceive (Receiver)

structure Lent (blocks : List Region) (pending : List Pending) (smem : ℕ → UInt8) : Prop where
  bounds : ∀ b ∈ blocks, 1 ≤ b.length.toNat ∧ b.addr.toNat+b.length.toNat < 2^64
  apart : ∀ b ∈ blocks, ∀ b' ∈ blocks, b.addr ≠ b'.addr → Apart b.range b'.range
  idle : ∀ b ∈ blocks, b.addr ∉ pending.map (fun p => p.block.addr) → smem b.addr.toNat = 0
  inside : ∀ p ∈ pending, p.block ∈ blocks ∧ p.length.toNat+1 ≤ p.block.length.toNat
  distinct : (pending.map (fun p => p.block.addr)).Nodup
  flag : ∀ p ∈ pending, smem p.block.addr.toNat = 0 ↔ ∀ id, p.stage ≠ .acked id

structure Tracked (pending : List Pending) (waiting requests : List ReadRequest)
    (done : List SendWr) : Prop where
  queued : ∀ req ∈ waiting, ∃ p ∈ pending, p.stage = .posted ∧ p.req = req
  once : (waiting.map ReadRequest.addr).Nodup
  since : ∀ p ∈ pending, p.since ≤ requests.length
  taken : ∀ i req, requests[i]? = some req → acksOf (i+1) done = [] →
    ∃ p ∈ pending, p.stage = .taken (i+1) ∧ p.req = req
  asked : ∀ p ∈ pending, ∀ id, p.stage = .taken id ∨ p.stage = .acked id →
    p.since < id ∧ requests[id-1]? = some p.req
  acked : ∀ p ∈ pending, ∀ id, p.stage = .acked id → acksOf id done ≠ []

structure Kept (held : List Held) (requests : List ReadRequest) (sendQueue : List SendWr) :
    Prop where
  known : ∀ x ∈ held, 1 ≤ x.id ∧ ∃ req, requests[x.id-1]? = some req ∧ x.length = req.length
  once : (held.map Held.id).Nodup
  apart : ∀ x ∈ held, ∀ y ∈ held, x.id ≠ y.id → Apart x.range y.range
  queue : ∀ w ∈ sendQueue, w.opcode = .rdmaRead → ∃ x ∈ held, x.id = w.wrId ∧
    (∃ lkey, w.sge = .region x.addr x.length lkey) ∧
    ∃ req, requests[x.id-1]? = some req ∧ w.remoteAddr = req.addr

structure Sound (s : System) : Prop where
  rcv : DirectRead.Sound s.rcv.sys
  order : Ordered s.rcv.sys
  lent : Lent s.blocks s.pending s.smem
  tracked : Tracked s.pending s.waiting s.rcv.sys.requests s.rcv.sys.done
  kept : Kept s.held s.rcv.sys.requests s.rcv.sys.sendQueue
  arrived : s.rcv.taken ≤ s.rcv.announced.length

def System.bytes (s : System) (x : Held) : List UInt8 :=
  if x.id ∈ reads s.rcv.sys.done then fetch s.rmem x.addr.toNat x.length.toNat
  else ((s.rcv.sys.requests[x.id-1]?).map (content s.smem)).getD []

structure Matches (s : System) (a : Box Unit (List UInt8)) : Prop where
  queue : a.queue () = s.waiting.map (content s.smem)
  held : a.held = s.held.map (fun x => ((), s.bytes x))

section Memory

variable {blocks : List Region} {pending : List Pending} {smem : ℕ → UInt8} {p q : Pending}

theorem fetch_put_apart (mem : ℕ → UInt8) (a : ℕ) (bytes : List UInt8) (q : ℕ × ℕ)
    (h : Apart (a, bytes.length) q) : fetch (put mem a bytes) q.1 q.2 = fetch mem q.1 q.2 :=
  plain.read_apart mem (a, bytes.length) q bytes rfl h

theorem put_self (mem : ℕ → UInt8) (a : ℕ) (v : UInt8) : put mem a [v] a = v := by
  simp [put]

theorem put_other (mem : ℕ → UInt8) (a c : ℕ) (v : UInt8) (h : c ≠ a) : put mem a [v] c = mem c :=
  put_outside mem a [v] c (by simp only [List.length_singleton]; omega)

theorem Lent.place (h : Lent blocks pending smem) (hp : p ∈ pending) :
    p.req.addr.toNat = p.block.addr.toNat+1 ∧ p.req.length = p.length ∧
      p.req.addr-1 = p.block.addr ∧
      p.block.addr.toNat+1+p.length.toNat ≤ p.block.addr.toNat+p.block.length.toNat := by
  obtain ⟨hb, hl⟩ := h.inside p hp
  obtain ⟨-, hlt⟩ := h.bounds _ hb
  refine ⟨?_, rfl, UInt64.add_sub_cancel .., by omega⟩
  have hone : (1 : UInt64).toNat = 1 := rfl
  simp only [Pending.req, UInt64.toNat_add, hone]
  omega

theorem Lent.eq_of_addr (h : Lent blocks pending smem) (hp : p ∈ pending) (hq : q ∈ pending)
    (ha : p.block.addr = q.block.addr) : p = q :=
  List.inj_on_of_nodup_map h.distinct hp hq ha

theorem Lent.eq_of_req (h : Lent blocks pending smem) (hp : p ∈ pending) (hq : q ∈ pending)
    (ha : p.req.addr = q.req.addr) : p = q := by
  refine h.eq_of_addr hp hq ?_
  rw [← (h.place hp).2.2.1, ← (h.place hq).2.2.1, ha]

theorem Lent.content_put (h : Lent blocks pending smem) (hp : p ∈ pending) (a : ℕ)
    (bytes : List UInt8) (ha : Apart (a, bytes.length) p.block.range) :
    content (put smem a bytes) p.req = content smem p.req := by
  obtain ⟨haddr, hlen, -, hfit⟩ := h.place hp
  refine fetch_put_apart smem a bytes (p.req.addr.toNat, p.req.length.toNat) ?_
  simp only [Apart, Region.range, haddr, hlen] at ha ⊢
  omega

theorem Lent.content_flag (h : Lent blocks pending smem) (hp : p ∈ pending) (b : Region)
    (hb : b ∈ blocks) (v : UInt8) :
    content (put smem b.addr.toNat [v]) p.req = content smem p.req := by
  obtain ⟨haddr, hlen, -, hfit⟩ := h.place hp
  obtain ⟨hpb, -⟩ := h.inside p hp
  have hpos := (h.bounds b hb).1
  by_cases he : b.addr = p.block.addr
  · refine fetch_put_apart smem _ [v] (p.req.addr.toNat, p.req.length.toNat) ?_
    simp only [Apart, haddr, he, List.length_singleton]
    omega
  · refine h.content_put hp _ [v] ?_
    have hapart := h.apart b hb _ hpb he
    simp only [Apart, Region.range, List.length_singleton] at hapart ⊢
    omega

theorem other_flag (smem : ℕ → UInt8) (a b : UInt64) (hne : a ≠ b) (v : UInt8) :
    put smem a.toNat [v] b.toNat = smem b.toNat :=
  put_other _ _ _ _ (fun he => hne (UInt64.toNat_inj.mp he).symm)

theorem addr_ne_of_apart {b b' : Region} (hb : 1 ≤ b.length.toNat) (hb' : 1 ≤ b'.length.toNat)
    (h : Apart b.range b'.range) : b.addr ≠ b'.addr := by
  intro he
  simp only [Apart, Region.range, he] at h
  omega

theorem Apart.symm {p q : ℕ × ℕ} (h : Apart p q) : Apart q p := Or.symm h

theorem Lent.alloc (h : Lent blocks pending smem) (mr : Region)
    (hc : 1 ≤ mr.length.toNat ∧ mr.addr.toNat+mr.length.toNat < 2^64 ∧
      ∀ b ∈ blocks, Apart mr.range b.range) :
    Lent (blocks++[mr]) pending (put smem mr.addr.toNat [0]) ∧
      ∀ p ∈ pending, content (put smem mr.addr.toNat [0]) p.req = content smem p.req := by
  obtain ⟨hpos, hlt, hnew⟩ := hc
  have hne : ∀ b ∈ blocks, mr.addr ≠ b.addr := fun b hb =>
    addr_ne_of_apart hpos (h.bounds b hb).1 (hnew b hb)
  refine ⟨⟨fun b hb => ?_, fun b hb b' hb' hbb => ?_, fun b hb hi => ?_, fun p hp => ?_, h.distinct,
    fun p hp => ?_⟩, fun p hp => h.content_put hp _ [0] ?_⟩
  · rcases List.mem_append.mp hb with hb | hb
    · exact h.bounds b hb
    · exact List.mem_singleton.mp hb ▸ ⟨hpos, hlt⟩
  · rcases List.mem_append.mp hb with hb | hb <;> rcases List.mem_append.mp hb' with hb' | hb'
    · exact h.apart b hb b' hb' hbb
    · exact List.mem_singleton.mp hb' ▸ (hnew b hb).symm
    · exact List.mem_singleton.mp hb ▸ hnew b' hb'
    · exact absurd (by rw [List.mem_singleton.mp hb, List.mem_singleton.mp hb']) hbb
  · rcases List.mem_append.mp hb with hb | hb
    · rw [other_flag _ _ _ (hne b hb)]
      exact h.idle b hb hi
    · rw [List.mem_singleton.mp hb, put_self]
  · exact ⟨List.mem_append_left _ (h.inside p hp).1, (h.inside p hp).2⟩
  · rw [other_flag _ _ _ (hne _ (h.inside p hp).1)]
    exact h.flag p hp
  · have hap := hnew _ (h.inside p hp).1
    simp only [Apart, Region.range, List.length_singleton] at hap ⊢
    omega

theorem Lent.free (h : Lent blocks pending smem) (k : ℕ)
    (hc : ∀ b ∈ blocks[k]?, b.addr ∉ pending.map (fun p => p.block.addr)) :
    Lent (blocks.eraseIdx k) pending smem := by
  have hsub : ∀ b ∈ blocks.eraseIdx k, b ∈ blocks := fun b hb => List.mem_of_mem_eraseIdx hb
  refine ⟨fun b hb => h.bounds b (hsub b hb), fun b hb b' hb' => h.apart b (hsub b hb) b' (hsub b' hb'),
    fun b hb => h.idle b (hsub b hb), fun p hp => ⟨?_, (h.inside p hp).2⟩, h.distinct, h.flag⟩
  obtain ⟨i, hi⟩ := List.mem_iff_getElem?.mp (h.inside p hp).1
  have hik : i ≠ k := by
    rintro rfl
    exact hc _ hi (List.mem_map_of_mem hp)
  exact List.mem_eraseIdx_iff_getElem?.mpr ⟨i, hik, hi⟩

theorem Lent.store (h : Lent blocks pending smem) (a : ℕ) (bytes : List UInt8)
    (hc : ∀ b ∈ blocks, Apart (a, bytes.length) (b.addr.toNat,
      if b.addr ∈ pending.map (fun p => p.block.addr) then b.length.toNat else 1)) :
    Lent blocks pending (put smem a bytes) ∧
      ∀ p ∈ pending, content (put smem a bytes) p.req = content smem p.req := by
  have hflag : ∀ b ∈ blocks, put smem a bytes b.addr.toNat = smem b.addr.toNat := by
    intro b hb
    have hpos := (h.bounds b hb).1
    have hap := hc b hb
    refine put_outside _ _ _ _ ?_
    simp only [Apart] at hap
    split at hap <;> omega
  refine ⟨⟨h.bounds, h.apart, fun b hb hi => ?_, h.inside, h.distinct, fun p hp => ?_⟩, fun p hp => ?_⟩
  · rw [hflag b hb]
    exact h.idle b hb hi
  · rw [hflag _ (h.inside p hp).1]
    exact h.flag p hp
  · refine h.content_put hp a bytes ?_
    have hap := hc _ (h.inside p hp).1
    rwa [if_pos (List.mem_map_of_mem hp)] at hap

theorem Lent.send (h : Lent blocks pending smem) (b : Region) (hb : b ∈ blocks) (length : UInt32)
    (n : ℕ) (hc : length.toNat+1 ≤ b.length.toNat ∧ b.addr ∉ pending.map (fun p => p.block.addr)) :
    Lent blocks (pending++[⟨b, length, n, .posted⟩]) smem := by
  obtain ⟨hfit, hnew⟩ := hc
  refine ⟨h.bounds, h.apart, fun b' hb' hi => h.idle b' hb' (fun hm => hi ?_), fun p hp => ?_, ?_,
    fun p hp => ?_⟩
  · rw [List.map_append]
    exact List.mem_append_left _ hm
  · rcases List.mem_append.mp hp with hp | hp
    · exact h.inside p hp
    · exact List.mem_singleton.mp hp ▸ ⟨hb, hfit⟩
  · rw [List.map_append, List.nodup_append]
    refine ⟨h.distinct, List.nodup_singleton _, fun x hx y hy he => hnew ?_⟩
    have hy : y = b.addr := List.mem_singleton.mp hy
    rwa [← hy, ← he]
  · rcases List.mem_append.mp hp with hp | hp
    · exact h.flag p hp
    · rw [List.mem_singleton.mp hp]
      exact ⟨fun _ id => by simp, fun _ => h.idle b hb hnew⟩

theorem Lent.wait (h : Lent blocks pending smem) (id : UInt64) (hid : ∃ b ∈ blocks, b.addr = id) :
    Lent blocks (pending.filter (fun p => p.block.addr ≠ id)) (put smem id.toNat [0]) ∧
      ∀ p ∈ pending, content (put smem id.toNat [0]) p.req = content smem p.req := by
  obtain ⟨b₀, hb₀, rfl⟩ := hid
  refine ⟨⟨h.bounds, h.apart, fun b hb hi => ?_, fun p hp => h.inside p (List.mem_of_mem_filter hp),
    (List.filter_sublist.map _).nodup h.distinct, fun p hp => ?_⟩,
    fun p hp => h.content_flag hp b₀ hb₀ 0⟩
  · by_cases he : b₀.addr = b.addr
    · rw [he, put_self]
    · rw [other_flag _ _ _ he]
      refine h.idle b hb (fun hm => hi ?_)
      obtain ⟨p, hp, hpb⟩ := List.mem_map.mp hm
      refine List.mem_map.mpr ⟨p, List.mem_filter.mpr ⟨hp, ?_⟩, hpb⟩
      simpa [hpb] using Ne.symm he
  · obtain ⟨hp, hne⟩ := List.mem_filter.mp hp
    rw [other_flag _ _ _ (fun he => by simp [he] at hne)]
    exact h.flag p hp

theorem Lent.map (h : Lent blocks pending smem) (f : Pending → Pending) (smem' : ℕ → UInt8)
    (hblock : ∀ p, (f p).block = p.block) (hlength : ∀ p, (f p).length = p.length)
    (hidle : ∀ b ∈ blocks, b.addr ∉ pending.map (fun p => p.block.addr) →
      smem' b.addr.toNat = smem b.addr.toNat)
    (hflag : ∀ p ∈ pending, smem' p.block.addr.toNat = 0 ↔ ∀ id, (f p).stage ≠ .acked id) :
    Lent blocks (pending.map f) smem' := by
  have haddr : (pending.map f).map (fun p => p.block.addr) = pending.map (fun p => p.block.addr) := by
    rw [List.map_map]
    exact List.map_congr_left (fun p _ => by simp [hblock])
  refine ⟨h.bounds, h.apart, fun b hb hi => ?_, fun p hp => ?_, haddr ▸ h.distinct, fun p hp => ?_⟩
  · rw [haddr] at hi
    rw [hidle b hb hi]
    exact h.idle b hb hi
  · obtain ⟨q, hq, rfl⟩ := List.mem_map.mp hp
    rw [hblock, hlength]
    exact h.inside q hq
  · obtain ⟨q, hq, rfl⟩ := List.mem_map.mp hp
    rw [hblock]
    exact hflag q hq

end Memory

end KYM.DirectReadDelivery
