import KnowYourMemory.RingBuffer
import KnowYourMemory.Run

/-!
# Receive buffers

A receive queue owns numbered buffers of one memory region. Freed buffers are
collected in a linked array of 64 work requests that is filled from the back and
posted as one chain. A listener with a single receiver keeps one such queue for
each queue pair and packs the queue pair's number into the context of a region.
A shared receive queue serves all connections, which hand their freed buffers over
through a stub queue each.
-/

set_option autoImplicit false

namespace KYM.ReceiveQueue
open KYM.Run KYM.RingBuffer

structure Sge where
  addr : UInt64
  length : UInt32
  lkey : UInt32
  deriving DecidableEq, Repr

/-- An entry of `recv_mr_wrs_` with its entry of `recv_mr_sge_`; `next` is the
index of the entry it links to. -/
structure RecvWr where
  wrId : UInt64
  next : Option ℕ
  sge : Sge
  deriving DecidableEq, Repr

structure Request where
  wrId : UInt64
  sge : Sge
  deriving DecidableEq, Repr

structure Wc where
  wrId : UInt64
  qpNum : UInt32
  byteLen : UInt32
  deriving DecidableEq, Repr

def RecvWr.request (w : RecvWr) : Request := ⟨w.wrId, w.sge⟩

/-- A receive queue with the device queue that it posts to. The region holds
`inflight` buffers. -/
structure Queue where
  mrAddr : UInt64
  lkey : UInt32
  transferSize : UInt64
  inflight : ℕ
  currentRcvMr : ℕ
  maxRcvMr : ℕ
  recvMrWrs : List RecvWr
  capacity : UInt32
  posted : List Request
  deriving DecidableEq, Repr

def Queue.request (q : Queue) (i : UInt64) : Request :=
  ⟨i, q.mrAddr+i*q.transferSize, q.transferSize.toUInt32, q.lkey⟩

def Queue.contextToAddr (q : Queue) (wrId : UInt32) : UInt64 :=
  q.mrAddr+wrId.toUInt64*q.transferSize

def Queue.getMR (q : Queue) (wrId : UInt32) : UInt64 × UInt64 :=
  (q.contextToAddr wrId, q.transferSize)

def postFailed : Status := ⟨.internal, "error posting raw receive buffer"⟩

def post (capacity : UInt32) (posted : List Request) (r : Request) : Option (List Request) :=
  if posted.length < capacity.toNat then some (posted++[r]) else none

def chain (wrs : List RecvWr) : ℕ → Option ℕ → List Request
  | 0, _ => []
  | _, none => []
  | n+1, some i =>
    match wrs[i]? with
    | none => []
    | some w => w.request::chain wrs n w.next

def Queue.fill (q : Queue) (i : ℕ) (wrId : UInt32) : List RecvWr :=
  q.recvMrWrs.modify i (fun w =>
    { w with wrId := wrId.toUInt64, sge := { w.sge with addr := q.contextToAddr wrId } })

def Queue.repost (q : Queue) (wrId : UInt32) : Option Queue :=
  let i := q.currentRcvMr-1
  let wrs := q.fill i wrId
  if i = 0 then
    ((chain wrs wrs.length (some 0)).foldlM (post q.capacity) q.posted).map (fun posted =>
      { q with currentRcvMr := q.maxRcvMr, recvMrWrs := wrs, posted := posted })
  else some { q with currentRcvMr := i, recvMrWrs := wrs }

def batchSize : ℕ := 64

def newQueue (capacity : UInt32) (mrAddr : UInt64) (lkey : UInt32)
    (transferSize inflight : UInt64) : Queue where
  mrAddr := mrAddr
  lkey := lkey
  transferSize := transferSize
  inflight := inflight.toNat
  currentRcvMr := batchSize
  maxRcvMr := batchSize
  recvMrWrs := (List.range batchSize).map (fun i =>
    ⟨UInt64.ofNat i, if i = batchSize-1 then none else some (i+1), 0, transferSize.toUInt32, lkey⟩)
  capacity := capacity
  posted := []

def setup (capacity : UInt32) (mrAddr : UInt64) (lkey : UInt32) (transferSize inflight : UInt64) :
    Option Queue :=
  let q := newQueue capacity mrAddr lkey transferSize inflight
  (((List.range inflight.toNat).map (fun i => q.request (UInt64.ofNat i))).foldlM
    (post capacity) []).map (fun posted => { q with posted := posted })

def getReceiveQueue : UInt32 → UInt64 → UInt32 → UInt64 → UInt64 → Option Queue := setup

def getSharedReceiveQueue : UInt32 → UInt64 → UInt32 → UInt64 → UInt64 → Option Queue := setup

def Queue.postMR : Queue → UInt32 → Option Queue := Queue.repost

def Queue.postShared : Queue → UInt32 → Option Queue := Queue.repost

def ids (rs : List Request) : List ℕ := rs.map (fun r => r.wrId.toNat)

def Queue.batch (q : Queue) : List Request :=
  (q.recvMrWrs.drop q.currentRcvMr).map RecvWr.request

def Queue.Own (q : Queue) (r : Request) : Prop := r = q.request r.wrId

/-- What holds of a queue between two calls. -/
structure Ready (q : Queue) : Prop where
  max : q.maxRcvMr = 64
  size : q.recvMrWrs.length = 64
  pos : 1 ≤ q.currentRcvMr
  le : q.currentRcvMr ≤ 64
  linked : ∀ (i : ℕ) (w : RecvWr), q.recvMrWrs[i]? = some w →
    w.next = if i = 63 then none else some (i+1)
  sges : ∀ w ∈ q.recvMrWrs, w.sge.length = q.transferSize.toUInt32 ∧ w.sge.lkey = q.lkey
  small : q.inflight < 2^32
  waiting : ∀ r ∈ q.batch, q.Own r
  posted : ∀ r ∈ q.posted, q.Own r

theorem postChain_eq (capacity : UInt32) (rs posted posted' : List Request)
    (h : rs.foldlM (post capacity) posted = some posted') :
    posted' = posted++rs ∧ (rs ≠ [] → posted'.length ≤ capacity.toNat) := by
  induction rs generalizing posted with
  | nil =>
    obtain rfl := Option.some.inj h
    exact ⟨(List.append_nil _).symm, fun h => absurd rfl h⟩
  | cons r rs ih =>
    rw [List.foldlM_cons] at h
    obtain ⟨p, hp, hrest⟩ := Option.bind_eq_some_iff.mp h
    unfold post at hp
    split at hp
    · next hlt =>
      obtain rfl := Option.some.inj hp
      obtain ⟨he, hle⟩ := ih _ hrest
      refine ⟨by simp [he], fun _ => ?_⟩
      cases rs with
      | nil =>
        rw [he]
        simp
        omega
      | cons r' rs => exact hle (List.cons_ne_nil _ _)
    · cases hp

theorem chain_eq (wrs : List RecvWr) (hl : ∀ (i : ℕ) (w : RecvWr), wrs[i]? = some w →
    w.next = if i+1 = wrs.length then none else some (i+1)) (n i : ℕ) (h : i+n = wrs.length)
    (hn : 0 < n) : chain wrs n (some i) = (wrs.drop i).map RecvWr.request := by
  induction n generalizing i with
  | zero => omega
  | succ n ih =>
    have hi : i < wrs.length := by omega
    have hnext := hl i wrs[i] (List.getElem?_eq_getElem hi)
    rw [List.drop_eq_getElem_cons hi, List.map_cons]
    simp only [chain, List.getElem?_eq_getElem hi, hnext]
    congr 1
    by_cases hlast : i+1 = wrs.length
    · obtain rfl : n = 0 := by omega
      rw [List.drop_eq_nil_of_le (by omega)]
      rfl
    · rw [if_neg hlast]
      exact ih (i+1) (by omega) (by omega)

theorem newQueue_batch (capacity : UInt32) (mrAddr : UInt64) (lkey : UInt32)
    (transferSize inflight : UInt64) :
    (newQueue capacity mrAddr lkey transferSize inflight).batch = [] := by
  rw [Queue.batch, newQueue, List.drop_eq_nil_of_le (by simp), List.map_nil]

theorem newQueue_ready (capacity : UInt32) (mrAddr : UInt64) (lkey : UInt32)
    (transferSize inflight : UInt64) (h : inflight.toNat < 2^32) :
    Ready (newQueue capacity mrAddr lkey transferSize inflight) := by
  refine ⟨rfl, by simp [newQueue, batchSize], by simp [newQueue, batchSize],
    by simp [newQueue, batchSize], ?_, ?_, h, by simp [newQueue_batch], by simp [newQueue]⟩
  · intro i w hw
    simp only [newQueue, List.getElem?_map, Option.map_eq_some_iff] at hw
    obtain ⟨j, hj, rfl⟩ := hw
    obtain ⟨-, rfl⟩ := List.getElem?_eq_some_iff.mp hj
    simp [batchSize]
  · intro w hw
    obtain ⟨i, -, rfl⟩ := List.mem_map.mp hw
    exact ⟨rfl, rfl⟩

theorem Ready.posting {q : Queue} (h : Ready q) (rs : List Request) (ho : ∀ r ∈ rs, q.Own r) :
    Ready { q with posted := rs } :=
  ⟨h.max, h.size, h.pos, h.le, h.linked, h.sges, h.small, h.waiting, ho⟩

theorem setup_ready (capacity : UInt32) (mrAddr : UInt64) (lkey : UInt32)
    (transferSize inflight : UInt64) (q : Queue)
    (h : setup capacity mrAddr lkey transferSize inflight = some q) :
    Ready q ∧ q.inflight = inflight.toNat ∧ q.batch = [] ∧
      ids q.posted = List.range inflight.toNat := by
  obtain ⟨posted, hp, rfl⟩ := Option.map_eq_some_iff.mp h
  obtain ⟨rfl, hle⟩ := postChain_eq _ _ _ _ hp
  have hsmall : inflight.toNat < 2^32 := by
    rcases Nat.eq_zero_or_pos inflight.toNat with h0 | h0
    · omega
    · have := hle (by simp; omega)
      have := capacity.toNat_lt
      simp at *
      omega
  refine ⟨(newQueue_ready _ _ _ _ _ hsmall).posting _ ?_, rfl,
    newQueue_batch capacity mrAddr lkey transferSize inflight, ?_⟩
  · intro r hr
    obtain ⟨i, -, rfl⟩ := List.mem_map.mp hr
    rfl
  · simp only [ids, List.nil_append, List.map_map]
    conv_rhs => rw [← List.map_id (List.range inflight.toNat)]
    refine List.map_congr_left (fun i hi => ?_)
    have := List.mem_range.mp hi
    exact UInt64.toNat_ofNat_of_lt (by simp only [UInt64.size]; omega)

theorem drop_modify {β : Type} (l : List β) (i : ℕ) (f : β → β) (hi : i < l.length) :
    (l.modify i f).drop i = f l[i]::l.drop (i+1) := by
  rw [List.drop_eq_getElem_cons (by simpa using hi), List.getElem_modify_eq]
  congr 1
  rw [List.drop_modify_of_lt]
  omega

section Repost

variable {q : Queue} {i : ℕ} {wrId : UInt32}

theorem fill_getElem (q : Queue) (i : ℕ) (wrId : UInt32) (j : ℕ) (w : RecvWr)
    (h : (q.fill i wrId)[j]? = some w) : ∃ v, q.recvMrWrs[j]? = some v ∧ w.next = v.next ∧
      w.sge.length = v.sge.length ∧ w.sge.lkey = v.sge.lkey := by
  rw [Queue.fill, List.getElem?_modify] at h
  obtain ⟨v, hv, rfl⟩ := Option.map_eq_some_iff.mp h
  refine ⟨v, hv, ?_⟩
  split <;> exact ⟨rfl, rfl, rfl⟩

theorem fill_linked (h : Ready q) (j : ℕ) (w : RecvWr) (hw : (q.fill i wrId)[j]? = some w) :
    w.next = if j = 63 then none else some (j+1) := by
  obtain ⟨v, hv, hnext, -⟩ := fill_getElem q i wrId j w hw
  rw [hnext, h.linked j v hv]

theorem fill_sges (h : Ready q) (w : RecvWr) (hw : w ∈ q.fill i wrId) :
    w.sge.length = q.transferSize.toUInt32 ∧ w.sge.lkey = q.lkey := by
  obtain ⟨j, hj⟩ := List.mem_iff_getElem?.mp hw
  obtain ⟨v, hv, -, hlen, hkey⟩ := fill_getElem q i wrId j w hj
  rw [hlen, hkey]
  exact h.sges v (List.mem_of_getElem? hv)

theorem fill_size (h : Ready q) : (q.fill i wrId).length = 64 := by
  rw [Queue.fill, List.length_modify, h.size]

theorem fill_batch (wrId : UInt32) (h : Ready q) :
    ((q.fill (q.currentRcvMr-1) wrId).drop (q.currentRcvMr-1)).map RecvWr.request =
      q.request wrId.toUInt64::q.batch := by
  have hpos := h.pos
  have hi : q.currentRcvMr-1 < q.recvMrWrs.length := by
    have := h.le
    have := h.size
    omega
  obtain ⟨hlen, hkey⟩ := h.sges _ (List.getElem_mem hi)
  rw [Queue.fill, drop_modify _ _ _ hi, show q.currentRcvMr-1+1 = q.currentRcvMr by omega]
  simp only [List.map_cons, RecvWr.request, hlen, hkey]
  rfl

theorem fill_own (wrId : UInt32) (h : Ready q) : ∀ r ∈ q.request wrId.toUInt64::q.batch, q.Own r := by
  intro r hr
  rcases List.mem_cons.mp hr with rfl | hr
  · rfl
  · exact h.waiting r hr

theorem repost_cases {q' : Queue} (h : Ready q) (hs : q.repost wrId = some q') :
    Ready q' ∧ q'.inflight = q.inflight ∧ q'.request = q.request ∧
      ((q'.posted = q.posted ∧ q'.batch = q.request wrId.toUInt64::q.batch) ∨
        (q'.posted = q.posted++q.request wrId.toUInt64::q.batch ∧ q'.batch = [])) := by
  have hbatch := fill_batch wrId h
  have hown := fill_own wrId h
  simp only [Queue.repost] at hs
  split at hs
  · next hi =>
    obtain ⟨posted, hp, rfl⟩ := Option.map_eq_some_iff.mp hs
    obtain ⟨hposted, -⟩ := postChain_eq _ _ _ _ hp
    rw [chain_eq _ (by simpa [fill_size h] using fill_linked h) _ 0 (by simp) (by simp [fill_size h])]
      at hposted
    rw [hi] at hbatch hposted
    rw [hbatch] at hposted
    have hnone : ((q.fill (q.currentRcvMr-1) wrId).drop q.maxRcvMr).map RecvWr.request = [] := by
      rw [h.max, List.drop_eq_nil_of_le (fill_size h).le, List.map_nil]
    refine ⟨⟨h.max, fill_size h, ?_, ?_, fill_linked h, fun w => fill_sges h w, h.small, ?_, ?_⟩,
      rfl, rfl, Or.inr ⟨hposted, hnone⟩⟩
    · simp only [h.max]
      omega
    · simp only [h.max, le_refl]
    · rw [Queue.batch, hnone]
      simp
    · rw [hposted]
      intro r hr
      rcases List.mem_append.mp hr with hr | hr
      · exact h.posted r hr
      · exact hown r hr
  · next hi =>
    obtain rfl := Option.some.inj hs
    have hle := h.le
    refine ⟨⟨h.max, fill_size h, ?_, ?_, fill_linked h, fun w => fill_sges h w, h.small, ?_,
      h.posted⟩, rfl, rfl, Or.inl ⟨rfl, hbatch⟩⟩
    · simp only
      omega
    · simp only
      omega
    · rw [Queue.batch, hbatch]
      exact hown

end Repost

/-- Every buffer is posted, in the batch, or one of those that are `away`; there is room to
post all of them. -/
structure Stocked (q : Queue) (away : ℕ) : Prop where
  ready : Ready q
  total : q.posted.length+q.batch.length+away = q.inflight
  fits : q.inflight ≤ q.capacity.toNat

section Stock

variable {q : Queue} {away : ℕ}

theorem postChain_some (capacity : UInt32) (rs posted : List Request)
    (h : posted.length+rs.length ≤ capacity.toNat) :
    rs.foldlM (post capacity) posted = some (posted++rs) := by
  induction rs generalizing posted with
  | nil => rw [List.append_nil]; rfl
  | cons r rs ih =>
    rw [List.length_cons] at h
    have hroom : posted.length < capacity.toNat := by omega
    rw [List.foldlM_cons, post, if_pos hroom, Option.bind_eq_bind, Option.bind_some, ih, List.append_assoc,
      List.singleton_append]
    rw [List.length_append, List.length_singleton]
    omega

theorem setup_stocked (capacity : UInt32) (mrAddr : UInt64) (lkey : UInt32)
    (transferSize inflight : UInt64)
    (h : setup capacity mrAddr lkey transferSize inflight = some q) :
    Stocked q 0 ∧ q.inflight = inflight.toNat := by
  obtain ⟨hready, hn, hbatch, hids⟩ := setup_ready capacity mrAddr lkey transferSize inflight q h
  have hlen : q.posted.length = inflight.toNat := by
    have hcount := congrArg List.length hids
    rwa [ids, List.length_map, List.length_range] at hcount
  obtain ⟨posted, hp, rfl⟩ := Option.map_eq_some_iff.mp h
  obtain ⟨rfl, hle⟩ := postChain_eq _ _ _ _ hp
  refine ⟨⟨hready, ?_, ?_⟩, hn⟩
  · rw [hbatch, hn, hlen]
    rfl
  · rw [hn]
    by_cases hzero : inflight.toNat = 0
    · omega
    · rw [← hlen]
      apply hle
      intro hnil
      rw [hnil] at hlen
      exact hzero hlen.symm

theorem Ready.batch_length (h : Ready q) : q.batch.length = 64-q.currentRcvMr := by
  rw [Queue.batch, List.length_map, List.length_drop, h.size]

theorem Stocked.batch_lt (h : Stocked q away) : q.batch.length < 64 := by
  have hlen := h.ready.batch_length
  have hpos := h.ready.pos
  omega

theorem Stocked.arrive (h : Stocked q away) (i : ℕ) (hi : i < q.posted.length) :
    Stocked { q with posted := q.posted.eraseIdx i } (away+1) where
  ready := h.ready.posting _ (fun r hr => h.ready.posted r (List.mem_of_mem_eraseIdx hr))
  total := by
    have htotal := h.total
    simp only [Queue.batch, List.length_eraseIdx_of_lt hi] at htotal ⊢
    omega
  fits := h.fits

theorem Stocked.repost (h : Stocked q (away+1)) (wrId : UInt32) :
    ∃ q', q.repost wrId = some q' ∧ Stocked q' away ∧ q'.inflight = q.inflight := by
  have htotal := h.total
  have hfits := h.fits
  obtain ⟨q', hs, hcap⟩ : ∃ q', q.repost wrId = some q' ∧ q'.capacity = q.capacity := by
    simp only [Queue.repost]
    by_cases hi : q.currentRcvMr-1 = 0
    · have hbatch := fill_batch wrId h.ready
      have hchain := chain_eq (q.fill (q.currentRcvMr-1) wrId)
        (by simpa [fill_size h.ready] using fill_linked h.ready) (q.fill (q.currentRcvMr-1) wrId).length 0
        (Nat.zero_add _) (by rw [fill_size h.ready]; decide)
      rw [hi] at hbatch hchain
      rw [if_pos hi, hi, hchain, hbatch, postChain_some]
      · exact ⟨_, rfl, rfl⟩
      · rw [List.length_cons]
        omega
    · rw [if_neg hi]
      exact ⟨_, rfl, rfl⟩
  obtain ⟨hready, hn, -, hcases⟩ := repost_cases h.ready hs
  refine ⟨q', hs, ⟨hready, ?_, by rw [hn, hcap]; exact hfits⟩, hn⟩
  rcases hcases with ⟨hp, hb⟩ | ⟨hp, hb⟩
  · rw [hp, hb, hn, List.length_cons]
    omega
  · rw [hp, hb, hn, List.length_append, List.length_cons, List.length_nil]
    omega

end Stock

end KYM.ReceiveQueue
