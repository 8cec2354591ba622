import KnowYourMemory.DirectRead
import Mathlib.Data.List.Nodup

/-!
# Order of the reads

The reads of a direct-read receiver take effect in the order of their ids, with fences
and without. A wait that has returned therefore covers its own read, and a posted
acknowledgement is the only one of its id. One request of each id is signaled, and the
completions are in the order of the ids as well.
-/

set_option autoImplicit false

namespace KYM.ReadOrder
open KYM.Run KYM.CompletionQueue KYM.DirectRead

structure Ordered (s : System) : Prop where
  order : reads s.done++reads s.sendQueue = List.range' 1 s.requests.length
  perm : (s.done++s.sendQueue).Perm s.posted
  ackd : s.conn.ackdRcvId ≤ (reads s.done).length
  cq : ∀ j ∈ s.sendCq, j ≤ (reads s.done).length
  waited : ∀ id ∈ s.waited, id ≤ (reads s.done).length

section Reads

variable {s t : System} {id : ℕ}

theorem readIn_iff (ws : List SendWr) (id : ℕ) : ReadIn ws id ↔ id ∈ reads ws := by
  simp only [ReadIn, reads, List.mem_map, List.mem_filter, decide_eq_true_eq, and_assoc]

theorem Ordered.reads_done (h : Ordered s) :
    reads s.done = List.range' 1 (reads s.done).length := by
  obtain ⟨k, -, hdone, -⟩ := List.range'_eq_append_iff.mp h.order.symm
  rw [hdone, List.length_range']

theorem Ordered.mem_done (h : Ordered s) :
    id ∈ reads s.done ↔ 1 ≤ id ∧ id ≤ (reads s.done).length := by
  rw [h.reads_done, List.mem_range', List.length_range']
  constructor
  · rintro ⟨i, hi, rfl⟩
    omega
  · intro hid
    exact ⟨id-1, by omega, by omega⟩

theorem Ordered.queued_not_done (h : Ordered s) (w : SendWr) (hw : w ∈ s.sendQueue)
    (hop : w.opcode = .rdmaRead) : w.wrId ∉ reads s.done := by
  intro hdone
  have hq : w.wrId ∈ reads s.sendQueue :=
    List.mem_map_of_mem (List.mem_filter.mpr ⟨hw, by simpa using hop⟩)
  have hnodup : (reads s.done++reads s.sendQueue).Nodup :=
    h.order ▸ List.nodup_range'
  exact (List.nodup_append.mp hnodup).2.2 _ hdone _ hq rfl

theorem Ordered.posted (h : Ordered s) (w : SendWr) (hw : w ∈ s.posted)
    (hop : w.opcode = .rdmaRead) : 1 ≤ w.wrId ∧ w.wrId ≤ s.requests.length := by
  have hmem : w.wrId ∈ reads (s.done++s.sendQueue) :=
    List.mem_map_of_mem (List.mem_filter.mpr ⟨h.perm.mem_iff.mpr hw, by simpa using hop⟩)
  rw [reads_append, h.order, List.mem_range'] at hmem
  omega

theorem acksOf_cons (id : ℕ) (w : SendWr) (ws : List SendWr) : acksOf id (w::ws) =
    if w.opcode = .rdmaWrite ∧ w.wrId = id then w::acksOf id ws else acksOf id ws := by
  by_cases h : w.opcode = .rdmaWrite ∧ w.wrId = id <;> simp [acksOf, h]

/-- An acknowledgement that is still queued belongs to an accepted request, and no other one
of its id was done. -/
theorem queued_ack (h : Sound s) (ho : Ordered s) (w : SendWr) (hw : w ∈ s.sendQueue)
    (hop : w.opcode = .rdmaWrite) : ∃ i req, s.requests[i]? = some req ∧
      w = wrAck s.conn.fence (i+1) req ∧ acksOf (i+1) s.done = [] := by
  have hmem : w ∈ acksOf w.wrId s.sendQueue := List.mem_filter.mpr ⟨hw, by simpa using hop⟩
  have hperm : (acksOf w.wrId s.done++acksOf w.wrId s.sendQueue).Perm (acksOf w.wrId s.posted) := by
    rw [← acksOf_append]
    exact ho.perm.filter _
  have hasked : Asked s w.wrId := by
    by_contra hnot
    have hposted := hperm.subset (List.mem_append_right _ hmem)
    rw [h.unasked w.wrId hnot] at hposted
    cases hposted
  obtain ⟨h1, h2, -⟩ := id hasked
  obtain ⟨i, hi⟩ : ∃ i, w.wrId = i+1 := ⟨w.wrId-1, by omega⟩
  obtain ⟨req, hreq⟩ : ∃ req, s.requests[i]? = some req := ⟨_, List.getElem?_eq_getElem (by omega)⟩
  have honce := h.once i req hreq (hi ▸ hasked)
  rw [hi, honce] at hperm
  rw [hi] at hmem
  refine ⟨i, req, hreq, ?_, ?_⟩
  · exact List.mem_singleton.mp (hperm.subset (List.mem_append_right _ hmem))
  · have hlen := hperm.length_eq
    rw [List.length_append, List.length_singleton] at hlen
    have hpos := List.length_pos_of_mem hmem
    exact List.eq_nil_of_length_eq_zero (by omega)

end Reads

section Steps

variable {s t : System}

theorem init_ordered (fence : Bool) : Ordered (init fence) where
  order := rfl
  perm := List.Perm.nil
  ackd := le_refl _
  cq _ h := by cases h
  waited _ h := by cases h

theorem Ordered.readInto (h : Ordered s) (hn : s.conn.nextRcvId = s.requests.length+1)
    (addr : UInt64) (key : UInt32) (req : ReadRequest)
    (hs : step s (.readInto addr key req) = some t) : Ordered t := by
  rcases issue_views addr key req hs with rfl | ⟨-, acks, table, hacks, -, rfl⟩
  · exact h
  have hreads : reads (wrData s.conn.fence s.conn.nextRcvId addr key req::acks) =
      [s.requests.length+1] := by
    rw [hacks, ← hn]
    split <;> rfl
  refine ⟨?_, ?_, h.ackd, h.cq, h.waited⟩
  · rw [reads_append, hreads, ← List.append_assoc, h.order, List.length_append, List.length_singleton,
      List.range'_concat, Nat.one_mul, Nat.add_comm 1]
  · rw [← List.append_assoc]
    exact h.perm.append_right _

theorem pollUntil_bounded {id a b m : ℕ} {ws rest : List ℕ} (ha : a ≤ m) (hw : ∀ j ∈ ws, j ≤ m)
    (h : pollUntil last id a ws = some (b, rest)) : b ≤ m := by
  induction ws generalizing a with
  | nil =>
    rw [pollUntil, Option.ite_none_right_eq_some] at h
    obtain ⟨rfl, -⟩ := Prod.mk.inj (Option.some.inj h.2)
    exact ha
  | cons w ws ih =>
    rw [pollUntil] at h
    split at h
    · obtain ⟨rfl, -⟩ := Prod.mk.inj (Option.some.inj h)
      exact ha
    · exact ih (hw w (by simp)) (fun j hj => hw j (by simp [hj])) h

theorem wait_posts (h : Sound s) (id : ℕ) (ho : Once s (.waitReceive id)) :
    ∃ req, s.requests[id-1]? = some req ∧
      (s.conn.fence = false → s.conn.outstandingReadWr (id%maxRcv) = wrAck false id req) := by
  obtain ⟨h1, hlt, hnw⟩ := ho
  have hn := h.next
  obtain ⟨req, hreq⟩ : ∃ req, s.requests[id-1]? = some req :=
    ⟨_, List.getElem?_eq_getElem (by omega)⟩
  refine ⟨req, hreq, fun hf => ?_⟩
  obtain ⟨k, hu⟩ := h.unfenced hf
  have hack := hu.table (id-1) req hreq (by rwa [Nat.sub_add_cancel h1])
  rwa [Nat.sub_add_cancel h1] at hack

theorem Ordered.waitReceive (h : Ordered s) (hsound : Sound s) (id : ℕ)
    (ho : Once s (.waitReceive id)) (hs : step s (.waitReceive id) = some t) : Ordered t := by
  obtain ⟨req, -, hack⟩ := wait_posts hsound id ho
  obtain ⟨ackd, sendCq, wrs, hpoll, hwrs, rfl⟩ := wait_views id hs
  obtain ⟨hid, hrest⟩ := pollUntil_ends hpoll
  have hb := pollUntil_bounded h.ackd h.cq hpoll
  have hreads : reads wrs = [] := by
    rw [hwrs]
    split
    · rfl
    · next hf =>
      rw [hack (by simpa using hf)]
      rfl
  refine ⟨?_, ?_, hb, fun j hj => h.cq j (hrest.subset hj), fun j hj => ?_⟩
  · rw [reads_append, hreads, List.append_nil]
    exact h.order
  · rw [← List.append_assoc]
    exact h.perm.append_right _
  · rcases List.mem_append.mp hj with hj | hj
    · exact h.waited j hj
    · rw [List.mem_singleton.mp hj]
      exact hid.trans hb

theorem Ordered.perform (h : Ordered s) (i : ℕ) (hf : Follows t.done)
    (hs : step s (.perform i) = some t) : Ordered t := by
  obtain ⟨ws, w, vs, hq, hover, rfl⟩ := perform_views i hs
  have hperm : (s.done++[w]++(ws++vs)).Perm s.posted := by
    refine List.Perm.trans ?_ h.perm
    rw [hq, List.append_assoc, List.singleton_append]
    exact List.perm_middle.symm.append_left _
  have hreads : reads (s.done++[w])++reads (ws++vs) = reads s.done++reads s.sendQueue := by
    rw [hq]
    simp only [reads_append, reads_cons]
    by_cases hop : w.opcode = .rdmaRead
    · rw [nil_of_overtakes hover (by simp [hop])]
      simp [hop, reads]
    · simp [hop, reads]
  have horder : reads (s.done++[w])++reads (ws++vs) = List.range' 1 s.requests.length :=
    hreads.trans h.order
  have hgrow : (reads s.done).length ≤ (reads (s.done++[w])).length := by
    rw [reads_append, List.length_append]
    omega
  have hdone : w.wrId ≤ (reads (s.done++[w])).length := by
    have hin : ReadIn (s.done++[w]) w.wrId := by
      cases hop : w.opcode with
      | rdmaRead => exact ⟨w, by simp, hop, rfl⟩
      | rdmaWrite =>
        have hread := hf s.done.length w (by simp) hop
        exact hread.mono (List.take_subset _ _)
    rw [readIn_iff] at hin
    obtain ⟨k, -, hk, -⟩ := List.range'_eq_append_iff.mp horder.symm
    rw [hk, List.mem_range'] at hin
    rw [hk, List.length_range']
    omega
  refine ⟨horder, hperm, h.ackd.trans hgrow, fun j hj => ?_, fun j hj => (h.waited j hj).trans hgrow⟩
  simp only at hj
  split at hj
  · rcases List.mem_append.mp hj with hj | hj
    · exact (h.cq j hj).trans hgrow
    · rw [List.mem_singleton.mp hj]
      exact hdone
  · exact (h.cq j hj).trans hgrow

theorem Ordered.step (h : Ordered s) (hsound : Sound s) (e : Event) (he : Regular s e)
    (hs : step s e = some t) : Ordered t := by
  cases e with
  | readInto addr key req => exact h.readInto hsound.next addr key req hs
  | waitReceive id => exact h.waitReceive hsound id he.1 hs
  | perform i => exact h.perform i (hsound.perform i hs).follows hs

theorem Ordered.read_waited (h : Ordered s) (id : ℕ) (hid : 1 ≤ id) (hw : id ∈ s.waited) :
    id ∈ reads s.done := h.mem_done.mpr ⟨hid, h.waited id hw⟩

end Steps

def signals (ws : List SendWr) : List ℕ := (ws.filter SendWr.signaled).map SendWr.wrId

/-- The completions that are to come carry the ids behind the last one that was polled. -/
structure Counted (s : System) : Prop where
  order : s.sendCq++signals s.sendQueue =
    List.range' (s.conn.ackdRcvId+1) (s.requests.length-s.conn.ackdRcvId)
  le : s.conn.ackdRcvId ≤ s.requests.length
  waited : ∀ id ∈ s.waited, id ≤ s.conn.ackdRcvId

section Completions

variable {s t : System}

theorem signals_append (ws vs : List SendWr) : signals (ws++vs) = signals ws++signals vs := by
  simp [signals]

theorem signals_cons (w : SendWr) (ws : List SendWr) :
    signals (w::ws) = if w.signaled then w.wrId::signals ws else signals ws := by
  by_cases h : w.signaled <;> simp [signals, h]

theorem init_counted (fence : Bool) : Counted (init fence) where
  order := rfl
  le := le_refl _
  waited _ h := by cases h

theorem Counted.readInto (h : Counted s) (hn : s.conn.nextRcvId = s.requests.length+1)
    (addr : UInt64) (key : UInt32) (req : ReadRequest)
    (hs : step s (.readInto addr key req) = some t) : Counted t := by
  have hle := h.le
  rcases issue_views addr key req hs with rfl | ⟨-, acks, table, hacks, -, rfl⟩
  · exact h
  have hsignals : signals (wrData s.conn.fence s.conn.nextRcvId addr key req::acks) =
      [s.requests.length+1] := by
    rw [hacks, ← hn]
    cases s.conn.fence <;> rfl
  refine ⟨?_, ?_, h.waited⟩
  · have hlast : s.requests.length+1 = s.conn.ackdRcvId+1+1*(s.requests.length-s.conn.ackdRcvId) := by
      omega
    simp only
    rw [signals_append, hsignals, ← List.append_assoc, h.order, List.length_append,
      List.length_singleton, Nat.sub_add_comm hle, List.range'_concat, ← hlast]
  · simp only [List.length_append, List.length_singleton]
    omega

theorem Counted.waitReceive (h : Counted s) (hsound : Sound s) (id : ℕ)
    (ho : Once s (.waitReceive id)) (hs : step s (.waitReceive id) = some t) : Counted t := by
  have hle := h.le
  obtain ⟨req, -, hack⟩ := wait_posts hsound id ho
  obtain ⟨ackd, sendCq, wrs, hpoll, hwrs, rfl⟩ := wait_views id hs
  obtain ⟨k, hk, hcq, hqueue⟩ := List.range'_eq_append_iff.mp h.order.symm
  obtain ⟨hid, -⟩ := pollUntil_ends hpoll
  rw [hcq] at hpoll
  obtain ⟨hmono, hbound, hrest⟩ := pollUntil_consecutive hpoll
  have hnone : signals wrs = [] := by
    rw [hwrs]
    split
    · rfl
    · next hf =>
      rw [hack (by simpa using hf)]
      rfl
  refine ⟨?_, by simp only; omega, fun j hj => ?_⟩
  · have hstart : s.conn.ackdRcvId+1+k*1 = ackd+1+(s.conn.ackdRcvId+k-ackd) := by omega
    simp only
    rw [signals_append, hnone, List.append_nil, hrest, hqueue, hstart, List.range'_append_1]
    congr 1
    omega
  · rcases List.mem_append.mp hj with hj | hj
    · exact (h.waited j hj).trans hmono
    · rw [List.mem_singleton.mp hj]
      exact hid

theorem Counted.perform (h : Counted s) (hsound : Sound s) (ho : Ordered s) (i : ℕ)
    (hs : step s (.perform i) = some t) : Counted t := by
  obtain ⟨ws, w, vs, hq, hover, rfl⟩ := perform_views i hs
  have hin : w ∈ s.sendQueue := by simp [hq]
  have horder := h.order
  rw [hq, signals_append, signals_cons] at horder
  refine ⟨?_, h.le, h.waited⟩
  by_cases hsig : w.signaled
  · have hnil : ws = [] := by
      apply nil_of_overtakes hover
      rintro ⟨hop, hfence⟩
      obtain ⟨j, req, -, hw, -⟩ := queued_ack hsound ho w hin hop
      rw [hw] at hsig hfence
      simp only [wrAck] at hsig hfence
      rw [hsig] at hfence
      cases hfence
    rw [if_pos hsig, hnil] at horder
    simpa [hsig, hnil, signals] using horder
  · rw [if_neg hsig] at horder
    simpa [hsig, signals_append] using horder

theorem Counted.step (h : Counted s) (hsound : Sound s) (ho : Ordered s) (e : Event)
    (he : Regular s e) (hs : step s e = some t) : Counted t := by
  cases e with
  | readInto addr key req => exact h.readInto hsound.next addr key req hs
  | waitReceive id => exact h.waitReceive hsound id he.1 hs
  | perform i => exact h.perform hsound ho i hs

end Completions

end KYM.ReadOrder
