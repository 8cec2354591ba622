import KnowYourMemory.ReadOrder

/-!
# Completions that are polled away

A direct-read receiver that sends as well. Its sends complete with the number 0, and
before each of them everything that has completed is polled and dropped. The completions
that are still to come keep the order of their reads, and a wait ends as long as the one
of the last read is not among those that were dropped.
-/

set_option autoImplicit false

namespace KYM.DrainedReads
open KYM.Run KYM.CompletionQueue KYM.DirectRead KYM.ReadOrder

def isRead (j : ℕ) : Bool := j ≠ 0

def pending (s : System) : List ℕ := s.sendCq.filter isRead++signals s.sendQueue

structure Flow (s : System) (drained : List ℕ) : Prop where
  order : (pending s).Pairwise (· < ·)
  bounds : ∀ j ∈ pending s, s.conn.ackdRcvId < j ∧ j < s.conn.nextRcvId
  ackd : s.conn.ackdRcvId < s.conn.nextRcvId
  newest : s.conn.nextRcvId = s.conn.ackdRcvId+1 ∨ s.conn.nextRcvId-1 ∈ pending s ∨
    s.conn.nextRcvId-1 ∈ drained
  drained : ∀ j ∈ drained, j < s.conn.nextRcvId ∧ ∀ i ∈ pending s, j < i
  queue : ∀ w ∈ s.sendQueue, w.signaled = true → w.opcode = .rdmaRead ∨ w.fence = true
  table : s.conn.fence = false → ∀ k, (s.conn.outstandingReadWr k).signaled = false

section Flow

variable {s t : System} {drained : List ℕ}

theorem isRead_of_pos {j : ℕ} (h : 1 ≤ j) : isRead j = true := by
  simp [isRead]
  omega

theorem init_flow (fence : Bool) : Flow (init fence) [] where
  order := List.Pairwise.nil
  bounds _ h := by cases h
  ackd := Nat.zero_lt_one
  newest := Or.inl rfl
  drained _ h := by cases h
  queue _ h := by cases h
  table _ _ := rfl

theorem Flow.keep (h : Flow s drained) (hp : pending t = pending s) (hc : t.conn = s.conn)
    (hq : ∀ w ∈ t.sendQueue, w.signaled = true → w.opcode = .rdmaRead ∨ w.fence = true) :
    Flow t drained where
  order := hp ▸ h.order
  bounds := by
    rw [hp, hc]
    exact h.bounds
  ackd := hc ▸ h.ackd
  newest := by
    rw [hp, hc]
    exact h.newest
  drained := by
    rw [hp, hc]
    exact h.drained
  queue := hq
  table := hc ▸ h.table

theorem Flow.readInto (h : Flow s drained) (addr : UInt64) (key : UInt32) (req : ReadRequest)
    (hs : step s (.readInto addr key req) = some t) : Flow t drained := by
  rcases issue_views addr key req hs with rfl | ⟨-, acks, table, hacks, htable, rfl⟩
  · exact h
  have hsignals : signals (wrData s.conn.fence s.conn.nextRcvId addr key req::acks) =
      [s.conn.nextRcvId] := by
    rw [hacks]
    cases s.conn.fence <;> rfl
  have hpending : s.sendCq.filter isRead++signals (s.sendQueue++
      wrData s.conn.fence s.conn.nextRcvId addr key req::acks) = pending s++[s.conn.nextRcvId] := by
    rw [signals_append, hsignals, ← List.append_assoc, pending]
  have hackd := h.ackd
  constructor <;> simp only [pending, hpending]
  · apply List.pairwise_append.mpr
    refine ⟨h.order, List.pairwise_singleton _ _, fun j hj i hi => ?_⟩
    rw [List.mem_singleton.mp hi]
    exact (h.bounds j hj).2
  · intro j hj
    rcases List.mem_append.mp hj with hj | hj
    · have hb := h.bounds j hj
      omega
    · rw [List.mem_singleton.mp hj]
      omega
  · omega
  · right
    left
    exact List.mem_append_right _ (List.mem_singleton_self _)
  · intro j hj
    obtain ⟨hlt, hbelow⟩ := h.drained j hj
    refine ⟨by omega, fun i hi => ?_⟩
    rcases List.mem_append.mp hi with hi | hi
    · exact hbelow i hi
    · rw [List.mem_singleton.mp hi]
      exact hlt
  · intro w hw hsig
    rcases List.mem_append.mp hw with hw | hw
    · exact h.queue w hw hsig
    · rcases List.mem_cons.mp hw with rfl | hw
      · exact Or.inl rfl
      · rw [hacks] at hw
        split at hw
        · rw [List.mem_singleton.mp hw]
          exact Or.inr rfl
        · cases hw
  · intro hf k
    rw [htable, if_neg (by simp [hf])]
    by_cases hk : k = s.conn.nextRcvId%maxRcv
    · rw [hk, Function.update_self]
      rfl
    · rw [Function.update_of_ne hk]
      exact h.table hf k

theorem Flow.waitReceive (h : Flow s drained) (id : ℕ)
    (hs : step s (.waitReceive id) = some t) :
    Flow t drained ∧ t.conn.nextRcvId = s.conn.nextRcvId ∧ id ≤ t.conn.ackdRcvId ∧
      ((t.conn.ackdRcvId = s.conn.ackdRcvId ∧ pending t = pending s) ∨
        ∃ vs, pending s = vs++t.conn.ackdRcvId::pending t) := by
  obtain ⟨ackd, sendCq, wrs, hpoll, hwrs, rfl⟩ := wait_views id hs
  have hid := (pollUntil_ends hpoll).1
  have hnone : signals wrs = [] := by
    rw [hwrs]
    split
    · rfl
    · next hf =>
      rw [signals_cons, h.table (by simpa using hf)]
      rfl
  have hpending : ∀ r : System, r.sendCq = sendCq → r.sendQueue = s.sendQueue++wrs →
      pending r = sendCq.filter isRead++signals s.sendQueue := by
    intro r hcq hqueue
    rw [pending, hcq, hqueue, signals_append, hnone, List.append_nil]
  have hwrites : ∀ w ∈ s.sendQueue++wrs, w.signaled = true → w.opcode = .rdmaRead ∨ w.fence = true := by
    intro w hw hsig
    rcases List.mem_append.mp hw with hw | hw
    · exact h.queue w hw hsig
    · rw [hwrs] at hw
      split at hw
      · cases hw
      · next hf =>
        rw [List.mem_singleton.mp hw, h.table (by simpa using hf)] at hsig
        cases hsig
  by_cases hle : id ≤ s.conn.ackdRcvId
  · rw [pollUntil_of_le hle] at hpoll
    obtain ⟨rfl, rfl⟩ := Prod.mk.inj (Option.some.inj hpoll)
    have hsame := hpending { s with
      sendQueue := s.sendQueue++wrs
      waited := s.waited++[id]
      posted := s.posted++wrs } rfl rfl
    exact ⟨h.keep hsame rfl hwrites, rfl, hle, Or.inl ⟨rfl, hsame⟩⟩
  · have htaken : ∃ vs, pending s = vs++ackd::(sendCq.filter isRead++signals s.sendQueue) := by
      rcases pollUntil_split hpoll with ⟨rfl, -⟩ | ⟨vs, hvs⟩
      · exact absurd hid hle
      · refine ⟨vs.filter isRead, ?_⟩
        rw [pending, hvs, List.filter_append, List.filter_cons_of_pos (isRead_of_pos (by omega)),
          List.append_assoc, List.cons_append]
    have hsame := hpending { s with
      conn := { s.conn with ackdRcvId := ackd }
      sendCq := sendCq
      sendQueue := s.sendQueue++wrs
      waited := s.waited++[id]
      posted := s.posted++wrs } rfl rfl
    obtain ⟨vs, hvs⟩ := htaken
    have horder := h.order
    rw [hvs] at horder
    obtain ⟨-, hrest, hbefore⟩ := List.pairwise_append.mp horder
    obtain ⟨hafter, hrest⟩ := List.pairwise_cons.mp hrest
    have hbound := h.bounds ackd (hvs ▸ List.mem_append_right _ List.mem_cons_self)
    have hsub : ∀ j ∈ sendCq.filter isRead++signals s.sendQueue, j ∈ pending s := by
      intro j hj
      rw [hvs]
      exact List.mem_append_right _ (List.mem_cons_of_mem _ hj)
    refine ⟨⟨?_, ?_, hbound.2, ?_, ?_, hwrites, h.table⟩, rfl, hid, Or.inr ⟨vs, hsame.symm ▸ hvs⟩⟩
    · exact hsame.symm ▸ hrest
    · rw [hsame]
      exact fun j hj => ⟨hafter j hj, (h.bounds j (hsub j hj)).2⟩
    · rw [hsame]
      rcases h.newest with hn | hn | hn
      · simp only
        omega
      · rw [hvs] at hn
        simp only [List.mem_append, List.mem_cons] at hn
        rcases hn with hn | hn | hn
        · have hlt := hbefore _ hn ackd List.mem_cons_self
          omega
        · left
          simp only
          omega
        · exact Or.inr (Or.inl (List.mem_append.mpr hn))
      · exact Or.inr (Or.inr hn)
    · rw [hsame]
      exact fun j hj => ⟨(h.drained j hj).1, fun i hi => (h.drained j hj).2 i (hsub i hi)⟩

theorem Flow.perform (h : Flow s drained) (i : ℕ) (hs : step s (.perform i) = some t) :
    Flow t drained ∧ t.conn = s.conn ∧ pending t = pending s := by
  obtain ⟨ws, w, vs, hq, hover, rfl⟩ := perform_views i hs
  have hin : w ∈ s.sendQueue := by simp [hq]
  have hsame : (if w.signaled then s.sendCq++[w.wrId] else s.sendCq).filter isRead++
      signals (ws++vs) = pending s := by
    rw [pending, hq, signals_append, signals_append, signals_cons]
    by_cases hsig : w.signaled
    · have hnil : ws = [] := by
        apply nil_of_overtakes hover
        rintro ⟨hop, hfence⟩
        rcases h.queue w hin hsig with hr | hr
        · rw [hop] at hr
          cases hr
        · rw [hfence] at hr
          cases hr
      have hmem : w.wrId ∈ pending s := by
        rw [pending, hq, signals_append, signals_cons, if_pos hsig]
        simp
      have hpos := (h.bounds _ hmem).1
      rw [if_pos hsig, if_pos hsig, hnil, List.filter_append,
        List.filter_cons_of_pos (isRead_of_pos (by omega)), List.append_assoc]
      rfl
    · rw [if_neg hsig, if_neg hsig]
  exact ⟨h.keep hsame rfl (fun v hv => h.queue v (hq ▸ mem_around hv)), rfl, hsame⟩

theorem pending_send (s : System) : pending { s with sendCq := s.sendCq++[0] } = pending s := by
  rw [pending, List.filter_append, pending]
  simp [isRead]

theorem Flow.send (h : Flow s drained) : Flow { s with sendCq := s.sendCq++[0] } drained :=
  h.keep (pending_send s) rfl h.queue

theorem Flow.drain (h : Flow s drained) :
    Flow { s with sendCq := [] } (drained++s.sendCq.filter isRead) := by
  obtain ⟨-, hqueue, hbelow⟩ := List.pairwise_append.mp h.order
  have hsub : ∀ j ∈ signals s.sendQueue, j ∈ pending s := fun j hj => List.mem_append_right _ hj
  refine ⟨hqueue, fun j hj => h.bounds j (hsub j hj), h.ackd, ?_, ?_, h.queue, h.table⟩
  · rcases h.newest with hn | hn | hn
    · exact Or.inl hn
    · rcases List.mem_append.mp hn with hn | hn
      · exact Or.inr (Or.inr (List.mem_append_right _ hn))
      · exact Or.inr (Or.inl hn)
    · exact Or.inr (Or.inr (List.mem_append_left _ hn))
  · intro j hj
    rcases List.mem_append.mp hj with hj | hj
    · exact ⟨(h.drained j hj).1, fun i hi => (h.drained j hj).2 i (hsub i hi)⟩
    · exact ⟨(h.bounds j (List.mem_append_left _ hj)).2, fun i hi => hbelow j hj i hi⟩

theorem Flow.none_pending (h : Flow s drained) (hd : s.conn.nextRcvId-1 ∈ drained) :
    pending s = [] := by
  apply List.eq_nil_iff_forall_not_mem.mpr
  intro j hj
  have hlt := (h.drained _ hd).2 j hj
  have hb := (h.bounds j hj).2
  omega

end Flow

end KYM.DrainedReads
