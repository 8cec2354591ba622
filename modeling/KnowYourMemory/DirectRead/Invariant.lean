import KnowYourMemory.DirectRead.Connection

/-!
# Reads and their acknowledgements

Every request is either not yet acknowledged, or its acknowledging write is behind its read.
-/

set_option autoImplicit false

namespace KYM.DirectRead
open KYM.Run KYM.Circle KYM.RingBuffer KYM.CompletionQueue

def acksOf (id : ℕ) (ws : List SendWr) : List SendWr :=
  ws.filter (fun w => w.opcode = .rdmaWrite ∧ w.wrId = id)

def ReadIn (ws : List SendWr) (id : ℕ) : Prop :=
  ∃ r ∈ ws, r.opcode = .rdmaRead ∧ r.wrId = id

def Follows (ws : List SendWr) : Prop :=
  ∀ i w, ws[i]? = some w → w.opcode = .rdmaWrite → ReadIn (ws.take i) w.wrId

/-- Once its time has come the acknowledging write of a request is posted once, with
the address and the key of the request; it takes effect behind the read. -/
structure Acknowledged (s : System) : Prop where
  once : ∀ i req, s.requests[i]? = some req → (s.conn.fence = true ∨ i+1 ∈ s.waited) →
    ∃ w, acksOf (i+1) s.posted = [w] ∧ w.remoteAddr = req.addr-1 ∧ w.rkey = req.key
  unasked : ∀ id, s.conn.fence = false → id ∉ s.waited → acksOf id s.posted = []
  follows : Follows s.done

def Asked (s : System) (id : ℕ) : Prop :=
  1 ≤ id ∧ id ≤ s.requests.length ∧ (s.conn.fence = true ∨ id ∈ s.waited)

structure Fenced (s : System) : Prop where
  order : s.done++s.sendQueue = s.posted
  follows : Follows s.posted
  fences : ∀ w ∈ s.sendQueue, w.opcode = .rdmaWrite → w.fence = true

def reads (ws : List SendWr) : List ℕ :=
  (ws.filter (fun w => w.opcode = .rdmaRead)).map SendWr.wrId

/-- Without fences the reads up to `ackdRcvId+k` have completed, `k` of them since the
last poll, and a request that is not waited for has its place in the table. -/
structure Unfenced (s : System) (k : ℕ) : Prop where
  cq : s.sendCq = List.range' (s.conn.ackdRcvId+1) k
  queue : reads s.sendQueue =
    List.range' (s.conn.ackdRcvId+k+1) (s.requests.length-(s.conn.ackdRcvId+k))
  le : s.conn.ackdRcvId+k ≤ s.requests.length
  done : ∀ id, 1 ≤ id → id ≤ s.conn.ackdRcvId+k → ReadIn s.done id
  writes : ∀ w ∈ s.sendQueue, w.opcode = .rdmaWrite → ReadIn s.done w.wrId
  signals : ∀ w ∈ s.sendQueue, w.signaled = true ↔ w.opcode = .rdmaRead
  recent : ∀ i < s.requests.length, i+1 ∉ s.waited → s.requests.length ≤ i+maxRcv
  table : ∀ i req, s.requests[i]? = some req → i+1 ∉ s.waited →
    s.conn.outstandingReadWr ((i+1)%maxRcv) = wrAck false (i+1) req

structure Sound (s : System) : Prop where
  next : s.conn.nextRcvId = s.requests.length+1
  waited : ∀ id ∈ s.waited, id ≤ s.requests.length
  once : ∀ i req, s.requests[i]? = some req → Asked s (i+1) →
    acksOf (i+1) s.posted = [wrAck s.conn.fence (i+1) req]
  unasked : ∀ id, ¬Asked s id → acksOf id s.posted = []
  follows : Follows s.done
  fenced : s.conn.fence = true → Fenced s
  unfenced : s.conn.fence = false → ∃ k, Unfenced s k

section Lists

variable {ws vs : List SendWr} {w : SendWr} {id : ℕ}

theorem ReadIn.mono (h : ReadIn ws id) (hs : ws ⊆ vs) : ReadIn vs id := by
  obtain ⟨r, hr, h⟩ := h
  exact ⟨r, hs hr, h⟩

theorem follows_nil : Follows [] := by
  intro i w hw
  simp at hw

theorem Follows.concat (h : Follows ws) (hw : w.opcode = .rdmaWrite → ReadIn ws w.wrId) :
    Follows (ws++[w]) := by
  intro i v hv hop
  rcases BoundedStream.getElem?_concat_cases hv with hv | ⟨rfl, rfl⟩
  · rw [List.take_append_of_le_length (List.getElem?_eq_some_iff.mp hv).1.le]
    exact h i v hv hop
  · rw [List.take_left]
    exact hw hop

theorem Follows.pair (h : Follows ws) (f : Bool) (addr : UInt64) (key : UInt32) (req : ReadRequest) :
    Follows (ws++[wrData f id addr key req, wrAck true id req]) := by
  have hdata : Follows (ws++[wrData f id addr key req]) := by
    apply h.concat
    intro hop
    cases hop
  have hack : Follows (ws++[wrData f id addr key req]++[wrAck true id req]) := by
    apply hdata.concat
    intro _
    exact ⟨wrData f id addr key req, by simp, rfl, rfl⟩
  rwa [List.append_assoc] at hack

theorem acksOf_append (id : ℕ) (ws vs : List SendWr) :
    acksOf id (ws++vs) = acksOf id ws++acksOf id vs := List.filter_append ..

@[simp] theorem acksOf_data (id j : ℕ) (f : Bool) (addr : UInt64) (key : UInt32)
    (req : ReadRequest) (ws : List SendWr) :
    acksOf id (wrData f j addr key req::ws) = acksOf id ws := by
  simp [acksOf, wrData]

theorem acksOf_ack (id j : ℕ) (f : Bool) (req : ReadRequest) :
    acksOf id [wrAck f j req] = if j = id then [wrAck f j req] else [] := by
  by_cases h : j = id <;> simp [acksOf, wrAck, h]

theorem reads_append (ws vs : List SendWr) : reads (ws++vs) = reads ws++reads vs := by
  simp [reads]

theorem reads_cons (w : SendWr) (ws : List SendWr) :
    reads (w::ws) = if w.opcode = .rdmaRead then w.wrId::reads ws else reads ws := by
  by_cases h : w.opcode = .rdmaRead <;> simp [reads, h]

@[simp] theorem reads_data (f : Bool) (id : ℕ) (addr : UInt64) (key : UInt32)
    (req : ReadRequest) : reads [wrData f id addr key req] = [id] := rfl

@[simp] theorem reads_ack (f : Bool) (id : ℕ) (req : ReadRequest) :
    reads [wrAck f id req] = [] := rfl

end Lists

section Steps

variable {s s' : System}

theorem init_sound (fence : Bool) : Sound (init fence) where
  next := rfl
  waited := by simp [init]
  once := by
    intro i req h
    simp [init] at h
  unasked := fun _ _ => rfl
  follows := follows_nil
  fenced := fun _ => ⟨rfl, follows_nil, by simp [init]⟩
  unfenced := fun _ => ⟨0, rfl, rfl, le_refl _, by
    intro id h1 h2
    change id ≤ 0 at h2
    omega, by simp [init], by simp [init], by simp [init], by simp [init]⟩

theorem perform_views (i : ℕ) (hs : perform s i = some s') :
    ∃ ws w vs, s.sendQueue = ws++w::vs ∧ (∀ v ∈ ws, w.mayOvertake v = true) ∧
      s' = { s with
        sendQueue := ws++vs
        sendCq := if w.signaled then s.sendCq++[w.wrId] else s.sendCq
        done := s.done++[w] } := by
  unfold perform at hs
  cases hw : s.sendQueue[i]? with
  | none => simp [hw] at hs
  | some w =>
    simp only [hw] at hs
    split at hs
    · next hall =>
      obtain ⟨hi, hget⟩ := List.getElem?_eq_some_iff.mp hw
      refine ⟨s.sendQueue.take i, w, s.sendQueue.drop (i+1), ?_, List.all_eq_true.mp hall, ?_⟩
      · rw [← hget, List.getElem_cons_drop, List.take_append_drop]
      · rw [← List.eraseIdx_eq_take_drop_succ]
        exact (Option.some.inj hs).symm
    · cases hs

theorem mayOvertake_iff (w v : SendWr) : w.mayOvertake v = true ↔
    w.opcode = .rdmaWrite ∧ w.fence = false ∧ v.opcode = .rdmaRead := by
  simp [SendWr.mayOvertake, and_assoc]

theorem nil_of_overtakes {w : SendWr} {ws : List SendWr} (h : ∀ v ∈ ws, w.mayOvertake v = true)
    (hw : ¬(w.opcode = .rdmaWrite ∧ w.fence = false)) : ws = [] := by
  apply List.eq_nil_iff_forall_not_mem.mpr
  intro v hv
  have := (mayOvertake_iff w v).mp (h v hv)
  exact hw ⟨this.1, this.2.1⟩

theorem mem_around {ws vs : List SendWr} {w v : SendWr} (hv : v ∈ ws++vs) : v ∈ ws++w::vs := by
  rcases List.mem_append.mp hv with hv | hv <;> simp [hv]

theorem Unfenced.perform {k : ℕ} {ws vs : List SendWr} {w : SendWr} (hu : Unfenced s k)
    (hq : s.sendQueue = ws++w::vs) (hover : ∀ v ∈ ws, w.mayOvertake v = true) :
    ∃ k', Unfenced { s with
      sendQueue := ws++vs
      sendCq := if w.signaled then s.sendCq++[w.wrId] else s.sendCq
      done := s.done++[w] } k' := by
  have hin : w ∈ s.sendQueue := by simp [hq]
  have hsub : ∀ v ∈ ws++vs, v ∈ s.sendQueue := fun v hv => hq ▸ mem_around hv
  have hqueue := hu.queue
  rw [hq, reads_append, reads_cons] at hqueue
  by_cases hop : w.opcode = .rdmaRead
  · have hnil := nil_of_overtakes hover (by simp [hop])
    have hlt : s.conn.ackdRcvId+k < s.requests.length := by
      by_contra hge
      rw [if_pos hop, hnil, show s.requests.length-(s.conn.ackdRcvId+k) = 0 by omega] at hqueue
      simp [reads] at hqueue
    rw [if_pos hop, hnil, show s.requests.length-(s.conn.ackdRcvId+k) =
      s.requests.length-(s.conn.ackdRcvId+(k+1))+1 by omega, List.range'_succ] at hqueue
    obtain ⟨hid, htail⟩ := List.cons.inj hqueue
    refine ⟨k+1, ?_, ?_, hlt, ?_, ?_, fun v hv => hu.signals v (hsub v hv), hu.recent, hu.table⟩
    · simp only [(hu.signals w hin).mpr hop, if_true, hu.cq, hid, List.range'_concat]
      congr 2
      omega
    · simp only [hnil]
      exact htail
    · intro id h1 h2
      by_cases hlast : id = s.conn.ackdRcvId+k+1
      · exact ⟨w, by simp, hop, hid.trans hlast.symm⟩
      · exact (hu.done id h1 (by simp only at h2; omega)).mono (List.subset_append_left _ _)
    · intro v hv hw
      exact (hu.writes v (hsub v hv) hw).mono (List.subset_append_left _ _)
  · have hsig : w.signaled = false := by
      rw [← Bool.not_eq_true, hu.signals w hin]
      exact hop
    rw [if_neg hop, ← reads_append] at hqueue
    refine ⟨k, ?_, hqueue, hu.le, ?_, ?_, fun v hv => hu.signals v (hsub v hv), hu.recent, hu.table⟩
    · simp only [hsig, Bool.false_eq_true, if_false]
      exact hu.cq
    · intro id h1 h2
      exact (hu.done id h1 h2).mono (List.subset_append_left _ _)
    · intro v hv hw
      exact (hu.writes v (hsub v hv) hw).mono (List.subset_append_left _ _)

theorem Sound.perform (h : Sound s) (i : ℕ) (hs : step s (.perform i) = some s') : Sound s' := by
  obtain ⟨ws, w, vs, hq, hover, rfl⟩ := perform_views i hs
  have hin : w ∈ s.sendQueue := by simp [hq]
  have hsub : ∀ v ∈ ws++vs, v ∈ s.sendQueue := fun v hv => hq ▸ mem_around hv
  refine ⟨h.next, h.waited, h.once, h.unasked, ?_, ?_, ?_⟩
  · apply h.follows.concat
    intro hop
    cases hf : s.conn.fence with
    | false =>
      obtain ⟨k, hu⟩ := h.unfenced hf
      exact hu.writes w hin hop
    | true =>
      have hfen := h.fenced hf
      have hnil := nil_of_overtakes hover (by simp [hop, hfen.fences w hin hop])
      have hpos : s.posted[s.done.length]? = some w := by
        rw [← hfen.order, hq, hnil]
        simp
      have := hfen.follows _ w hpos hop
      rwa [← hfen.order, List.take_left] at this
  · intro hf
    have hfen := h.fenced hf
    have hnil : ws = [] := by
      apply nil_of_overtakes hover
      rintro ⟨hop, hfe⟩
      simp [hfen.fences w hin hop] at hfe
    refine ⟨?_, hfen.follows, fun v hv => hfen.fences v (hsub v hv)⟩
    rw [← hfen.order, hq, hnil]
    simp
  · intro hf
    obtain ⟨k, hu⟩ := h.unfenced hf
    exact hu.perform hq hover

theorem readInto_ok (c : ReadConnection) (addr : UInt64) (key : UInt32) (req : ReadRequest)
    (h : c.nextRcvId ≤ c.ackdRcvId+maxRcv) : readInto c addr key req = .ok (c.nextRcvId,
      wrData c.fence c.nextRcvId addr key req::
        (if c.fence then [wrAck true c.nextRcvId req] else []),
      { c with
        nextRcvId := c.nextRcvId+1
        outstandingReadWr := if c.fence then c.outstandingReadWr else
          Function.update c.outstandingReadWr (c.nextRcvId%maxRcv)
            (wrAck false c.nextRcvId req) }) := by
  rw [readInto, if_neg (by omega)]
  obtain ⟨fence, ackd, next, table⟩ := c
  cases fence <;> rfl

theorem issue_views (addr : UInt64) (key : UInt32) (req : ReadRequest)
    (hs : step s (.readInto addr key req) = some s') :
    s' = s ∨ (s.conn.nextRcvId ≤ s.conn.ackdRcvId+maxRcv ∧
      ∃ acks table,
        acks = (if s.conn.fence then [wrAck true s.conn.nextRcvId req] else []) ∧
        table = (if s.conn.fence then s.conn.outstandingReadWr else
          Function.update s.conn.outstandingReadWr (s.conn.nextRcvId%maxRcv)
            (wrAck false s.conn.nextRcvId req)) ∧
        s' = { s with
          conn := { s.conn with nextRcvId := s.conn.nextRcvId+1, outstandingReadWr := table }
          sendQueue := s.sendQueue++wrData s.conn.fence s.conn.nextRcvId addr key req::acks
          requests := s.requests++[req]
          posted := s.posted++wrData s.conn.fence s.conn.nextRcvId addr key req::acks }) := by
  simp only [step] at hs
  rcases Nat.lt_or_ge (s.conn.ackdRcvId+maxRcv) s.conn.nextRcvId with hl | hl
  · rw [readInto, if_pos hl] at hs
    exact Or.inl (Option.some.inj hs).symm
  · rw [readInto_ok s.conn addr key req hl] at hs
    exact Or.inr ⟨hl, _, _, rfl, rfl, (Option.some.inj hs).symm⟩

theorem wait_views (id : ℕ) (hs : step s (.waitReceive id) = some s') :
    ∃ ackd sendCq wrs, pollUntil last id s.conn.ackdRcvId s.sendCq = some (ackd, sendCq) ∧
      wrs = (if s.conn.fence then [] else [s.conn.outstandingReadWr (id%maxRcv)]) ∧
      s' = { s with
        conn := { s.conn with ackdRcvId := ackd }
        sendQueue := s.sendQueue++wrs
        sendCq := sendCq
        waited := s.waited++[id]
        posted := s.posted++wrs } := by
  simp only [step, waitReceive] at hs
  cases hp : pollUntil last id s.conn.ackdRcvId s.sendCq with
  | none => simp [hp] at hs
  | some p =>
    simp only [hp, Option.some.injEq] at hs
    exact ⟨p.1, p.2, _, rfl, rfl, hs.symm⟩

end Steps

end KYM.DirectRead
