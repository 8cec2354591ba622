import KnowYourMemory.DirectRead.Invariant

/-!
# Acknowledgement of direct reads

A request is acknowledged once, to its own sender, and only behind its read, as long as
its place in the table is free when it is accepted.
-/

set_option autoImplicit false

namespace KYM.DirectRead
open KYM.Run KYM.Circle KYM.RingBuffer KYM.CompletionQueue

section Steps

variable {s s' : System}

theorem asked_issue {i : ℕ} {req r : ReadRequest} {q : System}
    (hq : q.requests = s.requests++[req]) (hf : q.conn.fence = s.conn.fence)
    (hw : q.waited = s.waited) (hi : s.requests[i]? = some r) : Asked q (i+1) ↔ Asked s (i+1) := by
  have := (List.getElem?_eq_some_iff.mp hi).1
  simp only [Asked, hq, hf, hw, List.length_append, List.length_singleton]
  constructor
  · rintro ⟨-, -, h⟩
    exact ⟨by omega, by omega, h⟩
  · rintro ⟨-, -, h⟩
    exact ⟨by omega, by omega, h⟩

theorem Unfenced.place {k : ℕ} (hu : Unfenced s k) (hn : s.conn.nextRcvId = s.requests.length+1)
    (hf : s.conn.fence = false) (hroom : s.conn.nextRcvId ≤ s.conn.ackdRcvId+maxRcv) (addr : UInt64)
    (key : UInt32) (req : ReadRequest) (hp : PlaceFree s (.readInto addr key req)) :
    ∀ i < s.requests.length+1, i+1 ∉ s.waited → s.requests.length+1 ≤ i+maxRcv := by
  intro i hi hnw
  by_cases hlast : i = s.requests.length
  · simp [hlast, maxRcv]
  · have hold := hu.recent i (by omega) hnw
    have hfree : s.conn.nextRcvId ≤ maxRcv ∨ s.conn.nextRcvId-maxRcv ∈ s.waited := by
      rcases hp with hp | hp | hp | hp
      · simp [hf] at hp
      · omega
      · exact Or.inl hp
      · exact Or.inr hp
    by_contra hlt
    rcases hfree with hfr | hfr
    · omega
    · exact hnw (by rwa [show s.conn.nextRcvId-maxRcv = i+1 by omega] at hfr)

theorem Unfenced.issue {k : ℕ} (hu : Unfenced s k) (hn : s.conn.nextRcvId = s.requests.length+1)
    (hf : s.conn.fence = false) (hroom : s.conn.nextRcvId ≤ s.conn.ackdRcvId+maxRcv) (addr : UInt64)
    (key : UInt32) (req : ReadRequest) (hp : PlaceFree s (.readInto addr key req)) :
    Unfenced { s with
      conn := { s.conn with
        nextRcvId := s.conn.nextRcvId+1
        outstandingReadWr := Function.update s.conn.outstandingReadWr (s.conn.nextRcvId%maxRcv)
          (wrAck false s.conn.nextRcvId req) }
      sendQueue := s.sendQueue++[wrData s.conn.fence s.conn.nextRcvId addr key req]
      requests := s.requests++[req]
      posted := s.posted++[wrData s.conn.fence s.conn.nextRcvId addr key req] } k := by
  have hle := hu.le
  have hrecent := hu.place hn hf hroom addr key req hp
  refine ⟨hu.cq, ?_, ?_, hu.done, ?_, ?_, ?_, ?_⟩
  · simp only [reads_append, hu.queue, List.length_append, List.length_singleton]
    rw [show s.requests.length+1-(s.conn.ackdRcvId+k) =
      s.requests.length-(s.conn.ackdRcvId+k)+1 by omega, List.range'_concat]
    rw [reads_data, hn, show s.conn.ackdRcvId+k+1+1*(s.requests.length-(s.conn.ackdRcvId+k)) =
      s.requests.length+1 by omega]
  · simp only [List.length_append, List.length_singleton]
    omega
  · intro w hw hop
    rcases List.mem_append.mp hw with hw | hw
    · exact hu.writes w hw hop
    · rw [List.mem_singleton.mp hw] at hop
      cases hop
  · intro w hw
    rcases List.mem_append.mp hw with hw | hw
    · exact hu.signals w hw
    · rw [List.mem_singleton.mp hw]
      simp [wrData, hf]
  · intro i hi hnw
    simp only [List.length_append, List.length_singleton] at hi ⊢
    exact hrecent i hi hnw
  · intro i r hi hnw
    rcases BoundedStream.getElem?_concat_cases hi with hold | ⟨rfl, rfl⟩
    · have hlt := (List.getElem?_eq_some_iff.mp hold).1
      have hnear := hrecent i (by omega) hnw
      have hne : (i+1)%maxRcv ≠ s.conn.nextRcvId%maxRcv := by
        intro he
        have := residue_inj maxRcv (i+1) s.conn.nextRcvId (by omega) (by omega) he
        omega
      simp only [Function.update_of_ne hne]
      exact hu.table i r hold hnw
    · simp only [hn, Function.update_self]

theorem Sound.readInto (h : Sound s) (addr : UInt64) (key : UInt32) (req : ReadRequest)
    (hp : PlaceFree s (.readInto addr key req))
    (hs : step s (.readInto addr key req) = some s') : Sound s' := by
  rcases issue_views addr key req hs with rfl | ⟨hroom, acks, table, hacks, htable, hs'⟩
  · exact h
  have hn := h.next
  have hasked : ∀ i r, s.requests[i]? = some r → (Asked s' (i+1) ↔ Asked s (i+1)) :=
    fun i r hi => asked_issue (by rw [hs']) (by rw [hs']) (by rw [hs']) hi
  subst hs'
  have hnew : ∀ id, acksOf id acks =
      if s.conn.fence = true ∧ id = s.conn.nextRcvId then [wrAck true id req] else [] := by
    intro id
    rw [hacks]
    cases hf : s.conn.fence with
    | false => simp [acksOf]
    | true =>
      rw [if_pos rfl, acksOf_ack]
      by_cases hid : s.conn.nextRcvId = id
      · simp [hid]
      · simp [hid, Ne.symm hid]
  have hreq : ∀ i r, (s.requests++[req])[i]? = some r →
      s.requests[i]? = some r ∨ (i+1 = s.conn.nextRcvId ∧ r = req) := by
    intro i r hi
    rcases BoundedStream.getElem?_concat_cases hi with hi | ⟨rfl, rfl⟩
    · exact Or.inl hi
    · exact Or.inr ⟨hn.symm, rfl⟩
  refine ⟨?_, ?_, ?_, ?_, h.follows, ?_, ?_⟩
  · simp only [List.length_append, List.length_singleton, hn]
  · intro id hid
    simp only [List.length_append, List.length_singleton]
    exact (h.waited id hid).trans (Nat.le_succ _)
  · intro i r hi ha
    rw [acksOf_append, acksOf_data, hnew]
    rcases hreq i r hi with hold | ⟨hid, rfl⟩
    · have := (List.getElem?_eq_some_iff.mp hold).1
      rw [h.once i r hold ((hasked i r hold).mp ha), if_neg (by omega), List.append_nil]
    · have hfresh := h.unasked (i+1) (by
        rintro ⟨-, h2, -⟩
        omega)
      have hf : s.conn.fence = true := by
        rcases ha.2.2 with hf | hw
        · exact hf
        · have := h.waited _ hw
          omega
      rw [hfresh, if_pos ⟨hf, hid⟩, hf, List.nil_append]
  · intro id ha
    rw [acksOf_append, acksOf_data, hnew, h.unasked id, List.nil_append]
    · rw [if_neg]
      rintro ⟨hf, rfl⟩
      apply ha
      simp [Asked, hn, hf]
    · rintro ⟨h1, h2, h3⟩
      exact ha ⟨h1, by simp only [List.length_append]; omega, h3⟩
  · intro hf
    have hfen := h.fenced hf
    rw [if_pos hf] at hacks
    subst hacks
    refine ⟨by simp [← hfen.order], hfen.follows.pair _ _ _ _, ?_⟩
    intro w hw hop
    simp only [List.mem_append, List.mem_cons, List.not_mem_nil, or_false] at hw
    rcases hw with hw | rfl | rfl
    · exact hfen.fences w hw hop
    · cases hop
    · rfl
  · intro hf
    replace hf : s.conn.fence = false := hf
    obtain ⟨k, hu⟩ := h.unfenced hf
    rw [if_neg (by simp [hf])] at hacks htable
    subst hacks htable
    exact ⟨k, hu.issue hn hf hroom addr key req hp⟩

theorem Unfenced.wait {k ackd : ℕ} {sendCq : List ℕ} (hu : Unfenced s k) (id : ℕ)
    (req : ReadRequest) (h1 : 1 ≤ id)
    (hpoll : pollUntil last id s.conn.ackdRcvId s.sendCq = some (ackd, sendCq)) :
    Unfenced { s with
      conn := { s.conn with ackdRcvId := ackd }
      sendQueue := s.sendQueue++[wrAck false id req]
      sendCq := sendCq
      waited := s.waited++[id]
      posted := s.posted++[wrAck false id req] } (s.conn.ackdRcvId+k-ackd) := by
  rw [hu.cq] at hpoll
  obtain ⟨hle, -⟩ := pollUntil_ends hpoll
  obtain ⟨-, hbk, hrest⟩ := pollUntil_consecutive hpoll
  refine ⟨hrest, ?_, ?_, ?_, ?_, ?_, ?_, ?_⟩
  · simp only [reads_append, reads_ack, List.append_nil, Nat.add_sub_cancel' hbk]
    exact hu.queue
  · simp only [Nat.add_sub_cancel' hbk]
    exact hu.le
  · simp only [Nat.add_sub_cancel' hbk]
    exact hu.done
  · intro w hw hop
    rcases List.mem_append.mp hw with hw | hw
    · exact hu.writes w hw hop
    · rw [List.mem_singleton.mp hw]
      exact hu.done id h1 (hle.trans hbk)
  · intro w hw
    rcases List.mem_append.mp hw with hw | hw
    · exact hu.signals w hw
    · rw [List.mem_singleton.mp hw]
      simp [wrAck]
  · intro i hi hni
    exact hu.recent i hi (fun hm => hni (List.mem_append_left _ hm))
  · intro i r hi hni
    exact hu.table i r hi (fun hm => hni (List.mem_append_left _ hm))

theorem Sound.waitReceive (h : Sound s) (id : ℕ) (ho : Once s (.waitReceive id))
    (hs : step s (.waitReceive id) = some s') : Sound s' := by
  obtain ⟨ackd, sendCq, wrs, hpoll, hwrs, hs'⟩ := wait_views id hs
  obtain ⟨h1, hlt, hnw⟩ := ho
  have hn := h.next
  obtain ⟨req, hreq⟩ : ∃ req, s.requests[id-1]? = some req :=
    ⟨_, List.getElem?_eq_getElem (by omega)⟩
  have hwaited : ∀ j ∈ s.waited++[id], j ≤ s.requests.length := by
    intro j hj
    rcases List.mem_append.mp hj with hj | hj
    · exact h.waited j hj
    · rw [List.mem_singleton.mp hj]
      omega
  cases hf : s.conn.fence with
  | true =>
    rw [if_pos hf] at hwrs
    subst hwrs
    rw [List.append_nil, List.append_nil] at hs'
    have hasked : ∀ j, Asked s' j ↔ Asked s j := by
      intro j
      simp [hs', Asked, hf]
    have hfen := h.fenced hf
    subst hs'
    refine ⟨hn, hwaited, ?_, ?_, h.follows, fun _ => ⟨hfen.order, hfen.follows, hfen.fences⟩, ?_⟩
    · intro i r hi ha
      exact h.once i r hi ((hasked _).mp ha)
    · intro j ha
      exact h.unasked j (fun hj => ha ((hasked j).mpr hj))
    · intro hf'
      simp [hf] at hf'
  | false =>
    obtain ⟨k, hu⟩ := h.unfenced hf
    have hack := hu.table (id-1) req hreq (by rwa [Nat.sub_add_cancel h1])
    rw [Nat.sub_add_cancel h1] at hack
    rw [if_neg (by simp [hf]), hack] at hwrs
    subst hwrs
    have hasked : ∀ j, Asked s' j ↔ Asked s j ∨ j = id := by
      intro j
      simp only [hs', Asked, hf, List.mem_append, List.mem_singleton]
      constructor
      · rintro ⟨h1, h2, h3 | h3 | h3⟩
        · cases h3
        · exact Or.inl ⟨h1, h2, Or.inr h3⟩
        · exact Or.inr h3
      · rintro (⟨h1, h2, h3⟩ | rfl)
        · exact ⟨h1, h2, h3.imp_right Or.inl⟩
        · exact ⟨h1, by omega, Or.inr (Or.inr rfl)⟩
    have hfresh := h.unasked id (by simp [Asked, hf, hnw])
    subst hs'
    refine ⟨hn, hwaited, ?_, ?_, h.follows, ?_, ?_⟩
    · intro i r hi ha
      simp only [acksOf_append, acksOf_ack, hf]
      by_cases hid : id = i+1
      · obtain rfl : req = r := by
          rw [hid, Nat.add_sub_cancel] at hreq
          exact Option.some.inj (hreq.symm.trans hi)
        rw [if_pos hid, ← hid, hfresh, List.nil_append]
      · have hold := ((hasked (i+1)).mp ha).resolve_right (Ne.symm hid)
        rw [if_neg hid, List.append_nil, h.once i r hi hold, hf]
    · intro j ha
      rw [hasked, not_or] at ha
      simp only [acksOf_append, acksOf_ack, if_neg (Ne.symm ha.2), List.append_nil]
      exact h.unasked j ha.1
    · intro hf'
      simp [hf] at hf'
    · exact fun _ => ⟨_, hu.wait id req h1 hpoll⟩

theorem Sound.step (h : Sound s) (e : Event) (he : Regular s e) (hs : step s e = some s') :
    Sound s' := by
  cases e with
  | readInto addr key req => exact h.readInto addr key req he.2 hs
  | waitReceive id => exact h.waitReceive id he.1 hs
  | perform i => exact h.perform i hs

theorem Sound.acknowledged (h : Sound s) : Acknowledged s where
  once := by
    intro i req hi ha
    have hlt := (List.getElem?_eq_some_iff.mp hi).1
    exact ⟨_, h.once i req hi ⟨by omega, by omega, ha⟩, rfl, rfl⟩
  unasked := by
    intro id hf hnw
    exact h.unasked id (fun ha => ha.2.2.elim (by simp [hf]) hnw)
  follows := h.follows

end Steps

/-- Direct read: with fences always, and without them as long as the table is not
overwritten, every acknowledging write belongs to its request. -/
theorem acknowledgement_of_request (fence : Bool) (es : List Event) (s : System)
    (hm : Meets step Regular es (init fence)) (hr : run step es (init fence) = some s) :
    Acknowledged s :=
  (run_keeps step Regular Sound (fun _ e _ h he hs => h.step e he hs) es _ s
    (init_sound fence) hm hr).acknowledged

def request (i : ℕ) : ReadRequest := ⟨UInt64.ofNat (4096*(i+1)), UInt32.ofNat i, 64⟩

def issue (i : ℕ) : Event := .readInto (UInt64.ofNat (64*i)) 3 (request i)

/-- The second request is waited for first, and its acknowledgement overtakes the
read of the third one. -/
def overtakingTrace : List Event :=
  [issue 0, issue 1, .perform 0, .perform 0, .waitReceive 2, issue 2, .waitReceive 1,
    .perform 0, .perform 1, .perform 0, .waitReceive 3, .perform 0]

theorem acknowledgement_of_request_overtaking : ∃ s,
    run step overtakingTrace (init false) = some s ∧ Acknowledged s := by
  have hr := run_get step overtakingTrace (init false) (by decide +kernel)
  exact ⟨_, hr, acknowledgement_of_request false overtakingTrace _ (by decide +kernel) hr⟩

def issuedTable : ℕ → ℕ → SendWr
  | 0 => (newReadConnection false).outstandingReadWr
  | n+1 => Function.update (issuedTable n) ((n+1)%maxRcv) (wrAck false (n+1) (request n))

def issuedData (n : ℕ) : List SendWr :=
  (List.range n).map (fun i => wrData false (i+1) (UInt64.ofNat (64*i)) 3 (request i))

def issued (n : ℕ) : System where
  conn := ⟨false, 0, n+1, issuedTable n⟩
  sendQueue := issuedData n
  sendCq := []
  requests := (List.range n).map request
  waited := []
  posted := issuedData n
  done := []

theorem step_issued (n : ℕ) (hn : n < maxRcv) : step (issued n) (issue n) = some (issued (n+1)) := by
  have hok := readInto_ok (issued n).conn (UInt64.ofNat (64*n)) 3 (request n)
    (show n+1 ≤ 0+maxRcv by omega)
  simp only [issue, step, hok]
  simp [issued, issuedData, issuedTable, List.range_succ]

theorem run_issued (n : ℕ) (hn : n ≤ maxRcv) :
    run step ((List.range n).map issue) (init false) = some (issued n) := by
  induction n with
  | zero => rfl
  | succ n ih =>
    rw [List.range_succ, List.map_append]
    exact run_concat step _ _ _ _ _ (ih (by omega)) (step_issued n (by omega))

/-- Two reads complete, the second request is waited for, and request 513 takes the
place of the first one in the table. -/
def overwritingTrace : List Event :=
  [.perform 0, .perform 0, .waitReceive 2, issue maxRcv, .waitReceive 1]

/-- Then `WaitReceive` of the first request posts the acknowledgement of request 513. -/
theorem acknowledgement_overwritten : ∃ s,
    run step ((List.range maxRcv).map issue++overwritingTrace) (init false) = some s ∧
    Meets step Once ((List.range maxRcv).map issue++overwritingTrace) (init false) ∧
    (acksOf 1 s.posted = [] ∧ acksOf 513 s.posted = [wrAck false 513 (request 512)]) ∧
    ¬Acknowledged s := by
  have hissued := run_issued maxRcv (le_refl _)
  have hissue : ∀ e ∈ (List.range maxRcv).map issue, ∀ s, Once s e := by
    intro e he s
    obtain ⟨i, -, rfl⟩ := List.mem_map.mp he
    trivial
  have hrun : (∃ s ∈ run step overwritingTrace (issued maxRcv),
      s.requests[0]? = some (request 0) ∧ (s.conn.fence = true ∨ 0+1 ∈ s.waited) ∧
      acksOf 1 s.posted = [] ∧ acksOf 513 s.posted = [wrAck false 513 (request 512)]) ∧
      Meets step Once overwritingTrace (issued maxRcv) := by decide +kernel
  generalize (List.range maxRcv).map issue = is at hissued hissue ⊢
  generalize issued maxRcv = t at hissued hrun
  generalize overwritingTrace = es at hrun ⊢
  obtain ⟨⟨s, hr, hreq, hasked, hnone, hother⟩, hm⟩ := hrun
  have hmeets := meets_append step Once is es _ t (meets_of_forall step Once is hissue _) hissued hm
  refine ⟨s, by rw [run_append, hissued]; exact hr, hmeets, ⟨hnone, hother⟩, ?_⟩
  intro h
  obtain ⟨w, hw, -⟩ := h.once 0 (request 0) hreq hasked
  rw [Nat.zero_add, hnone] at hw
  cases hw

end KYM.DirectRead
