import KnowYourMemory.WriteSenders

/-!
# Batches and single sends

A batch that needs no new head leaves both sides as its messages do when they are sent
one by one, although it posts one chain, moves the ring before it posts, and writes the
tail word once.
-/

set_option autoImplicit false

namespace KYM.BatchedSend
open KYM.Circle KYM.RingBuffer KYM.MagicMemory KYM.WriteSenders
open KYM.WriteConnection (Sender wrap written)
open KYM.WriteSender (Op storeAt)

section Accepted

variable (k : Sender) (crc : List UInt8 → UInt32) (d : Direction)

/-- The addresses of the regions and the ring afterwards, when each of them finds space
under the head that the sender knows. -/
def claims : List SendRegion → RemoteBuffer → Option (List (SendRegion × UInt64) × RemoteBuffer)
  | [], r => some ([], r)
  | reg::regs, r =>
    match getWriteAddr d r (reg.length+k.overhead) with
    | .error _ => none
    | .ok addr => (claims regs (written d r (reg.length+k.overhead))).map
        (fun p => ((reg, addr)::p.1, p.2))

def Accepted (regs : List SendRegion) (r : RemoteBuffer) : Prop := (claims k d regs r).isSome

instance (regs : List SendRegion) (r : RemoteBuffer) : Decidable (Accepted k d regs r) :=
  inferInstanceAs (Decidable (_ = true))

def sendEach : List SendRegion → RemoteBuffer → ℕ → Option (List SendWr × RemoteBuffer)
  | [], r, _ => some ([], r)
  | reg::regs, r, id =>
    match sendAsync k crc d reg [] (.ok ()) r id with
    | some ⟨.ok _, posted, _, r, id⟩ =>
      (sendEach regs r id).map (fun p => (posted++p.1, p.2))
    | _ => none

def opOf (p : SendRegion × UInt64) : Op := dataOp k crc p.1 (p.1.length+k.overhead) p.2

end Accepted

section Lemmas

variable {k : Sender} {crc : List UInt8 → UInt32} {d : Direction} {r r' : RemoteBuffer}
  {regs : List SendRegion} {cs : List (SendRegion × UInt64)}

theorem claims_cons (reg : SendRegion) (h : claims k d (reg::regs) r = some (cs, r')) :
    ∃ addr cs', getWriteAddr d r (reg.length+k.overhead) = .ok addr ∧
      claims k d regs (written d r (reg.length+k.overhead)) = some (cs', r') ∧
      cs = (reg, addr)::cs' := by
  simp only [claims] at h
  split at h
  · cases h
  next addr ha =>
  obtain ⟨⟨cs', t⟩, hc, he⟩ := Option.map_eq_some_iff.mp h
  obtain ⟨rfl, rfl⟩ := Prod.mk.inj he
  exact ⟨addr, cs', ha, hc, rfl⟩

theorem claims_length (h : claims k d regs r = some (cs, r')) : cs.length = regs.length := by
  induction regs generalizing r cs with
  | nil => simp [← (Prod.mk.inj (Option.some.inj h)).1]
  | cons reg regs ih =>
    obtain ⟨addr, cs', -, hc, rfl⟩ := claims_cons reg h
    rw [List.length_cons, List.length_cons, ih hc]

def wrsFrom (k : Sender) (crc : List UInt8 → UInt32) (id size : ℕ) :
    ℕ → List (SendRegion × UInt64) → List SendWr
  | _, [] => []
  | i, p::cs =>
    batchWr k crc id size (i+1) p.1 (p.1.length+k.overhead) p.2::wrsFrom k crc id size (i+1) cs

theorem wrsFrom_length (id size i : ℕ) : (wrsFrom k crc id size i cs).length = cs.length := by
  induction cs generalizing i with
  | nil => rfl
  | cons p cs ih => simp [wrsFrom, ih]

theorem wrsFrom_getElem (id size i j : ℕ) : (wrsFrom k crc id size i cs)[j]? =
    cs[j]?.map (fun p => batchWr k crc id size (i+1+j) p.1 (p.1.length+k.overhead) p.2) := by
  induction cs generalizing i j with
  | nil => simp [wrsFrom]
  | cons p cs ih =>
    cases j with
    | zero => simp [wrsFrom]
    | succ j =>
      rw [wrsFrom, List.getElem?_cons_succ, List.getElem?_cons_succ, ih]
      simp only [show i+1+1+j = i+1+(j+1) by omega]

theorem wrsFrom_ops (id size i : ℕ) :
    (wrsFrom k crc id size i cs).map SendWr.op = cs.map (opOf k crc) := by
  have hop : ∀ (j : ℕ) (p : SendRegion × UInt64),
      (batchWr k crc id size j p.1 (p.1.length+k.overhead) p.2).op = opOf k crc p := by
    intro j p
    cases k <;> rfl
  induction cs generalizing i with
  | nil => rfl
  | cons p cs ih => rw [wrsFrom, List.map_cons, List.map_cons, ih, hop]

theorem gather_claims (crc : List UInt8 → UInt32) (id size i : ℕ)
    (answers : List (StatusOr UInt32)) (h : claims k d regs r = some (cs, r')) :
    gather k crc d id size i regs answers r =
      some ⟨.ok (wrsFrom k crc id size i cs), answers, r'⟩ := by
  induction regs generalizing r cs i with
  | nil =>
    obtain ⟨rfl, rfl⟩ := Prod.mk.inj (Option.some.inj h)
    rfl
  | cons reg regs ih =>
    obtain ⟨addr, cs', ha, hc, rfl⟩ := claims_cons reg h
    have hspace : getWriteAddrOrDie d (reg.length+k.overhead) answers r =
        some ⟨.ok addr, answers, r⟩ := awaitSpace_ok _ _ _ _ _ ha
    simp only [gather, hspace, ih _ hc, Option.map_some, Gathered.push]
    rfl

theorem gather_wrs (id size i : ℕ) (answers : List (StatusOr UInt32)) (wrs : List SendWr)
    (rest : List (StatusOr UInt32))
    (h : gather k crc d id size i regs answers r = some ⟨.ok wrs, rest, r'⟩) :
    ∃ cs, cs.map Prod.fst = regs ∧ wrs = wrsFrom k crc id size i cs := by
  induction regs generalizing r i answers wrs with
  | nil =>
    simp only [gather, Option.some.injEq, Gathered.mk.injEq, Except.ok.injEq] at h
    exact ⟨[], rfl, h.1.symm⟩
  | cons reg regs ih =>
    simp only [gather] at h
    split at h
    · cases h
    · cases h
    next addr answers' r₁ hs =>
    obtain ⟨⟨wrs', rest', r₂⟩, hg, he⟩ := Option.map_eq_some_iff.mp h
    cases wrs' with
    | error e => cases he
    | ok wrs' =>
      obtain ⟨rfl, rfl, rfl⟩ : _::wrs' = wrs ∧ rest' = rest ∧ r₂ = r' := by
        simpa [Gathered.push, Except.map] using he
      obtain ⟨cs, hcs, rfl⟩ := ih (i+1) answers' wrs' hg
      exact ⟨(reg, addr)::cs, by rw [List.map_cons, hcs], rfl⟩

def batchWrs (k : Sender) (crc : List UInt8 → UInt32) (id : ℕ) (cs : List (SendRegion × UInt64))
    (r' : RemoteBuffer) : List SendWr := wrsFrom k crc id cs.length 0 cs++lastWr k id r'

theorem batchWrs_getElem (hk : k ≠ .reverse) (id i : ℕ) (w : SendWr)
    (hw : (batchWrs k crc id cs r')[i]? = some w) :
    (w.next = if i+1 = (batchWrs k crc id cs r').length then none else some (i+1)) ∧
    (w.signaled = true ↔ i+1 = (batchWrs k crc id cs r').length) ∧
    (w.signaled = true → w.wrId = id) := by
  have hlen : (batchWrs k crc id cs r').length = cs.length+(lastWr k id r').length := by
    rw [batchWrs, List.length_append, wrsFrom_length]
  rw [hlen]
  by_cases hi : i < cs.length
  · rw [batchWrs, List.getElem?_append_left (by rwa [wrsFrom_length]), wrsFrom_getElem,
      List.getElem?_eq_getElem hi] at hw
    obtain rfl := Option.some.inj hw
    cases k with
    | reverse => exact absurd rfl hk
    | offset => simp [batchWr, lastWr, Nat.add_comm 1 i, hi.ne]
    | write | imm => simp [batchWr, lastWr, Nat.add_comm 1 i]
  · rw [batchWrs, List.getElem?_append_right (by rw [wrsFrom_length]; omega),
      wrsFrom_length] at hw
    cases k with
    | offset =>
      rw [lastWr, List.getElem?_singleton] at hw
      split at hw
      next h0 =>
        obtain rfl := Option.some.inj hw
        have he : i = cs.length := by omega
        simp [lastWr, he]
      · cases hw
    | write | imm | reverse => cases hw

theorem batchWrs_ops (id : ℕ) : (batchWrs k crc id cs r').map SendWr.op =
    cs.map (opOf k crc)++(lastWr k id r').map SendWr.op := by
  rw [batchWrs, List.map_append, wrsFrom_ops]

theorem sendBatch_gathered (hk : k ≠ .reverse) (id : ℕ) (answers rest : List (StatusOr UInt32))
    (hg : gather k crc d id regs.length 0 regs answers r =
      some ⟨.ok (wrsFrom k crc id cs.length 0 cs), rest, r'⟩) :
    sendBatch k crc d regs answers (.ok ()) r id =
      some ⟨.ok id, batchWrs k crc id cs r', rest, r', id+1⟩ := by
  have hchain := chain_linked (batchWrs k crc id cs r')
    (fun i w hw => (batchWrs_getElem hk id i w hw).1)
  cases k with
  | reverse => exact absurd rfl hk
  | write | imm | offset =>
    simp only [sendBatch, hg, post]
    rw [← batchWrs, hchain]

theorem sendBatch_ok (hk : k ≠ .reverse) (id : ℕ) (answers : List (StatusOr UInt32))
    (h : claims k d regs r = some (cs, r')) :
    sendBatch k crc d regs answers (.ok ()) r id =
      some ⟨.ok id, batchWrs k crc id cs r', answers, r', id+1⟩ := by
  apply sendBatch_gathered hk id answers answers
  rw [claims_length h]
  exact gather_claims crc id regs.length 0 answers h

def tailOps (k : Sender) (r : RemoteBuffer) : List Op := (lastWr k 0 r).map SendWr.op

theorem lastWr_ops (id : ℕ) : (lastWr k id r).map SendWr.op = tailOps k r := by
  cases k <;> rfl

theorem execute_tail (rcv : Buffer) (m : Remote) (tail : UInt32) :
    execute rcv (cs.map (opOf .offset crc)) { m with tail := tail } =
      { execute rcv (cs.map (opOf .offset crc)) m with tail := tail } := by
  induction cs generalizing m with
  | nil => rfl
  | cons p cs ih => exact ih (executeOp rcv m (opOf .offset crc p))

theorem execute_tailOps (rcv : Buffer) (m : Remote) (r r' : RemoteBuffer) :
    execute rcv (cs.map (opOf k crc)++tailOps k r') (execute rcv (tailOps k r) m) =
      execute rcv (cs.map (opOf k crc)++tailOps k r') m := by
  cases k with
  | write | imm | reverse => rfl
  | offset =>
    rw [execute_append, execute_append]
    show execute rcv (tailOps .offset r')
      (execute rcv (cs.map (opOf .offset crc)) { m with tail := r.tail }) = _
    rw [execute_tail]
    rfl

theorem slack_zero (hk : k ≠ .reverse) (len : UInt32) : len-k.slack = len := by
  cases k with
  | reverse => exact absurd rfl hk
  | write | imm | offset => exact UInt32.sub_zero len

/-- Single sends of accepted regions: by induction over the regions, each tail is
written over by the next one. -/
theorem sendEach_ok (crc : List UInt8 → UInt32) (hk : k ≠ .reverse) (id : ℕ)
    (h : claims k d regs r = some (cs, r')) :
    ∃ posted, sendEach k crc d regs r id = some (posted, r') ∧
      (regs ≠ [] → ∀ rcv m, execute rcv (posted.map SendWr.op) m =
        execute rcv (cs.map (opOf k crc)++tailOps k r') m) := by
  induction regs generalizing r cs id with
  | nil =>
    obtain ⟨rfl, rfl⟩ := Prod.mk.inj (Option.some.inj h)
    exact ⟨[], rfl, fun hne => absurd rfl hne⟩
  | cons reg regs ih =>
    obtain ⟨addr, cs', ha, hc, rfl⟩ := claims_cons reg h
    obtain ⟨wrs, hsend, hops⟩ := sendAsync_ok crc reg id addr ha
    rw [slack_zero hk] at hsend
    obtain ⟨posted, heach, hexec⟩ := ih (id+1) hc
    refine ⟨wrs++posted, by simp only [sendEach, hsend, heach, Option.map_some], ?_⟩
    intro _ rcv m
    have hfirst : wrs.map SendWr.op =
        opOf k crc (reg, addr)::tailOps k (written d r (reg.length+k.overhead)) := by
      rw [hops, lastWr_ops]
      rfl
    rw [List.map_append, execute_append, hfirst]
    by_cases hne : regs = []
    · subst hne
      obtain ⟨rfl, rfl⟩ := Prod.mk.inj (Option.some.inj hc)
      obtain ⟨rfl, -⟩ := Prod.mk.inj (Option.some.inj heach)
      rfl
    · rw [hexec hne rcv]
      exact execute_tailOps rcv _ _ _

end Lemmas

/-- Exactly the last request of a chain is signaled, with the id. -/
def LastSignaled (id : ℕ) (posted : List SendWr) : Prop :=
  posted ≠ [] ∧ ∀ (i : ℕ) (w : SendWr), posted[i]? = some w →
    (w.signaled = true ↔ i+1 = posted.length) ∧ (w.signaled = true → w.wrId = id)

/-- A batch equals its messages sent one by one. -/
theorem batch_equals_singles (k : Sender) (crc : List UInt8 → UInt32) (d : Direction)
    (rcv : Buffer) (regs : List SendRegion) (r : RemoteBuffer) (id : ℕ) (hk : k ≠ .reverse)
    (hne : regs ≠ []) (h : Accepted k d regs r) :
    ∃ posted singles r', sendBatch k crc d regs [] (.ok ()) r id =
        some ⟨.ok id, posted, [], r', id+1⟩ ∧
      sendEach k crc d regs r id = some (singles, r') ∧
      (∀ m, execute rcv (posted.map SendWr.op) m = execute rcv (singles.map SendWr.op) m) ∧
      LastSignaled id posted := by
  obtain ⟨⟨cs, r'⟩, hc⟩ := Option.isSome_iff_exists.mp h
  obtain ⟨singles, heach, hexec⟩ := sendEach_ok crc hk id hc
  refine ⟨batchWrs k crc id cs r', singles, r', sendBatch_ok hk id [] hc, heach, ?_, ?_, ?_⟩
  · intro m
    rw [hexec hne rcv m, batchWrs_ops, lastWr_ops]
  · intro hnil
    have hlen := congrArg List.length hnil
    have hpos := List.length_pos_of_ne_nil hne
    rw [batchWrs, List.length_append, wrsFrom_length, claims_length hc, List.length_nil] at hlen
    omega
  · intro i w hw
    exact (batchWrs_getElem hk id i w hw).2

def regions : List SendRegion :=
  [⟨putU32 10++putU32 0, [1, 2], 2⟩, ⟨putU32 20++putU32 0, List.replicate 12 7, 12⟩,
    ⟨putU32 9++putU32 0, [3], 1⟩]

def nearEnd : RemoteBuffer := ⟨4096, 64, 9, 44, 44, false⟩

theorem batch_equals_singles_wrap :
    ∃ posted singles r', sendBatch .write WriteChecksum.crc32 .up regions [] (.ok ()) nearEnd 5 =
        some ⟨.ok 5, posted, [], r', 6⟩ ∧
      sendEach .write WriteChecksum.crc32 .up regions nearEnd 5 = some (singles, r') ∧
      (∀ m, execute (newRingBuffer 4096 9 64) (posted.map SendWr.op) m =
        execute (newRingBuffer 4096 9 64) (singles.map SendWr.op) m) ∧
      LastSignaled 5 posted :=
  batch_equals_singles .write WriteChecksum.crc32 .up (newRingBuffer 4096 9 64) regions nearEnd 5
    (by decide) (by decide) (by decide +kernel)

end KYM.BatchedSend
