import KnowYourMemory.WriteConnection
import KnowYourMemory.WriteChecksum

/-!
# Senders

`SendAsync` of a region and of a batch, for the four senders over either ring. The
answers of the acknowledgement receiver and the result of posting are inputs, and a
call that still waits for space when the answers are used up has no outcome. A batch
claims its space before it posts anything. Ids are natural numbers instead of 64-bit words.
-/

set_option autoImplicit false

namespace KYM.WriteSenders
open KYM.Circle KYM.RingBuffer KYM.MagicMemory
open KYM.WriteConnection (Sender wrap written)
open KYM.WriteSender (Op storeAt)

/-- The registered bytes in front of `addr`, those from `addr` on, and the length that
`GetMemoryRegion` recorded. -/
structure SendRegion where
  front : List UInt8
  bytes : List UInt8
  length : UInt32
  deriving DecidableEq, Repr

/-- `next` is an index into the array that the request is built in. -/
structure SendWr where
  wrId : ℕ
  signaled : Bool
  op : Op
  next : Option ℕ
  deriving DecidableEq, Repr

structure Space where
  addr : StatusOr UInt64
  answers : List (StatusOr UInt32)
  rbuf : RemoteBuffer

/-- How a call ends. `posted` are the requests that are executed. -/
structure Outcome where
  status : StatusOr ℕ
  posted : List SendWr
  answers : List (StatusOr UInt32)
  rbuf : RemoteBuffer
  nextId : ℕ

section Waiting

variable (d : Direction) (len : UInt32)

def spaceLoop (later : Status → Status → Status) :
    List (StatusOr UInt32) → RemoteBuffer → Option Space
  | answers, r =>
    match getWriteAddr d r len with
    | .ok addr => some ⟨.ok addr, answers, r⟩
    | .error e =>
      match answers with
      | [] => none
      | .error h::answers => some ⟨.error (later e h), answers, r⟩
      | .ok head::answers => spaceLoop later answers (updateHead d r head)

/-- The code that `get_write_addr_or_die` and two of the senders have in common: the
errors of the first `Get` and of the later ones are worded apart. -/
def awaitSpace (first later : Status → Status → Status) (answers : List (StatusOr UInt32))
    (r : RemoteBuffer) : Option Space :=
  match getWriteAddr d r len with
  | .ok addr => some ⟨.ok addr, answers, r⟩
  | .error e =>
    match answers with
    | [] => none
    | .error h::answers => some ⟨.error (first e h), answers, r⟩
    | .ok head::answers => spaceLoop d len later answers (updateHead d r head)

def getWriteAddrOrDie : List (StatusOr UInt32) → RemoteBuffer → Option Space :=
  awaitSpace d len (fun _ h => wrap h "error getting new head") (fun e h => wrap e h.message)

def singleSpace : Sender → List (StatusOr UInt32) → RemoteBuffer → Option Space
  | .write => awaitSpace d len (fun e h => wrap e h.message) (fun e h => wrap e h.message)
  | .reverse => awaitSpace d len (fun _ h => wrap h "error getting new head")
      (fun e _ => wrap e "error getting head in RNR")
  | .imm | .offset => getWriteAddrOrDie d len

end Waiting

section Sending

variable (k : Sender) (crc : List UInt8 → UInt32) (d : Direction)

def checksummed (reg : SendRegion) : SendRegion :=
  { reg with
    front := reg.front.take 4++
      putU32 (crc (reg.front.take 4++reg.bytes.take reg.length.toNat)) }

def SendRegion.message (reg : SendRegion) (len : UInt32) : List UInt8 :=
  (reg.front++reg.bytes).take len.toNat

def dataOp (reg : SendRegion) (len : UInt32) (addr : UInt64) : Op :=
  match k with
  | .write => .write addr ((checksummed crc reg).message len)
  | .imm => .writeImm addr (reg.message len) len
  | .offset | .reverse => .write addr (reg.message len)

def requests (r : RemoteBuffer) (id : ℕ) (reg : SendRegion) (len : UInt32) (addr : UInt64) :
    StatusOr (List SendWr) :=
  match k with
  | .write | .imm | .reverse => .ok [⟨id, true, dataOp k crc reg len addr, none⟩]
  | .offset =>
    match getNextTail d r len with
    | .error e => .error e
    | .ok tail =>
      .ok [⟨id, false, dataOp k crc reg len addr, some 1⟩, ⟨id, true, .writeTail tail, none⟩]

def chain (wrs : List SendWr) : ℕ → Option ℕ → List SendWr
  | 0, _ => []
  | _, none => []
  | n+1, some i =>
    match wrs[i]? with
    | none => []
    | some w => w::chain wrs n w.next

def post (posting : StatusOr Unit) (wrs : List SendWr) (id : ℕ)
    (answers : List (StatusOr UInt32)) (failed sent : RemoteBuffer) : Outcome :=
  match posting with
  | .error e => ⟨.error e, [], answers, failed, id+1⟩
  | .ok () => ⟨.ok id, chain wrs wrs.length (some 0), answers, sent, id+1⟩

def sendAsync (reg : SendRegion) (answers : List (StatusOr UInt32)) (posting : StatusOr Unit)
    (r : RemoteBuffer) (id : ℕ) : Option Outcome :=
  let len := reg.length+k.overhead
  match singleSpace d len k answers r with
  | none => none
  | some ⟨.error e, answers, r⟩ => some ⟨.error e, [], answers, r, id+1⟩
  | some ⟨.ok addr, answers, r⟩ =>
    match requests k crc d r id reg len addr with
    | .error e => some ⟨.error e, [], answers, r, id+1⟩
    | .ok wrs => some (post posting wrs id answers r (written d r (len-k.slack)))

structure Gathered where
  wrs : StatusOr (List SendWr)
  answers : List (StatusOr UInt32)
  rbuf : RemoteBuffer

def Gathered.push (w : SendWr) (g : Gathered) : Gathered := { g with wrs := g.wrs.map (w::·) }

def batchWr (id size i : ℕ) (reg : SendRegion) (len : UInt32) (addr : UInt64) : SendWr :=
  match k with
  | .offset => ⟨i+100, false, dataOp k crc reg len addr, some i⟩
  | .write | .imm | .reverse =>
    ⟨id, i = size, dataOp k crc reg len addr, if i = size then none else some i⟩

def gather (id size : ℕ) :
    ℕ → List SendRegion → List (StatusOr UInt32) → RemoteBuffer → Option Gathered
  | _, [], answers, r => some ⟨.ok [], answers, r⟩
  | i, reg::regs, answers, r =>
    let len := reg.length+k.overhead
    match getWriteAddrOrDie d len answers r with
    | none => none
    | some ⟨.error e, answers, r⟩ =>
      some ⟨.error (wrap e "error sending batch. Might be in inconsistent state"), answers, r⟩
    | some ⟨.ok addr, answers, r⟩ =>
      (gather id size (i+1) regs answers (written d r len)).map
        (Gathered.push (batchWr k crc id size (i+1) reg len addr))

def lastWr (id : ℕ) (r : RemoteBuffer) : List SendWr :=
  match k with
  | .offset => [⟨id, true, .writeTail r.tail, none⟩]
  | .write | .imm | .reverse => []

def sendBatch (regs : List SendRegion) (answers : List (StatusOr UInt32))
    (posting : StatusOr Unit) (r : RemoteBuffer) (id : ℕ) : Option Outcome :=
  match k with
  | .reverse => some ⟨.error ⟨.notImplemented, ""⟩, [], answers, r, id⟩
  | .write | .imm | .offset =>
    match gather k crc d id regs.length 0 regs answers r with
    | none => none
    | some ⟨.error e, answers, r⟩ => some ⟨.error e, [], answers, r, id+1⟩
    | some ⟨.ok wrs, answers, r⟩ => some (post posting (wrs++lastWr k id r) id answers r r)

end Sending

/-- What requests act on: the receiver's ring, the tail word next to it, and the
immediate values of its completions. -/
structure Remote where
  mem : ℕ → UInt8
  tail : UInt32
  imms : List UInt32

def executeOp (rcv : Buffer) (m : Remote) : Op → Remote
  | .write addr bytes => { m with mem := storeAt rcv m.mem addr bytes }
  | .writeTail tail => { m with tail := tail }
  | .writeImm addr bytes imm =>
    { m with mem := storeAt rcv m.mem addr bytes, imms := m.imms++[imm] }

def execute (rcv : Buffer) : List Op → Remote → Remote
  | [], m => m
  | op::ops, m => execute rcv ops (executeOp rcv m op)

theorem execute_append (rcv : Buffer) (ops rest : List Op) (m : Remote) :
    execute rcv (ops++rest) m = execute rcv rest (execute rcv ops m) := by
  induction ops generalizing m with
  | nil => rfl
  | cons op ops ih => exact ih _

section Calls

variable {k : Sender} {crc : List UInt8 → UInt32} {d : Direction} {r : RemoteBuffer}

theorem spaceLoop_ok (later : Status → Status → Status) (len : UInt32) (addr : UInt64)
    (answers : List (StatusOr UInt32)) (h : getWriteAddr d r len = .ok addr) :
    spaceLoop d len later answers r = some ⟨.ok addr, answers, r⟩ := by
  unfold spaceLoop
  simp only [h]

theorem spaceLoop_head (later : Status → Status → Status) (len : UInt32) (e : Status)
    (head : UInt32) (answers : List (StatusOr UInt32)) (h : getWriteAddr d r len = .error e) :
    spaceLoop d len later (.ok head::answers) r =
      spaceLoop d len later answers (updateHead d r head) := by
  rw [spaceLoop]
  simp only [h]

theorem spaceLoop_nil (later : Status → Status → Status) (len : UInt32) (e : Status)
    (h : getWriteAddr d r len = .error e) : spaceLoop d len later [] r = none := by
  rw [spaceLoop]
  simp only [h]

theorem awaitSpace_ok (first later : Status → Status → Status) (len : UInt32) (addr : UInt64)
    (answers : List (StatusOr UInt32)) (h : getWriteAddr d r len = .ok addr) :
    awaitSpace d len first later answers r = some ⟨.ok addr, answers, r⟩ := by
  simp [awaitSpace, h]

theorem singleSpace_ok (k : Sender) (len : UInt32) (addr : UInt64)
    (answers : List (StatusOr UInt32)) (h : getWriteAddr d r len = .ok addr) :
    singleSpace d len k answers r = some ⟨.ok addr, answers, r⟩ := by
  cases k <;> exact awaitSpace_ok _ _ len addr answers h

theorem getNextTail_written (len : UInt32) (addr : UInt64) (h : getWriteAddr d r len = .ok addr) :
    getNextTail d r len = .ok (written d r len).tail := by
  cases d with
  | up =>
    change Magic.getWriteAddr r len = .ok addr at h
    simp only [getNextTail, Magic.getNextTail, written, write, Magic.write, h]
  | down =>
    simp only [getWriteAddr, Reverse.getWriteAddr] at h
    split at h
    · cases h
    next tail ht => simp only [getNextTail, written, write, Reverse.write, ht]

def Linked (wrs : List SendWr) : Prop := ∀ (i : ℕ) (w : SendWr), wrs[i]? = some w →
  w.next = if i+1 = wrs.length then none else some (i+1)

theorem chain_drop (wrs : List SendWr) (h : Linked wrs) (n i : ℕ) (hi : i+n = wrs.length)
    (hn : 0 < n) : chain wrs n (some i) = wrs.drop i := by
  induction n generalizing i with
  | zero => omega
  | succ n ih =>
    have hlt : i < wrs.length := by omega
    have hnext := h i wrs[i] (List.getElem?_eq_getElem hlt)
    rw [List.drop_eq_getElem_cons hlt]
    simp only [chain, List.getElem?_eq_getElem hlt, hnext]
    congr 1
    by_cases hlast : i+1 = wrs.length
    · rw [if_pos hlast, List.drop_eq_nil_of_le (by omega)]
      cases n <;> rfl
    · rw [if_neg hlast]
      exact ih (i+1) (by omega) (by omega)

theorem chain_linked (wrs : List SendWr) (h : Linked wrs) :
    chain wrs wrs.length (some 0) = wrs := by
  by_cases h0 : wrs = []
  · rw [h0]
    rfl
  · exact chain_drop wrs h _ 0 (Nat.zero_add _) (List.length_pos_of_ne_nil h0)

theorem requests_ok (k : Sender) (crc : List UInt8 → UInt32) (id : ℕ) (reg : SendRegion)
    (len : UInt32) (addr : UInt64) (h : getWriteAddr d r len = .ok addr) :
    ∃ wrs, requests k crc d r id reg len addr = .ok wrs ∧ Linked wrs ∧ wrs.map SendWr.op =
      dataOp k crc reg len addr::(lastWr k id (written d r len)).map SendWr.op := by
  have hone : ∀ w : SendWr, w.next = none → Linked [w] := by
    intro w hw i v hv
    rw [List.getElem?_singleton] at hv
    split at hv
    next hi => simp [← Option.some.inj hv, hw, hi]
    · cases hv
  cases k with
  | offset =>
    have hnext := getNextTail_written len addr h
    refine ⟨_, by rw [requests, hnext], ?_, rfl⟩
    intro i w hw
    match i with
    | 0 => rw [← Option.some.inj hw]; rfl
    | 1 => rw [← Option.some.inj hw]; rfl
    | i+2 => cases hw
  | write | imm | reverse => exact ⟨_, rfl, hone _ rfl, rfl⟩

theorem sendAsync_ok (crc : List UInt8 → UInt32) (reg : SendRegion) (id : ℕ) (addr : UInt64)
    (h : getWriteAddr d r (reg.length+k.overhead) = .ok addr) :
    ∃ wrs, sendAsync k crc d reg [] (.ok ()) r id = some ⟨.ok id, wrs, [],
        written d r (reg.length+k.overhead-k.slack), id+1⟩ ∧
      wrs.map SendWr.op = dataOp k crc reg (reg.length+k.overhead) addr::
        (lastWr k id (written d r (reg.length+k.overhead))).map SendWr.op := by
  obtain ⟨wrs, hreq, hlink, hops⟩ := requests_ok k crc id reg _ addr h
  refine ⟨wrs, ?_, hops⟩
  simp only [sendAsync, singleSpace_ok k _ _ [] h, hreq, post, chain_linked wrs hlink]

end Calls

end KYM.WriteSenders
