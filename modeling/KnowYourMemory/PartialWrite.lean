import KnowYourMemory.DirectWrite
import Mathlib.Tactic.IntervalCases

/-!
# A direct write that is visible in part

The bytes of one write become visible in increasing address order, so at any time a prefix
of the buffer is there. `Receive` polls the whole length word and reads it a second time
when it leaves the loop; either read may find only the low bytes of the word.
-/

set_option autoImplicit false

namespace KYM.PartialWrite
open KYM.RingBuffer KYM.MagicMemory KYM.DirectWrite

def visible (old buf : ℕ → UInt8) (v : ℕ) : ℕ → UInt8 := fun i => if i < v then buf i else old i

def landed (bufSize : UInt32) (buf m : ℕ → UInt8) (v : ℕ) : ℕ → UInt8 := fun i =>
  if v ≤ i ∧ i < bufSize.toNat then buf i else m i

def cleared (bufSize : UInt32) (buf : ℕ → UInt8) : ℕ → UInt8 :=
  put buf (getLengthOff bufSize) (putU32 0)

def rcvAddr (c : DirectWriteConnection) : UInt64 := (c.rcvBuffers c.rcvHead.toNat).addr

def arriving (c : DirectWriteConnection) (bufs : UInt64 → ℕ → UInt8) (payload : List UInt8)
    (v : ℕ) : UInt64 → ℕ → UInt8 :=
  Function.update bufs (rcvAddr c)
    (visible (cleared c.bufSize (bufs (rcvAddr c))) (filled c.bufSize payload) v)

/-- `Receive`, given the visible bytes at each of its accesses. The last component is
what is visible at the last access; `none` is a poll that goes on. -/
def receive (c : DirectWriteConnection) (bufs : ℕ → UInt64 → ℕ → UInt8) :
    List ℕ → Option (KeyedRegion × DirectWriteConnection × ℕ)
  | v::w::rest =>
    let head := c.rcvHead.toNat
    let buf := c.rcvBuffers head
    if msgLen c.bufSize (bufs v buf.addr) = 0 then receive c bufs (w::rest)
    else
      some (⟨⟨0, buf.addr, msgLen c.bufSize (bufs w buf.addr)⟩, buf.rkey⟩,
        { c with
          rcvBuffers := Function.update c.rcvBuffers head { buf with valid := false }
          rcvHead := ((c.rcvHead+1).toUInt64%c.nrBuffers).toUInt32 }, w)
  | _ => none

/-- With the same bytes at both accesses this is the `Receive` on whole writes. -/
theorem receive_still (c : DirectWriteConnection) (bufs : ℕ → UInt64 → ℕ → UInt8) (v : ℕ) :
    receive c bufs [v, v] = (DirectWrite.receive c (bufs v)).map (fun r => (r.1, r.2, v)) := by
  simp only [receive, DirectWrite.receive]
  split <;> rfl

theorem visible_all (old buf : ℕ → UInt8) (n : ℕ) : visible old buf n = put old 0 (fetch buf 0 n) := by
  funext i
  by_cases hi : i < n
  · have hget := put_inside old 0 (fetch buf 0 n) i (Nat.zero_le _) (by rw [fetch_length]; omega)
    simp only [fetch, Nat.sub_zero, Nat.zero_add, List.getElem?_map, List.getElem?_range hi,
      Option.map_some, Option.some.injEq] at hget
    rw [visible, if_pos hi, hget]
    simp only [fetch, Nat.zero_add]
  · rw [visible, if_neg hi, put_outside _ _ _ _ (Or.inr (by rw [fetch_length]; omega))]

/-- A whole write that is visible is the one that `DirectWrite` delivers. -/
theorem arriving_all (c : DirectWriteConnection) (bufs : UInt64 → ℕ → UInt8) (payload : List UInt8) :
    arriving c bufs payload c.bufSize.toNat = Function.update bufs (rcvAddr c)
      (put (cleared c.bufSize (bufs (rcvAddr c))) 0
        (fetch (filled c.bufSize payload) 0 c.bufSize.toNat)) := by
  rw [arriving, visible_all]

/-- The accesses follow one another, and no more than the buffer is written. -/
structure Accesses (bufSize : UInt32) (vs : List ℕ) : Prop where
  sorted : vs.Pairwise (· ≤ ·)
  bound : ∀ v ∈ vs, v ≤ bufSize.toNat

/-- Everything has arrived at the return, the length is the one of the payload, and after
any later `Free` the length word stays clear. -/
def Complete (c : DirectWriteConnection) (bufs : UInt64 → ℕ → UInt8) (payload : List UInt8)
    (vs : List ℕ) : Prop :=
  ∀ region c' w, receive c (arriving c bufs payload) vs = some (region, c', w) →
    w = c.bufSize.toNat ∧ region.length.toNat = payload.length ∧
    ∀ f, w ≤ f → f ≤ c.bufSize.toNat →
      msgLen c.bufSize (landed c.bufSize (filled c.bufSize payload)
        (cleared c.bufSize (arriving c bufs payload f region.addr)) f) = 0

def Silent (bufSize : UInt32) (size v : ℕ) : Prop := 256^(v-getLengthOff bufSize) ∣ size

/-- The access after the first one that is not silent finds the whole buffer. -/
def Whole (bufSize : UInt32) (size : ℕ) (vs : List ℕ) : Prop :=
  ∀ pre v w rest, vs = pre++v::w::rest → (∀ u ∈ pre, Silent bufSize size u) →
    ¬Silent bufSize size v → w = bufSize.toNat

theorem put_word (buf : ℕ → UInt8) (off : ℕ) (x : UInt32) (i : ℕ) (hi : i < 4) :
    put buf off (putU32 x) (off+i) = UInt8.ofNat (x.toNat/256^i) := by
  have hget := put_inside buf off (putU32 x) (off+i) (by omega) (by rw [putU32_length]; omega)
  rw [Nat.add_sub_cancel_left, putU32, List.getElem?_map, List.getElem?_range hi] at hget
  exact (Option.some.inj hget).symm

theorem cleared_word (bufSize : UInt32) (buf : ℕ → UInt8) (i : ℕ) (hi : i < 4) :
    cleared bufSize buf (getLengthOff bufSize+i) = 0 := by
  rw [cleared, put_word _ _ _ _ hi]
  simp

theorem filled_word (bufSize : UInt32) (payload : List UInt8)
    (hfit : payload.length+4 ≤ bufSize.toNat) (i : ℕ) (hi : i < 4) :
    filled bufSize payload (getLengthOff bufSize+i) = UInt8.ofNat (payload.length/256^i) := by
  have hlt := bufSize.toNat_lt
  have hsize : (UInt64.ofNat payload.length).toUInt32.toNat = payload.length := by
    rw [UInt64.toNat_toUInt32, UInt64.toNat_ofNat']
    omega
  have hoff : 0+payload.length ≤ getLengthOff bufSize+i := by
    simp only [getLengthOff]
    omega
  rw [filled, put_outside _ _ _ _ (Or.inr hoff), getMemoryRegion, put_word _ _ _ _ hi, hsize]

theorem getU32_low (n j : ℕ) (hj : j ≤ 4) :
    getU32 ((List.range 4).map (fun i => if i < j then UInt8.ofNat (n/256^i) else 0)) =
      UInt32.ofNat (n%256^j) := by
  rw [getU32]
  congr 1
  interval_cases j <;>
    simp [List.range, List.range.loop, Nat.ofDigits_cons, UInt8.toNat_ofNat'] <;> omega

theorem msgLen_visible (bufSize : UInt32) (old : ℕ → UInt8) (payload : List UInt8) (v : ℕ)
    (hfit : payload.length+4 ≤ bufSize.toNat) (hv : v ≤ bufSize.toNat) :
    msgLen bufSize (visible (cleared bufSize old) (filled bufSize payload) v) =
      UInt32.ofNat (payload.length%256^(v-getLengthOff bufSize)) := by
  rw [msgLen, ← getU32_low _ _ (by simp only [getLengthOff]; omega)]
  congr 1
  apply List.map_congr_left
  intro i hi
  have hi := List.mem_range.mp hi
  by_cases hseen : i < v-getLengthOff bufSize
  · rw [visible, if_pos (by omega), if_pos hseen, filled_word _ _ hfit _ hi]
  · rw [visible, if_neg (by omega), if_neg hseen, cleared_word _ _ _ hi]

theorem msgLen_arriving (c : DirectWriteConnection) (bufs : UInt64 → ℕ → UInt8)
    (payload : List UInt8) (v : ℕ) (hfit : payload.length+4 ≤ c.bufSize.toNat)
    (hv : v ≤ c.bufSize.toNat) :
    (msgLen c.bufSize (arriving c bufs payload v (rcvAddr c))).toNat =
      payload.length%256^(v-getLengthOff c.bufSize) := by
  have hlt := c.bufSize.toNat_lt
  have hmod := Nat.mod_le payload.length (256^(v-getLengthOff c.bufSize))
  rw [arriving, Function.update_self, msgLen_visible _ _ _ _ hfit hv, UInt32.toNat_ofNat']
  exact Nat.mod_eq_of_lt (by omega)

theorem msgLen_silent (c : DirectWriteConnection) (bufs : UInt64 → ℕ → UInt8)
    (payload : List UInt8) (v : ℕ) (hfit : payload.length+4 ≤ c.bufSize.toNat)
    (hv : v ≤ c.bufSize.toNat) :
    msgLen c.bufSize (arriving c bufs payload v (rcvAddr c)) = 0 ↔
      Silent c.bufSize payload.length v := by
  rw [← UInt32.toNat_inj, msgLen_arriving c bufs payload v hfit hv]
  exact Nat.dvd_iff_mod_eq_zero.symm

theorem receive_again (c : DirectWriteConnection) (bufs : ℕ → UInt64 → ℕ → UInt8) (v w : ℕ)
    (rest : List ℕ) (hv : msgLen c.bufSize (bufs v (rcvAddr c)) = 0) :
    receive c bufs (v::w::rest) = receive c bufs (w::rest) := if_pos hv

theorem receive_some (c : DirectWriteConnection) (bufs : ℕ → UInt64 → ℕ → UInt8) (vs : List ℕ)
    (region : KeyedRegion) (c' : DirectWriteConnection) (w : ℕ)
    (h : receive c bufs vs = some (region, c', w)) :
    ∃ pre v rest, vs = pre++v::w::rest ∧
      (∀ u ∈ pre, msgLen c.bufSize (bufs u (rcvAddr c)) = 0) ∧
      msgLen c.bufSize (bufs v (rcvAddr c)) ≠ 0 ∧ region.addr = rcvAddr c ∧
      region.length = msgLen c.bufSize (bufs w (rcvAddr c)) := by
  induction vs with
  | nil => cases h
  | cons v tail ih =>
    cases tail with
    | nil => cases h
    | cons next rest =>
      by_cases hzero : msgLen c.bufSize (bufs v (rcvAddr c)) = 0
      · rw [receive_again _ _ _ _ _ hzero] at h
        obtain ⟨pre, v', rest', hvs, hpre, hv', hregion⟩ := ih h
        refine ⟨v::pre, v', rest', by rw [hvs, List.cons_append], ?_, hv', hregion⟩
        intro u hu
        rcases List.mem_cons.mp hu with rfl | hu
        · exact hzero
        · exact hpre u hu
      · have hret := (if_neg hzero).symm.trans h
        cases hret
        exact ⟨[], v, rest, rfl, by simp, hzero, rfl, rfl⟩

theorem receive_returns (c : DirectWriteConnection) (bufs : ℕ → UInt64 → ℕ → UInt8)
    (pre : List ℕ) (v w : ℕ) (rest : List ℕ)
    (hpre : ∀ u ∈ pre, msgLen c.bufSize (bufs u (rcvAddr c)) = 0)
    (hv : msgLen c.bufSize (bufs v (rcvAddr c)) ≠ 0) :
    ∃ region c', receive c bufs (pre++v::w::rest) = some (region, c', w) := by
  induction pre with
  | nil => exact ⟨_, _, if_neg hv⟩
  | cons u tail ih =>
    obtain ⟨region, c', hret⟩ := ih (fun u hu => hpre u (List.mem_cons_of_mem _ hu))
    refine ⟨region, c', ?_⟩
    have hu := hpre u List.mem_cons_self
    -- The poll needs a next access; it is there in both shapes of the prefix.
    cases tail with
    | nil => exact (receive_again c bufs u v (w::rest) hu).trans hret
    | cons u' tail => exact (receive_again c bufs u u' (tail++v::w::rest) hu).trans hret

theorem freed_clear (bufSize : UInt32) (buf m : ℕ → UInt8) :
    msgLen bufSize (landed bufSize buf (cleared bufSize m) bufSize.toNat) = 0 := by
  have hlanded : landed bufSize buf (cleared bufSize m) bufSize.toNat = cleared bufSize m := by
    funext i
    exact if_neg (by omega)
  have hfetch := fetch_put m (getLengthOff bufSize) (putU32 0)
  rw [putU32_length] at hfetch
  rw [hlanded, msgLen, cleared, hfetch, getU32_putU32]

theorem complete_iff_whole (c : DirectWriteConnection) (bufs : UInt64 → ℕ → UInt8)
    (payload : List UInt8) (hfit : payload.length+4 ≤ c.bufSize.toNat) (vs : List ℕ)
    (hvs : Accesses c.bufSize vs) :
    Complete c bufs payload vs ↔ Whole c.bufSize payload.length vs := by
  have hzero : ∀ v ∈ vs, (msgLen c.bufSize (arriving c bufs payload v (rcvAddr c)) = 0 ↔
      Silent c.bufSize payload.length v) :=
    fun v hv => msgLen_silent c bufs payload v hfit (hvs.bound v hv)
  constructor
  · rintro hcomplete pre v w rest rfl hpre hv
    obtain ⟨region, c', hret⟩ := receive_returns c (arriving c bufs payload) pre v w rest
      (fun u hu => (hzero u (by simp [hu])).mpr (hpre u hu))
      (fun hz => hv ((hzero v (by simp)).mp hz))
    exact (hcomplete region c' w hret).1
  · intro hwhole region c' w hret
    obtain ⟨pre, v, rest, rfl, hpre, hv, haddr, hlen⟩ := receive_some _ _ _ _ _ _ hret
    have hw := hwhole pre v w rest rfl (fun u hu => (hzero u (by simp [hu])).mp (hpre u hu))
      (fun hs => hv ((hzero v (by simp)).mpr hs))
    have hexp : c.bufSize.toNat-getLengthOff c.bufSize = 4 := by
      simp only [getLengthOff]
      omega
    refine ⟨hw, ?_, ?_⟩
    · have hlt := c.bufSize.toNat_lt
      rw [hlen, msgLen_arriving c bufs payload w hfit (by omega), hw, hexp]
      exact Nat.mod_eq_of_lt (by omega)
    · intro f hwf hf
      obtain rfl : f = c.bufSize.toNat := by omega
      exact freed_clear _ _ _

theorem whole_of_dvd (bufSize : UInt32) (size : ℕ) (hd : 2^24 ∣ size) (vs : List ℕ)
    (hvs : Accesses bufSize vs) : Whole bufSize size vs := by
  rintro pre v w rest rfl - hv
  have hvw : v ≤ w := List.rel_of_pairwise_cons (hvs.sorted.sublist (List.sublist_append_right _ _))
    List.mem_cons_self
  have hw : w ≤ bufSize.toNat := hvs.bound w (by simp)
  by_contra hne
  refine hv (Dvd.dvd.trans ?_ hd)
  have hexp : v-getLengthOff bufSize ≤ 3 := by
    simp only [getLengthOff]
    omega
  exact Nat.pow_dvd_pow 256 hexp

/-- The received length is complete exactly if the access after the first one that finds a
part of the length finds the whole buffer; whatever the accesses find, it is complete
exactly for the multiples of `2^24`. -/
theorem length_complete (c : DirectWriteConnection) (bufs : UInt64 → ℕ → UInt8)
    (payload : List UInt8) (hpos : 0 < payload.length)
    (hfit : payload.length+4 ≤ c.bufSize.toNat) :
    (∀ vs, Accesses c.bufSize vs →
      (Complete c bufs payload vs ↔ Whole c.bufSize payload.length vs)) ∧
    ((∀ vs, Accesses c.bufSize vs → Complete c bufs payload vs) ↔ 2^24 ∣ payload.length) := by
  have heach := complete_iff_whole c bufs payload hfit
  refine ⟨heach, ?_, fun hd vs hvs => (heach vs hvs).mpr (whole_of_dvd _ _ hd vs hvs)⟩
  intro hall
  have haccess : Accesses c.bufSize [c.bufSize.toNat-1, c.bufSize.toNat-1] :=
    ⟨by simp; omega, by simp⟩
  have hwhole := (heach _ haccess).mp (hall _ haccess)
  -- All but the last byte is visible at both accesses.
  have hsilent : Silent c.bufSize payload.length (c.bufSize.toNat-1) := by
    by_contra hs
    have := hwhole [] _ _ [] rfl (fun u hu => by cases hu) hs
    omega
  have hexp : c.bufSize.toNat-1-getLengthOff c.bufSize = 3 := by
    simp only [getLengthOff]
    omega
  rwa [Silent, hexp] at hsilent

def tornConnection : DirectWriteConnection :=
  { newConnection 2 264 with rcvBuffers := fun _ => ⟨4096, 7, true⟩ }

def tornPayload : List UInt8 := List.replicate 257 1

def tornReceive : Option (UInt32 × ℕ) :=
  (receive tornConnection (arriving tornConnection (fun _ _ => 0) tornPayload) [261, 261]).map
    (fun r => (r.1.length, r.2.2))

/-- The length `2^24` is polled when its highest byte is missing, and then read whole. -/
theorem length_complete_highest :
    Complete (newConnection 2 33554432) (fun _ _ => 0) (List.replicate (2^24) 1)
      [2^25-1, 2^25, 2^25] :=
  (length_complete (newConnection 2 33554432) (fun _ _ => 0) (List.replicate (2^24) 1)
    (by rw [List.length_replicate]; decide) (by rw [List.length_replicate]; decide)).2.mpr
    (by rw [List.length_replicate]) [2^25-1, 2^25, 2^25] ⟨by decide, by decide⟩

/-- The length is 1 for a message of 257 bytes, and the high byte arrives after `Free`. -/
theorem short_length :
    tornReceive = some (1, 261) ∧
    msgLen 264 (landed 264 (filled 264 tornPayload)
      (cleared 264 (arriving tornConnection (fun _ _ => 0) tornPayload 261 4096)) 261) = 256 ∧
    ¬Complete tornConnection (fun _ _ => 0) tornPayload [261, 261] := by
  refine ⟨by decide +kernel, by decide +kernel, ?_⟩
  intro hcomplete
  obtain ⟨region, c', hret⟩ := receive_returns tornConnection
    (arriving tornConnection (fun _ _ => 0) tornPayload) [] 261 261 [] (by simp) (by decide +kernel)
  have hall := (hcomplete region c' 261 hret).1
  revert hall
  decide

end KYM.PartialWrite
