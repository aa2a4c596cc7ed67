import Lustre.RequestSlot
import Mathlib.Data.Finset.Card

/-!
# The slots of modify requests (`genops.c`)

Each modify request in flight has a tag of its own: the first bit of `cl_mod_tag_bitmap` that is
clear, counted from one. One close request may go above the limit, for which one bit more is
searched. But tags that were taken under a higher limit may still be in use: once the limit is
lowered, the close finds none of the bits clear and its assertion fires (`modTag_taken`). Where it
finds one, tags are distinct and no assertion fires (`modTags_distinct`).
-/

namespace Lustre

/-- The modify requests of a `struct client_obd`. -/
structure ModRpcs where
  clMaxModRpcsInFlight : ℕ
  clModRpcsInFlight : ℕ
  clCloseRpcsInFlight : ℕ
  /-- the bits set in `cl_mod_tag_bitmap` -/
  clModTagBitmap : Finset ℕ
  /-- the requests in flight: their tag, and whether they are `MDS_CLOSE` -/
  inFlight : Multiset (ℕ × Bool)
  deriving DecidableEq

/-- A call. -/
inductive ModRpcOp where
  /-- a slot is asked for -/
  | get (closeReq : Bool)
  /-- a slot is put with the tag obtained -/
  | put (tag : ℕ) (closeReq : Bool)
  /-- the limit is set, at this `cl_max_rpcs_in_flight` and limit of the server -/
  | setMax (max rif maxmodrpcs : ℕ)

def findFirstZeroBit (bitmap : Finset ℕ) (size : ℕ) : ℕ :=
  (List.range size).findIdx (· ∉ bitmap)

namespace ModRpcs

variable (s : ModRpcs)

def obdModRpcSlotAvailLocked (closeReq : Bool) : Bool :=
  s.clModRpcsInFlight < s.clMaxModRpcsInFlight || closeReq && s.clCloseRpcsInFlight = 0

/-- `obd_get_mod_rpc_slot` of a modify request, one turn: without a slot the thread sleeps. -/
def obdGetModRpcSlot (closeReq : Bool) : Option ModRpcs :=
  if s.obdModRpcSlotAvailLocked closeReq then
    let i := findFirstZeroBit s.clModTagBitmap (s.clMaxModRpcsInFlight + 1)
    lassert (i < obdMaxRifMax) <| lassert (i ∉ s.clModTagBitmap) <| some
      { s with
        clModRpcsInFlight := s.clModRpcsInFlight + 1
        clCloseRpcsInFlight := s.clCloseRpcsInFlight + closeReq.toNat
        clModTagBitmap := insert i s.clModTagBitmap
        inFlight := (i + 1, closeReq) ::ₘ s.inFlight }
  else some s

def obdPutModRpcSlot (tag : ℕ) (closeReq : Bool) : Option ModRpcs :=
  lassert (tag - 1 < obdMaxRifMax) <| lassert (tag - 1 ∈ s.clModTagBitmap) <| some
    { s with
      clModRpcsInFlight := s.clModRpcsInFlight - 1
      clCloseRpcsInFlight := s.clCloseRpcsInFlight - closeReq.toNat
      clModTagBitmap := s.clModTagBitmap.erase (tag - 1)
      inFlight := s.inFlight.erase (tag, closeReq) }

/-- One call. -/
def step : ModRpcOp → Option ModRpcs
  | .get closeReq => s.obdGetModRpcSlot closeReq
  | .put tag closeReq => s.obdPutModRpcSlot tag closeReq
  -- `obd_set_max_mod_rpcs_in_flight`
  | .setMax max rif maxmodrpcs =>
    some <| if obdMaxRifMax < max ∨ max < 1 ∨ rif ≤ max ∨ maxmodrpcs < max then s
      else { s with clMaxModRpcsInFlight := max }

/-- A client at its setup, with this `cl_max_rpcs_in_flight`. -/
def start (rif : ℕ) : ModRpcs := ⟨rif - 1, 0, 0, ∅, 0⟩

/-- What callers keep to: tags are put once, by the request that has them, and
`cl_max_rpcs_in_flight` is in range. -/
def Use : ModRpcOp → Prop
  | .get _ => True
  | .put tag closeReq => (tag, closeReq) ∈ s.inFlight
  | .setMax _ rif _ => rif ≤ obdMaxRifMax

/-- A close above the limit finds a bit that is clear. -/
def Spared : ModRpcOp → Prop
  | .get closeReq =>
    s.clMaxModRpcsInFlight ≤ s.clModRpcsInFlight → s.obdModRpcSlotAvailLocked closeReq →
      ∃ i ≤ s.clMaxModRpcsInFlight + 1, i ∉ s.clModTagBitmap
  | _ => True

/-- The tags in flight are the bits set. -/
structure Tagged : Prop where
  tags : s.inFlight.map Prod.fst = s.clModTagBitmap.val.map Nat.succ
  bits : ∀ i ∈ s.clModTagBitmap, i < obdMaxRifMax
  counted : s.clModRpcsInFlight = s.clModTagBitmap.card
  closes : s.clCloseRpcsInFlight = s.inFlight.countP (·.2)
  room : s.clModRpcsInFlight < s.clCloseRpcsInFlight + obdMaxRifMax
  limit : s.clMaxModRpcsInFlight < obdMaxRifMax

variable {s} {s' : ModRpcs} {op : ModRpcOp}

/-! ## The bit that is found -/

/-- It is clear unless the search ends there, and the bits before it are set. -/
theorem findFirstZeroBit_spec (bitmap : Finset ℕ) (size : ℕ) :
    findFirstZeroBit bitmap size ≤ size ∧
      (findFirstZeroBit bitmap size < size → findFirstZeroBit bitmap size ∉ bitmap) ∧
      ∀ i < findFirstZeroBit bitmap size, i ∈ bitmap := by
  refine ⟨List.findIdx_le_length.trans_eq List.length_range, fun h => ?_, fun i hi => ?_⟩
  · have hfound := List.findIdx_getElem (w := h.trans_eq List.length_range.symm)
    rw [findFirstZeroBit]
    simpa using hfound
  · have hset := List.not_of_lt_findIdx hi
    simpa using hset

/-- Where a close is spared, the bit that is found is clear, and is in the bitmap. -/
theorem Tagged.found {closeReq : Bool} (h : s.Tagged)
    (havail : s.obdModRpcSlotAvailLocked closeReq) :
    findFirstZeroBit s.clModTagBitmap (s.clMaxModRpcsInFlight + 1) < obdMaxRifMax ∧
      (findFirstZeroBit s.clModTagBitmap (s.clMaxModRpcsInFlight + 1) ∉ s.clModTagBitmap ↔
        s.Spared (.get closeReq)) := by
  obtain ⟨hle, hclear, hset⟩ :=
    findFirstZeroBit_spec s.clModTagBitmap (s.clMaxModRpcsInFlight + 1)
  generalize findFirstZeroBit s.clModTagBitmap (s.clMaxModRpcsInFlight + 1) = n
    at hle hclear hset ⊢
  have hcard : n ≤ s.clModRpcsInFlight := by
    rw [h.counted, ← Finset.card_range n]
    exact Finset.card_le_card fun i hi => hset i (Finset.mem_range.mp hi)
  have hlimit := h.limit
  have hroom := h.room
  have hor := havail
  simp only [obdModRpcSlotAvailLocked, Bool.or_eq_true, Bool.and_eq_true, decide_eq_true_eq] at hor
  refine ⟨by omega, fun hfree _ _ => ⟨n, hle, hfree⟩, fun hspared => ?_⟩
  by_cases hfull : s.clMaxModRpcsInFlight ≤ s.clModRpcsInFlight
  · obtain ⟨i, hi, hfree⟩ := hspared hfull havail
    rcases hle.lt_or_eq with hlt | heq
    · exact hclear hlt
    · -- all bits of the search are set: the one that is clear is the next one
      have hnot := mt (hset i) hfree
      rwa [show n = i by omega]
  · exact hclear (by omega)

theorem Tagged.bit {tag : ℕ} {closeReq : Bool} (h : s.Tagged)
    (hmem : (tag, closeReq) ∈ s.inFlight) : ∃ i ∈ s.clModTagBitmap, i.succ = tag := by
  have htag := Multiset.mem_map_of_mem Prod.fst hmem
  rwa [h.tags, Multiset.mem_map] at htag

theorem Tagged.step (h : s.Tagged) (huse : s.Use op) (hs : s.step op = some s') : s'.Tagged := by
  cases op with
  | get closeReq =>
    rw [ModRpcs.step, obdGetModRpcSlot] at hs
    split at hs
    · next havail =>
      obtain ⟨hlt, hs⟩ := of_lassert hs
      obtain ⟨hfree, hs⟩ := of_lassert hs
      cases hs
      simp only [obdModRpcSlotAvailLocked, Bool.or_eq_true, Bool.and_eq_true,
        decide_eq_true_eq] at havail
      have hlimit := h.limit
      have hroom := h.room
      constructor
      · rw [Multiset.map_cons, h.tags, Finset.insert_val_of_notMem hfree, Multiset.map_cons]
      · exact Finset.forall_mem_insert _ _ _ |>.mpr ⟨hlt, h.bits⟩
      · rw [Finset.card_insert_of_notMem hfree, h.counted]
      · rw [Multiset.countP_cons, h.closes]
        cases closeReq <;> rfl
      · dsimp only
        rcases havail with hlt | ⟨rfl, hzero⟩
        · omega
        · exact Nat.succ_lt_succ hroom
      · exact hlimit
    · cases hs
      exact h
  | put tag closeReq =>
    obtain ⟨hlt, hs⟩ := of_lassert hs
    obtain ⟨hset, hs⟩ := of_lassert hs
    cases hs
    have hmem : (tag, closeReq) ∈ s.inFlight := huse
    have hroom := h.room
    obtain ⟨i, hi, rfl⟩ := h.bit hmem
    have hcloses := h.closes
    rw [← Multiset.cons_erase hmem, Multiset.countP_cons] at hcloses
    refine ⟨?_, fun j hj => h.bits j (Finset.mem_of_mem_erase hj), ?_, ?_, ?_, h.limit⟩
    · rw [Multiset.map_erase_of_mem _ _ hmem, h.tags, Finset.erase_val,
        Multiset.map_erase _ Nat.succ_injective]
      rfl
    · rw [Finset.card_erase_of_mem hset, h.counted]
    · rw [hcloses]
      cases closeReq <;> rfl
    · dsimp only
      have hle := closeReq.toNat_le
      omega
  | setMax max rif maxmodrpcs =>
    cases hs
    split
    · exact h
    · next hset =>
      have hrif : rif ≤ obdMaxRifMax := huse
      exact { h with limit := by dsimp only; omega }

/-- Calls that are as they should be have their assertions met where a close is spared. -/
theorem Tagged.progress (h : s.Tagged) (huse : s.Use op) :
    (∃ s', s.step op = some s') ↔ s.Spared op := by
  cases op with
  | get closeReq =>
    rw [ModRpcs.step, obdGetModRpcSlot]
    split
    · next havail =>
      obtain ⟨hlt, hiff⟩ := h.found havail
      rw [← hiff]
      rw [lassert_pos hlt]
      exact ⟨fun ⟨_, hs⟩ => (of_lassert hs).1, fun hfree => ⟨_, lassert_pos hfree⟩⟩
    · next havail => exact iff_of_true ⟨s, rfl⟩ fun _ h => absurd h havail
  | put tag closeReq =>
    obtain ⟨i, hi, rfl⟩ := h.bit huse
    exact iff_of_true ⟨_, (lassert_pos (h.bits i hi)).trans (lassert_pos hi)⟩ trivial
  | setMax max rif maxmodrpcs => exact iff_of_true ⟨_, rfl⟩ trivial

/-- **Distinct tags**: where every close above the limit finds a bit that is clear, the tags in
flight are distinct and not zero, `cl_mod_rpcs_in_flight` counts the bits that are set, and the
next call has its assertions met just if the same holds for it. -/
theorem modTags_distinct {rif : ℕ} (hrif : rif ≤ obdMaxRifMax)
    (h : Reach step (fun s op => s.Use op ∧ s.Spared op) (start rif) s) :
    (s.inFlight.map Prod.fst).Nodup ∧ 0 ∉ s.inFlight.map Prod.fst ∧
      s.clModRpcsInFlight = s.clModTagBitmap.card ∧
      ∀ op, s.Use op → ((∃ s', s.step op = some s') ↔ s.Spared op) := by
  have hstart : (start rif).Tagged :=
    ⟨rfl, fun i hi => absurd hi (Finset.notMem_empty i), rfl, rfl, Nat.zero_lt_succ _,
      Nat.lt_succ_of_le (Nat.sub_le_sub_right hrif 1)⟩
  have htagged := h.invariant Tagged hstart fun _ _ _ ht hop hs => ht.step hop.1 hs
  rw [htagged.tags]
  refine ⟨s.clModTagBitmap.nodup.map Nat.succ_injective, ?_, htagged.counted,
    fun op huse => htagged.progress huse⟩
  simp

/-- A close goes above the limit of one. -/
theorem modTags_distinct_close :
    ∃ s, Reach step (fun s op => s.Use op ∧ s.Spared op) (start 2) s ∧
    s.inFlight = {(1, false), (2, true)} ∧ (s.inFlight.map Prod.fst).Nodup := by
  have hrun : Reach step (fun s op => s.Use op ∧ s.Spared op) (start 2) _ :=
    .step (.get true) (.step (.get false) .start ⟨trivial, fun h => absurd h (by decide)⟩ rfl)
      ⟨trivial, fun _ _ => ⟨1, by decide⟩⟩ rfl
  exact ⟨_, hrun, by decide, (modTags_distinct (by decide) hrun).1⟩

/-- Three requests are in flight when the limit goes down to one: a close has no tag. -/
theorem modTag_taken : ∃ s, Reach step (fun s op => s.Use op) (start 8) s ∧
    s.step (.get true) = none := by
  have hthree : Reach step (fun s op => s.Use op) (start 8) _ :=
    .step (.get false) (.step (.get false) (.step (.get false) .start trivial rfl) trivial rfl)
      trivial rfl
  exact ⟨_, .step (.setMax 1 8 8) hthree (show 8 ≤ 512 by decide) rfl, by decide⟩

end ModRpcs

end Lustre
