/-
Webernetes.Storage.Allocatable — `AllocatableRange`: indices handed out of
a range of `size`, kept as a bitmap, a cursor and a count under three keys.

The methods are programs over the three keys. `getBit` and `setBit` work
on bytes as the source does; `held` is the set of indices whose bit is
set, and `Pool` says what a call does to it. `Contents.Exact` is the
invariant: the bitmap has its length and no bit from `size` on, the count
is the number of set bits, and the cursor is below `size`. Each method run
by itself keeps it and takes a step of the pool (`run_body`); the lock
carries this to every interleaving (`range_exact`).
-/
import Webernetes.Base.Critical
import Webernetes.Js.Text
import Mathlib.Data.Finset.Card
import Mathlib.Data.Finset.Range
import Mathlib.Tactic.IntervalCases

namespace Webernetes.Storage

open Js Base

/-! ## The keys and the errors -/

/-- The values under the bitmap, cursor and used keys. -/
structure RangeStore where
  bitmap : Option Buffer := none
  cursor : Option Nat := none
  used : Option Nat := none
  deriving DecidableEq

/-- Why `withLock` gave up. -/
inductive LockFailure where
  | context | timedOut
  deriving DecidableEq

inductive RangeError where
  | cursorNotFound | bitmapNotFound | usedNotFound
  | outOfBounds (index : Int)
  | noFreeSpace
  | alreadyAllocated (index : Int)
  | notAllocated (index : Int)
  | lock (failure : LockFailure)
  deriving DecidableEq

/-- The text of an error, apart from those of the lock. -/
def RangeError.message (rangeName : JsString) : RangeError → Option JsString
  | cursorNotFound => some (js "cursor not found for range " ++ rangeName)
  | bitmapNotFound => some (js "bitmap not found for range " ++ rangeName)
  | usedNotFound => some (js "used count not found for range " ++ rangeName)
  | outOfBounds index =>
    some (js "index " ++ js (toString index) ++ js " out of bounds for range " ++ rangeName)
  | noFreeSpace => some (js "no free space in range " ++ rangeName)
  | alreadyAllocated index =>
    some (js "index " ++ js (toString index) ++ js " is already allocated in range " ++ rangeName)
  | notAllocated index =>
    some (js "index " ++ js (toString index) ++ js " is not allocated in range " ++ rangeName)
  | lock _ => none

/-! ## AllocatableRange -/

structure AllocatableRange where
  name : JsString
  size : Nat
  deriving DecidableEq

/-- `byte & (1 << bit)` is not zero. -/
def hasBit (byte : UInt8) (bit : Nat) : Bool := byte &&& (1 <<< UInt8.ofNat bit) != 0

/-- The byte of an index and its bit in there. -/
def bitAt (bitmap : Buffer) (index : Nat) : Bool := hasBit (bitmap.getD (index / 8) 0) (index % 8)

namespace AllocatableRange

variable (range : AllocatableRange)

abbrev Request (ρ : Type) := Prog RangeStore RangeError ρ

def validateIndex (index : Int) : Except RangeError Unit :=
  if index < 0 ∨ index ≥ range.size then .error (.outOfBounds index) else .ok ()

def getBit (bitmap : Buffer) (index : Int) : Except RangeError Bool := do
  range.validateIndex index
  let byte := (index / 8).toNat
  let bit := (index % 8).toNat
  return hasBit (bitmap.getD byte 0) bit

def setBit (bitmap : Buffer) (index : Int) (value : Bool) : Except RangeError Buffer := do
  range.validateIndex index
  let byte := (index / 8).toNat
  let bit := (index % 8).toNat
  if value then return bitmap.set byte (bitmap.getD byte 0 ||| (1 <<< UInt8.ofNat bit))
  else return bitmap.set byte (bitmap.getD byte 0 &&& ~~~(1 <<< UInt8.ofNat bit))

def getCursor : Request Nat := .read fun s => s.cursor.elim (.error .cursorNotFound) .ok

def getBitmap : Request Buffer := .read fun s => s.bitmap.elim (.error .bitmapNotFound) .ok

def getUsed : Request Nat := .read fun s => s.used.elim (.error .usedNotFound) .ok

def putBitmap (bitmap : Buffer) : Request Unit := .write fun s => { s with bitmap := some bitmap }

def putCursor (cursor : Nat) : Request Unit := .write fun s => { s with cursor := some cursor }

def putUsed (used : Nat) : Request Unit := .write fun s => { s with used := some used }

def reset : Request Unit := do
  putBitmap (List.replicate ((range.size + 7) / 8) 0)
  putCursor 0
  putUsed 0

/-- The loop of `allocate`, over the offsets left. -/
def search (bitmap : Buffer) (cursor used : Nat) : List Nat → Request Nat
  | [] => .throw .noFreeSpace
  | offset :: offsets => do
    let i := (cursor + offset) % range.size
    if !(← .ofExcept (range.getBit bitmap i)) then
      let bitmap ← .ofExcept (range.setBit bitmap i true)
      putBitmap bitmap
      putCursor ((i + 1) % range.size)
      putUsed (used + 1)
      return i
    else search bitmap cursor used offsets

def allocate : Request Nat := do
  let cursor ← getCursor
  let used ← getUsed
  if used ≥ range.size then .throw .noFreeSpace
  else
    let bitmap ← getBitmap
    range.search bitmap cursor used (List.range range.size)

def claim (index : Int) : Request Unit := do
  let bitmap ← getBitmap
  if ← .ofExcept (range.getBit bitmap index) then .throw (.alreadyAllocated index)
  else
    let used ← getUsed
    let bitmap ← .ofExcept (range.setBit bitmap index true)
    putBitmap bitmap
    putUsed (used + 1)

def release (index : Int) : Request Unit := do
  let bitmap ← getBitmap
  if !(← .ofExcept (range.getBit bitmap index)) then .throw (.notAllocated index)
  else
    let used ← getUsed
    let bitmap ← .ofExcept (range.setBit bitmap index false)
    putBitmap bitmap
    putUsed (used - 1)

def has (index : Int) : Request Bool := do
  let bitmap ← getBitmap
  .ofExcept (range.getBit bitmap index)

end AllocatableRange

/-! ## Calls by any number of clients -/

inductive RangeCall where
  | allocate
  | claim (index : Int)
  | release (index : Int)
  | has (index : Int)
  deriving DecidableEq

inductive Answer where
  | index (i : Nat)
  | done
  | taken (b : Bool)
  deriving DecidableEq

namespace AllocatableRange

variable (range : AllocatableRange)

/-- What a call checks before it asks for the lock. -/
def check : RangeCall → Except RangeError Unit
  | .allocate => .ok ()
  | .claim index | .release index | .has index => range.validateIndex index

/-- What a call does inside the lock. -/
def body : RangeCall → Request Answer
  | .allocate => return .index (← range.allocate)
  | .claim index => do range.claim index; return .done
  | .release index => do range.release index; return .done
  | .has index => return .taken (← range.has index)

def calls : Section RangeStore RangeError Answer RangeCall where
  check := range.check
  body := range.body
  Refusal e := ∃ failure, e = .lock failure

/-- What `create` leaves under the three keys. -/
def created : RangeStore := (range.reset.run {}).2

/-- The runs of clients that opened a range after it was created. -/
def clients : System (Locked RangeStore RangeError Answer RangeCall)
    (LockedStep RangeError RangeCall) :=
  range.calls.machine range.created

end AllocatableRange

/-! ## What a range is for -/

/-- What a call does to the set of indices taken. -/
inductive Pool (n : Nat) : Finset Nat → RangeCall → Except RangeError Answer → Finset Nat → Prop
  | allocate {taken : Finset Nat} {i : Nat} (hi : i < n) (hfree : i ∉ taken) :
      Pool n taken .allocate (.ok (.index i)) (insert i taken)
  | full {taken : Finset Nat} (h : taken = Finset.range n) :
      Pool n taken .allocate (.error .noFreeSpace) taken
  | claim {taken : Finset Nat} {i : Nat} (hi : i < n) (hfree : i ∉ taken) :
      Pool n taken (.claim i) (.ok .done) (insert i taken)
  | alreadyAllocated {taken : Finset Nat} {i : Nat} (hi : i ∈ taken) :
      Pool n taken (.claim i) (.error (.alreadyAllocated i)) taken
  | release {taken : Finset Nat} {i : Nat} (hi : i ∈ taken) :
      Pool n taken (.release i) (.ok .done) (taken.erase i)
  | notAllocated {taken : Finset Nat} {i : Nat} (hi : i < n) (hfree : i ∉ taken) :
      Pool n taken (.release i) (.error (.notAllocated i)) taken
  | has {taken : Finset Nat} {i : Nat} (hi : i < n) :
      Pool n taken (.has i) (.ok (.taken (decide (i ∈ taken)))) taken
  | outOfBounds {taken : Finset Nat} {call : RangeCall} {index : Int}
      (hcall : call = .claim index ∨ call = .release index ∨ call = .has index)
      (hindex : index < 0 ∨ (n : Int) ≤ index) :
      Pool n taken call (.error (.outOfBounds index)) taken
  | lock {taken : Finset Nat} {call : RangeCall} {failure : LockFailure} :
      Pool n taken call (.error (.lock failure)) taken

/-- The indices whose bit is set. -/
def heldIn (bitmap : Buffer) : Finset Nat :=
  (Finset.range (8 * bitmap.length)).filter fun i => bitAt bitmap i = true

/-- The indices taken, by the bitmap. -/
def RangeStore.held (s : RangeStore) : Finset Nat := heldIn (s.bitmap.getD [])

/-- The number of set bits. -/
def setBits (bitmap : Buffer) : Nat := (heldIn bitmap).card

/-! ## Bits -/

theorem mask_toBitVec {bit : Nat} (h : bit < 8) :
    ((1 : UInt8) <<< UInt8.ofNat bit).toBitVec = BitVec.twoPow 8 bit := by
  interval_cases bit <;> decide

theorem hasBit_eq (byte : UInt8) {bit : Nat} (h : bit < 8) :
    hasBit byte bit = byte.toBitVec.getLsbD bit := by
  unfold hasBit
  rw [Bool.eq_iff_iff, bne_iff_ne, ne_eq, ← UInt8.toBitVec_inj, UInt8.toBitVec_and,
    mask_toBitVec h, BitVec.and_twoPow]
  cases byte.toBitVec.getLsbD bit with
  | false => simp
  | true =>
    simp only [if_true, iff_true]
    interval_cases bit <;> decide

/-- One bit more. -/
theorem hasBit_or (byte : UInt8) {bit other : Nat} (h : bit < 8) (hother : other < 8) :
    hasBit (byte ||| (1 <<< UInt8.ofNat bit)) other = (decide (other = bit) || hasBit byte other) := by
  rw [hasBit_eq _ hother, hasBit_eq _ hother, UInt8.toBitVec_or, mask_toBitVec h,
    BitVec.getLsbD_or, BitVec.getLsbD_twoPow]
  grind

/-- One bit less. -/
theorem hasBit_and_not (byte : UInt8) {bit other : Nat} (h : bit < 8) (hother : other < 8) :
    hasBit (byte &&& ~~~(1 <<< UInt8.ofNat bit)) other
      = (decide (other ≠ bit) && hasBit byte other) := by
  rw [hasBit_eq _ hother, hasBit_eq _ hother, UInt8.toBitVec_and, UInt8.toBitVec_not,
    mask_toBitVec h, BitVec.getLsbD_and, BitVec.getLsbD_not, BitVec.getLsbD_twoPow]
  grind

theorem mem_heldIn {bitmap : Buffer} {i : Nat} :
    i ∈ heldIn bitmap ↔ i < 8 * bitmap.length ∧ bitAt bitmap i = true := by
  simp [heldIn]

/-- Inside the bitmap a bit is set exactly for a member. -/
theorem bitAt_eq {bitmap : Buffer} {i : Nat} (h : i < 8 * bitmap.length) :
    bitAt bitmap i = decide (i ∈ heldIn bitmap) := by
  rw [Bool.eq_iff_iff, decide_eq_true_iff, mem_heldIn]
  exact ⟨fun hbit => ⟨h, hbit⟩, And.right⟩

/-- A bitmap with one bit changed. -/
def withBit (bitmap : Buffer) (i : Nat) (value : Bool) : Buffer :=
  bitmap.set (i / 8)
    (if value then bitmap.getD (i / 8) 0 ||| (1 <<< UInt8.ofNat (i % 8))
      else bitmap.getD (i / 8) 0 &&& ~~~(1 <<< UInt8.ofNat (i % 8)))

@[simp] theorem length_withBit (bitmap : Buffer) (i : Nat) (value : Bool) :
    (withBit bitmap i value).length = bitmap.length := List.length_set

theorem bitAt_withBit {bitmap : Buffer} {i j : Nat} (hi : i < 8 * bitmap.length) (value : Bool) :
    bitAt (withBit bitmap i value) j = if j = i then value else bitAt bitmap j := by
  have hbyte : i / 8 < bitmap.length := by omega
  by_cases hsame : j / 8 = i / 8
  · have hget : (withBit bitmap i value).getD (j / 8) 0
        = if value then bitmap.getD (i / 8) 0 ||| (1 <<< UInt8.ofNat (i % 8))
          else bitmap.getD (i / 8) 0 &&& ~~~(1 <<< UInt8.ofNat (i % 8)) := by
      simp [withBit, hsame, hbyte]
    have hbit : (j % 8 = i % 8) ↔ j = i := by omega
    unfold bitAt
    rw [hget, hsame]
    cases value with
    | true =>
      simp only [if_true]
      rw [hasBit_or _ (by omega) (by omega)]
      grind
    | false =>
      simp only [Bool.false_eq_true, if_false]
      rw [hasBit_and_not _ (by omega) (by omega)]
      grind
  · have hne : j ≠ i := fun h => hsame (h ▸ rfl)
    have hget : (withBit bitmap i value).getD (j / 8) 0 = bitmap.getD (j / 8) 0 := by
      simp [withBit, List.getElem?_set_ne (Ne.symm hsame)]
    simp only [bitAt, hget, if_neg hne]

theorem heldIn_withBit_true {bitmap : Buffer} {i : Nat} (hi : i < 8 * bitmap.length) :
    heldIn (withBit bitmap i true) = insert i (heldIn bitmap) := by
  ext j
  simp only [mem_heldIn, Finset.mem_insert, bitAt_withBit hi, length_withBit]
  grind

theorem heldIn_withBit_false {bitmap : Buffer} {i : Nat} (hi : i < 8 * bitmap.length) :
    heldIn (withBit bitmap i false) = (heldIn bitmap).erase i := by
  ext j
  simp only [mem_heldIn, Finset.mem_erase, bitAt_withBit hi, length_withBit]
  grind

theorem heldIn_replicate (bytes : Nat) : heldIn (List.replicate bytes 0) = ∅ := by
  ext i
  have hzero : bitAt (List.replicate bytes 0) i = false := by
    have hget : (List.replicate bytes (0 : UInt8)).getD (i / 8) 0 = 0 := by
      rw [List.getD_eq_getElem?_getD, List.getElem?_replicate]
      split <;> rfl
    simp only [bitAt, hget, hasBit_eq 0 (show i % 8 < 8 by omega)]
    simp
  simp [mem_heldIn, hzero]

/-! ## The methods, run by themselves -/

/-- What is under the three keys. -/
structure Contents where
  bitmap : Buffer
  cursor : Nat
  used : Nat
  deriving DecidableEq

namespace Contents

def stored (c : Contents) : RangeStore := ⟨some c.bitmap, some c.cursor, some c.used⟩

structure Exact (n : Nat) (c : Contents) : Prop where
  size : c.bitmap.length = (n + 7) / 8
  bounded : ∀ i ∈ heldIn c.bitmap, i < n
  count : c.used = setBits c.bitmap
  cursor : c.cursor < n

variable {n : Nat} {c : Contents}

theorem Exact.lt_bits (h : c.Exact n) {i : Nat} (hi : i < n) : i < 8 * c.bitmap.length := by
  have := h.size
  omega

/-- All indices are taken exactly when the count is the size. -/
theorem Exact.full_iff (h : c.Exact n) : heldIn c.bitmap = Finset.range n ↔ n ≤ c.used := by
  have hsub : heldIn c.bitmap ⊆ Finset.range n :=
    fun i hi => Finset.mem_range.mpr (h.bounded i hi)
  rw [h.count]
  constructor
  · intro heq
    simp [setBits, heq]
  · intro hle
    exact Finset.eq_of_subset_of_card_le hsub (by simpa [setBits] using hle)

/-- One more index is taken. -/
theorem Exact.take (h : c.Exact n) {i : Nat} (hi : i < n) (hfree : i ∉ heldIn c.bitmap)
    {cursor : Nat} (hcursor : cursor < n) :
    Exact n ⟨withBit c.bitmap i true, cursor, c.used + 1⟩ where
  size := by simp [h.size]
  bounded j hj := by
    rw [heldIn_withBit_true (h.lt_bits hi)] at hj
    rcases Finset.mem_insert.mp hj with rfl | hj
    · exact hi
    · exact h.bounded j hj
  count := by
    show c.used + 1 = (heldIn (withBit c.bitmap i true)).card
    rw [heldIn_withBit_true (h.lt_bits hi), Finset.card_insert_of_notMem hfree, h.count, setBits]
  cursor := hcursor

/-- One index is given back. -/
theorem Exact.giveBack (h : c.Exact n) {i : Nat} (hi : i ∈ heldIn c.bitmap) :
    Exact n ⟨withBit c.bitmap i false, c.cursor, c.used - 1⟩ where
  size := by simp [h.size]
  bounded j hj := by
    rw [heldIn_withBit_false (h.lt_bits (h.bounded i hi))] at hj
    exact h.bounded j (Finset.mem_of_mem_erase hj)
  count := by
    show c.used - 1 = (heldIn (withBit c.bitmap i false)).card
    rw [heldIn_withBit_false (h.lt_bits (h.bounded i hi)), Finset.card_erase_of_mem hi, h.count,
      setBits]
  cursor := h.cursor

end Contents

namespace AllocatableRange

variable {range : AllocatableRange} {c : Contents}

theorem validateIndex_ok {index : Int} (h : range.validateIndex index = .ok ()) :
    ∃ i : Nat, index = i ∧ i < range.size := by
  unfold validateIndex at h
  split at h
  · simp at h
  · rename_i hbounds
    exact ⟨index.toNat, by omega, by omega⟩

theorem validateIndex_error {index : Int} {e : RangeError} (h : range.validateIndex index = .error e) :
    e = .outOfBounds index ∧ (index < 0 ∨ (range.size : Int) ≤ index) := by
  unfold validateIndex at h
  split at h
  · cases h
    exact ⟨rfl, ‹_›⟩
  · simp at h

theorem validateIndex_nat {i : Nat} (h : i < range.size) : range.validateIndex i = .ok () := by
  unfold validateIndex
  rw [if_neg (by omega)]

theorem getBit_nat (bitmap : Buffer) {i : Nat} (h : i < range.size) :
    range.getBit bitmap i = .ok (bitAt bitmap i) := by
  unfold getBit
  rw [validateIndex_nat h]
  have hbyte : ((i : Int) / 8).toNat = i / 8 := by omega
  have hbit : ((i : Int) % 8).toNat = i % 8 := by omega
  show Except.ok _ = _
  rw [hbyte, hbit, bitAt]

theorem setBit_nat (bitmap : Buffer) {i : Nat} (h : i < range.size) (value : Bool) :
    range.setBit bitmap i value = .ok (withBit bitmap i value) := by
  unfold setBit
  rw [validateIndex_nat h]
  have hbyte : ((i : Int) / 8).toNat = i / 8 := by omega
  have hbit : ((i : Int) % 8).toNat = i % 8 := by omega
  cases value with
  | true =>
    show Except.ok _ = _
    rw [hbyte, hbit, withBit, if_pos rfl]
  | false =>
    show Except.ok _ = _
    rw [hbyte, hbit, withBit, if_neg Bool.false_ne_true]

/-! ### What they read and write -/

@[simp] theorem run_getCursor : getCursor.run c.stored = (.ok c.cursor, c.stored) := rfl

@[simp] theorem run_getBitmap : getBitmap.run c.stored = (.ok c.bitmap, c.stored) := rfl

@[simp] theorem run_getUsed : getUsed.run c.stored = (.ok c.used, c.stored) := rfl

@[simp] theorem run_putBitmap (bitmap : Buffer) :
    (putBitmap bitmap).run c.stored = (.ok (), { c with bitmap }.stored) := rfl

@[simp] theorem run_putCursor (cursor : Nat) :
    (putCursor cursor).run c.stored = (.ok (), { c with cursor }.stored) := rfl

@[simp] theorem run_putUsed (used : Nat) :
    (putUsed used).run c.stored = (.ok (), { c with used }.stored) := rfl

/-- The loop takes the first free index it comes to. -/
theorem run_search (h : c.Exact range.size) (offsets : List Nat) :
    (∃ i, i < range.size ∧ i ∉ heldIn c.bitmap
      ∧ (range.search c.bitmap c.cursor c.used offsets).run c.stored = (.ok i,
          (Contents.mk (withBit c.bitmap i true) ((i + 1) % range.size) (c.used + 1)).stored)) ∨
    ((∀ offset ∈ offsets, (c.cursor + offset) % range.size ∈ heldIn c.bitmap)
      ∧ (range.search c.bitmap c.cursor c.used offsets).run c.stored
          = (.error .noFreeSpace, c.stored)) := by
  have hpos : 0 < range.size := Nat.zero_lt_of_lt h.cursor
  induction offsets with
  | nil => exact .inr ⟨by simp, rfl⟩
  | cons offset offsets ih =>
    obtain ⟨i, hindex⟩ : ∃ i, (c.cursor + offset) % range.size = i := ⟨_, rfl⟩
    have hi : i < range.size := hindex ▸ Nat.mod_lt _ hpos
    have hbit := bitAt_eq (h.lt_bits hi)
    by_cases hheld : i ∈ heldIn c.bitmap
    · have hskip : (range.search c.bitmap c.cursor c.used (offset :: offsets)).run c.stored
          = (range.search c.bitmap c.cursor c.used offsets).run c.stored := by
        simp [search, hindex, getBit_nat _ hi, hbit, hheld]
      rw [hskip]
      refine ih.imp id fun ⟨hall, hrun⟩ => ⟨fun o ho => ?_, hrun⟩
      rcases List.mem_cons.mp ho with rfl | ho
      · rwa [hindex]
      · exact hall o ho
    · exact .inl ⟨i, hi, hheld, by
        simp [search, hindex, getBit_nat _ hi, setBit_nat _ hi, hbit, hheld]⟩

/-- Every index is some offset away from the cursor. -/
theorem covered {n cursor j : Nat} (hcursor : cursor < n) (hj : j < n) :
    ∃ offset ∈ List.range n, (cursor + offset) % n = j := by
  by_cases hle : cursor ≤ j
  · refine ⟨j - cursor, List.mem_range.mpr (by omega), ?_⟩
    rw [show cursor + (j - cursor) = j by omega]
    exact Nat.mod_eq_of_lt hj
  · refine ⟨j + n - cursor, List.mem_range.mpr (by omega), ?_⟩
    rw [show cursor + (j + n - cursor) = j + n by omega, Nat.add_mod_right]
    exact Nat.mod_eq_of_lt hj

/-- What a call leaves when it runs by itself. -/
def Settles (range : AllocatableRange) (c : Contents) (call : RangeCall)
    (result : Except RangeError Answer × RangeStore) : Prop :=
  ∃ c' : Contents, result.2 = c'.stored ∧ c'.Exact range.size
    ∧ Pool range.size (heldIn c.bitmap) call result.1 (heldIn c'.bitmap)
    ∧ ∀ e, result.1 = .error e → c' = c

theorem Settles.same (h : c.Exact range.size) {call : RangeCall} {outcome : Except RangeError Answer}
    (hpool : Pool range.size (heldIn c.bitmap) call outcome (heldIn c.bitmap)) :
    range.Settles c call (outcome, c.stored) := ⟨c, rfl, h, hpool, fun _ _ => rfl⟩

theorem settles_allocate (h : c.Exact range.size) :
    range.Settles c .allocate ((range.body .allocate).run c.stored) := by
  have hpos : 0 < range.size := Nat.zero_lt_of_lt h.cursor
  by_cases hfull : range.size ≤ c.used
  · have hrun : (range.body .allocate).run c.stored = (.error .noFreeSpace, c.stored) := by
      simp [body, allocate, hfull]
    rw [hrun]
    exact .same h (.full (h.full_iff.mpr hfull))
  · rcases run_search h (List.range range.size) with ⟨i, hi, hfree, hrun⟩ | ⟨hall, -⟩
    · have hcall : (range.body .allocate).run c.stored = (.ok (.index i),
          (Contents.mk (withBit c.bitmap i true) ((i + 1) % range.size) (c.used + 1)).stored) := by
        simp [body, allocate, hfull, hrun]
      rw [hcall]
      have hheld := heldIn_withBit_true (h.lt_bits hi)
      exact ⟨_, rfl, h.take hi hfree (Nat.mod_lt _ hpos), hheld ▸ .allocate hi hfree, by simp⟩
    · have hevery : heldIn c.bitmap = Finset.range range.size := by
        refine Finset.Subset.antisymm (fun i hi => Finset.mem_range.mpr (h.bounded i hi)) ?_
        intro j hj
        obtain ⟨offset, hoffset, hsum⟩ := covered h.cursor (Finset.mem_range.mp hj)
        exact hsum ▸ hall offset hoffset
      exact absurd (h.full_iff.mp hevery) hfull

theorem settles_claim (h : c.Exact range.size) {i : Nat} (hi : i < range.size) :
    range.Settles c (.claim i) ((range.body (.claim i)).run c.stored) := by
  have hbit := bitAt_eq (h.lt_bits hi)
  by_cases hheld : i ∈ heldIn c.bitmap
  · have hrun : (range.body (.claim i)).run c.stored = (.error (.alreadyAllocated i), c.stored) := by
      simp [body, claim, getBit_nat _ hi, hbit, hheld]
    rw [hrun]
    exact .same h (.alreadyAllocated hheld)
  · have hrun : (range.body (.claim i)).run c.stored = (.ok .done,
        (Contents.mk (withBit c.bitmap i true) c.cursor (c.used + 1)).stored) := by
      simp [body, claim, getBit_nat _ hi, setBit_nat _ hi, hbit, hheld]
    rw [hrun]
    exact ⟨_, rfl, h.take hi hheld h.cursor,
      heldIn_withBit_true (h.lt_bits hi) ▸ .claim hi hheld, by simp⟩

theorem settles_release (h : c.Exact range.size) {i : Nat} (hi : i < range.size) :
    range.Settles c (.release i) ((range.body (.release i)).run c.stored) := by
  have hbit := bitAt_eq (h.lt_bits hi)
  by_cases hheld : i ∈ heldIn c.bitmap
  · have hrun : (range.body (.release i)).run c.stored = (.ok .done,
        (Contents.mk (withBit c.bitmap i false) c.cursor (c.used - 1)).stored) := by
      simp [body, release, getBit_nat _ hi, setBit_nat _ hi, hbit, hheld]
    rw [hrun]
    exact ⟨_, rfl, h.giveBack hheld, heldIn_withBit_false (h.lt_bits hi) ▸ .release hheld, by simp⟩
  · have hrun : (range.body (.release i)).run c.stored = (.error (.notAllocated i), c.stored) := by
      simp [body, release, getBit_nat _ hi, hbit, hheld]
    rw [hrun]
    exact .same h (.notAllocated hi hheld)

theorem settles_has (h : c.Exact range.size) {i : Nat} (hi : i < range.size) :
    range.Settles c (.has i) ((range.body (.has i)).run c.stored) := by
  have hrun : (range.body (.has i)).run c.stored
      = (.ok (.taken (decide (i ∈ heldIn c.bitmap))), c.stored) := by
    simp [body, has, getBit_nat _ hi, bitAt_eq (h.lt_bits hi)]
  rw [hrun]
  exact .same h (.has hi)

/-- Each method keeps the invariant and takes a step of the pool. -/
theorem settles_body (h : c.Exact range.size) {call : RangeCall} (hcheck : range.check call = .ok ()) :
    range.Settles c call ((range.body call).run c.stored) := by
  cases call with
  | allocate => exact settles_allocate h
  | claim index =>
    obtain ⟨i, rfl, hi⟩ := validateIndex_ok hcheck
    exact settles_claim h hi
  | release index =>
    obtain ⟨i, rfl, hi⟩ := validateIndex_ok hcheck
    exact settles_release h hi
  | has index =>
    obtain ⟨i, rfl, hi⟩ := validateIndex_ok hcheck
    exact settles_has h hi

end AllocatableRange

/-! ## Every interleaving -/

/-- The index a call handed out. -/
def handsOut : RangeCall → Except RangeError Answer → Option Nat
  | .allocate, .ok (.index i) => some i
  | .claim index, .ok _ => some index.toNat
  | _, _ => none

/-- The call released the index. -/
def releases (call : RangeCall) (outcome : Except RangeError Answer) (i : Nat) : Prop :=
  call = .release i ∧ outcome = .ok .done

/-- The call did not fail for want of the lock. -/
def gotLock (outcome : Except RangeError Answer) : Prop :=
  ∀ failure, outcome ≠ .error (.lock failure)

namespace Pool

variable {n : Nat} {taken taken' : Finset Nat} {call : RangeCall}
  {outcome : Except RangeError Answer}

theorem onlyFree (h : Pool n taken call outcome taken') {i : Nat}
    (hi : handsOut call outcome = some i) : i < n ∧ i ∉ taken ∧ i ∈ taken' := by
  cases h with
  | allocate hlt hfree =>
    cases hi
    exact ⟨hlt, hfree, Finset.mem_insert_self _ _⟩
  | claim hlt hfree =>
    cases hi
    exact ⟨hlt, hfree, Finset.mem_insert_self _ _⟩
  | _ => simp [handsOut] at hi

theorem mem_after (h : Pool n taken call outcome taken') {i : Nat}
    (hi : ¬ releases call outcome i) (htaken : i ∈ taken) : i ∈ taken' := by
  cases h with
  | allocate hlt hfree => exact Finset.mem_insert_of_mem htaken
  | claim hlt hfree => exact Finset.mem_insert_of_mem htaken
  | release hmem =>
    refine Finset.mem_erase_of_ne_of_mem (fun heq => hi ?_) htaken
    exact ⟨by rw [heq], rfl⟩
  | _ => exact htaken

/-- `allocate` fails exactly when all indices are taken. -/
theorem full_iff (h : Pool n taken call outcome taken') (hcall : call = .allocate)
    (hlock : gotLock outcome) : (∃ e, outcome = .error e) ↔ taken = Finset.range n := by
  cases h with
  | allocate hlt hfree =>
    refine iff_of_false (by simp) fun heq => hfree (heq ▸ Finset.mem_range.mpr hlt)
  | full h => exact iff_of_true ⟨_, rfl⟩ h
  | outOfBounds hother => simp [hcall] at hother
  | lock => exact absurd rfl (hlock _)
  | _ => simp at hcall

end Pool

namespace AllocatableRange

variable {range : AllocatableRange} {m : Locked RangeStore RangeError Answer RangeCall}

/-- A call in the log found exact contents and left exact contents. -/
def SettlesEntry (range : AllocatableRange) (entry : Ended RangeStore RangeError Answer RangeCall) :
    Prop :=
  ∃ c : Contents, c.Exact range.size ∧ entry.before = c.stored
    ∧ range.Settles c entry.call (entry.outcome, entry.after)

theorem settles_entry {entry : Ended RangeStore RangeError Answer RangeCall}
    (hatomic : range.calls.Atomic entry) {c : Contents} (hbefore : entry.before = c.stored)
    (h : c.Exact range.size) : range.Settles c entry.call (entry.outcome, entry.after) := by
  obtain ⟨call, before, outcome, after⟩ := entry
  obtain rfl : before = c.stored := hbefore
  rcases hatomic with ⟨hsame, e, houtcome, hthrown⟩ | ⟨hcheck, hrun⟩
  · obtain rfl : after = c.stored := hsame
    obtain rfl : outcome = .error e := houtcome
    refine .same h ?_
    rcases hthrown with hcheck | ⟨failure, rfl⟩
    · cases call with
      | allocate => exact absurd hcheck (by simp [calls, check])
      | claim index =>
        obtain ⟨rfl, hbounds⟩ := validateIndex_error hcheck
        exact .outOfBounds (.inl rfl) hbounds
      | release index =>
        obtain ⟨rfl, hbounds⟩ := validateIndex_error hcheck
        exact .outOfBounds (.inr (.inl rfl)) hbounds
      | has index =>
        obtain ⟨rfl, hbounds⟩ := validateIndex_error hcheck
        exact .outOfBounds (.inr (.inr rfl)) hbounds
    · exact .lock
  · have hsettles := settles_body h hcheck
    have hrun' : (range.body call).run c.stored = (outcome, after) := hrun
    rwa [hrun'] at hsettles

theorem exact_created (hsize : 0 < range.size) :
    Contents.Exact range.size ⟨List.replicate ((range.size + 7) / 8) 0, 0, 0⟩ where
  size := List.length_replicate
  bounded := by simp [heldIn_replicate]
  count := by simp [setBits, heldIn_replicate]
  cursor := hsize

/-- Every call of every run settles, and the store it left is exact. -/
theorem settles_log (hsize : 0 < range.size) (h : range.clients.Reach m) :
    (∃ c : Contents, m.committed = c.stored ∧ c.Exact range.size)
      ∧ ∀ entry ∈ m.log, range.SettlesEntry entry := by
  have hfaithful := Section.faithful h
  have hkeeps : ∀ entry ∈ m.log, (∃ c : Contents, entry.before = c.stored ∧ c.Exact range.size) →
      ∃ c : Contents, entry.after = c.stored ∧ c.Exact range.size := by
    rintro entry hentry ⟨c, hbefore, hc⟩
    obtain ⟨c', hafter, hc', -⟩ := settles_entry (hfaithful.atomic entry hentry) hbefore hc
    exact ⟨c', hafter, hc'⟩
  have hcreated : ∃ c : Contents, range.created = c.stored ∧ c.Exact range.size :=
    ⟨_, rfl, exact_created hsize⟩
  obtain ⟨hlast, hlog⟩ := hfaithful.chain.invariant
    (P := fun s => ∃ c : Contents, s = c.stored ∧ c.Exact range.size) hcreated hkeeps
  refine ⟨hlast, fun entry hentry => ?_⟩
  obtain ⟨c, hbefore, hc⟩ := (hlog entry hentry).1
  exact ⟨c, hc, hbefore, settles_entry (hfaithful.atomic entry hentry) hbefore hc⟩

theorem SettlesEntry.pool {entry : Ended RangeStore RangeError Answer RangeCall}
    (h : range.SettlesEntry entry) :
    Pool range.size entry.before.held entry.call entry.outcome entry.after.held := by
  obtain ⟨c, -, hbefore, c', hafter, -, hpool, -⟩ := h
  rw [hbefore, show entry.after = c'.stored from hafter]
  exact hpool

/-! ### The cursor -/

/-- There is a cursor and it is below the size. -/
def CursorBelow (range : AllocatableRange) (s : RangeStore) : Prop :=
  ∃ cursor, s.cursor = some cursor ∧ cursor < range.size

theorem keeps_search (bitmap : Buffer) (cursor used : Nat) (offsets : List Nat) :
    (range.search bitmap cursor used offsets).Keeps range.CursorBelow := by
  induction offsets with
  | nil => exact Prog.keeps_throw _
  | cons offset offsets ih =>
    unfold search
    refine .bind (Prog.keeps_ofExcept _) fun bit => ?_
    split
    · refine .bind (Prog.keeps_ofExcept _) fun bitmap => ?_
      refine .bind (Prog.keeps_write fun s hs => hs) fun _ => ?_
      refine .bind (Prog.keeps_write fun s hs => ?_) fun _ => ?_
      · obtain ⟨c, -, hlt⟩ := hs
        exact ⟨_, rfl, Nat.mod_lt _ (Nat.zero_lt_of_lt hlt)⟩
      · exact .bind (Prog.keeps_write fun s hs => hs) fun _ => Prog.keeps_pure _
    · exact ih

theorem keeps_body (call : RangeCall) : (range.body call).Keeps range.CursorBelow := by
  cases call with
  | allocate =>
    refine .bind ?_ fun _ => Prog.keeps_pure _
    refine .bind (Prog.keeps_read _) fun cursor => .bind (Prog.keeps_read _) fun used => ?_
    split
    · exact Prog.keeps_throw _
    · exact .bind (Prog.keeps_read _) fun bitmap => keeps_search _ _ _ _
  | claim index | release index =>
    refine .bind ?_ fun _ => Prog.keeps_pure _
    refine .bind (Prog.keeps_read _) fun bitmap => .bind (Prog.keeps_ofExcept _) fun bit => ?_
    split
    · exact Prog.keeps_throw _
    · refine .bind (Prog.keeps_read _) fun used => .bind (Prog.keeps_ofExcept _) fun bitmap => ?_
      exact .bind (Prog.keeps_write fun s hs => hs) fun _ => Prog.keeps_write fun s hs => hs
  | has index =>
    refine .bind ?_ fun _ => Prog.keeps_pure _
    exact .bind (Prog.keeps_read _) fun bitmap => Prog.keeps_ofExcept _

/-! ### The result -/

/-- What holds of a range in any state of its clients. -/
structure RangeExact (range : AllocatableRange)
    (m : Locked RangeStore RangeError Answer RangeCall) : Prop where
  counted : m.holder = none →
    ∃ bitmap, m.store.bitmap = some bitmap ∧ m.store.used = some (setBits bitmap)
  cursor : range.CursorBelow m.store
  chain : Section.Chain range.created m.log m.committed
  committed : m.holder = none → m.store = m.committed
  pool : ∀ entry ∈ m.log,
    Pool range.size entry.before.held entry.call entry.outcome entry.after.held
  onlyFree : ∀ entry ∈ m.log, ∀ i, handsOut entry.call entry.outcome = some i →
    i < range.size ∧ i ∉ entry.before.held ∧ i ∈ entry.after.held
  untilReleased : ∀ log entry later i, m.log = log ++ entry :: later →
    handsOut entry.call entry.outcome = some i →
    (∀ e ∈ later, ¬ releases e.call e.outcome i) →
    i ∈ m.committed.held ∧ ∀ e ∈ later, i ∈ e.before.held
  full : ∀ entry ∈ m.log, entry.call = .allocate → gotLock entry.outcome →
    ((∃ e, entry.outcome = .error e) ↔ entry.before.held = Finset.range range.size)
  thrown : ∀ entry ∈ m.log, ∀ e, entry.outcome = .error e → entry.after = entry.before

/-- In every run the counts are exact whenever the lock is free, and every
call that ended took a step of the pool. -/
theorem range_exact (hsize : 0 < range.size) (h : range.clients.Reach m) :
    RangeExact range m := by
  have hfaithful := Section.faithful h
  obtain ⟨⟨c, hcommitted, hc⟩, hlog⟩ := settles_log hsize h
  refine
    { counted := fun hfree => ?_
      cursor := Section.always ⟨0, rfl, hsize⟩ (fun call => keeps_body call) h
      chain := hfaithful.chain
      committed := hfaithful.free
      pool := fun entry hentry => (hlog entry hentry).pool
      onlyFree := fun entry hentry i hi => (hlog entry hentry).pool.onlyFree hi
      untilReleased := fun log entry later i hsplit hi hkept => ?_
      full := fun entry hentry => (hlog entry hentry).pool.full_iff
      thrown := fun entry hentry e he => ?_ }
  · rw [hfaithful.free hfree, hcommitted]
    exact ⟨c.bitmap, rfl, by rw [← hc.count]; rfl⟩
  · have hentry : entry ∈ m.log := hsplit ▸ List.mem_append_right _ List.mem_cons_self
    have hchain := hfaithful.chain
    rw [hsplit, ← List.singleton_append, ← List.append_assoc] at hchain
    obtain ⟨s, hleft, hright⟩ := hchain.split
    obtain ⟨-, rfl⟩ := hleft.snoc_inv
    have hstart := ((hlog entry hentry).pool.onlyFree hi).2.2
    obtain ⟨hlast, hall⟩ := hright.invariant (P := fun s => i ∈ s.held) hstart fun e he =>
      (hlog e (hsplit ▸ List.mem_append_right _ (List.mem_cons_of_mem _ he))).pool.mem_after
        (hkept e he)
    exact ⟨hlast, fun e he => (hall e he).1⟩
  · obtain ⟨c, -, hbefore, c', hafter, -, -, hsame⟩ := hlog entry hentry
    rw [hbefore, show entry.after = c'.stored from hafter, hsame e he]

/-- The runs of a range of eight. -/
def services : AllocatableRange := ⟨js "services", 8⟩

theorem services_created : services.clients.Reach { store := services.created } := .start rfl

/-- Two clients claim one index; the second waits for the lock. -/
theorem range_exact_contended :
    ∃ m, services.clients.Reach m ∧ 0 < services.size ∧ m.waiting = [.claim 3]
      ∧ RangeExact services m := by
  have h := Section.reach_exec (Section.reach_exec (Section.reach_exec services_created
    (.start (.claim 3)) trivial) (.start (.claim 3)) trivial) (.acquire 0) trivial
  exact ⟨_, h, by decide, rfl, range_exact (by decide) h⟩

/-- A client that waits too long for the lock fails with every index free, and
inside the lock the bitmap is a step ahead of the count. -/
theorem range_not_always :
    (∃ m, services.clients.Reach m ∧ ∃ entry ∈ m.log, entry.call = .allocate
      ∧ (∃ e, entry.outcome = .error e) ∧ entry.before.held ≠ Finset.range services.size) ∧
    ∃ m bitmap used, services.clients.Reach m ∧ m.store.bitmap = some bitmap
      ∧ m.store.used = some used ∧ used ≠ setBits bitmap := by
  have hgaveUp := Section.reach_exec (Section.reach_exec services_created
    (.start .allocate) trivial) (.giveUp 0 (.lock .timedOut)) ⟨_, rfl⟩
  have hinside := Section.reach_exec (Section.reach_exec services_created
    (.start (.claim 3)) trivial) (.acquire 0) trivial
  have hwritten := Section.reach_exec (Section.reach_exec (Section.reach_exec hinside
    .advance trivial) .advance trivial) .advance trivial
  refine ⟨⟨_, hgaveUp, _, List.mem_singleton_self _, rfl, ⟨_, rfl⟩, by decide⟩, ?_⟩
  exact ⟨_, _, _, hwritten, rfl, rfl, by decide⟩

end AllocatableRange

end Webernetes.Storage
