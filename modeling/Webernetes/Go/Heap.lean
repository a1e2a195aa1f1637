/-
Webernetes.Go.Heap — `container/heap`, over any collection that can compare
and swap its places.

What is known of a collection is a key for each place that `less` compares
(`Lawful`). `up`, `down`, `fix`, `push` and `pop` only swap places
(`Swaps`), so what every swap keeps they keep; and each brings the keys back
into heap order from the one place where it may be broken.
-/
import Mathlib.Logic.Equiv.Basic
import Mathlib.Order.Basic
import Mathlib.Tactic

namespace Webernetes.Go.Heap

/-- `sort.Interface` and the operations of `heap.Interface`; `pop` throws on
an empty collection. -/
structure Interface (H α : Type) where
  len : H → Nat
  less : H → Nat → Nat → Bool
  swap : H → Nat → Nat → H
  push : H → α → H
  pop : H → Option (α × H)

variable {H α : Type} (I : Interface H α)

def parent (j : Nat) : Nat := (j - 1) / 2

theorem parent_lt {j : Nat} (hj : 0 < j) : parent j < j := by
  unfold parent
  omega

def up (h : H) (j : Nat) : H :=
  if _ : parent j = j then h
  else if I.less h j (parent j) then up (I.swap h (parent j) j) (parent j)
  else h
termination_by j
decreasing_by
  unfold parent at *
  omega

/-- The child that `down` compares. -/
def child (h : H) (i n : Nat) : Nat :=
  if 2 * i + 2 < n ∧ I.less h (2 * i + 2) (2 * i + 1) then 2 * i + 2 else 2 * i + 1

/-- The loop of `down`; the second part is the last `i`. -/
def downFrom (n : Nat) (h : H) (i : Nat) : H × Nat :=
  if 2 * i + 1 ≥ n then (h, i)
  else if !I.less h (child I h i n) i then (h, i)
  else downFrom n (I.swap h i (child I h i n)) (child I h i n)
termination_by n - i
decreasing_by
  unfold child
  split <;> omega

def down (h : H) (i0 n : Nat) : H × Bool :=
  let (h, i) := downFrom I n h i0
  (h, decide (i > i0))

def push (h : H) (item : α) : H :=
  let h := I.push h item
  up I h (I.len h - 1)

def pop (h : H) : Option (α × H) :=
  let n := I.len h - 1
  I.pop (down I (I.swap h 0 n) 0 n).1

def fix (h : H) (i : Nat) : H :=
  match down I h i (I.len h) with
  | (h, true) => h
  | (h, false) => up I h i

/-! ## Swaps -/

/-- One collection comes from another by swaps of places it has. -/
inductive Swaps : H → H → Prop where
  | refl (h : H) : Swaps h h
  | swap {h h' : H} (i j : Nat) (hi : i < I.len h) (hj : j < I.len h)
      (rest : Swaps (I.swap h i j) h') : Swaps h h'

variable {I} {h h' : H}

/-- What every swap keeps is kept. -/
theorem Swaps.keeps {P : H → Prop} (hswap : ∀ h i j, i < I.len h → j < I.len h → P h → P (I.swap h i j))
    (hs : Swaps I h h') (hp : P h) : P h' := by
  induction hs with
  | refl => exact hp
  | swap i j hi hj _ ih => exact ih (hswap _ i j hi hj hp)

/-! ## Order -/

/-- A key for each place, which `less` compares and `swap` swaps, for the
collections that are sound. -/
structure Lawful (I : Interface H α) {κ : Type} [LinearOrder κ] (key : H → Nat → κ)
    (sound : H → Prop) : Prop where
  less_iff : ∀ {h i j}, sound h → i < I.len h → j < I.len h →
    (I.less h i j = true ↔ key h i < key h j)
  len_swap : ∀ {h i j}, sound h → i < I.len h → j < I.len h → I.len (I.swap h i j) = I.len h
  key_swap : ∀ {h i j}, sound h → i < I.len h → j < I.len h →
    ∀ k, k < I.len h → key (I.swap h i j) k = key h (Equiv.swap i j k)
  sound_swap : ∀ {h i j}, sound h → i < I.len h → j < I.len h → sound (I.swap h i j)

variable {κ : Type} [LinearOrder κ]

/-- The keys of the first `n` places are in heap order. -/
def Ordered (key : Nat → κ) (n : Nat) : Prop :=
  ∀ j, 0 < j → j < n → key (parent j) ≤ key j

/-- No key comes before the first. -/
theorem Ordered.first {key : Nat → κ} {n : Nat} (ho : Ordered key n) {j : Nat} (hj : j < n) :
    key 0 ≤ key j := by
  induction j using Nat.strong_induction_on with
  | h j ih =>
    rcases Nat.eq_zero_or_pos j with rfl | hpos
    · exact le_refl _
    · exact (ih (parent j) (parent_lt hpos) ((parent_lt hpos).trans hj)).trans (ho j hpos hj)

/-- Only the key of place `j` may come before that of its parent. -/
structure Rising (key : Nat → κ) (n j : Nat) : Prop where
  others : ∀ k, 0 < k → k < n → k ≠ j → key (parent k) ≤ key k
  children : 0 < j → ∀ k, 0 < k → k < n → parent k = j → key (parent j) ≤ key k

/-- Only the key of place `i` may come after those of its children. -/
structure Sinking (key : Nat → κ) (n i : Nat) : Prop where
  others : ∀ k, 0 < k → k < n → parent k ≠ i → key (parent k) ≤ key k
  children : 0 < i → ∀ k, 0 < k → k < n → parent k = i → key (parent i) ≤ key k

theorem Rising.ordered {key : Nat → κ} {n j : Nat} (hr : Rising key n j)
    (hj : 0 < j → j < n → key (parent j) ≤ key j) : Ordered key n := by
  intro k hpos hk
  by_cases hkj : k = j
  · subst hkj
    exact hj hpos hk
  · exact hr.others k hpos hk hkj

theorem Sinking.ordered {key : Nat → κ} {n i : Nat} (hs : Sinking key n i)
    (hi : ∀ k, 0 < k → k < n → parent k = i → key i ≤ key k) : Ordered key n := by
  intro k hpos hk
  by_cases hki : parent k = i
  · exact hki ▸ hi k hpos hk hki
  · exact hs.others k hpos hk hki

/-- The keys after a swap of a place and its parent. -/
theorem Rising.swap {key : Nat → κ} {n j : Nat} (hr : Rising key n j) (hpos : 0 < j) (hj : j < n)
    (hlt : key j < key (parent j)) :
    Rising (fun k => key (Equiv.swap (parent j) j k)) n (parent j) := by
  have hne := (parent_lt hpos).ne
  refine ⟨fun k hk hkn hkp => ?_, fun hp k hk hkn hparent => ?_⟩
  · by_cases hkj : k = j
    · subst hkj
      simpa using hlt.le
    · rw [Equiv.swap_apply_of_ne_of_ne hkp hkj]
      by_cases hkc : parent k = j
      · rw [hkc, Equiv.swap_apply_right]
        exact hr.children hpos k hk hkn hkc
      · by_cases hks : parent k = parent j
        · rw [hks, Equiv.swap_apply_left]
          exact hlt.le.trans (hks ▸ hr.others k hk hkn hkj)
        · rw [Equiv.swap_apply_of_ne_of_ne hks hkc]
          exact hr.others k hk hkn hkj
  · have hpp := parent_lt hp
    have hgrand := hr.others (parent j) hp ((parent_lt hpos).trans hj) hne
    rw [Equiv.swap_apply_of_ne_of_ne hpp.ne (hpp.trans (parent_lt hpos)).ne]
    by_cases hkj : k = j
    · subst hkj
      rw [Equiv.swap_apply_right]
      exact hgrand
    · have hkp : k ≠ parent j := fun heq => by
        subst heq
        exact (parent_lt hp).ne hparent
      rw [Equiv.swap_apply_of_ne_of_ne hkp hkj]
      exact hgrand.trans (hparent ▸ hr.others k hk hkn hkj)

/-- The keys after a swap of a place and its first child. -/
theorem Sinking.swap {key : Nat → κ} {n i c : Nat} (hs : Sinking key n i) (hc : c < n)
    (hpos : 0 < c) (hparent : parent c = i)
    (hfirst : ∀ k, 0 < k → k < n → parent k = i → key c ≤ key k) (hlt : key c < key i) :
    Sinking (fun k => key (Equiv.swap i c k)) n c := by
  have hic : i < c := hparent ▸ parent_lt hpos
  refine ⟨fun k hk hkn hkc => ?_, fun _ k hk hkn hkc => ?_⟩
  · by_cases hki : k = i
    · subst hki
      have hpk := parent_lt hk
      rw [Equiv.swap_apply_left, Equiv.swap_apply_of_ne_of_ne hpk.ne (hpk.trans hic).ne]
      exact hs.children hk c hpos hc hparent
    · by_cases hkchild : parent k = i
      · rw [hkchild, Equiv.swap_apply_left]
        by_cases hkc' : k = c
        · subst hkc'
          rw [Equiv.swap_apply_right]
          exact hlt.le
        · rw [Equiv.swap_apply_of_ne_of_ne hki hkc']
          exact hfirst k hk hkn hkchild
      · have hkc' : k ≠ c := fun heq => hkchild (heq ▸ hparent)
        rw [Equiv.swap_apply_of_ne_of_ne hkchild hkc, Equiv.swap_apply_of_ne_of_ne hki hkc']
        exact hs.others k hk hkn hkchild
  · have hkpos := parent_lt hk
    rw [hkc] at hkpos
    rw [hparent, Equiv.swap_apply_left, Equiv.swap_apply_of_ne_of_ne (hic.trans hkpos).ne' hkpos.ne']
    exact hkc ▸ hs.others k hk hkn (hkc ▸ hic.ne')

/-! ## `up` and `down` -/

variable {key : H → Nat → κ} {sound : H → Prop}

theorem Ordered.congr {f g : Nat → κ} {n : Nat} (ho : Ordered f n) (heq : ∀ k, k < n → g k = f k) :
    Ordered g n := by
  intro j hpos hj
  rw [heq j hj, heq (parent j) ((parent_lt hpos).trans hj)]
  exact ho j hpos hj

theorem Rising.congr {f g : Nat → κ} {n j : Nat} (hr : Rising f n j) (hj : j < n)
    (heq : ∀ k, k < n → g k = f k) : Rising g n j := by
  refine ⟨fun k hpos hk hne => ?_, fun hjpos k hpos hk hparent => ?_⟩
  · rw [heq k hk, heq (parent k) ((parent_lt hpos).trans hk)]
    exact hr.others k hpos hk hne
  · rw [heq k hk, heq (parent j) ((parent_lt hjpos).trans hj)]
    exact hr.children hjpos k hpos hk hparent

theorem Sinking.congr {f g : Nat → κ} {n i : Nat} (hs : Sinking f n i) (hi : i < n)
    (heq : ∀ k, k < n → g k = f k) : Sinking g n i := by
  refine ⟨fun k hpos hk hne => ?_, fun hipos k hpos hk hparent => ?_⟩
  · rw [heq k hk, heq (parent k) ((parent_lt hpos).trans hk)]
    exact hs.others k hpos hk hne
  · rw [heq k hk, heq (parent i) ((parent_lt hipos).trans hi)]
    exact hs.children hipos k hpos hk hparent

/-- `up` puts the keys in order when only the one it starts from is early. -/
theorem Lawful.up (hl : Lawful I key sound) {h : H} {j : Nat} (hsound : sound h) (hj : j < I.len h)
    (hr : Rising (key h) (I.len h) j) :
    Swaps I h (up I h j) ∧ I.len (up I h j) = I.len h
      ∧ Ordered (key (up I h j)) (I.len (up I h j)) := by
  induction j using Nat.strong_induction_on generalizing h with
  | h j ih =>
    rw [Heap.up]
    split
    · rename_i hroot
      refine ⟨.refl h, rfl, hr.ordered fun hpos _ => ?_⟩
      exact absurd hroot (parent_lt hpos).ne
    · rename_i hroot
      have hpos : 0 < j := by
        unfold parent at hroot
        omega
      have hp := (parent_lt hpos).trans hj
      split
      · rename_i hless
        have hlt := (hl.less_iff hsound hj hp).mp hless
        have hlen := hl.len_swap hsound hp hj
        have hrising := (hr.swap hpos hj hlt).congr hp (hl.key_swap hsound hp hj)
        rw [← hlen] at hrising
        obtain ⟨hswaps, hlen', hordered⟩ := ih (parent j) (parent_lt hpos)
          (hl.sound_swap hsound hp hj) (hlen ▸ hp) hrising
        exact ⟨.swap _ _ hp hj hswaps, hlen'.trans hlen, hordered⟩
      · rename_i hless
        refine ⟨.refl h, rfl, hr.ordered fun _ _ => not_lt.mp fun hlt => ?_⟩
        exact hless ((hl.less_iff hsound hj hp).mpr hlt)

/-- `down` compares with a child whose key is the first of the children's. -/
theorem Lawful.child (hl : Lawful I key sound) {h : H} {i n : Nat} (hsound : sound h)
    (hn : n ≤ I.len h) (hi : 2 * i + 1 < n) :
    Heap.child I h i n < n ∧ parent (Heap.child I h i n) = i ∧ 0 < Heap.child I h i n
      ∧ ∀ k, 0 < k → k < n → parent k = i → key h (Heap.child I h i n) ≤ key h k := by
  have hchildren : ∀ k, 0 < k → parent k = i → k = 2 * i + 1 ∨ k = 2 * i + 2 := by
    intro k hpos hparent
    unfold parent at hparent
    omega
  unfold Heap.child
  split
  · rename_i hsecond
    have hlt := (hl.less_iff hsound (by omega) (by omega)).mp hsecond.2
    refine ⟨hsecond.1, by unfold parent; omega, by omega, fun k hpos hk hparent => ?_⟩
    rcases hchildren k hpos hparent with rfl | rfl
    · exact hlt.le
    · exact le_refl _
  · rename_i hfirst
    refine ⟨hi, by unfold parent; omega, by omega, fun k hpos hk hparent => ?_⟩
    rcases hchildren k hpos hparent with rfl | rfl
    · exact le_refl _
    · refine not_lt.mp fun hlt => hfirst ⟨hk, ?_⟩
      exact (hl.less_iff hsound (by omega) (by omega)).mpr hlt

/-- `down` puts the first `n` keys in order when only the one it starts from
is late, and leaves the places from `n` on; it says whether it moved. -/
theorem Lawful.downFrom (hl : Lawful I key sound) {h : H} {i n : Nat} (hsound : sound h)
    (hn : n ≤ I.len h) (hi : i < n) (hs : Sinking (key h) n i) :
    Swaps I h (downFrom I n h i).1 ∧ I.len (downFrom I n h i).1 = I.len h
      ∧ Ordered (key (downFrom I n h i).1) n
      ∧ (∀ k, n ≤ k → k < I.len h → key (downFrom I n h i).1 k = key h k) := by
  induction hm : n - i using Nat.strong_induction_on generalizing h i with
  | h m ih =>
    rw [Heap.downFrom]
    split
    · rename_i hleaf
      refine ⟨.refl h, rfl, hs.ordered fun k hpos hk hparent => ?_, fun _ _ _ => rfl⟩
      unfold parent at hparent
      omega
    · rename_i hleaf
      obtain ⟨hc, hparent, hpos, hfirst⟩ := hl.child hsound hn (not_le.mp hleaf)
      have hic : i < Heap.child I h i n := by
        have hlt := parent_lt hpos
        rwa [hparent] at hlt
      have hi' : i < I.len h := hi.trans_le hn
      have hc' := hc.trans_le hn
      split
      · rename_i hless
        refine ⟨.refl h, rfl, hs.ordered fun k hkpos hk hkparent => ?_, fun _ _ _ => rfl⟩
        refine (not_lt.mp fun hlt => ?_).trans (hfirst k hkpos hk hkparent)
        simp [(hl.less_iff hsound hc' hi').mpr hlt] at hless
      · rename_i hless
        have hlt := (hl.less_iff hsound hc' hi').mp (by simpa using hless)
        have hlen := hl.len_swap hsound hi' hc'
        have hsinking := (hs.swap hc hpos hparent hfirst hlt).congr hc
          fun k hk => hl.key_swap hsound hi' hc' k (hk.trans_le hn)
        obtain ⟨hswaps, hlen', hordered, hrest⟩ := ih _ (by omega) (hl.sound_swap hsound hi' hc')
          (hlen ▸ hn) hc hsinking rfl
        refine ⟨.swap _ _ hi' hc' hswaps, hlen'.trans hlen, hordered, fun k hk hklt => ?_⟩
        rw [hrest k hk (hlen ▸ hklt), hl.key_swap hsound hi' hc' k hklt,
          Equiv.swap_apply_of_ne_of_ne (by omega) (by omega)]

/-- The place that `down` ends at, when it has not moved. -/
theorem downFrom_stays {h : H} {i n : Nat} (hstay : (downFrom I n h i).2 ≤ i) :
    downFrom I n h i = (h, i) ∧ (2 * i + 1 < n → I.less h (child I h i n) i = false) := by
  have hlater : ∀ (h : H) (j : Nat), j ≤ (downFrom I n h j).2 := by
    intro h j
    induction hm : n - j using Nat.strong_induction_on generalizing h j with
    | h m ih =>
      rw [downFrom]
      split
      · exact le_refl j
      · split
        · exact le_refl j
        · rename_i hleaf _
          have hchild : j < child I h j n := by
            unfold child
            split <;> omega
          have hbound : child I h j n < n := by
            unfold child
            split <;> omega
          exact hchild.le.trans (ih _ (by omega) _ _ rfl)
  rw [downFrom] at hstay ⊢
  split
  · rename_i hleaf
    exact ⟨rfl, fun hlt => absurd hlt (by omega)⟩
  · rename_i hleaf
    split
    · rename_i hless
      exact ⟨rfl, fun _ => by simpa using hless⟩
    · rename_i hless
      rw [if_neg hleaf, if_neg hless] at hstay
      have hchild : i < child I h i n := by
        unfold child
        split <;> omega
      have hle := hlater (I.swap h i (child I h i n)) (child I h i n)
      omega

/-- `fix` brings back the order after the key of one place has changed. -/
theorem Lawful.fix (hl : Lawful I key sound) {h : H} {i : Nat} (hsound : sound h) (hi : i < I.len h)
    (hothers : ∀ k, 0 < k → k < I.len h → k ≠ i → parent k ≠ i → key h (parent k) ≤ key h k)
    (hchildren : 0 < i → ∀ k, 0 < k → k < I.len h → parent k = i →
      key h (parent i) ≤ key h k) :
    Swaps I h (fix I h i) ∧ I.len (fix I h i) = I.len h
      ∧ Ordered (key (fix I h i)) (I.len (fix I h i)) := by
  unfold Heap.fix down
  by_cases hstay : (Heap.downFrom I (I.len h) h i).2 ≤ i
  · obtain ⟨hsame, hless⟩ := downFrom_stays hstay
    simp only [hsame, lt_irrefl, decide_false]
    refine hl.up hsound hi ⟨fun k hpos hk hne => ?_, hchildren⟩
    by_cases hparent : parent k = i
    · have hleaf : 2 * i + 1 < I.len h := by
        unfold parent at hparent
        omega
      obtain ⟨hc, hcparent, hcpos, hfirst⟩ := hl.child hsound (le_refl _) hleaf
      rw [hparent]
      refine (not_lt.mp fun hlt => ?_).trans (hfirst k hpos hk hparent)
      simp [(hl.less_iff hsound hc hi).mpr hlt] at hless
      omega
    · exact hothers k hpos hk hne hparent
  · have hmoved : decide ((Heap.downFrom I (I.len h) h i).2 > i) = true := by simpa using hstay
    simp only [hmoved]
    have hleaf : 2 * i + 1 < I.len h := by
      by_contra hleaf
      rw [Heap.downFrom, if_pos (by omega)] at hstay
      exact hstay (le_refl i)
    obtain ⟨hc, hcparent, hcpos, hfirst⟩ := hl.child hsound (le_refl _) hleaf
    have hlt : key h (Heap.child I h i (I.len h)) < key h i := by
      refine (hl.less_iff hsound hc hi).mp ?_
      by_contra hless
      rw [Heap.downFrom, if_neg (by omega), if_pos (by simpa using hless)] at hstay
      exact hstay (le_refl i)
    obtain ⟨hswaps, hlen, hordered, -⟩ := hl.downFrom hsound (le_refl _) hi ⟨fun k hpos hk hparent => by
      by_cases hki : k = i
      · subst hki
        exact (hchildren hpos _ hcpos hc hcparent).trans hlt.le
      · exact hothers k hpos hk hki hparent, hchildren⟩
    exact ⟨hswaps, hlen, by rw [hlen]; exact hordered⟩

/-- Before the last place is taken off, `pop` has put the first key there and
the others in order. -/
theorem Lawful.pop (hl : Lawful I key sound) {h : H} (hsound : sound h) (hpos : 0 < I.len h)
    (ho : Ordered (key h) (I.len h)) :
    ∃ h', Heap.pop I h = I.pop h' ∧ Swaps I h h' ∧ I.len h' = I.len h
      ∧ Ordered (key h') (I.len h - 1) ∧ key h' (I.len h - 1) = key h 0 := by
  have hlast : I.len h - 1 < I.len h := by omega
  have hsound' := hl.sound_swap hsound hpos hlast
  have hlen := hl.len_swap hsound hpos hlast
  have hkey := hl.key_swap hsound hpos hlast
  refine ⟨(down I (I.swap h 0 (I.len h - 1)) 0 (I.len h - 1)).1, rfl, ?_⟩
  by_cases hone : I.len h = 1
  · have hdown : (Heap.downFrom I (I.len h - 1) (I.swap h 0 (I.len h - 1)) 0)
        = (I.swap h 0 (I.len h - 1), 0) := by
      rw [Heap.downFrom, if_pos (by omega)]
    simp only [down, hdown]
    refine ⟨.swap _ _ hpos hlast (.refl _), hlen, fun j _ hj => by omega, ?_⟩
    rw [hkey _ hlast, Equiv.swap_apply_right]
  · have hsinking : Sinking (key (I.swap h 0 (I.len h - 1))) (I.len h - 1) 0 := by
      refine ⟨fun k hk hkn hparent => ?_, fun h0 => absurd h0 (lt_irrefl 0)⟩
      have hp := parent_lt hk
      rw [hkey k (by omega), hkey _ (by omega), Equiv.swap_apply_of_ne_of_ne hparent (by omega),
        Equiv.swap_apply_of_ne_of_ne (by omega) (by omega)]
      exact ho k hk (by omega)
    obtain ⟨hswaps, hlen', hordered, hrest⟩ :=
      hl.downFrom hsound' (by omega : I.len h - 1 ≤ I.len (I.swap h 0 (I.len h - 1))) (by omega)
        hsinking
    refine ⟨.swap _ _ hpos hlast hswaps, hlen'.trans hlen, hordered, ?_⟩
    show key (Heap.downFrom I (I.len h - 1) (I.swap h 0 (I.len h - 1)) 0).1 (I.len h - 1) = _
    rw [hrest _ (le_refl _) (by omega), hkey _ hlast, Equiv.swap_apply_right]

end Webernetes.Go.Heap
