/-
Webernetes.ClientGo.WaitForQueue — `WaitForPriorityQueue` and `insert`.

An entry is an object: the heap and the map by item refer to the same one,
and `insert` changes its time in place. Objects are numbered in the order
they are made; the heap holds their numbers.
-/
import Webernetes.Go.Heap
import Webernetes.Js.Date
import Webernetes.Js.OrderedMap

namespace Webernetes.ClientGo

open Js Go

/-- An entry; `-1` is no index. -/
structure WaitFor (T : Type) where
  data : T
  readyAt : Time
  index : Option Nat := none
  deriving DecidableEq

structure WaitForPriorityQueue (T : Type) where
  objects : List (WaitFor T) := []
  entries : List Nat := []
  deriving DecidableEq

variable {T : Type}

namespace WaitForPriorityQueue

def entry (q : WaitForPriorityQueue T) (i : Nat) : Option (WaitFor T) :=
  q.entries[i]?.bind (q.objects[·]?)

def less (q : WaitForPriorityQueue T) (i j : Nat) : Bool :=
  match q.entry i, q.entry j with
  | some a, some b => Time.after b.readyAt a.readyAt
  | _, _ => false

def setIndex (q : WaitForPriorityQueue T) (ref : Nat) (index : Option Nat) :
    WaitForPriorityQueue T :=
  { q with objects := q.objects.modify ref fun o => { o with index } }

def swap (q : WaitForPriorityQueue T) (i j : Nat) : WaitForPriorityQueue T :=
  match q.entries[i]?, q.entries[j]? with
  | some left, some right =>
    ({ q with entries := (q.entries.set i right).set j left }.setIndex right (some i)).setIndex
      left (some j)
  | _, _ => q

def push (q : WaitForPriorityQueue T) (ref : Nat) : WaitForPriorityQueue T :=
  { q.setIndex ref (some q.entries.length) with entries := q.entries ++ [ref] }

def pop (q : WaitForPriorityQueue T) : Option (Nat × WaitForPriorityQueue T) :=
  q.entries.getLast?.map fun ref =>
    (ref, { q.setIndex ref none with entries := q.entries.dropLast })

def peek (q : WaitForPriorityQueue T) : Option (WaitFor T) := q.entry 0

end WaitForPriorityQueue

def waitForHeap (T : Type) : Heap.Interface (WaitForPriorityQueue T) Nat where
  len q := q.entries.length
  less := WaitForPriorityQueue.less
  swap := WaitForPriorityQueue.swap
  push := WaitForPriorityQueue.push
  pop := WaitForPriorityQueue.pop

/-- `heap.fix` with an entry's own index; `down` and `up` leave the heap alone
when that is `-1`. -/
def fixEntry (q : WaitForPriorityQueue T) (o : WaitFor T) : WaitForPriorityQueue T :=
  match o.index with
  | some i => Heap.fix (waitForHeap T) q i
  | none => q

variable [DecidableEq T]

def insert (q : WaitForPriorityQueue T) (knownEntries : JsMap T Nat) (ref : Nat) :
    WaitForPriorityQueue T × JsMap T Nat :=
  match q.objects[ref]? with
  | none => (q, knownEntries)
  | some entry =>
    match knownEntries.get entry.data with
    | none => (Heap.push (waitForHeap T) q ref, knownEntries.set entry.data ref)
    | some existing =>
      match q.objects[existing]? with
      | none => (q, knownEntries)
      | some o =>
        if Time.after o.readyAt entry.readyAt then
          (fixEntry { q with objects := q.objects.modify existing fun o =>
            { o with readyAt := entry.readyAt } } o, knownEntries)
        else (q, knownEntries)

/-! ## The heap -/

namespace WaitForPriorityQueue

omit [DecidableEq T]

/-- Each entry knows its place and has a time, and only entries have an
index. -/
structure Placed (q : WaitForPriorityQueue T) : Prop where
  entries : ∀ (i ref : Nat), q.entries[i]? = some ref →
    ∃ (o : WaitFor T) (t : Int), q.objects[ref]? = some o ∧ o.index = some i ∧ o.readyAt = some t
  idle : ∀ (ref : Nat) (o : WaitFor T) (i : Nat), q.objects[ref]? = some o → o.index = some i → q.entries[i]? = some ref

/-- The time of the entry at a place. -/
def key (q : WaitForPriorityQueue T) (i : Nat) : Int :=
  ((q.entry i).bind (·.readyAt)).getD 0

/-- What an object stands for. -/
def wait (q : WaitForPriorityQueue T) (ref : Nat) : Option (T × Time) :=
  (q.objects[ref]?).map fun o => (o.data, o.readyAt)

variable {q : WaitForPriorityQueue T}

theorem Placed.entry (h : q.Placed) {i ref : Nat} (hi : q.entries[i]? = some ref) :
    ∃ o t, q.objects[ref]? = some o ∧ q.entry i = some o ∧ o.index = some i
      ∧ o.readyAt = some t ∧ q.key i = t := by
  obtain ⟨o, t, ho, hindex, ht⟩ := h.entries i ref hi
  have hentry : q.entry i = some o := by simp [WaitForPriorityQueue.entry, hi, ho]
  exact ⟨o, t, ho, hentry, hindex, ht, by simp [key, hentry, ht]⟩

/-- An object is at one place at most. -/
theorem Placed.nodup (h : q.Placed) : q.entries.Nodup := by
  refine List.nodup_iff_getElem?_ne_getElem?.mpr fun i j hij hj heq => ?_
  obtain ⟨ref, hi⟩ : ∃ ref, q.entries[i]? = some ref :=
    ⟨_, List.getElem?_eq_getElem (hij.trans hj)⟩
  obtain ⟨o, -, ho, hindex, -⟩ := h.entries i ref hi
  obtain ⟨o', -, ho', hindex', -⟩ := h.entries j ref (heq ▸ hi)
  rw [ho] at ho'
  cases ho'
  rw [hindex] at hindex'
  exact hij.ne (Option.some.inj hindex')

theorem swap_eq {i j left right : Nat} (hi : q.entries[i]? = some left)
    (hj : q.entries[j]? = some right) :
    q.swap i j = ({ q with entries := (q.entries.set i right).set j left }.setIndex right
      (some i)).setIndex left (some j) := by
  simp only [swap, hi, hj]

theorem wait_setIndex (q : WaitForPriorityQueue T) (ref : Nat) (index : Option Nat) (r : Nat) :
    (q.setIndex ref index).wait r = q.wait r := by
  simp only [wait, setIndex, List.getElem?_modify]
  by_cases hr : ref = r
  · subst hr
    cases q.objects[ref]? <;> simp
  · simp [hr]

theorem getElem?_swap {i j left right : Nat} (hi : q.entries[i]? = some left)
    (hj : q.entries[j]? = some right) (k : Nat) :
    (q.swap i j).entries[k]? = q.entries[Equiv.swap i j k]? := by
  have hilt : i < q.entries.length := (List.getElem?_eq_some_iff.mp hi).1
  have hjlt : j < q.entries.length := (List.getElem?_eq_some_iff.mp hj).1
  rw [swap_eq hi hj]
  show ((q.entries.set i right).set j left)[k]? = _
  rw [List.getElem?_set, List.getElem?_set, List.length_set]
  by_cases hkj : j = k
  · subst hkj
    rw [Equiv.swap_apply_right, if_pos rfl, if_pos hjlt, hi]
  · rw [if_neg hkj]
    by_cases hki : i = k
    · subst hki
      rw [Equiv.swap_apply_left, if_pos rfl, if_pos hilt, hj]
    · rw [if_neg hki, Equiv.swap_apply_of_ne_of_ne (Ne.symm hki) (Ne.symm hkj)]

theorem wait_swap {i j left right : Nat} (hi : q.entries[i]? = some left)
    (hj : q.entries[j]? = some right) (r : Nat) : (q.swap i j).wait r = q.wait r := by
  rw [swap_eq hi hj, wait_setIndex, wait_setIndex]
  rfl

theorem objects_swap {i j left right : Nat} (hi : q.entries[i]? = some left)
    (hj : q.entries[j]? = some right) (r : Nat) :
    (q.swap i j).objects[r]? = (q.objects[r]?).map fun o =>
      { o with index := if r = left then some j else if r = right then some i else o.index } := by
  rw [swap_eq hi hj]
  simp only [setIndex, List.getElem?_modify]
  by_cases hl : left = r
  · subst hl
    by_cases hr : right = left
    · cases q.objects[left]? <;> simp [hr]
    · cases q.objects[left]? <;> simp [hr]
  · by_cases hr : right = r
    · subst hr
      cases q.objects[right]? <;> simp [hl, Ne.symm hl]
    · simp [hl, hr, Ne.symm hl, Ne.symm hr]

theorem Placed.swap (h : q.Placed) {i j : Nat} (hi : i < q.entries.length)
    (hj : j < q.entries.length) : (q.swap i j).Placed := by
  have hi' := List.getElem?_eq_getElem hi
  have hj' := List.getElem?_eq_getElem hj
  generalize q.entries[i] = left at hi'
  generalize q.entries[j] = right at hj'
  have hplace : ∀ k ref, q.entries[Equiv.swap i j k]? = some ref →
      (if ref = left then some j else if ref = right then some i else some (Equiv.swap i j k))
        = some k := by
    intro k ref hk
    have hunique : ∀ a, q.entries[a]? = some ref → a = Equiv.swap i j k := by
      intro a ha
      obtain ⟨o, -, ho, hindex, -⟩ := h.entries a ref ha
      obtain ⟨o', -, ho', hindex', -⟩ := h.entries _ ref hk
      rw [ho] at ho'
      cases ho'
      rw [hindex] at hindex'
      exact Option.some.inj hindex'
    split
    · rename_i hl
      have heq := congrArg (Equiv.swap i j) (hunique i (hl ▸ hi'))
      rw [Equiv.swap_apply_left, Equiv.swap_apply_self] at heq
      exact congrArg some heq
    · rename_i hl
      split
      · rename_i hr
        have heq := congrArg (Equiv.swap i j) (hunique j (hr ▸ hj'))
        rw [Equiv.swap_apply_right, Equiv.swap_apply_self] at heq
        exact congrArg some heq
      · rename_i hr
        refine congrArg some (Equiv.swap_apply_of_ne_of_ne ?_ ?_)
        · rintro rfl
          rw [Equiv.swap_apply_left, hj'] at hk
          exact hr (Option.some.inj hk).symm
        · rintro rfl
          rw [Equiv.swap_apply_right, hi'] at hk
          exact hl (Option.some.inj hk).symm
  refine ⟨fun k ref hk => ?_, fun ref o k ho hindex => ?_⟩
  · rw [getElem?_swap hi' hj'] at hk
    obtain ⟨o, t, ho, hindex, ht⟩ := h.entries _ ref hk
    refine ⟨{ o with index := some k }, t, ?_, rfl, ht⟩
    rw [objects_swap hi' hj', ho, Option.map_some, hindex, hplace k ref hk]
  · rw [objects_swap hi' hj', Option.map_eq_some_iff] at ho
    obtain ⟨o', ho', rfl⟩ := ho
    rw [getElem?_swap hi' hj']
    dsimp only at hindex
    split at hindex
    · rename_i hl
      cases hindex
      rw [Equiv.swap_apply_right, hi', hl]
    · split at hindex
      · rename_i hr
        cases hindex
        rw [Equiv.swap_apply_left, hj', hr]
      · rename_i hl hr
        have hk := h.idle ref o' k ho' hindex
        rwa [Equiv.swap_apply_of_ne_of_ne]
        · rintro rfl
          exact hl (Option.some.inj (hk.symm.trans hi'))
        · rintro rfl
          exact hr (Option.some.inj (hk.symm.trans hj'))

theorem key_of_wait {q : WaitForPriorityQueue T} {i ref : Nat} {x : T} {t : Int}
    (hi : q.entries[i]? = some ref) (hwait : q.wait ref = some (x, some t)) : q.key i = t := by
  simp only [wait, Option.map_eq_some_iff, Prod.mk.injEq] at hwait
  obtain ⟨o, ho, -, ht⟩ := hwait
  simp [key, WaitForPriorityQueue.entry, hi, ho, ht]

theorem Placed.wait (h : q.Placed) {i ref : Nat} (hi : q.entries[i]? = some ref) :
    ∃ x, q.wait ref = some (x, some (q.key i)) := by
  obtain ⟨o, t, ho, -, -, ht, hkey⟩ := h.entry hi
  exact ⟨o.data, by simp [WaitForPriorityQueue.wait, ho, ht, hkey]⟩

theorem lawful (T : Type) : Heap.Lawful (waitForHeap T) key Placed where
  less_iff := by
    intro q i j h hi hj
    obtain ⟨o, t, -, ho, -, ht, hkey⟩ := h.entry (List.getElem?_eq_getElem hi)
    obtain ⟨o', t', -, ho', -, ht', hkey'⟩ := h.entry (List.getElem?_eq_getElem hj)
    show q.less i j = true ↔ _
    simp [less, ho, ho', ht, ht', hkey, hkey', Time.after]
  len_swap := by
    intro q i j _ hi hj
    show (q.swap i j).entries.length = q.entries.length
    rw [swap_eq (List.getElem?_eq_getElem hi) (List.getElem?_eq_getElem hj)]
    simp [setIndex]
  key_swap := by
    intro q i j h hi hj k hk
    have hi' := List.getElem?_eq_getElem hi
    have hj' := List.getElem?_eq_getElem hj
    have hlt : Equiv.swap i j k < q.entries.length := by
      rw [Equiv.swap_apply_def]
      split
      · exact hj
      · split
        · exact hi
        · exact hk
    have hk' := List.getElem?_eq_getElem hlt
    obtain ⟨x, hwait⟩ := h.wait hk'
    have hwait' : (q.swap i j).wait q.entries[Equiv.swap i j k]
        = some (x, some (q.key (Equiv.swap i j k))) := by
      rw [wait_swap hi' hj']
      exact hwait
    exact key_of_wait ((getElem?_swap hi' hj' k).trans hk') hwait'
  sound_swap := fun h hi hj => h.swap hi hj

/-- What the operations of the heap leave as it was. -/
structure Same (q q' : WaitForPriorityQueue T) : Prop where
  placed : q'.Placed
  wait : ∀ ref, q'.wait ref = q.wait ref
  entries : q'.entries.Perm q.entries

theorem Same.swap {p : WaitForPriorityQueue T} (h : p.Same q) {i j : Nat}
    (hi : i < q.entries.length) (hj : j < q.entries.length) : p.Same (q.swap i j) where
  placed := h.placed.swap hi hj
  wait ref := (wait_swap (List.getElem?_eq_getElem hi) (List.getElem?_eq_getElem hj) ref).trans
    (h.wait ref)
  entries := by
    refine List.Perm.trans ?_ h.entries
    refine (List.perm_ext_iff_of_nodup (h.placed.swap hi hj).nodup h.placed.nodup).mpr fun ref => ?_
    simp only [List.mem_iff_getElem?,
      getElem?_swap (List.getElem?_eq_getElem hi) (List.getElem?_eq_getElem hj)]
    constructor
    · rintro ⟨k, hk⟩
      exact ⟨_, hk⟩
    · rintro ⟨k, hk⟩
      exact ⟨Equiv.swap i j k, by rwa [Equiv.swap_apply_self]⟩

theorem Same.of_swaps {q' : WaitForPriorityQueue T} (h : q.Placed)
    (hs : Heap.Swaps (waitForHeap T) q q') : q.Same q' :=
  hs.keeps (fun _ _ _ hi hj hsame => hsame.swap hi hj) ⟨h, fun _ => rfl, .refl _⟩

/-- The entries are a heap, each knows its place, and the map finds the entry
of every item that has one. -/
structure Waiting (q : WaitForPriorityQueue T) (known : T → Option Nat) : Prop where
  placed : q.Placed
  ordered : Heap.Ordered q.key q.entries.length
  known : ∀ x ref, known x = some ref ↔ ref ∈ q.entries ∧ ∃ t, q.wait ref = some (x, t)

/-- An entry of the item waits for the time. -/
def Due (q : WaitForPriorityQueue T) (x : T) (t : Int) : Prop :=
  ∃ ref ∈ q.entries, q.wait ref = some (x, some t)

theorem Waiting.unique {known : T → Option Nat} (h : q.Waiting known) {x : T} {ref ref' : Nat}
    {t t' : Time} (hmem : ref ∈ q.entries) (hwait : q.wait ref = some (x, t))
    (hmem' : ref' ∈ q.entries) (hwait' : q.wait ref' = some (x, t')) : ref = ref' := by
  have hfirst := (h.known x ref).mpr ⟨hmem, t, hwait⟩
  exact Option.some.inj (hfirst.symm.trans ((h.known x ref').mpr ⟨hmem', t', hwait'⟩))

theorem wait_eq_some {ref : Nat} {o : WaitFor T} (ho : q.objects[ref]? = some o) :
    q.wait ref = some (o.data, o.readyAt) := by
  simp [WaitForPriorityQueue.wait, ho]

/-- A new object is no entry. -/
theorem Waiting.allocate {known : T → Option Nat} (h : q.Waiting known) {o : WaitFor T}
    (hidle : o.index = none) : Waiting { q with objects := q.objects ++ [o] } known
      ∧ (∀ x t, Due { q with objects := q.objects ++ [o] } x t ↔ q.Due x t)
      ∧ (∀ r, r < q.objects.length →
        WaitForPriorityQueue.wait { q with objects := q.objects ++ [o] } r = q.wait r) := by
  have hold : ∀ r, r < q.objects.length →
      WaitForPriorityQueue.wait { q with objects := q.objects ++ [o] } r = q.wait r := by
    intro r hr
    simp only [WaitForPriorityQueue.wait, List.getElem?_append_left hr]
  have hlt : ∀ r ∈ q.entries, r < q.objects.length := by
    intro r hr
    obtain ⟨i, hi⟩ := List.mem_iff_getElem?.mp hr
    obtain ⟨o', -, ho', -⟩ := h.placed.entries i r hi
    exact (List.getElem?_eq_some_iff.mp ho').1
  refine ⟨⟨⟨fun i r hi => ?_, fun r o' i ho' hindex => ?_⟩, ?_, fun x r => ?_⟩, fun x t => ?_, hold⟩
  · obtain ⟨o', t, ho', hindex, ht⟩ := h.placed.entries i r hi
    refine ⟨o', t, ?_, hindex, ht⟩
    dsimp only
    rwa [List.getElem?_append_left (hlt r (List.mem_of_getElem? hi))]
  · dsimp only at ho'
    by_cases hr : r < q.objects.length
    · rw [List.getElem?_append_left hr] at ho'
      exact h.placed.idle r o' i ho' hindex
    · rw [List.getElem?_append_right (not_lt.mp hr)] at ho'
      rw [List.mem_singleton.mp (List.mem_of_getElem? ho'), hidle] at hindex
      cases hindex
  · refine h.ordered.congr fun k hk => ?_
    obtain ⟨x, hx⟩ := h.placed.wait (List.getElem?_eq_getElem hk)
    have hnew := (hold _ (hlt _ (List.getElem_mem hk))).trans hx
    exact key_of_wait (List.getElem?_eq_getElem hk) hnew
  · rw [h.known]
    exact and_congr_right fun hr => by rw [hold r (hlt r hr)]
  · exact exists_congr fun r => and_congr_right fun hr => by rw [hold r (hlt r hr)]

/-! ### `heap.push` -/

theorem Placed.push (h : q.Placed) {ref : Nat} {x : T} {t : Int}
    (hwait : q.wait ref = some (x, some t)) (hnew : ref ∉ q.entries) :
    (q.push ref).Placed ∧ (∀ r, (q.push ref).wait r = q.wait r)
      ∧ (q.push ref).entries = q.entries ++ [ref] := by
  have hobjects : ∀ r : Nat, (q.push ref).objects[r]? = (q.objects[r]?).map fun o =>
      { o with index := if ref = r then some q.entries.length else o.index } := by
    intro r
    simp only [WaitForPriorityQueue.push, setIndex, List.getElem?_modify]
    by_cases hr : ref = r
    · subst hr
      cases q.objects[ref]? <;> simp
    · simp [hr]
  have hentries : (q.push ref).entries = q.entries ++ [ref] := rfl
  refine ⟨⟨fun i r hi => ?_, fun r o i ho hindex => ?_⟩, wait_setIndex q ref _, hentries⟩
  · rw [hentries] at hi
    by_cases hlast : i < q.entries.length
    · rw [List.getElem?_append_left hlast] at hi
      obtain ⟨o, t', ho, hindex, ht'⟩ := h.entries i r hi
      have hne : ref ≠ r := fun heq => hnew (heq ▸ List.mem_of_getElem? hi)
      refine ⟨o, t', ?_, hindex, ht'⟩
      rw [hobjects, ho, Option.map_some, if_neg hne]
    · obtain ⟨hlen, rfl⟩ : i = q.entries.length ∧ ref = r := by
        rw [List.getElem?_append_right (not_lt.mp hlast)] at hi
        have hzero : i - q.entries.length = 0 := by
          by_contra hne
          rw [List.getElem?_eq_none (by simp; omega)] at hi
          cases hi
        rw [hzero] at hi
        exact ⟨by omega, by simpa using hi⟩
      simp only [WaitForPriorityQueue.wait, Option.map_eq_some_iff, Prod.mk.injEq] at hwait
      obtain ⟨o, ho, -, ht⟩ := hwait
      refine ⟨{ o with index := some i }, t, ?_, rfl, ht⟩
      rw [hobjects, ho, Option.map_some, if_pos rfl, hlen]
  · rw [hobjects, Option.map_eq_some_iff] at ho
    obtain ⟨o', ho', rfl⟩ := ho
    rw [hentries]
    dsimp only at hindex
    split at hindex
    · rename_i hr
      cases hindex
      simp [hr]
    · have hi := h.idle r o' i ho' hindex
      rwa [List.getElem?_append_left (List.getElem?_eq_some_iff.mp hi).1]

/-- `heap.push` of an object that is no entry. -/
theorem push_same (h : q.Placed) (ho : Heap.Ordered q.key q.entries.length) {ref : Nat} {x : T}
    {t : Int} (hwait : q.wait ref = some (x, some t)) (hnew : ref ∉ q.entries) :
    (q.push ref).Same (Heap.push (waitForHeap T) q ref)
      ∧ Heap.Ordered (Heap.push (waitForHeap T) q ref).key
        (Heap.push (waitForHeap T) q ref).entries.length := by
  obtain ⟨hplaced, hsame, hentries⟩ := h.push hwait hnew
  have hlen : (q.push ref).entries.length = q.entries.length + 1 := by simp [hentries]
  have hkey : ∀ k, k < q.entries.length → (q.push ref).key k = q.key k := by
    intro k hk
    have hk' := List.getElem?_eq_getElem hk
    obtain ⟨x', hwait'⟩ := h.wait hk'
    refine key_of_wait ?_ ((hsame _).trans hwait')
    rw [hentries, List.getElem?_append_left hk, hk']
  have hrising : Heap.Rising (q.push ref).key (q.push ref).entries.length
      ((q.push ref).entries.length - 1) := by
    rw [hlen]
    refine ⟨fun k hpos hk hne => ?_, fun hpos k hkpos hk hparent => ?_⟩
    · have hlt : k < q.entries.length := by omega
      rw [hkey k hlt, hkey _ ((Heap.parent_lt hpos).trans hlt)]
      exact ho k hpos hlt
    · have hbelow := Heap.parent_lt hkpos
      omega
  obtain ⟨hswaps, -, hordered⟩ := (lawful T).up hplaced
    (show (q.push ref).entries.length - 1 < (q.push ref).entries.length by omega) hrising
  exact ⟨Same.of_swaps hplaced hswaps, hordered⟩

/-! ### `heap.fix` -/

/-- The time of an entry is brought forward, and `heap.fix` moves it. -/
theorem fix_same (h : q.Placed) (ho : Heap.Ordered q.key q.entries.length) {ref i : Nat}
    {t : Int} (hi : q.entries[i]? = some ref) (hle : t ≤ q.key i)
    {p : WaitForPriorityQueue T} (hp : p = { q with
      objects := q.objects.modify ref fun o => { o with readyAt := some t } }) :
    p.Same (Heap.fix (waitForHeap T) p i)
      ∧ Heap.Ordered (Heap.fix (waitForHeap T) p i).key (Heap.fix (waitForHeap T) p i).entries.length
      ∧ (∀ r, p.wait r = if r = ref then (q.wait r).map fun w => (w.1, some t) else q.wait r) := by
  have hobjects : ∀ r : Nat, p.objects[r]? = (q.objects[r]?).map fun o =>
      { o with readyAt := if r = ref then some t else o.readyAt } := by
    intro r
    rw [hp]
    simp only [List.getElem?_modify]
    by_cases hr : ref = r
    · subst hr
      cases q.objects[ref]? <;> simp
    · simp [hr, Ne.symm hr]
  have hentries : p.entries = q.entries := by rw [hp]
  have hilt : i < q.entries.length := (List.getElem?_eq_some_iff.mp hi).1
  have hplaced : p.Placed := by
    refine ⟨fun k r hk => ?_, fun r o k hr hindex => ?_⟩
    · obtain ⟨o, t', hobj, hindex, ht'⟩ := h.entries k r (hentries ▸ hk)
      refine ⟨{ o with readyAt := if r = ref then some t else o.readyAt },
        if r = ref then t else t', by rw [hobjects, hobj, Option.map_some], hindex, ?_⟩
      show (if r = ref then some t else o.readyAt) = _
      rw [ht']
      split <;> rfl
    · rw [hobjects, Option.map_eq_some_iff] at hr
      obtain ⟨o', ho', rfl⟩ := hr
      exact hentries ▸ h.idle r o' k ho' hindex
  have hwait : ∀ r, p.wait r = if r = ref then (q.wait r).map fun w => (w.1, some t) else q.wait r := by
    intro r
    simp only [WaitForPriorityQueue.wait, hobjects]
    by_cases hr : r = ref
    · simp only [hr, if_true]
      cases q.objects[ref]? <;> rfl
    · simp only [hr, if_false]
      cases q.objects[r]? <;> rfl
  have hkey : ∀ k, k < q.entries.length → p.key k = if k = i then t else q.key k := by
    intro k hk
    have hk' := List.getElem?_eq_getElem hk
    obtain ⟨x', hwait'⟩ := h.wait hk'
    by_cases hki : k = i
    · subst hki
      obtain rfl : q.entries[k] = ref := Option.some.inj (hk'.symm.trans hi)
      have hnew : p.wait q.entries[k] = some (x', some t) := by
        rw [hwait, if_pos rfl, hwait']
        rfl
      rw [if_pos rfl]
      exact key_of_wait (by rw [hentries, hk']) hnew
    · have hne : q.entries[k] ≠ ref := by
        intro heq
        exact hki ((List.getElem?_inj hk h.nodup).mp (hk'.trans (heq ▸ hi.symm)))
      have hsame : p.wait q.entries[k] = some (x', some (q.key k)) := by
        rw [hwait, if_neg hne, hwait']
      rw [if_neg hki]
      exact key_of_wait (by rw [hentries, hk']) hsame
  have hlen : p.entries.length = q.entries.length := by rw [hentries]
  obtain ⟨hswaps, -, hordered⟩ := (lawful T).fix (h := p) (i := i) hplaced
    (show i < p.entries.length by omega)
    (fun k hpos hk hki hpi => by
      have hlt : k < q.entries.length := hlen ▸ hk
      rw [hkey k hlt, hkey _ ((Heap.parent_lt hpos).trans hlt), if_neg hki, if_neg hpi]
      exact ho k hpos hlt)
    (fun hpos k hkpos hk hparent => by
      have hlt : k < q.entries.length := hlen ▸ hk
      have hik : i < k := hparent ▸ Heap.parent_lt hkpos
      rw [hkey k hlt, hkey _ ((Heap.parent_lt hpos).trans hilt), if_neg hik.ne',
        if_neg (Heap.parent_lt hpos).ne]
      exact (ho i hpos hilt).trans (hparent ▸ ho k hkpos hlt))
  exact ⟨Same.of_swaps hplaced hswaps, hordered, hwait⟩

/-! ### `heap.pop` -/

/-- `heap.pop` takes an entry none is due before. -/
theorem pop_some (h : q.Placed) (ho : Heap.Ordered q.key q.entries.length)
    (hne : q.entries ≠ []) :
    ∃ ref q' x, Heap.pop (waitForHeap T) q = some (ref, q') ∧ q'.Placed
      ∧ Heap.Ordered q'.key q'.entries.length
      ∧ (∀ r, q'.wait r = q.wait r) ∧ (ref :: q'.entries).Perm q.entries
      ∧ q.wait ref = some (x, some (q.key 0)) := by
  have hpos : 0 < q.entries.length := List.length_pos_iff.mpr hne
  obtain ⟨p, hpop, hswaps, hlen, hordered, hlast⟩ := (lawful T).pop (h := q) h hpos ho
  change p.entries.length = q.entries.length at hlen
  change Heap.Ordered p.key (q.entries.length - 1) at hordered
  change p.key (q.entries.length - 1) = q.key 0 at hlast
  have hsame := Same.of_swaps h hswaps
  have hnil : p.entries ≠ [] := by
    intro hnil
    rw [hnil] at hlen
    simp at hlen
    omega
  obtain ⟨front, ref, hfront⟩ : ∃ front ref, p.entries = front ++ [ref] :=
    ⟨_, _, (List.dropLast_append_getLast hnil).symm⟩
  have hfrontlen : front.length = q.entries.length - 1 := by
    rw [← hlen, hfront]
    simp
  have href : p.entries[front.length]? = some ref := by simp [hfront]
  have hnotin : ref ∉ front := by
    have hnodup := hsame.placed.nodup
    rw [hfront, List.nodup_append] at hnodup
    exact fun hmem => hnodup.2.2 ref hmem ref (by simp) rfl
  have hobjects : ∀ r : Nat, (p.setIndex ref none).objects[r]? = (p.objects[r]?).map fun o =>
      { o with index := if ref = r then none else o.index } := by
    intro r
    simp only [setIndex, List.getElem?_modify]
    by_cases hr : ref = r
    · subst hr
      cases p.objects[ref]? <;> simp
    · simp [hr]
  obtain ⟨x, hx⟩ := hsame.placed.wait href
  obtain ⟨q', hq'⟩ : ∃ q' : WaitForPriorityQueue T,
      q' = { p.setIndex ref none with entries := front } := ⟨_, rfl⟩
  have hentries : q'.entries = front := by rw [hq']
  have hwait : ∀ r, q'.wait r = q.wait r := by
    intro r
    rw [← hsame.wait r, ← wait_setIndex p ref none r, hq']
    rfl
  have hplaced : q'.Placed := by
    refine ⟨fun i r hi => ?_, fun r o i hr hindex => ?_⟩
    · rw [hentries] at hi
      have hp : p.entries[i]? = some r := by
        rw [hfront, List.getElem?_append_left (List.getElem?_eq_some_iff.mp hi).1, hi]
      obtain ⟨o, t, hobj, hindex, ht⟩ := hsame.placed.entries i r hp
      have hne : ref ≠ r := fun heq => hnotin (heq ▸ List.mem_of_getElem? hi)
      refine ⟨o, t, ?_, hindex, ht⟩
      rw [hq']
      show (p.setIndex ref none).objects[r]? = _
      rw [hobjects, hobj, Option.map_some, if_neg hne]
    · rw [hq'] at hr
      change (p.setIndex ref none).objects[r]? = _ at hr
      rw [hobjects, Option.map_eq_some_iff] at hr
      obtain ⟨o', ho', rfl⟩ := hr
      dsimp only at hindex
      split at hindex
      · cases hindex
      · rename_i hne
        have hp := hsame.placed.idle r o' i ho' hindex
        rw [hentries]
        rw [hfront] at hp
        by_cases hlt : i < front.length
        · rwa [List.getElem?_append_left hlt] at hp
        · refine absurd ?_ hne
          rw [List.getElem?_append_right (not_lt.mp hlt)] at hp
          have hmem := List.mem_of_getElem? hp
          exact (List.mem_singleton.mp hmem).symm
  refine ⟨ref, q', x, ?_, hplaced, ?_, hwait, ?_, ?_⟩
  · rw [hpop, hq']
    show p.pop = _
    simp [WaitForPriorityQueue.pop, hfront]
  · rw [hentries, hfrontlen]
    refine hordered.congr fun k hk => ?_
    have hk' : k < p.entries.length := by omega
    obtain ⟨y, hy⟩ := hsame.placed.wait (List.getElem?_eq_getElem hk')
    refine key_of_wait ?_ (((hwait _).trans (hsame.wait _).symm).trans hy)
    rw [hentries, List.getElem?_eq_getElem (show k < front.length by omega)]
    simp [hfront, List.getElem_append_left (show k < front.length by omega)]
  · rw [hentries]
    refine List.Perm.trans ?_ hsame.entries
    rw [hfront]
    exact (List.perm_append_singleton ref front).symm
  · rw [← hsame.wait ref, hx, hfrontlen, hlast]

/-! ## `insert` and the loop that takes what is due -/

theorem Waiting.due_unique {known : T → Option Nat} (h : q.Waiting known) {x : T} {t t' : Int}
    (ht : q.Due x t) (ht' : q.Due x t') : t = t' := by
  obtain ⟨ref, hmem, hwait⟩ := ht
  obtain ⟨ref', hmem', hwait'⟩ := ht'
  obtain rfl := h.unique hmem hwait hmem' hwait'
  rw [hwait] at hwait'
  simpa using hwait'

variable [DecidableEq T]

/-- What `insert` does of a request for `x` at `t`. -/
structure Inserted (q q' : WaitForPriorityQueue T) (knownEntries : JsMap T Nat) (ref : Nat) (x : T)
    (t : Int) : Prop where
  waiting : q'.Waiting knownEntries.get
  others : ∀ y, y ≠ x → ∀ t', q'.Due y t' ↔ q.Due y t'
  least : ∀ t', q'.Due x t' ↔ (q.Due x t' ∧ t' ≤ t) ∨ (t' = t ∧ ∀ t₀, q.Due x t₀ → t < t₀)
  objects : ∀ r, (q'.wait r).map Prod.fst = (q.wait r).map Prod.fst
  idle : ∀ r, r ∉ q'.entries → q'.wait r = q.wait r
  entries : ∀ r ∈ q'.entries, r = ref ∨ r ∈ q.entries

theorem insert_inserted {knownEntries : JsMap T Nat} (h : q.Waiting knownEntries.get) {ref : Nat}
    {x : T} {t : Int} (hwait : q.wait ref = some (x, some t)) (hnew : ref ∉ q.entries) :
    Inserted q (insert q knownEntries ref).1 (insert q knownEntries ref).2 ref x t := by
  have hentry := hwait
  simp only [wait, Option.map_eq_some_iff, Prod.mk.injEq] at hentry
  obtain ⟨entry, hobj, rfl, ht⟩ := hentry
  unfold insert
  simp only [hobj]
  cases hknown : knownEntries.get entry.data with
  | none =>
    have hnone : ∀ t₀, ¬ q.Due entry.data t₀ := by
      rintro t₀ ⟨r, hr, hwait'⟩
      have hsome := (h.known entry.data r).mpr ⟨hr, _, hwait'⟩
      rw [hknown] at hsome
      cases hsome
    obtain ⟨hsame, hordered⟩ := push_same h.placed h.ordered hwait hnew
    obtain ⟨hplaced, hpush, hentries⟩ := h.placed.push hwait hnew
    have hwaits : ∀ r, (Heap.push (waitForHeap T) q ref).wait r = q.wait r :=
      fun r => (hsame.wait r).trans (hpush r)
    have hmem : ∀ r, r ∈ (Heap.push (waitForHeap T) q ref).entries ↔ r ∈ q.entries ∨ r = ref := by
      intro r
      rw [hsame.entries.mem_iff, hentries]
      simp
    refine ⟨⟨hsame.placed, hordered, fun y r => ?_⟩, fun y hy t' => ?_, fun t' => ?_,
      fun r => by rw [hwaits], fun r _ => hwaits r, fun r hr => ?_⟩
    · rw [JsMap.get_set, hmem, hwaits]
      by_cases hy : y = entry.data
      · subst hy
        simp only [if_true, Option.some.injEq]
        constructor
        · rintro rfl
          exact ⟨.inr rfl, _, hwait⟩
        · rintro ⟨hr | rfl, t', hwait'⟩
          · have hsome := (h.known entry.data r).mpr ⟨hr, t', hwait'⟩
            rw [hknown] at hsome
            cases hsome
          · rfl
      · rw [if_neg hy, h.known]
        constructor
        · rintro ⟨hr, hw⟩
          exact ⟨.inl hr, hw⟩
        · rintro ⟨hr | rfl, t', hw⟩
          · exact ⟨hr, t', hw⟩
          · rw [hwait] at hw
            cases hw
            exact absurd rfl hy
    · simp only [Due, hwaits, hmem]
      constructor
      · rintro ⟨r, hr | rfl, hw⟩
        · exact ⟨r, hr, hw⟩
        · rw [hwait] at hw
          cases hw
          exact absurd rfl hy
      · rintro ⟨r, hr, hw⟩
        exact ⟨r, .inl hr, hw⟩
    · constructor
      · rintro ⟨r, hr, hw⟩
        rw [hwaits] at hw
        rcases (hmem r).mp hr with hr | rfl
        · exact absurd ⟨r, hr, hw⟩ (hnone t')
        · rw [hwait] at hw
          exact .inr ⟨by simpa using hw.symm, fun t₀ hdue => absurd hdue (hnone t₀)⟩
      · rintro (⟨hdue, -⟩ | ⟨rfl, -⟩)
        · exact absurd hdue (hnone t')
        · exact ⟨ref, (hmem ref).mpr (.inr rfl), (hwaits ref).trans hwait⟩
    · exact ((hmem r).mp hr).symm
  | some existing =>
    obtain ⟨hmem, tex, hwex⟩ := (h.known entry.data existing).mp hknown
    obtain ⟨i, hi⟩ := List.mem_iff_getElem?.mp hmem
    obtain ⟨o, t₀, ho, -, hindex, ht₀, hkey⟩ := h.placed.entry hi
    have hwold : q.wait existing = some (entry.data, some t₀) := by
      rw [hwex]
      simp only [wait, ho, Option.map_some, Option.some.injEq, Prod.mk.injEq] at hwex
      rw [← hwex.2, ht₀]
    have hdue : q.Due entry.data t₀ := ⟨existing, hmem, hwold⟩
    simp only [ho]
    by_cases hlt : t < t₀
    · have hafter : Time.after o.readyAt entry.readyAt = true := by
        simp [ht₀, ht, Time.after, hlt]
      rw [if_pos hafter]
      simp only [fixEntry, hindex, ht]
      obtain ⟨hsame, hordered, hp⟩ := fix_same h.placed h.ordered hi (hkey ▸ hlt.le) rfl
      generalize hfix : Heap.fix (waitForHeap T) _ i = q' at hsame hordered
      have hwaits : ∀ r, q'.wait r
          = if r = existing then some (entry.data, some t) else q.wait r := by
        intro r
        rw [hsame.wait, hp]
        split
        · rename_i hr
          rw [hr, hwold]
          rfl
        · rfl
      have hmems : ∀ r, r ∈ q'.entries ↔ r ∈ q.entries := fun r => hsame.entries.mem_iff
      refine ⟨⟨hsame.placed, hordered, fun y r => ?_⟩, fun y hy t' => ?_, fun t' => ?_, fun r => ?_,
        fun r hr => ?_, fun r hr => .inr ((hmems r).mp hr)⟩
      · rw [h.known, hmems, hwaits]
        by_cases hr : r = existing
        · subst hr
          simp [hwold, hmem]
        · rw [if_neg hr]
      · simp only [Due, hwaits, hmems]
        refine exists_congr fun r => and_congr_right fun hr => ?_
        by_cases hre : r = existing
        · subst hre
          simp [hwold, Ne.symm hy]
        · rw [if_neg hre]
      · constructor
        · rintro ⟨r, hr, hw⟩
          obtain rfl : r = existing := by
            by_contra hre
            rw [hwaits, if_neg hre] at hw
            exact hre (h.unique ((hmems r).mp hr) hw hmem hwold)
          rw [hwaits, if_pos rfl] at hw
          obtain rfl : t = t' := by simpa using hw
          exact .inr ⟨rfl, fun t₁ hdue' => h.due_unique hdue hdue' ▸ hlt⟩
        · rintro (⟨hdue', hle⟩ | ⟨rfl, -⟩)
          · have heq := h.due_unique hdue hdue'
            omega
          · exact ⟨existing, (hmems _).mpr hmem, by rw [hwaits, if_pos rfl]⟩
      · rw [hwaits]
        split
        · rename_i hr
          rw [hr, hwold]
          rfl
        · rfl
      · have hre : r ≠ existing := fun heq => hr ((hmems r).mpr (heq ▸ hmem))
        rw [hwaits, if_neg hre]
    · have hafter : Time.after o.readyAt entry.readyAt = false := by
        simp [ht₀, ht, Time.after, not_lt.mp hlt]
      simp only [hafter, Bool.false_eq_true, if_false]
      refine ⟨h, fun _ _ _ => Iff.rfl, fun t' => ?_, fun _ => rfl, fun _ _ => rfl,
        fun r hr => .inr hr⟩
      constructor
      · intro hdue'
        exact .inl ⟨hdue', h.due_unique hdue hdue' ▸ not_lt.mp hlt⟩
      · rintro (⟨hdue', -⟩ | ⟨rfl, hless⟩)
        · exact hdue'
        · exact absurd (hless t₀ hdue) hlt

/-- What the loop takes from the heap: an entry that none is due before. -/
theorem Waiting.pop {knownEntries : JsMap T Nat} (h : q.Waiting knownEntries.get)
    (hne : q.entries ≠ []) :
    ∃ ref q' x t, Heap.pop (waitForHeap T) q = some (ref, q') ∧ q.wait ref = some (x, some t)
      ∧ q.key 0 = t ∧ q'.Waiting (knownEntries.delete x).get
      ∧ (∀ y t', q'.Due y t' ↔ q.Due y t' ∧ y ≠ x) ∧ q.Due x t ∧ (∀ y t', q.Due y t' → t ≤ t')
      ∧ (∀ r, q'.wait r = q.wait r) ∧ (∀ r ∈ q'.entries, r ∈ q.entries) ∧ ref ∈ q.entries
      ∧ q'.entries.length + 1 = q.entries.length := by
  obtain ⟨ref, q', x, hpop, hplaced, hordered, hwaits, hperm, hwait⟩ := pop_some h.placed h.ordered hne
  have hnodup : (ref :: q'.entries).Nodup := hperm.nodup_iff.mpr h.placed.nodup
  have hmem : ∀ r, r ∈ q.entries ↔ r = ref ∨ r ∈ q'.entries := fun r => by
    rw [← hperm.mem_iff, List.mem_cons]
  have href : ref ∈ q.entries := (hmem ref).mpr (.inl rfl)
  have hothers : ∀ y r t', q.wait r = some (y, t') → (r ∈ q'.entries ↔ r ∈ q.entries ∧ y ≠ x) := by
    intro y r t' hw
    rw [hmem]
    constructor
    · intro hr
      refine ⟨.inr hr, ?_⟩
      rintro rfl
      obtain rfl := h.unique ((hmem r).mpr (.inr hr)) hw href hwait
      exact (List.nodup_cons.mp hnodup).1 hr
    · rintro ⟨rfl | hr, hy⟩
      · rw [hwait] at hw
        cases hw
        exact absurd rfl hy
      · exact hr
  refine ⟨ref, q', x, q.key 0, hpop, hwait, rfl, ⟨hplaced, hordered, fun y r => ?_⟩, fun y t' => ?_,
    ⟨ref, href, hwait⟩, ?_, hwaits, fun r hr => (hmem r).mpr (.inr hr), href, ?_⟩
  · rw [JsMap.get_delete]
    by_cases hy : y = x
    · subst hy
      simp only [if_true, reduceCtorEq, false_iff]
      rintro ⟨hr, t', hw⟩
      exact ((hothers y r t' ((hwaits r).symm.trans hw)).mp hr).2 rfl
    · rw [if_neg hy, h.known]
      simp only [hwaits]
      constructor
      · rintro ⟨hr, t', hw⟩
        exact ⟨(hothers y r t' hw).mpr ⟨hr, hy⟩, t', hw⟩
      · rintro ⟨hr, t', hw⟩
        exact ⟨((hothers y r t' hw).mp hr).1, t', hw⟩
  · simp only [Due, hwaits]
    constructor
    · rintro ⟨r, hr, hw⟩
      obtain ⟨hr, hy⟩ := (hothers y r _ hw).mp hr
      exact ⟨⟨r, hr, hw⟩, hy⟩
    · rintro ⟨⟨r, hr, hw⟩, hy⟩
      exact ⟨r, (hothers y r _ hw).mpr ⟨hr, hy⟩, hw⟩
  · rintro y t' ⟨r, hr, hw⟩
    obtain ⟨k, hk⟩ := List.mem_iff_getElem?.mp hr
    have hkey := key_of_wait hk hw
    exact hkey ▸ h.ordered.first (List.getElem?_eq_some_iff.mp hk).1
  · simpa using hperm.length_eq

end WaitForPriorityQueue

end Webernetes.ClientGo
