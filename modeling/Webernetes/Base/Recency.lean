/-
Webernetes.Base.Recency — what a bounded cache holds by recency of use.

A `Recency` holds keys with values, least to most recently used. Entering
or reading a key makes it the most recently used one, and when more than
`n` keys are held the least recently used one leaves. Of what was entered
everything is held, has left or was overwritten, each once (`accounted`),
and the order of the keys is that of their last uses (`ordered`).
-/
import Mathlib.Data.List.Induction
import Mathlib.Data.List.Nodup
import Mathlib.Algebra.Order.Group.Multiset
import Mathlib.Tactic.Abel

namespace Webernetes.Base

universe u v

/-- What is done with a cache. -/
inductive Use (κ : Type u) (ν : Type v) where
  | enter (key : κ) (value : ν)
  | read (key : κ)
  | drop (key : κ)
  | dropOldest
  | dropAll

structure Recency (κ : Type u) (ν : Type v) where
  held : List (κ × ν)
  /-- What left other than by being overwritten, first to last. -/
  left : List ν
  overwritten : List ν
  answers : List (Option ν)

variable {κ : Type u} {ν : Type v} [DecidableEq κ]

/-- All that is held but a key. -/
def without (key : κ) (held : List (κ × ν)) : List (κ × ν) := held.filter fun entry => entry.1 ≠ key

/-- What is held of a key. -/
def only (key : κ) (held : List (κ × ν)) : List (κ × ν) := held.filter fun entry => entry.1 = key

def find (key : κ) (held : List (κ × ν)) : Option ν :=
  (held.find? fun entry => entry.1 = key).map Prod.snd

/-- The key that is used. -/
def Use.used : Use κ ν → Option κ
  | .enter key _ => some key
  | .read key => some key
  | _ => none

def Use.entered : Use κ ν → Option ν
  | .enter _ value => some value
  | _ => none

/-- All that was entered. -/
def entered (uses : List (Use κ ν)) : List ν := uses.filterMap Use.entered

/-- When a key was used last, counted from one; 0 when never. -/
def lastUse (key : κ) : List (Use κ ν) → Nat
  | [] => 0
  | u :: uses =>
    if 0 < lastUse key uses then lastUse key uses + 1 else if u.used = some key then 1 else 0

theorem lastUse_concat (key : κ) (uses : List (Use κ ν)) (u : Use κ ν) :
    lastUse key (uses ++ [u])
      = if u.used = some key then uses.length + 1 else lastUse key uses := by
  induction uses with
  | nil => simp [lastUse]
  | cons u' uses ih =>
    rw [List.cons_append, lastUse, ih, lastUse]
    by_cases hu : u.used = some key <;> simp [hu]

theorem lastUse_le (key : κ) (uses : List (Use κ ν)) : lastUse key uses ≤ uses.length := by
  induction uses with
  | nil => simp [lastUse]
  | cons u uses ih =>
    rw [lastUse, List.length_cons]
    split
    · omega
    · split <;> omega

namespace Recency

omit [DecidableEq κ] in
def empty : Recency κ ν := ⟨[], [], [], []⟩

omit [DecidableEq κ] in
def evictOldest (s : Recency κ ν) : Recency κ ν :=
  { s with
    held := s.held.drop 1
    left := s.left ++ (s.held.take 1).map Prod.snd }

def put (key : κ) (value : ν) (s : Recency κ ν) : Recency κ ν :=
  { s with
    held := without key s.held ++ [(key, value)]
    overwritten := s.overwritten ++ (only key s.held).map Prod.snd }

def use (n : Nat) (s : Recency κ ν) : Use κ ν → Recency κ ν
  | .enter key value =>
    if n < (s.put key value).held.length then (s.put key value).evictOldest else s.put key value
  | .read key =>
    match find key s.held with
    | none => { s with answers := s.answers ++ [none] }
    | some value =>
      { s with
        held := without key s.held ++ [(key, value)]
        answers := s.answers ++ [some value] }
  | .drop key =>
    { s with
      held := without key s.held
      left := s.left ++ (only key s.held).map Prod.snd }
  | .dropOldest => s.evictOldest
  | .dropAll =>
    { s with
      held := []
      left := s.left ++ s.held.map Prod.snd }

/-- What has become of a cache for `n` keys. -/
def after (n : Nat) (uses : List (Use κ ν)) : Recency κ ν := uses.foldl (use n) empty

theorem after_concat (n : Nat) (uses : List (Use κ ν)) (u : Use κ ν) :
    after n (uses ++ [u]) = (after n uses).use n u := by
  rw [after, List.foldl_append]
  rfl

/-! ## The keys -/

omit [DecidableEq κ] in
def keys (s : Recency κ ν) : List κ := s.held.map Prod.fst

theorem keys_without (key : κ) (held : List (κ × ν)) :
    (without key held).map Prod.fst = (held.map Prod.fst).filter (· ≠ key) := by
  rw [without, List.filter_map]
  rfl

theorem find_eq_none {key : κ} {held : List (κ × ν)} (h : find key held = none) :
    key ∉ held.map Prod.fst := by
  rw [find, Option.map_eq_none_iff, List.find?_eq_none] at h
  intro hmem
  obtain ⟨entry, hentry, hkey⟩ := List.mem_map.mp hmem
  exact h entry hentry (by simpa using hkey)

theorem mem_of_find {key : κ} {value : ν} {held : List (κ × ν)} (h : find key held = some value) :
    (key, value) ∈ held := by
  rw [find, Option.map_eq_some_iff] at h
  obtain ⟨⟨k, v⟩, hfind, rfl⟩ := h
  have hkey := List.find?_some hfind
  simp only [decide_eq_true_eq] at hkey
  subst hkey
  exact List.mem_of_find?_eq_some hfind

theorem held_perm (key : κ) (held : List (κ × ν)) :
    held.Perm (without key held ++ only key held) := by
  refine ((List.filter_append_perm (fun entry => decide (entry.1 = key)) held).symm).trans ?_
  refine List.perm_append_comm.trans (List.Perm.of_eq ?_)
  simp only [without, only, decide_not]

omit [DecidableEq κ] in
theorem keys_evictOldest (s : Recency κ ν) : s.evictOldest.keys.Sublist s.keys :=
  (List.drop_sublist 1 s.held).map Prod.fst

theorem keys_put (key : κ) (value : ν) (s : Recency κ ν) :
    (s.put key value).keys = s.keys.filter (· ≠ key) ++ [key] := by
  rw [keys, put, List.map_append, keys_without]
  rfl

/-! ## Order -/

/-- The keys in the order of their last uses. -/
def Ordered (uses : List (Use κ ν)) (keys : List κ) : Prop :=
  keys.Pairwise fun a b => lastUse a uses < lastUse b uses

variable {uses : List (Use κ ν)} {u : Use κ ν} {keys keys' : List κ}

theorem Ordered.nodup (h : Ordered uses keys) : keys.Nodup :=
  List.Pairwise.imp (fun hlt heq => absurd hlt (by rw [heq]; omega)) h

/-- A use of none of the keys. -/
theorem Ordered.other (h : Ordered uses keys) (hsub : keys'.Sublist keys)
    (hu : ∀ key ∈ keys', u.used ≠ some key) : Ordered (uses ++ [u]) keys' := by
  refine (h.sublist hsub).imp_of_mem fun ha hb hlt => ?_
  rw [lastUse_concat, lastUse_concat, if_neg (hu _ ha), if_neg (hu _ hb)]
  exact hlt

/-- The key that is used goes to the end. -/
theorem Ordered.touch (h : Ordered uses keys) {key : κ} (hu : u.used = some key) :
    Ordered (uses ++ [u]) (keys.filter (· ≠ key) ++ [key]) := by
  have hothers : ∀ k ∈ keys.filter (· ≠ key), u.used ≠ some k := by
    intro k hk heq
    rw [hu, Option.some.injEq] at heq
    have hne := List.of_mem_filter hk
    simp [heq] at hne
  refine List.pairwise_append.mpr
    ⟨h.other List.filter_sublist hothers, List.pairwise_singleton _ _, ?_⟩
  intro k hk key' hkey'
  obtain rfl := List.mem_singleton.mp hkey'
  have hle := lastUse_le k uses
  rw [lastUse_concat, lastUse_concat, if_neg (hothers k hk), if_pos hu]
  omega

theorem ordered_use {n : Nat} {s : Recency κ ν} (h : Ordered uses s.keys) (u : Use κ ν) :
    Ordered (uses ++ [u]) (s.use n u).keys := by
  cases u with
  | enter key value =>
    have hput : Ordered (uses ++ [.enter key value]) (s.put key value).keys := by
      rw [keys_put]
      exact h.touch rfl
    rw [use]
    split
    · exact hput.sublist (keys_evictOldest _)
    · exact hput
  | read key =>
    rw [use]
    split
    · rename_i hfind
      refine h.other (.refl _) fun k hk heq => find_eq_none hfind ?_
      obtain rfl := Option.some.inj heq
      exact hk
    · rw [Recency.keys, List.map_append, keys_without]
      exact h.touch rfl
  | drop key =>
    refine h.other ?_ (by simp [Use.used])
    exact List.filter_sublist.map Prod.fst
  | dropOldest => exact h.other (keys_evictOldest s) (by simp [Use.used])
  | dropAll => exact List.Pairwise.nil

/-- The keys of a cache are in the order of their last uses. -/
theorem ordered (n : Nat) (uses : List (Use κ ν)) : Ordered uses (after n uses).keys := by
  induction uses using List.reverseRecOn with
  | nil => exact List.Pairwise.nil
  | append_singleton uses u ih =>
    rw [after_concat]
    exact ordered_use ih u

theorem nodup_keys (n : Nat) (uses : List (Use κ ν)) : (after n uses).keys.Nodup :=
  (ordered n uses).nodup

/-! ## Size -/

theorem length_put_le (key : κ) (value : ν) (s : Recency κ ν) :
    (s.put key value).held.length ≤ s.held.length + 1 := by
  simp only [put, List.length_append, List.length_singleton]
  exact Nat.add_le_add_right (List.length_filter_le _ _) 1

theorem length_without_lt {key : κ} {held : List (κ × ν)} (h : key ∈ held.map Prod.fst) :
    (without key held).length < held.length := by
  obtain ⟨entry, hentry, rfl⟩ := List.mem_map.mp h
  exact List.length_filter_lt_length_iff_exists.mpr ⟨entry, hentry, by simp⟩

/-- For a key that is held no other has to go. -/
theorem use_enter_of_mem {n : Nat} {s : Recency κ ν} (hle : s.held.length ≤ n) {key : κ}
    (hkey : key ∈ s.keys) (value : ν) : s.use n (.enter key value) = s.put key value := by
  have hlt := length_without_lt hkey
  rw [use, if_neg]
  simp only [put, List.length_append, List.length_singleton]
  omega

theorem length_use_le {n : Nat} {s : Recency κ ν} (h : s.held.length ≤ n) (u : Use κ ν) :
    (s.use n u).held.length ≤ n := by
  cases u with
  | enter key value =>
    have hput := length_put_le key value s
    rw [use]
    split
    · simp only [evictOldest, List.length_drop]
      omega
    · omega
  | read key =>
    rw [use]
    split
    · exact h
    · rename_i value hfind
      have hlt : (without key s.held).length < s.held.length :=
        length_without_lt (List.mem_map_of_mem (mem_of_find hfind))
      simp only [List.length_append, List.length_singleton]
      omega
  | drop key => exact Nat.le_trans (List.length_filter_le _ _) h
  | dropOldest =>
    simp only [use, evictOldest, List.length_drop]
    omega
  | dropAll => exact Nat.zero_le n

/-- No more than `n` keys are held. -/
theorem length_le (n : Nat) (uses : List (Use κ ν)) : (after n uses).held.length ≤ n := by
  induction uses using List.reverseRecOn with
  | nil => exact Nat.zero_le n
  | append_singleton uses u ih =>
    rw [after_concat]
    exact length_use_le ih u

/-! ## Accounts -/

omit [DecidableEq κ] in
/-- All that was entered, as far as the cache knows of it. -/
def accounts (s : Recency κ ν) : Multiset ν := ↑(s.held.map Prod.snd) + ↑s.left + ↑s.overwritten

omit [DecidableEq κ] in
theorem accounts_evictOldest (s : Recency κ ν) : s.evictOldest.accounts = s.accounts := by
  have hsplit : (s.held.map Prod.snd : Multiset ν)
      = ↑((s.held.take 1).map Prod.snd) + ↑((s.held.drop 1).map Prod.snd) := by
    rw [Multiset.coe_add, ← List.map_append, List.take_append_drop]
  simp only [accounts, evictOldest, hsplit, ← Multiset.coe_add]
  abel

theorem values_split (key : κ) (held : List (κ × ν)) : (held.map Prod.snd : Multiset ν)
    = ↑((without key held).map Prod.snd) + ↑((only key held).map Prod.snd) := by
  rw [Multiset.coe_add, ← List.map_append]
  exact Multiset.coe_eq_coe.mpr ((held_perm key held).map Prod.snd)

theorem accounts_put (key : κ) (value : ν) (s : Recency κ ν) :
    (s.put key value).accounts = s.accounts + {value} := by
  simp only [accounts, put, values_split key s.held, List.map_append, ← Multiset.coe_add,
    List.map_cons, List.map_nil, Multiset.coe_singleton]
  abel

theorem only_of_find {key : κ} {value : ν} {held : List (κ × ν)}
    (hnodup : (held.map Prod.fst).Nodup) (h : find key held = some value) :
    only key held = [(key, value)] := by
  induction held with
  | nil => cases h
  | cons entry held ih =>
    obtain ⟨k, v⟩ := entry
    rw [List.map_cons, List.nodup_cons] at hnodup
    by_cases hk : k = key
    · subst hk
      have hrest : only k held = [] := by
        refine List.filter_eq_nil_iff.mpr fun entry hentry heq => hnodup.1 ?_
        have hkey : entry.1 = k := of_decide_eq_true heq
        exact List.mem_map.mpr ⟨entry, hentry, hkey⟩
      rw [find, List.find?_cons_of_pos (by simp)] at h
      cases h
      rw [only] at hrest ⊢
      rw [List.filter_cons_of_pos (by simp), hrest]
    · rw [find, List.find?_cons_of_neg (by simpa using hk)] at h
      rw [only, List.filter_cons_of_neg (by simpa using hk)]
      exact ih hnodup.2 h

theorem only_of_find_eq_none {key : κ} {held : List (κ × ν)} (h : find key held = none) :
    only key held = [] := by
  rw [only, List.filter_eq_nil_iff]
  intro entry hentry heq
  exact find_eq_none h (List.mem_map.mpr ⟨entry, hentry, of_decide_eq_true heq⟩)

theorem without_of_find_eq_none {key : κ} {held : List (κ × ν)} (h : find key held = none) :
    without key held = held := by
  rw [without, List.filter_eq_self]
  intro entry hentry
  refine decide_eq_true fun heq => find_eq_none h ?_
  exact List.mem_map.mpr ⟨entry, hentry, heq⟩

theorem accounts_use {n : Nat} {s : Recency κ ν} (hnodup : s.keys.Nodup) (u : Use κ ν) :
    (s.use n u).accounts = s.accounts + ↑u.entered.toList := by
  cases u with
  | enter key value =>
    rw [use]
    split
    · rw [accounts_evictOldest, accounts_put]
      rfl
    · rw [accounts_put]
      rfl
  | read key =>
    rw [use]
    split
    · simp [accounts, Use.entered]
    · rename_i value hfind
      simp only [accounts, values_split key s.held, only_of_find hnodup hfind, List.map_append,
        ← Multiset.coe_add, Use.entered, Option.toList_none, Multiset.coe_nil, add_zero]
  | drop key =>
    simp only [accounts, use, values_split key s.held, ← Multiset.coe_add, Use.entered,
      Option.toList_none, Multiset.coe_nil, add_zero]
    abel
  | dropOldest =>
    rw [use, accounts_evictOldest]
    simp [Use.entered]
  | dropAll =>
    simp only [accounts, use, ← Multiset.coe_add, List.map_nil, Use.entered, Option.toList_none,
      Multiset.coe_nil, add_zero, zero_add]
    abel

theorem accounts_after (n : Nat) (uses : List (Use κ ν)) :
    (after n uses).accounts = ↑(entered uses) := by
  induction uses using List.reverseRecOn with
  | nil => rfl
  | append_singleton uses u ih =>
    rw [after_concat, accounts_use (nodup_keys n uses), ih, Multiset.coe_add]
    congr 1
    rw [entered, entered, List.filterMap_append]
    cases hentered : u.entered <;> simp [hentered]

/-- What was entered is held, has left or was overwritten, each once. -/
theorem accounted (n : Nat) (uses : List (Use κ ν)) : (entered uses).Perm
    ((after n uses).held.map Prod.snd ++ (after n uses).left ++ (after n uses).overwritten) := by
  refine Multiset.coe_eq_coe.mp ?_
  rw [← accounts_after n, accounts, Multiset.coe_add, Multiset.coe_add]

end Recency

end Webernetes.Base
