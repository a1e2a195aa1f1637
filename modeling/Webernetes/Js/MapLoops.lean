/-
Webernetes.Js.MapLoops — loops that change a `Map` as they go.

A loop over the entries that a map had at first, of which each turn sets or
deletes its own key, comes to the map with each entry changed or left out
(`foldl_entries`). A loop that adds the elements of a list to the values under
their keys leaves under each key what its own elements add up to
(`get_foldl_addTo`).
-/
import Webernetes.Js.OrderedMap
import Mathlib.Data.List.Perm.Basic

namespace Webernetes.Js.JsMap

variable {κ ν σ ι α β : Type} [DecidableEq κ]

/-! ## Changing every entry -/

/-- A value put under the key, or the key taken out. -/
def put (m : JsMap κ ν) (key : κ) : Option ν → JsMap κ ν
  | none => m.delete key
  | some value => m.set key value

/-- The values changed, and the entries without one left out. -/
def filterMap (m : JsMap κ ν) (f : κ × ν → Option ν) : JsMap κ ν where
  entries := m.entries.filterMap fun entry => (f entry).map fun value => (entry.1, value)
  nodup := by
    refine m.nodup.sublist ?_
    induction m.entries with
    | nil => exact .slnil
    | cons entry entries ih =>
      cases hf : f entry with
      | none => simpa [hf] using ih.cons entry.1
      | some value => simpa [hf] using ih.cons_cons entry.1

omit [DecidableEq κ] in
theorem mem_filterMap {m : JsMap κ ν} {f : κ × ν → Option ν} {entry : κ × ν} :
    entry ∈ (m.filterMap f).entries ↔
      ∃ value, (entry.1, value) ∈ m.entries ∧ f (entry.1, value) = some entry.2 := by
  simp only [filterMap, List.mem_filterMap, Option.map_eq_some_iff]
  constructor
  · rintro ⟨⟨key, value⟩, hmem, value', hf, rfl⟩
    exact ⟨value, hmem, hf⟩
  · rintro ⟨value, hmem, hf⟩
    exact ⟨(entry.1, value), hmem, entry.2, hf, rfl⟩

theorem setEntries_append {key : κ} {value value' : ν} {before after : List (κ × ν)}
    (h : key ∉ before.map Prod.fst) :
    setEntries key value (before ++ (key, value') :: after) = before ++ (key, value) :: after := by
  induction before with
  | nil => simp [setEntries]
  | cons entry before ih =>
    obtain ⟨k, v⟩ := entry
    simp only [List.map_cons, List.mem_cons, not_or] at h
    rw [List.cons_append, setEntries, if_neg (Ne.symm h.1), ih h.2, List.cons_append]

theorem filter_ne_append {key : κ} {value : ν} {before after : List (κ × ν)}
    (hbefore : key ∉ before.map Prod.fst) (hafter : key ∉ after.map Prod.fst) :
    (before ++ (key, value) :: after).filter (fun entry => entry.1 ≠ key) = before ++ after := by
  have hkeep : ∀ {entries : List (κ × ν)}, key ∉ entries.map Prod.fst →
      entries.filter (fun entry => decide (entry.1 ≠ key)) = entries := by
    intro entries hkey
    refine List.filter_eq_self.mpr fun entry hentry => ?_
    rw [decide_eq_true_eq]
    intro heq
    exact hkey (heq ▸ List.mem_map_of_mem hentry)
  rw [List.filter_append, List.filter_cons, hkeep hbefore, hkeep hafter]
  simp

/-- Setting what is there changes nothing. -/
theorem set_of_get {m : JsMap κ ν} {key : κ} {value : ν} (h : m.get key = some value) :
    m.set key value = m := by
  obtain ⟨before, after, hentries⟩ := List.append_of_mem (get_eq_some_iff.mp h)
  have hkeys : ((before ++ (key, value) :: after).map Prod.fst).Nodup := hentries ▸ m.nodup
  rw [List.map_append, List.map_cons, List.nodup_middle, List.nodup_cons, List.mem_append, not_or] at hkeys
  apply ext
  show setEntries key value m.entries = m.entries
  rw [hentries, setEntries_append hkeys.1.1]

/-- The loop with some entries already gone through. -/
theorem foldl_entries_from {step : JsMap κ ν × σ → ι → JsMap κ ν × σ} {h : κ × ν → ι}
    {f : κ × ν → Option ν} {g : σ → κ × ν → σ} {rest : List (κ × ν)}
    (hstep : ∀ m s, ∀ entry ∈ rest, m.get entry.1 = some entry.2 →
      step (m, s) (h entry) = (m.put entry.1 (f entry), g s entry))
    (m : JsMap κ ν) (s : σ) (done : List (κ × ν)) (hm : m.entries = done ++ rest) :
    ((rest.map h).foldl step (m, s)).1.entries =
        done ++ rest.filterMap (fun entry => (f entry).map fun value => (entry.1, value)) ∧
      ((rest.map h).foldl step (m, s)).2 = rest.foldl g s := by
  induction rest generalizing m s done with
  | nil =>
    exact ⟨hm, rfl⟩
  | cons entry rest ih =>
    obtain ⟨key, value⟩ := entry
    have hget : m.get key = some value := get_eq_some_iff.mpr (hm ▸ List.mem_append_right _ List.mem_cons_self)
    have hkeys : ((done ++ (key, value) :: rest).map Prod.fst).Nodup := hm ▸ m.nodup
    rw [List.map_append, List.map_cons, List.nodup_middle, List.nodup_cons, List.mem_append, not_or] at hkeys
    have hrest : ∀ m s, ∀ entry ∈ rest, m.get entry.1 = some entry.2 →
        step (m, s) (h entry) = (m.put entry.1 (f entry), g s entry) := fun m s entry hentry =>
      hstep m s entry (List.mem_cons_of_mem _ hentry)
    rw [List.map_cons, List.foldl_cons, hstep m s (key, value) List.mem_cons_self hget, List.foldl_cons]
    cases hf : f (key, value) with
    | none =>
      have hentries : (m.put key none).entries = done ++ rest := by
        show m.entries.filter _ = _
        rw [hm, filter_ne_append hkeys.1.1 hkeys.1.2]
      rw [List.filterMap_cons_none (by simp [hf])]
      exact ih hrest _ _ _ hentries
    | some value' =>
      have hentries : (m.put key (some value')).entries = (done ++ [(key, value')]) ++ rest := by
        show setEntries key value' m.entries = _
        rw [hm, setEntries_append hkeys.1.1, List.append_assoc, List.singleton_append]
      rw [List.filterMap_cons_some (b := (key, value')) (by simp [hf]), ← List.singleton_append,
        ← List.append_assoc]
      exact ih hrest _ _ _ hentries

theorem foldl_entries (m : JsMap κ ν) {step : JsMap κ ν × σ → ι → JsMap κ ν × σ} {h : κ × ν → ι}
    {f : κ × ν → Option ν} {g : σ → κ × ν → σ}
    (hstep : ∀ m' s, ∀ entry ∈ m.entries, m'.get entry.1 = some entry.2 →
      step (m', s) (h entry) = (m'.put entry.1 (f entry), g s entry)) (s : σ) :
    (m.entries.map h).foldl step (m, s) = (m.filterMap f, m.entries.foldl g s) := by
  have hloop := foldl_entries_from hstep m s [] rfl
  exact Prod.ext (ext hloop.1) hloop.2

/-! ## Adding to the values -/

section Adding

variable (key : α → κ) (add : Option ν → α → ν)

/-- An element added to the value under its key. -/
def addTo (m : JsMap κ ν) (x : α) : JsMap κ ν := m.set (key x) (add (m.get (key x)) x)

/-- Under a key is what its own elements add up to. -/
theorem get_foldl_addTo (l : List α) (m : JsMap κ ν) (k : κ) :
    (l.foldl (addTo key add) m).get k =
      (l.filter (key · = k)).foldl (fun o x => some (add o x)) (m.get k) := by
  induction l generalizing m with
  | nil => rfl
  | cons x l ih =>
    rw [List.foldl_cons, ih, addTo, get_set]
    by_cases hk : key x = k
    · simp [hk]
    · simp [hk, Ne.symm hk]

/-- What the values hold grows by what is added. -/
theorem flatMap_setEntries {held : κ × ν → List β} {k : κ} {value : ν} {new : List β} :
    ∀ {entries : List (κ × ν)}, (entries.map Prod.fst).Nodup →
    (∀ old, (k, old) ∈ entries → (held (k, value)).Perm (held (k, old) ++ new)) →
    ((∀ old, (k, old) ∉ entries) → held (k, value) = new) →
    ((setEntries k value entries).flatMap held).Perm (entries.flatMap held ++ new) := by
  intro entries
  induction entries with
  | nil =>
    intro _ _ hnew
    simp [setEntries, hnew]
  | cons entry entries ih =>
    intro hnodup hold hnew
    obtain ⟨k', v'⟩ := entry
    rw [List.map_cons, List.nodup_cons] at hnodup
    rw [setEntries]
    by_cases hk : k' = k
    · subst hk
      rw [if_pos rfl, List.flatMap_cons, List.flatMap_cons]
      refine ((hold v' List.mem_cons_self).append_right _).trans ?_
      rw [List.append_assoc, List.append_assoc]
      exact List.perm_append_comm.append_left _
    · rw [if_neg hk, List.flatMap_cons, List.flatMap_cons, List.append_assoc]
      refine (ih hnodup.2 (fun old h => hold old (List.mem_cons_of_mem _ h)) fun hnone => hnew ?_).append_left _
      intro old hmem
      rcases List.mem_cons.mp hmem with heq | hmem
      · exact hk (congrArg Prod.fst heq).symm
      · exact hnone old hmem

end Adding

end Webernetes.Js.JsMap
